import SchemaStore.Proofs.Storage.Names
import SchemaStore.Proofs.Storage.Sheets

/-!
The storage engine as data.  A shelf is an engine that holds texts: the writes that are in its log,
and its tables.  Whatever the engine is asked it answers from layers of pairs, of which the first
is what the log left in memory and the others are the tables from the newest to the oldest.
-/

namespace SchemaStore

/-- What an engine holds.  `sheets` lists the newest table last. -/
structure Shelf where
  writes : Pairs
  sheets : List Sheet

namespace Shelf

def empty : Shelf := { writes := [], sheets := [] }

def memory (s : Shelf) : Pairs := Pairs.ofWrites s.writes

def tableLayers (s : Shelf) : List Pairs := s.sheets.reverse.map Sheet.records

/-- Everything that is held, the newest first. -/
def layers (s : Shelf) : List Pairs := s.memory :: s.tableLayers

def lookup (s : Shelf) (key : String) : Option String := (Pairs.layered s.layers).lookup key

/-- The keys that start with a text, with their values. -/
def scan (s : Shelf) (start : String) : Pairs :=
  Pairs.layered (s.layers.map fun m => m.startingWith start)

def merged (s : Shelf) : Pairs := Pairs.layered s.tableLayers

def engine (s : Shelf) (c : Settings) : Engine where
  settings := c
  log := { directory := c.dataDir, name := Engine.logName, isClosed := false, orphan := none }
  memtable := s.memory.entries
  tables := s.sheets.map fun sheet => sheet.table c.dataDir
  isClosed := false

/-- The files that an engine leaves: its log, the files of its tables, and no other table. -/
structure IsOn (s : Shelf) (files : Directory) : Prop where
  nodup : files.names.Nodup
  log : files.read? Engine.logName = some (Utf8.encode (Log.textOf s.writes))
  sheets : ∀ sheet ∈ s.sheets, sheet.IsIn files
  listed : ∀ name ∈ files.names, TableName.isTable name = true → name ∈ s.sheets.map Sheet.name
  tables : ∀ sheet ∈ s.sheets, TableName.isTable sheet.name = true
  distinct : (s.sheets.map Sheet.name).Nodup

theorem nodup_keys_memory (s : Shelf) : s.memory.keys.Nodup := Pairs.nodup_keys_ofWrites s.writes

theorem nodup_keys_merged (s : Shelf) : s.merged.keys.Nodup := Pairs.nodup_keys_layered _

theorem lookup_eq_findSome? (s : Shelf) (key : String) :
    s.lookup key = s.layers.findSome? fun m => m.lookup key :=
  Pairs.lookup_layered s.layers key

/-- A scan shows the keys that start with the text and have a value, each once. -/
theorem lookup_scan (s : Shelf) (start key : String) :
    (s.scan start).lookup key
      = if start.toList.isPrefixOf key.toList then s.lookup key else none := by
  rw [scan, lookup, Pairs.lookup_layered, Pairs.lookup_layered, List.findSome?_map]
  have hlayer : ((fun m : Pairs => m.lookup key) ∘ fun m => m.startingWith start)
      = fun m : Pairs => if start.toList.isPrefixOf key.toList then m.lookup key else none := by
    funext m
    exact m.lookup_startingWith start key
  rw [hlayer]
  split
  · rfl
  · rw [List.findSome?_eq_none_iff]
    exact fun _ _ => rfl

theorem nodup_keys_scan (s : Shelf) (start : String) : (s.scan start).keys.Nodup :=
  Pairs.nodup_keys_layered _

end Shelf

/-! ## Answers -/

namespace Engine

variable {s : Shelf} {files : Directory}

/-- Tables are asked until one of them has the key, and after them the rest. -/
theorem findIn_append {sheets : List Sheet} (directory : Path)
    (h : ∀ sheet ∈ sheets, sheet.IsIn files) (key : String) (rest : List Table) :
    findIn files (.str key) ((sheets.map fun sheet => sheet.table directory) ++ rest)
      = match (sheets.map Sheet.records).findSome? fun m => m.lookup key with
        | some value => .ok (.str value)
        | none => findIn files (.str key) rest := by
  induction sheets with
  | nil => rfl
  | cons sheet others ih =>
    have hget := @Sheet.get_table sheet directory files (h sheet List.mem_cons_self).data key
    rw [List.map_cons, List.cons_append, findIn, hget, List.map_cons, List.findSome?_cons]
    cases sheet.records.lookup key with
    | some value => rfl
    | none => exact ih fun t ht => h t (List.mem_cons_of_mem sheet ht)

theorem findIn_sheets {sheets : List Sheet} (directory : Path)
    (h : ∀ sheet ∈ sheets, sheet.IsIn files) (key : String) :
    findIn files (.str key) (sheets.map fun sheet => sheet.table directory)
      = .ok (Value.orNull ((sheets.map Sheet.records).findSome? fun m => m.lookup key)) := by
  rw [← List.append_nil (sheets.map fun sheet => sheet.table directory), findIn_append directory h]
  split <;> next heq => rw [heq]; rfl

theorem lookup_shelf (h : s.IsOn files) (c : Settings) (key : String) :
    (s.engine c).lookup files (.str key) = .ok (Value.orNull (s.lookup key)) := by
  have hsheets : ∀ sheet ∈ s.sheets.reverse, sheet.IsIn files :=
    fun sheet hsheet => h.sheets sheet (List.mem_reverse.mp hsheet)
  have hmemtable : (s.engine c).memtable.get? (.str key) = (s.memory.lookup key).map Value.str :=
    Pairs.get?_entries s.memory key
  rw [lookup, Shelf.lookup_eq_findSome?, Shelf.layers, List.findSome?_cons, hmemtable]
  cases s.memory.lookup key with
  | some value => rfl
  | none =>
    show findIn files (.str key) (s.sheets.map _).reverse = _
    rw [← List.map_reverse, findIn_sheets c.dataDir hsheets]
    rfl

theorem get_shelf (h : s.IsOn files) (c : Settings) (key : String) :
    get (.str key) { engine := s.engine c, files := files }
      = .ok (Value.orNull (s.lookup key)) { engine := s.engine c, files := files } := by
  show ofResult ((s.engine c).lookup files (.str key)) _ = _
  rw [lookup_shelf h]
  rfl

def listing (m : Pairs) : List (String × Value) := m.map fun p => (p.1, .str p.2)

theorem any_listing (m : Pairs) (key : String) :
    ((listing m).any fun f => f.1 == key) = (m.lookup key).isSome := by
  induction m with
  | nil => rfl
  | cons p m ih =>
    rw [listing, List.map_cons, List.any_cons, ← listing, ih, Pairs.lookup_cons]
    by_cases h : p.1 = key <;> simp [h]

theorem scanRecords_entries (start : String) (found m : Pairs) :
    scanRecords start (listing found) none m.entries
      = .ok (listing (found.overlay (m.startingWith start))) := by
  induction m generalizing found with
  | nil => rfl
  | cons p m ih =>
    obtain ⟨k, v⟩ := p
    rw [Pairs.entries, List.map_cons, ← Pairs.entries, scanRecords, any_listing,
      Pairs.startingWith, List.filter_cons, ← Pairs.startingWith]
    by_cases hk : start.toList.isPrefixOf k.toList = true
    · rw [hk, if_pos rfl, Pairs.overlay, List.foldl_cons, ← Pairs.overlay, Pairs.adopt]
      cases found.lookup k with
      | some _ => exact ih found
      | none =>
        rw [Option.isSome_none, ← ih]
        simp [listing]
    · rw [Bool.not_eq_true] at hk
      rw [hk]
      exact ih found

theorem scanTables_sheets {sheets : List Sheet} (directory : Path)
    (h : ∀ sheet ∈ sheets, sheet.IsIn files) (start : String) (found : Pairs) :
    scanTables files start (listing found) (sheets.map fun sheet => sheet.table directory)
      = .ok (listing (((sheets.map Sheet.records).map fun m => m.startingWith start).foldl
          Pairs.overlay found)) := by
  induction sheets generalizing found with
  | nil => rfl
  | cons sheet rest ih =>
    have hrecords := @Sheet.records_table sheet directory files (h sheet List.mem_cons_self).data
    rw [List.map_cons, scanTables, hrecords]
    simp only [scanRecords_entries, Except.ok_bind]
    exact ih (fun t ht => h t (List.mem_cons_of_mem sheet ht)) _

theorem scan_shelf (h : s.IsOn files) (c : Settings) (start : String) :
    scan start { engine := s.engine c, files := files }
      = .ok (listing (s.scan start)) { engine := s.engine c, files := files } := by
  have hsheets : ∀ sheet ∈ s.sheets.reverse, sheet.IsIn files :=
    fun sheet hsheet => h.sheets sheet (List.mem_reverse.mp hsheet)
  show ofResult (do
    let found ← scanRecords start (listing []) none s.memory.entries
    scanTables files start found (s.sheets.map _).reverse) _ = _
  rw [scanRecords_entries, ← List.map_reverse, Except.ok_bind, scanTables_sheets c.dataDir hsheets]
  rfl

end Engine

/-! ## Opening -/

namespace Shelf

/-- The tables in the order of their names. -/
def sortSheets (sheets : List Sheet) : List Sheet :=
  sheets.mergeSort fun a b => !decide (b.name < a.name)

/-- What an engine that is opened on the files holds. -/
def reopened (s : Shelf) : Shelf := { s with sheets := sortSheets s.sheets }

theorem perm_sortSheets (sheets : List Sheet) : (sortSheets sheets).Perm sheets :=
  List.mergeSort_perm sheets _

theorem map_name_sortSheets (sheets : List Sheet) :
    (sortSheets sheets).map Sheet.name = Order.sortTexts (sheets.map Sheet.name) :=
  List.map_mergeSort fun _ _ _ _ => rfl

theorem isOn_reopened {s : Shelf} {files : Directory} (h : s.IsOn files) :
    s.reopened.IsOn files := by
  have hperm := perm_sortSheets s.sheets
  refine ⟨h.nodup, h.log, fun t ht => h.sheets t (hperm.mem_iff.mp ht), fun name hname htable => ?_,
    fun t ht => h.tables t (hperm.mem_iff.mp ht), (hperm.map _).nodup_iff.mpr h.distinct⟩
  exact (hperm.map _).mem_iff.mpr (h.listed name hname htable)

theorem perm_names {s : Shelf} {files : Directory} (h : s.IsOn files) :
    (files.names.filter TableName.isTable).Perm (s.sheets.map Sheet.name) := by
  rw [List.perm_ext_iff_of_nodup (h.nodup.filter _) h.distinct]
  intro name
  rw [List.mem_filter]
  constructor
  · exact fun hname => h.listed name hname.1 hname.2
  · intro hname
    obtain ⟨sheet, hsheet, rfl⟩ := List.mem_map.mp hname
    exact ⟨Directory.mem_names_of_read? (h.sheets sheet hsheet).data, h.tables sheet hsheet⟩

theorem isOn_empty : empty.IsOn (Directory.touch [] Engine.logName) := by
  refine ⟨by decide, rfl, fun _ h => absurd h List.not_mem_nil, fun name hname htable => ?_,
    fun _ h => absurd h List.not_mem_nil, List.nodup_nil⟩
  have hlog : name = Engine.logName := by
    simpa [Directory.touch, Directory.write, Directory.names] using hname
  rw [hlog, TableName.isTable_logName] at htable
  exact absurd htable Bool.false_ne_true

end Shelf

namespace Engine

theorem mapM_load {sheets : List Sheet} {files : Directory} (directory : Path)
    (h : ∀ sheet ∈ sheets, sheet.IsIn files)
    (hsize : ∀ sheet ∈ sheets, sheet.text.length < Sheet.capacity) :
    ((sheets.map Sheet.name).mapM fun name => Table.load directory name files)
      = .ok (sheets.map fun sheet => sheet.table directory) := by
  induction sheets with
  | nil => rfl
  | cons sheet rest ih =>
    rw [List.map_cons, List.mapM_cons, Sheet.load_table directory
      (Sheet.isShort_of_lt (hsize sheet List.mem_cons_self)) (h sheet List.mem_cons_self), Except.ok_bind,
      ih (fun t ht => h t (List.mem_cons_of_mem sheet ht))
        fun t ht => hsize t (List.mem_cons_of_mem sheet ht)]
    rfl

/-- What is opened has the memtable that the log holds, and the tables that can be loaded. -/
theorem openAt_of_tables {s : Shelf} {files : Directory} {c : Settings} {tables : List Table}
    (hlog : files.read? logName = some (Utf8.encode (Log.textOf s.writes)))
    (htables : openTables c.dataDir files = .ok tables) :
    openAt c files = (.ok { s.engine c with tables := tables }, files) := by
  have hreplay : (s.engine c).log.replay files = .ok (s.engine c).memtable := by
    refine Log.replay_textOf rfl ?_
    show (files.read? logName).getD [] = _
    rw [hlog]
    rfl
  rw [openAt, Log.openAt, Directory.touch_of_read? hlog]
  show ((do
    let memtable ← (s.engine c).log.replay files
    let tables ← openTables c.dataDir files
    Except.ok ({ settings := c, log := (s.engine c).log, memtable := memtable, tables := tables,
                 isClosed := false } : Engine)), files) = _
  rw [hreplay, htables]
  rfl

/-- Opening the files of a shelf gives an engine that holds it, its tables sorted by name. -/
theorem openAt_shelf {s : Shelf} {files : Directory} (h : s.IsOn files) (c : Settings)
    (hsize : ∀ sheet ∈ s.sheets, sheet.text.length < Sheet.capacity) :
    openAt c files = (.ok (s.reopened.engine c), files) := by
  have hperm := Shelf.perm_sortSheets s.sheets
  have hnames : Order.sortTexts (files.names.filter TableName.isTable)
      = (Shelf.sortSheets s.sheets).map Sheet.name := by
    rw [Shelf.map_name_sortSheets, Order.sortTexts_eq_of_perm (Shelf.perm_names h)]
  have htables : openTables c.dataDir files = .ok (s.reopened.engine c).tables := by
    rw [openTables, ← Order.sortTexts, hnames]
    exact mapM_load c.dataDir (fun t ht => h.sheets t (hperm.mem_iff.mp ht))
      fun t ht => hsize t (hperm.mem_iff.mp ht)
  exact openAt_of_tables h.log htables

/-- The log is created where it is missing. -/
theorem openAt_touch {s : Shelf} {files : Directory} (h : s.IsOn (files.touch logName))
    (c : Settings) (hsize : ∀ sheet ∈ s.sheets, sheet.text.length < Sheet.capacity) :
    openAt c files = (.ok (s.reopened.engine c), files.touch logName) := by
  have hopen := openAt_shelf h c hsize
  rw [openAt, Log.openAt, Directory.touch_of_read? h.log] at hopen
  exact hopen

theorem openAt_nil (c : Settings) :
    openAt c [] = (.ok (Shelf.empty.engine c), Directory.touch [] logName) := by
  have hreopened : Shelf.empty.reopened = Shelf.empty := by
    simp [Shelf.reopened, Shelf.sortSheets, Shelf.empty]
  rw [openAt_touch Shelf.isOn_empty c fun _ h => absurd h List.not_mem_nil, hreopened]

end Engine
end SchemaStore
