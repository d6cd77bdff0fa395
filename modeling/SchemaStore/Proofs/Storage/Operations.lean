import SchemaStore.Proofs.Storage.Changes

/-!
The operations of the storage engine on shelves.  While what is held stays within the capacity of
tables and the settings are accepted, every operation of an open engine succeeds, and it takes one
shelf to the next.  A closed engine refuses or ignores everything.
-/

namespace SchemaStore

/-- Settings with limits that pass the checks. -/
def Settings.IsAccepted (c : Settings) : Prop :=
  make c.dataDir c.memtableLimit c.indexSample c.forced = .ok c

theorem Settings.IsAccepted.limits {c : Settings} (h : c.IsAccepted) :
    checkLimit "memtable_limit" c.memtableLimit = .ok () ∧
      checkLimit "index_sample" c.indexSample = .ok () := by
  rw [IsAccepted, make] at h
  cases hlimit : checkLimit "memtable_limit" c.memtableLimit with
  | error e =>
    rw [hlimit] at h
    cases h
  | ok _ =>
    cases hsample : checkLimit "index_sample" c.indexSample with
    | error e =>
      rw [hlimit, hsample] at h
      cases h
    | ok _ => exact ⟨rfl, rfl⟩

theorem Settings.IsAccepted.isStep {c : Settings} (h : c.IsAccepted) :
    Table.IsStep c.indexSample :=
  Table.isStep_of_checkLimit h.limits.2

/-- A memtable without keys is not full, since no limit below one is accepted. -/
theorem Settings.IsAccepted.isFull_zero {c : Settings} (h : c.IsAccepted) : c.isFull 0 = false := by
  obtain ⟨q, hq, hlt⟩ := Table.quantity?_of_checkLimit h.limits.1
  rw [isFull, hq]
  cases q with
  | exact r =>
    have hden := r.den_pos
    simp only [Quantity.lt, Quantity.ofInt, Ratio.lt, Ratio.ofInt, decide_eq_false_iff_not] at hlt
    simp only [Quantity.le, Quantity.lt, Quantity.same, Quantity.ofInt, Ratio.lt, Ratio.same,
      Ratio.ofInt, Bool.or_eq_false_iff, decide_eq_false_iff_not, beq_eq_false_iff_ne]
    constructor <;> omega
  | infinite negative =>
    have hpositive : negative = false := hlt
    rw [hpositive]
    rfl
  | undefined => rfl

theorem Settings.isFull_eq_false_iff {c : Settings} {limit : Int}
    (h : c.memtableLimit = .int limit) (count : Nat) :
    c.isFull count = false ↔ (count : Int) < limit := by
  have hquantity : c.memtableLimit.quantity? = some (Quantity.ofInt limit) := by
    rw [h]
    rfl
  rw [isFull, hquantity]
  simp only [Quantity.le, Quantity.lt, Quantity.same, Quantity.ofInt, Ratio.lt_ofInt,
    Ratio.same_ofInt, Bool.or_eq_false_iff, decide_eq_false_iff_not, beq_eq_false_iff_ne]
  omega

theorem Settings.isAccepted_of_le {a b : Int} (ha : 1 ≤ a) (hb : 1 ≤ b) (dataDir : Path)
    (forced : Value) :
    IsAccepted { dataDir := dataDir, memtableLimit := .int a, indexSample := .int b,
                 forced := forced } := by
  have hcheck : ∀ (setting : String) (n : Int), 1 ≤ n → checkLimit setting (.int n) = .ok () := by
    intro setting n hn
    rw [checkLimit, Order.compare_ints, decide_eq_false (by omega)]
    rfl
  rw [IsAccepted, make, hcheck _ a ha, hcheck _ b hb]
  rfl

/-- Settings under which every write goes to a table of its own and every record is indexed. -/
def Settings.eager : Settings where
  dataDir := Disk.workingPath
  memtableLimit := .int 1
  indexSample := .int 1
  forced := .bool true

theorem Settings.eager_isAccepted : eager.IsAccepted :=
  isAccepted_of_le (by decide) (by decide) _ _

def Shelf.site (s : Shelf) (c : Settings) (files : Directory) : Site :=
  { engine := s.engine c, files := files }

namespace Engine

variable {s : Shelf} {c : Settings} {files : Directory}

/-! ## Changes -/

/-- A table is written under a name that no file has. -/
theorem writeTable_entries (hc : c.IsAccepted) {e : Engine} (he : e.settings = c) (clock : Int)
    (suffix : String) {items : Pairs} (hitems : items.keys.Nodup)
    (hsize : items.weight < Sheet.capacity) :
    writeTable clock suffix items.entries { engine := e, files := files }
      = .ok
          ((Sheet.ofItems (TableName.next files.names clock suffix) c.indexSample items
            hitems).table c.dataDir)
          { engine := e
            files := (Sheet.ofItems (TableName.next files.names clock suffix) c.indexSample items
              hitems).addTo files } := by
  have hwritten : (Sheet.textOf items.sorted).length < Sheet.capacity := by
    rw [Pairs.length_textOf, Pairs.weight_perm items.perm_sorted]
    exact hsize
  have hwrite := Sheet.write_entries hc.isStep c.dataDir
    (TableName.next files.names clock suffix) hitems (Sheet.isShort_of_lt hwritten)
    files
  subst he
  rw [writeTable, site_bind]
  simp only [directory, hwrite]
  rfl

theorem flush_of_memtable_nil {site : Site} (h : site.engine.memtable = []) (clock : Int) :
    flush clock site = .ok () site := by
  have hcond : ¬(!site.engine.memtable.isEmpty) = true := by
    rw [h]
    exact Bool.false_ne_true
  rw [flush]
  exact congrFun (if_neg hcond) site

theorem engine_flushed (s : Shelf) (c : Settings) (new : Sheet) :
    Shelf.engine { writes := [], sheets := s.sheets ++ [new] } c
      = { s.engine c with
            tables := (s.engine c).tables ++ [new.table c.dataDir], memtable := [] } := by
  simp only [Shelf.engine, List.map_append]
  rfl

def flushedSheet (s : Shelf) (c : Settings) (files : Directory) (clock : Int) : Sheet :=
  Sheet.ofItems (TableName.next files.names clock "") c.indexSample s.memory s.nodup_keys_memory

/-- A flush writes what is in memory to a table, and the log is emptied only then. -/
theorem flush_of_ne_nil (hc : c.IsAccepted) (hsize : s.weight < Sheet.capacity)
    (hwrites : s.writes ≠ []) (files : Directory) (clock : Int) :
    writeTable clock "" (s.engine c).memtable (s.site c files)
        = .ok ((flushedSheet s c files clock).table c.dataDir)
            (s.site c ((flushedSheet s c files clock).addTo files)) ∧
      flush clock (s.site c files)
        = .ok ()
            { engine :=
                { s.engine c with
                  tables := (s.engine c).tables
                    ++ [(flushedSheet s c files clock).table c.dataDir]
                  memtable := [] }
              files := ((flushedSheet s c files clock).addTo files).write logName [] } := by
  have hmemory : s.memory.weight < Sheet.capacity := by
    rw [Shelf.weight_eq] at hsize
    omega
  have hwrite := @writeTable_entries c files hc (s.engine c) rfl clock "" s.memory
    s.nodup_keys_memory hmemory
  have hne : (s.engine c).memtable.isEmpty = false := by
    rw [List.isEmpty_eq_false_iff]
    exact fun hnil => Shelf.memory_ne_nil hwrites (List.map_eq_nil_iff.mp hnil)
  have hfull : (!(s.engine c).memtable.isEmpty) = true := by rw [hne, Bool.not_false]
  refine ⟨hwrite, ?_⟩
  rw [flush, site_bind]
  exact (congrFun (if_pos hfull) _).trans (bind_of_ok hwrite)

theorem flush_shelf (hc : c.IsAccepted) (h : s.IsOn files) (hsize : s.weight < Sheet.capacity)
    (clock : Int) :
    ∃ after, flush clock (s.site c files)
        = .ok () ((s.flush (TableName.next files.names clock "") c.indexSample).site c after) ∧
      (s.flush (TableName.next files.names clock "") c.indexSample).IsOn after := by
  by_cases hwrites : s.writes = []
  · have hflush : s.flush (TableName.next files.names clock "") c.indexSample = s := by
      rw [Shelf.flush, if_pos hwrites]
    have hempty : (s.engine c).memtable = [] := by
      show s.memory.entries = []
      rw [Shelf.memory, hwrites]
      rfl
    rw [hflush]
    exact ⟨files, flush_of_memtable_nil hempty clock, h⟩
  · obtain ⟨-, hflush⟩ := flush_of_ne_nil hc hsize hwrites files clock
    have hadded := @Shelf.isOn_addTo s files h (flushedSheet s c files clock)
      (TableName.isTable_next _ _ _) (TableName.next_notMem _ _ _)
    rw [Shelf.flush, if_neg hwrites]
    refine ⟨_, hflush.trans ?_, Shelf.isOn_write_log hadded []⟩
    rw [Shelf.site, engine_flushed]
    rfl

/-- A write goes to the log and to memory, and on to a table once there is enough. -/
theorem put_shelf (hc : c.IsAccepted) (h : s.IsOn files) (p : String × String)
    (hsize : s.weight + Pairs.weight [p] < Sheet.capacity) (clock : Int) :
    ∃ after, put clock (.str p.1) (.str p.2) (s.site c files)
        = .ok () ((s.put c (TableName.next files.names clock "") p).site c after) ∧
      (s.put c (TableName.next files.names clock "") p).IsOn after := by
  have happend : (s.engine c).log.append files (.str p.1) (.str p.2)
      = .ok ((s.engine c).log,
          files.write logName (Utf8.encode (Log.textOf (s.writes ++ [p])))) := by
    have hcontent : (s.engine c).log.content files = Utf8.encode (Log.textOf s.writes) := by
      show (files.read? logName).getD [] = _
      rw [h.log]
      rfl
    rw [Log.append, Log.line_texts, hcontent, Log.encode_textOf_concat]
    rfl
  have hon := Shelf.isOn_write_log h (s.writes ++ [p])
  -- The log was there before, so a flush after the write chooses among the same names.
  have hnames := Directory.names_write_of_mem (Directory.mem_names_of_read? h.log)
    (Utf8.encode (Log.textOf (s.writes ++ [p])))
  generalize hafter : files.write logName (Utf8.encode (Log.textOf (s.writes ++ [p]))) = after
    at happend hon hnames
  have hmemory : (s.engine c).memtable.insert (.str p.1) (.str p.2)
      = ((s.append p).engine c).memtable := by
    show s.memory.entries.insert _ _ = (s.append p).memory.entries
    rw [Pairs.insert_entries, Shelf.memory_append]
  have hlength : ((s.append p).engine c).memtable.length = (s.append p).memory.length :=
    List.length_map _
  have hengine : (s.append p).engine c
      = { s.engine c with memtable := (s.engine c).memtable.insert (.str p.1) (.str p.2) } := by
    rw [hmemory]
    rfl
  have hput : put clock (.str p.1) (.str p.2) (s.site c files)
      = (if c.isFull (s.append p).memory.length then flush clock else pure ())
          ((s.append p).site c after) := by
    rw [put, checkOpen_bind _ rfl, site_bind, Shelf.site, happend, ofResult_bind, setLog_bind,
      ← hlength, Shelf.site, hengine]
    rfl
  rw [hput]
  unfold Shelf.put
  by_cases hfull : c.isFull (s.append p).memory.length = true
  · have hweight := s.weight_append_le p
    obtain ⟨flushed, hflush, hflushed⟩ :=
      flush_shelf hc hon (Nat.lt_of_le_of_lt hweight hsize) clock
    rw [hnames] at hflush hflushed
    rw [if_pos hfull, if_pos hfull]
    exact ⟨flushed, hflush, hflushed⟩
  · rw [if_neg hfull, if_neg hfull]
    exact ⟨after, rfl, hon⟩

theorem putNew_shelf_of_none (hc : c.IsAccepted) (h : s.IsOn files) (p : String × String)
    (hsize : s.weight + Pairs.weight [p] < Sheet.capacity) (clock : Int)
    (hnone : s.lookup p.1 = none) :
    ∃ after, putNew clock (.str p.1) (.str p.2) (s.site c files)
        = .ok true ((s.put c (TableName.next files.names clock "") p).site c after) ∧
      (s.put c (TableName.next files.names clock "") p).IsOn after := by
  obtain ⟨after, hput, hon⟩ := put_shelf hc h p hsize clock
  have hget := get_shelf h c p.1
  rw [hnone] at hget
  refine ⟨after, ?_, hon⟩
  rw [putNew]
  refine (bind_of_ok hget).trans ?_
  exact bind_of_ok hput

/-- A key that has a value is not written again, and nothing changes. -/
theorem putNew_shelf_of_some (h : s.IsOn files) (c : Settings) (clock : Int) {key old : String}
    (value : Value) (hsome : s.lookup key = some old) :
    putNew clock (.str key) value (s.site c files) = .ok false (s.site c files) := by
  have hget := get_shelf h c key
  rw [hsome] at hget
  rw [putNew]
  exact bind_of_ok hget

/-! ## Compaction -/

theorem mergeRecords_entries (merged m : Pairs) :
    mergeRecords merged.entries none m.entries = .ok (merged.overlay m).entries := by
  induction m generalizing merged with
  | nil => rfl
  | cons p m ih =>
    obtain ⟨k, v⟩ := p
    have hcontains : merged.entries.contains (.str k) = (merged.lookup k).isSome := by
      rw [Entries.contains, Pairs.get?_entries, Option.isSome_map]
    show mergeRecords merged.entries none ((.str k, .str v) :: Pairs.entries m) = _
    rw [mergeRecords, hcontains, Pairs.overlay, List.foldl_cons, ← Pairs.overlay, Pairs.adopt]
    show mergeRecords (if (merged.lookup k).isSome = true then _ else _) none _ = _
    cases hfound : merged.lookup k with
    | some _ => exact ih merged
    | none =>
      have hinsert : merged.entries.insert (.str k) (.str v) = (merged ++ [(k, v)]).entries := by
        have hnew : k ∉ merged.keys := Pairs.lookup_eq_none_iff.mp hfound
        rw [Entries.insert_of_new]
        · simp [Pairs.entries]
        · intro e he
          obtain ⟨p, hp, rfl⟩ := List.mem_map.mp he
          rw [Value.standsFor_str]
          refine beq_eq_false_iff_ne.mpr ?_
          rintro rfl
          exact hnew (List.mem_map.mpr ⟨p, hp, rfl⟩)
      rw [hinsert]
      exact ih _

theorem mergeTables_sheets {sheets : List Sheet} (directory : Path)
    (h : ∀ sheet ∈ sheets, sheet.IsIn files) (merged : Pairs) :
    mergeTables files merged.entries (sheets.map fun sheet => sheet.table directory)
      = .ok (Pairs.entries ((sheets.map Sheet.records).foldl Pairs.overlay merged)) := by
  induction sheets generalizing merged with
  | nil => rfl
  | cons sheet rest ih =>
    have hrecords := @Sheet.records_table sheet directory files (h sheet List.mem_cons_self).data
    rw [List.map_cons, mergeTables, hrecords]
    simp only [mergeRecords_entries, Except.ok_bind]
    exact ih (fun t ht => h t (List.mem_cons_of_mem sheet ht)) _

/-- The part of a compaction that comes before the old tables are deleted. -/
def writeMerged (clock : Int) : Action Table := do
  let site ← MonadState.get
  let merged ← ofResult (mergeTables site.files [] site.engine.tables.reverse)
  writeTable clock TableName.compactedSuffix merged

def tableFiles (e : Engine) : List String := e.tables.flatMap Table.fileNames

theorem compact_eq_writeMerged {site : Site} (clock : Int) (hopen : site.engine.isClosed = false)
    (hmany : 2 ≤ site.engine.tables.length) :
    compact clock site
      = (writeMerged clock >>= fun table => modify fun s =>
          { engine := { s.engine with tables := [table] }
            files := s.engine.tables.foldl (fun files t => t.remove files) s.files }) site := by
  rw [compact, checkOpen_bind _ hopen]
  refine (congrFun (if_pos hmany) site).trans ?_
  rw [writeMerged, bind_assoc, site_bind, bind_assoc]

theorem compact_of_writeMerged {site after : Site} {clock : Int} {merged : Table}
    (hopen : site.engine.isClosed = false) (hmany : 2 ≤ site.engine.tables.length)
    (hwrite : writeMerged clock site = .ok merged after) :
    compact clock site
      = .ok ()
          { engine := { after.engine with tables := [merged] }
            files := after.files.removeAll after.engine.tableFiles } := by
  rw [compact_eq_writeMerged clock hopen hmany, bind_of_ok hwrite, tableFiles, ← Table.foldl_remove]
  rfl

def mergedSheet (s : Shelf) (c : Settings) (files : Directory) (clock : Int) : Sheet :=
  Sheet.ofItems (TableName.next files.names clock TableName.compactedSuffix) c.indexSample s.merged
    s.nodup_keys_merged

/-- The merged table is written beside the old ones, under a name that no file has. -/
theorem writeMerged_shelf (hc : c.IsAccepted) (h : s.IsOn files)
    (hsize : s.weight < Sheet.capacity) (clock : Int) :
    writeMerged clock (s.site c files)
        = .ok ((mergedSheet s c files clock).table c.dataDir)
            (s.site c ((mergedSheet s c files clock).addTo files)) ∧
      Shelf.IsOn { s with sheets := s.sheets ++ [mergedSheet s c files clock] }
        ((mergedSheet s c files clock).addTo files) := by
  have hsheets : ∀ sheet ∈ s.sheets.reverse, sheet.IsIn files :=
    fun sheet hsheet => h.sheets sheet (List.mem_reverse.mp hsheet)
  have hmerge : mergeTables files [] (s.engine c).tables.reverse = .ok s.merged.entries := by
    show mergeTables files (Pairs.entries []) (s.sheets.map _).reverse = _
    rw [← List.map_reverse, mergeTables_sheets c.dataDir hsheets]
    rfl
  constructor
  · rw [writeMerged, site_bind, Shelf.site, hmerge, ofResult_bind]
    have hmerged := s.weight_merged_le
    exact writeTable_entries hc rfl clock _ s.nodup_keys_merged (by omega)
  · exact Shelf.isOn_addTo h (TableName.isTable_next _ _ _) (TableName.next_notMem _ _ _)

theorem tableFiles_engine (s : Shelf) (c : Settings) :
    (s.engine c).tableFiles = s.sheets.flatMap fun t => [t.name, Table.indexName t.name] := by
  rw [tableFiles, Shelf.engine, List.flatMap_map]
  rfl

theorem compact_shelf (hc : c.IsAccepted) (h : s.IsOn files) (hsize : s.weight < Sheet.capacity)
    (clock : Int) :
    ∃ after, compact clock (s.site c files)
        = .ok () ((s.compact (TableName.next files.names clock TableName.compactedSuffix)
            c.indexSample).site c after) ∧
      (s.compact (TableName.next files.names clock TableName.compactedSuffix)
        c.indexSample).IsOn after := by
  have hlength : (s.engine c).tables.length = s.sheets.length := List.length_map _
  unfold Shelf.compact
  by_cases hfew : s.sheets.length < 2
  · have hcond : ¬2 ≤ (s.engine c).tables.length := by omega
    rw [if_pos hfew]
    refine ⟨files, ?_, h⟩
    rw [compact, checkOpen_bind _ rfl]
    exact congrFun (if_neg hcond) _
  · have hmany : 2 ≤ (s.engine c).tables.length := by omega
    obtain ⟨hwrite, hon⟩ := writeMerged_shelf hc h hsize clock
    rw [if_neg hfew]
    refine ⟨_, compact_of_writeMerged rfl hmany hwrite, Shelf.isOn_removeAll hon ?_ ?_⟩
    · show ∀ t ∈ s.sheets, t.name ∈ (s.engine c).tableFiles
      rw [tableFiles_engine]
      exact fun t ht => List.mem_flatMap.mpr ⟨t, ht, List.mem_cons_self⟩
    · show ∀ name ∈ (s.engine c).tableFiles, _
      rw [tableFiles_engine]
      intro name hname
      obtain ⟨t, ht, hname⟩ := List.mem_flatMap.mp hname
      exact ⟨t, ht, by simpa using hname⟩

/-! ## Closing -/

def closedEngine (s : Shelf) (c : Settings) : Engine :=
  { s.engine c with log := (s.engine c).log.close, isClosed := true }

/-- To close an engine is to flush it. -/
theorem close_shelf (hc : c.IsAccepted) (h : s.IsOn files) (hsize : s.weight < Sheet.capacity)
    (clock : Int) :
    ∃ after, close clock (s.site c files)
        = .ok () { engine := closedEngine
                     (s.flush (TableName.next files.names clock "") c.indexSample) c
                   files := after } ∧
      (s.flush (TableName.next files.names clock "") c.indexSample).IsOn after := by
  obtain ⟨after, hflush, hon⟩ := flush_shelf hc h hsize clock
  refine ⟨after, ?_, hon⟩
  rw [close]
  exact bind_of_ok hflush

/-! ## Closed engines -/

theorem memtable_closedEngine (hempty : s.writes = []) (c : Settings) :
    (closedEngine s c).memtable = [] := by
  show s.memory.entries = []
  rw [Shelf.memory, hempty]
  rfl

section

variable {site : Site} (hclosed : site.engine.isClosed = true)
include hclosed

theorem checkOpen_bind_closed {α : Type} (next : Unit → Action α) :
    (checkOpen >>= next) site = .error (.store (.closed site.engine.directory)) site := by
  refine bind_of_error ?_
  unfold checkOpen
  rw [site_bind, hclosed]
  rfl

theorem put_closed (clock : Int) (key value : Value) :
    put clock key value site = .error (.store (.closed site.engine.directory)) site :=
  checkOpen_bind_closed hclosed _

theorem get_closed (key : Value) :
    get key site = .error (.store (.closed site.engine.directory)) site :=
  checkOpen_bind_closed hclosed _

theorem putNew_closed (clock : Int) (key value : Value) :
    putNew clock key value site = .error (.store (.closed site.engine.directory)) site := by
  rw [putNew]
  exact bind_of_error (get_closed hclosed key)

theorem scan_closed (start : String) :
    scan start site = .error (.store (.closed site.engine.directory)) site :=
  checkOpen_bind_closed hclosed _

theorem compact_closed (clock : Int) :
    compact clock site = .error (.store (.closed site.engine.directory)) site :=
  checkOpen_bind_closed hclosed _

theorem close_closed (clock : Int) : close clock site = .ok () site := by
  have hcond : ¬(!site.engine.isClosed) = true := by
    rw [hclosed]
    exact Bool.false_ne_true
  rw [close]
  exact congrFun (if_neg hcond) site

end

/-! ## Properties of the shelf

An engine that was closed holds a shelf as an open one does.  What all changes of shelves keep is
kept by every operation, whether the engine is open or not. -/

end Engine

/-- The engine is one that holds a shelf with a property, and its files are those that it left.  It
is open, or it was closed after a flush. -/
inductive Site.Bears (P : Shelf → Prop) : Site → Prop where
  | opened {s : Shelf} {c : Settings} {files : Directory} (hc : c.IsAccepted) (hon : s.IsOn files)
      (hs : P s) : Bears P (s.site c files)
  | closed {s : Shelf} {c : Settings} {files : Directory} (hempty : s.writes = [])
      (hon : s.IsOn files) (hs : P s) :
      Bears P { engine := Engine.closedEngine s c, files := files }

theorem Site.Bears.imp {P Q : Shelf → Prop} {site : Site} (h : site.Bears P)
    (himp : ∀ s, P s → Q s) : site.Bears Q := by
  cases h with
  | opened hc hon hs => exact .opened hc hon (himp _ hs)
  | closed hempty hon hs => exact .closed hempty hon (himp _ hs)

theorem Site.Bears.exists_shelf {P : Shelf → Prop} {site : Site} (h : site.Bears P) :
    ∃ s : Shelf, s.IsOn site.files ∧ P s := by
  cases h with
  | opened _ hon hs => exact ⟨_, hon, hs⟩
  | closed _ hon hs => exact ⟨_, hon, hs⟩

namespace Engine

section

variable {P : Shelf → Prop} (hsize : ∀ s, P s → s.weight < Sheet.capacity)
include hsize

theorem bears_flush (hP : ∀ s name sample, P s → P (s.flush name sample)) (clock : Int)
    {site : Site} (h : site.Bears P) :
    (flush clock site).left.Bears P ∧
      (flush clock site).left.engine.directory = site.engine.directory := by
  cases h with
  | opened hc hon hs =>
    obtain ⟨after, hflush, hafter⟩ := flush_shelf hc hon (hsize _ hs) clock
    rw [hflush]
    exact ⟨.opened hc hafter (hP _ _ _ hs), rfl⟩
  | closed hempty hon hs =>
    rw [flush_of_memtable_nil (memtable_closedEngine hempty _)]
    exact ⟨.closed hempty hon hs, rfl⟩

theorem bears_compact (hP : ∀ s name sample, P s → P (s.compact name sample)) (clock : Int)
    {site : Site} (h : site.Bears P) :
    (compact clock site).left.Bears P ∧
      (compact clock site).left.engine.directory = site.engine.directory := by
  cases h with
  | opened hc hon hs =>
    obtain ⟨after, hcompact, hafter⟩ := compact_shelf hc hon (hsize _ hs) clock
    rw [hcompact]
    exact ⟨.opened hc hafter (hP _ _ _ hs), rfl⟩
  | closed hempty hon hs =>
    rw [compact_closed rfl]
    exact ⟨.closed hempty hon hs, rfl⟩

theorem bears_close (hP : ∀ s name sample, P s → P (s.flush name sample)) (clock : Int)
    {site : Site} (h : site.Bears P) :
    (close clock site).left.Bears P ∧
      (close clock site).left.engine.directory = site.engine.directory := by
  cases h with
  | opened hc hon hs =>
    obtain ⟨after, hclose, hafter⟩ := close_shelf hc hon (hsize _ hs) clock
    rw [hclose]
    exact ⟨.closed (Shelf.writes_flush _ _ _) hafter (hP _ _ _ hs), rfl⟩
  | closed hempty hon hs =>
    rw [close_closed rfl]
    exact ⟨.closed hempty hon hs, rfl⟩

/-- Opening the files again keeps what does not depend on the order of the tables. -/
theorem openAt_bears (hP : ∀ s, P s → P s.reopened) {s : Shelf} {files : Directory}
    (hon : s.IsOn (files.touch logName)) (hs : P s) {c : Settings} (hc : c.IsAccepted) :
    ∃ e, openAt c files = (.ok e, files.touch logName) ∧ e.directory = c.dataDir ∧
      e.isClosed = false ∧ Site.Bears P { engine := e, files := files.touch logName } := by
  have hopen := openAt_touch hon c fun sheet hsheet =>
    Nat.lt_of_le_of_lt (s.length_text_le hsheet) (hsize s hs)
  exact ⟨_, hopen, rfl, rfl, .opened hc (Shelf.isOn_reopened hon) (hP s hs)⟩

end

/-! ## Reading -/

section

variable {α β : Type}

/-- The action leaves the engine and its files as they are, whatever it answers. -/
def IsReading (action : Action α) : Prop := ∀ site : Site, (action site).left = site

theorem IsReading.bind {first : Action α} {next : α → Action β} (hfirst : IsReading first)
    (hnext : ∀ a, IsReading (next a)) : IsReading (first >>= next) := by
  intro site
  have hleft := hfirst site
  cases houtcome : first site with
  | ok a after =>
    rw [houtcome] at hleft
    obtain rfl : after = site := hleft
    rw [bind_of_ok houtcome]
    exact hnext a after
  | error failure after =>
    rw [houtcome] at hleft
    rw [bind_of_error houtcome]
    exact hleft

theorem isReading_ofResult (result : Except Failure α) : IsReading (ofResult result) := by
  intro site
  cases result <;> rfl

theorem isReading_get (key : Value) : IsReading (get key) := by
  intro site
  cases hclosed : site.engine.isClosed with
  | true =>
    rw [get_closed hclosed]
    rfl
  | false =>
    rw [get, checkOpen_bind _ hclosed]
    exact isReading_ofResult _ site

theorem isReading_scan (start : String) : IsReading (scan start) := by
  intro site
  cases hclosed : site.engine.isClosed with
  | true =>
    rw [scan_closed hclosed]
    rfl
  | false =>
    rw [scan, checkOpen_bind _ hclosed]
    exact isReading_ofResult _ site

end

end Engine
end SchemaStore
