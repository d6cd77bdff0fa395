import SchemaStore.Proofs.Storage.Cuts
import SchemaStore.Proofs.Storage.LostCompactions

/-!
Flushes that are lost while they write.  A flush empties the log only once its table is complete, so
when it is lost before, the log still has every key of the table that is there in part.  Yet the
table is opened with the others, and it is asked for every key that neither the log nor a table of
a later name has.  Where its last line is a record in part, the search for a key that is greater
than all of its whole records runs into that line and fails, although an older table may have the
key.  Every other key is answered as before.
-/

namespace SchemaStore

/-! ## A table without its index -/

namespace Directory

/-- A new file of which only a beginning was written, and which has no index yet. -/
def withTorn (files : Directory) (name : String) (content : Utf8.Bytes) (count : Nat) :
    Directory :=
  (files.write name (content.take count)).remove (Table.indexName name)

/-- A look-up of the key runs into a line of the file that is no record: the file has such a line,
it has no record with a greater key, and the look-up is not over before it comes to the file. -/
def Blocks (files : Directory) (name key : String) : Prop :=
  (∃ l, files.HasLine name l ∧ ∀ p, l ≠ Table.recordText p) ∧
    (∀ p, files.HasLine name (Table.recordText p) → p.1 ≤ key) ∧
    ¬files.LogHas key ∧ ∀ later value, files.TableHas later key value → later ≤ name

variable {files : Directory} {name : String} {content : Utf8.Bytes} {count : Nat}

theorem read?_withTorn_self :
    (files.withTorn name content count).read? name = some (content.take count) := by
  rw [withTorn, read?_remove, if_neg (Sheet.indexName_ne name).symm, read?_write_self]

theorem read?_withTorn_index :
    (files.withTorn name content count).read? (Table.indexName name) = none := by
  rw [withTorn, read?_remove, if_pos rfl]

theorem read?_withTorn_of_ne {other : String} (hdata : other ≠ name)
    (hindex : other ≠ Table.indexName name) :
    (files.withTorn name content count).read? other = files.read? other := by
  rw [withTorn, read?_remove, if_neg hindex, read?_write_of_ne files _ hdata]

theorem mem_names_withTorn {other : String}
    (hother : TableName.isTable other = true) :
    other ∈ (files.withTorn name content count).names ↔ other = name ∨ other ∈ files.names := by
  by_cases heq : other = name
  · rw [heq, mem_names_iff, read?_withTorn_self]
    simp
  · rw [mem_names_iff, read?_withTorn_of_ne heq (TableName.ne_indexName hother _),
      ← mem_names_iff]
    simp [heq]

theorem nodup_names_withTorn (h : files.names.Nodup) :
    (files.withTorn name content count).names.Nodup :=
  nodup_names_remove (nodup_names_write h _ _) _

theorem read?_logName_withTorn (htable : TableName.isTable name = true) :
    (files.withTorn name content count).read? Engine.logName = files.read? Engine.logName :=
  read?_withTorn_of_ne (TableName.ne_logName htable).symm
    (TableName.indexName_ne_logName htable).symm

theorem logHas_withTorn (htable : TableName.isTable name = true) (key : String) :
    (files.withTorn name content count).LogHas key ↔ files.LogHas key := by
  unfold LogHas HasLine
  rw [read?_logName_withTorn htable]

theorem tableHas_withTorn {other : String} (hne : other ≠ name) (key value : String) :
    (files.withTorn name content count).TableHas other key value
      ↔ files.TableHas other key value := by
  unfold TableHas HasLine
  apply and_congr_right
  intro hother
  rw [read?_withTorn_of_ne hne (TableName.ne_indexName hother _)]

end Directory

namespace Sheet

/-- The tables that were there are not affected. -/
theorem IsIn.withTorn {t : Sheet} {files : Directory} (h : t.IsIn files)
    (ht : TableName.isTable t.name = true) {name : String}
    (htable : TableName.isTable name = true) (hne : t.name ≠ name) (content : Utf8.Bytes)
    (count : Nat) : t.IsIn (files.withTorn name content count) := by
  apply h.congr
  · exact Directory.read?_withTorn_of_ne hne (TableName.ne_indexName ht _)
  · apply Directory.read?_withTorn_of_ne (TableName.ne_indexName htable _).symm
    exact fun heq => hne (TableName.indexName_injective heq)

end Sheet

namespace Table

variable {files : Directory} {name : String}

/-- A table as it is opened when it has no index. -/
def unindexed (directory : Path) (name : String) : Table where
  directory := directory
  name := name
  index := .dict []
  indexKeys := []

theorem load_unindexed (directory : Path) (h : files.read? (indexName name) = none) :
    load directory name files = .ok (unindexed directory name) := by
  rw [load, h]
  have hsorted := @Order.sortBy_texts [] List.Pairwise.nil
  simp only [Except.ok_bind, Value.elements, List.map_nil, Failure.lift_ok] at hsorted ⊢
  rw [hsorted]
  rfl

theorem get_unindexed (directory : Path) {content : Utf8.Bytes} {texts : List (List Char)}
    (hread : files.read? name = some content)
    (hlines : Text.storedLines [] content = (texts, none)) (key : String) :
    (unindexed directory name).get files (.str key)
      = find (.str key) ((unindexed directory name).readRecords texts).2
          ((unindexed directory name).readRecords texts).1 := by
  have hoffset : (unindexed directory name).offsetFor (.str key) = .ok (.int 0) := rfl
  have hread' : files.read? (unindexed directory name).name = some content := hread
  have hopen : openAt content (.int 0) = .ok { characters := [], bytes := content } := rfl
  rw [get, hoffset, Except.ok_bind, recordsFrom, hread']
  simp only [hopen, hlines]
  cases hrecords : (unindexed directory name).readRecords texts with
  | mk records fault => cases fault <;> rfl

/-- The search for a key in lines is stuck: one of them is no record, and no record before it ends
the search. -/
def IsStuck (texts : List (List Char)) (key : String) : Prop :=
  (∃ l ∈ texts, ∀ p, l ≠ recordText p) ∧ ∀ p, recordText p ∈ texts → p.1 ≤ key

/-- A table that is cut short has no key that it was not to have, and the search for such a key
fails where it is stuck. -/
theorem get_cut (directory : Path) {content : Utf8.Bytes} {m : Pairs} {texts : List (List Char)}
    (hread : files.read? name = some content)
    (hlines : Text.storedLines [] content = (texts, none)) (hcut : Sheet.Cut m texts) {key : String}
    (hnone : m.lookup key = none) :
    (IsStuck texts key → (unindexed directory name).get files (.str key)
        = .error (.store (.corruptTable (directory.child name)))) ∧
      (¬IsStuck texts key → (unindexed directory name).get files (.str key) = .ok .null) := by
  rw [get_unindexed directory hread hlines]
  have hkept : ∀ {kept : Pairs}, kept <+: m → List.lookup key kept = none := by
    intro kept hbegins
    rw [Pairs.lookup_eq_none_iff] at hnone ⊢
    exact fun hin => hnone ((hbegins.map _).subset hin)
  cases hcut with
  | clean kept hbegins htexts =>
    have hrecords := (unindexed directory name).readRecords_map_recordText kept
    rw [htexts, hrecords, find_entries_of_none (hkept hbegins)]
    constructor
    · rintro ⟨⟨l, hl, hne⟩, -⟩
      obtain ⟨p, -, rfl⟩ := List.mem_map.mp hl
      exact absurd rfl (hne p)
    · intro _
      split <;> rfl
  | torn kept p tail missing hbegins htail hmissing hrecord htexts =>
    have hrecords := (unindexed directory name).readRecords_append kept [tail]
    rw [readRecords_cut _ htail hmissing hrecord, List.append_nil] at hrecords
    have hpart := ne_recordText_of_cut hmissing hrecord
    have hbelow : (∀ k ∈ Pairs.keys kept, k ≤ key) ↔ IsStuck texts key := by
      rw [htexts]
      constructor
      · intro hle
        refine ⟨⟨tail, by simp, hpart⟩, fun q hq => ?_⟩
        rcases List.mem_append.mp hq with hin | hlast
        · obtain ⟨r, hr, htext⟩ := List.mem_map.mp hin
          rw [← recordText_injective htext]
          exact hle r.1 (List.mem_map_of_mem hr)
        · exact absurd (List.mem_singleton.mp hlast).symm (hpart q)
      · rintro ⟨-, hle⟩ k hk
        obtain ⟨q, hq, rfl⟩ := List.mem_map.mp hk
        exact hle q (List.mem_append_left _ (List.mem_map_of_mem hq))
    rw [← hbelow, htexts, hrecords,
      find_entries_of_none (hkept ((List.prefix_append kept [p]).trans hbegins))]
    constructor
    · intro hle
      rw [if_pos hle]
      rfl
    · intro hgreater
      rw [if_neg hgreater]

end Table

/-! ## Opening -/

namespace Shelf

/-- A name stands between the older and the newer tables. -/
structure SplitsAt (s : Shelf) (name : String) (older newer : List Sheet) : Prop where
  sheets : s.sheets = older ++ newer
  names : (older.map Sheet.name ++ name :: newer.map Sheet.name).Pairwise (· < ·)

variable {s : Shelf} {name : String} {older newer : List Sheet}

theorem SplitsAt.older_lt (h : s.SplitsAt name older newer) {t : Sheet} (ht : t ∈ older) :
    t.name < name :=
  (List.pairwise_append.mp h.names).2.2 _ (List.mem_map_of_mem ht) name List.mem_cons_self

theorem SplitsAt.lt_newer (h : s.SplitsAt name older newer) {t : Sheet} (ht : t ∈ newer) :
    name < t.name :=
  (List.pairwise_cons.mp (List.pairwise_append.mp h.names).2.1).1 _ (List.mem_map_of_mem ht)

theorem SplitsAt.ne (h : s.SplitsAt name older newer) {t : Sheet} (ht : t ∈ s.sheets) :
    t.name ≠ name := by
  rw [h.sheets, List.mem_append] at ht
  rcases ht with ht | ht
  · exact Order.ne_of_lt (h.older_lt ht)
  · exact (Order.ne_of_lt (h.lt_newer ht)).symm

theorem exists_splitsAt (h : s.sheets.Pairwise fun a b => a.name < b.name)
    (hne : ∀ t ∈ s.sheets, t.name ≠ name) : ∃ older newer, s.SplitsAt name older newer := by
  suffices hall : ∀ {sheets : List Sheet}, sheets.Pairwise (fun a b => a.name < b.name) →
      (∀ t ∈ sheets, t.name ≠ name) → ∃ older newer, sheets = older ++ newer ∧
        (older.map Sheet.name ++ name :: newer.map Sheet.name).Pairwise (· < ·) by
    obtain ⟨older, newer, hsheets, hnames⟩ := hall h hne
    exact ⟨older, newer, hsheets, hnames⟩
  clear h hne
  intro sheets h hne
  induction sheets with
  | nil => exact ⟨[], [], rfl, List.pairwise_singleton _ _⟩
  | cons first rest ih =>
    obtain ⟨hfirst, hrest⟩ := List.pairwise_cons.mp h
    by_cases hlt : first.name < name
    · obtain ⟨older, newer, rfl, hnames⟩ := ih hrest fun t ht => hne t (List.mem_cons_of_mem _ ht)
      refine ⟨first :: older, newer, rfl, List.pairwise_cons.mpr ⟨fun other hother => ?_, hnames⟩⟩
      rcases List.mem_append.mp hother with hin | hin
      · obtain ⟨t, ht, rfl⟩ := List.mem_map.mp hin
        exact hfirst t (List.mem_append_left newer ht)
      rcases List.mem_cons.mp hin with rfl | hin
      · exact hlt
      · obtain ⟨t, ht, rfl⟩ := List.mem_map.mp hin
        exact hfirst t (List.mem_append_right older ht)
    · have hgt : name < first.name :=
        Order.lt_of_le_of_ne (String.not_lt.mp hlt) (hne first List.mem_cons_self).symm
      refine ⟨[], first :: rest, rfl, List.pairwise_cons.mpr ⟨fun other hother => ?_, ?_⟩⟩
      · obtain ⟨t, ht, rfl⟩ := List.mem_map.mp hother
        rcases List.mem_cons.mp ht with rfl | ht
        · exact hgt
        · exact String.lt_trans hgt (hfirst t ht)
      · exact List.pairwise_map.mpr h

end Shelf

namespace Engine

variable {s : Shelf} {files : Directory} {older newer : List Sheet} {name : String}

/-- The table that is there in part stands where its name puts it. -/
theorem sortTexts_withTorn (hon : s.IsOn files) (hsplit : s.SplitsAt name older newer)
    (htable : TableName.isTable name = true) (content : Utf8.Bytes) (count : Nat) :
    Order.sortTexts ((files.withTorn name content count).names.filter TableName.isTable)
      = older.map Sheet.name ++ name :: newer.map Sheet.name := by
  have hperm : ((files.withTorn name content count).names.filter TableName.isTable).Perm
      (older.map Sheet.name ++ name :: newer.map Sheet.name) := by
    rw [List.perm_ext_iff_of_nodup ((Directory.nodup_names_withTorn hon.nodup).filter _)
      (hsplit.names.imp Order.ne_of_lt)]
    intro other
    have hmem : other ∈ older.map Sheet.name ++ name :: newer.map Sheet.name
        ↔ other = name ∨ other ∈ s.sheets.map Sheet.name := by
      rw [hsplit.sheets, List.map_append, List.mem_append, List.mem_cons, List.mem_append]
      exact or_left_comm
    rw [List.mem_filter, hmem]
    constructor
    · rintro ⟨hin, hother⟩
      rcases (Directory.mem_names_withTorn hother).mp hin with heq | hin
      · exact .inl heq
      · exact .inr (hon.listed other hin hother)
    · rintro (rfl | hin)
      · exact ⟨(Directory.mem_names_withTorn htable).mpr (.inl rfl), htable⟩
      · obtain ⟨t, ht, rfl⟩ := List.mem_map.mp hin
        have hother := hon.tables t ht
        exact ⟨(Directory.mem_names_withTorn hother).mpr (.inr (Shelf.name_mem_names hon ht)),
          hother⟩
  rw [Order.sortTexts_eq_of_perm hperm, Order.sortTexts]
  apply List.mergeSort_of_pairwise
  exact hsplit.names.imp fun hlt => Order.notAbove_iff.mpr (Order.le_of_lt hlt)

/-- An engine that has, among its tables, one that was opened without an index. -/
def tornEngine (s : Shelf) (c : Settings) (name : String) (older newer : List Sheet) : Engine :=
  { s.engine c with
    tables := (older.map fun t => t.table c.dataDir)
      ++ Table.unindexed c.dataDir name :: newer.map fun t => t.table c.dataDir }

theorem openAt_withTorn (hon : s.IsOn files) (hsplit : s.SplitsAt name older newer)
    (htable : TableName.isTable name = true) (hsize : s.weight < Sheet.capacity) (c : Settings)
    (content : Utf8.Bytes) (count : Nat) :
    openAt c (files.withTorn name content count)
      = (.ok (tornEngine s c name older newer), files.withTorn name content count) := by
  have hin : ∀ t ∈ s.sheets, t.IsIn (files.withTorn name content count) := fun t ht =>
    (hon.sheets t ht).withTorn (hon.tables t ht) htable (hsplit.ne ht) content count
  have hfits : ∀ t ∈ s.sheets, t.text.length < Sheet.capacity :=
    fun t ht => Nat.lt_of_le_of_lt (s.length_text_le ht) hsize
  rw [hsplit.sheets] at hin hfits
  have hload := Table.load_unindexed c.dataDir
    (@Directory.read?_withTorn_index files name content count)
  apply openAt_of_tables
  · rw [Directory.read?_logName_withTorn htable]
    exact hon.log
  · rw [openTables, ← Order.sortTexts, sortTexts_withTorn hon hsplit htable content count,
      List.mapM_append, List.mapM_cons, hload,
      mapM_load c.dataDir (fun t ht => hin t (List.mem_append_left newer ht))
        fun t ht => hfits t (List.mem_append_left newer ht),
      mapM_load c.dataDir (fun t ht => hin t (List.mem_append_right older ht))
        fun t ht => hfits t (List.mem_append_right older ht)]
    rfl

/-! ## Asking -/

/-- No key is blocked that is in memory or in a newer table. -/
theorem blocks_withTorn_iff (hon : s.IsOn files) (hsplit : s.SplitsAt name older newer)
    (htable : TableName.isTable name = true) {content : Utf8.Bytes} {count : Nat}
    {texts : List (List Char)}
    (hlines : Text.storedLines [] (content.take count) = (texts, none)) (key : String) :
    (files.withTorn name content count).Blocks name key ↔
      Table.IsStuck texts key ∧ s.memory.lookup key = none ∧
        ∀ t ∈ newer, t.records.lookup key = none := by
  have hline : ∀ l, (files.withTorn name content count).HasLine name l ↔ l ∈ texts := by
    intro l
    unfold Directory.HasLine
    rw [Directory.read?_withTorn_self]
    simp [hlines]
  have hmemory : ¬(files.withTorn name content count).LogHas key ↔ s.memory.lookup key = none := by
    rw [Directory.logHas_withTorn htable, Shelf.logHas_iff hon]
    exact Decidable.not_not
  have hnewer : (∀ later value, (files.withTorn name content count).TableHas later key value →
      later ≤ name) ↔ ∀ t ∈ newer, t.records.lookup key = none := by
    constructor
    · intro hle t ht
      rw [Option.eq_none_iff_forall_ne_some]
      intro value hvalue
      have hmem : t ∈ s.sheets := hsplit.sheets ▸ List.mem_append_right older ht
      have hhas := (Shelf.tableHas_iff hon t.name key value).mpr ⟨t, hmem, rfl, hvalue⟩
      have hbefore := hle t.name value
        ((Directory.tableHas_withTorn (hsplit.ne hmem) key value).mpr hhas)
      exact String.not_le.mpr (hsplit.lt_newer ht) hbefore
    · intro hnone later value hhas
      by_cases heq : later = name
      · exact heq ▸ String.le_refl _
      · obtain ⟨t, ht, rfl, hvalue⟩ := (Shelf.tableHas_iff hon _ _ _).mp
          ((Directory.tableHas_withTorn heq key value).mp hhas)
        rw [hsplit.sheets, List.mem_append] at ht
        rcases ht with ht | ht
        · exact Order.le_of_lt (hsplit.older_lt ht)
        · exact absurd ((hnone t ht).symm.trans hvalue) (Option.some_ne_none value).symm
  unfold Directory.Blocks
  rw [hmemory, hnewer]
  simp only [hline, Table.IsStuck, and_assoc]

theorem lookup_of_memory_none (hsplit : s.SplitsAt name older newer) {key : String}
    (hmemory : s.memory.lookup key = none) :
    s.lookup key = ((newer.reverse.map Sheet.records).findSome? fun m => m.lookup key).or
      ((older.reverse.map Sheet.records).findSome? fun m => m.lookup key) := by
  rw [Shelf.lookup_eq_or, hmemory, Option.none_or, Shelf.merged, Pairs.lookup_layered,
    Shelf.tableLayers, hsplit.sheets, List.reverse_append, List.map_append, List.findSome?_append]

theorem findSome?_eq_none_iff {sheets : List Sheet} {key : String} :
    ((sheets.reverse.map Sheet.records).findSome? fun m => m.lookup key) = none ↔
      ∀ t ∈ sheets, t.records.lookup key = none := by
  simp only [List.findSome?_eq_none_iff, List.forall_mem_map, List.mem_reverse]

/-- A key that is not blocked is answered as before, and a key that is blocked is not answered. -/
theorem get_withTorn (hon : s.IsOn files) (hsplit : s.SplitsAt name older newer)
    (htable : TableName.isTable name = true) {m : Pairs}
    (hm : ∀ key, s.memory.lookup key = none → m.lookup key = none) (count : Nat) (c : Settings)
    (key : String) :
    let torn := files.withTorn name (Utf8.encode (Sheet.textOf m)) count
    let site : Site := { engine := tornEngine s c name older newer, files := torn }
    (torn.Blocks name key →
      get (.str key) site = .error (.store (.corruptTable (c.dataDir.child name))) site) ∧
    (¬torn.Blocks name key → get (.str key) site = .ok (Value.orNull (s.lookup key)) site) := by
  intro torn site
  obtain ⟨texts, hlines, hcut⟩ := Sheet.storedLines_take m count
  have hin : ∀ t ∈ older ++ newer, t.IsIn torn := by
    rw [← hsplit.sheets]
    exact fun t ht =>
      (hon.sheets t ht).withTorn (hon.tables t ht) htable (hsplit.ne ht) _ count
  have hget : get (.str key) site = ofResult (site.engine.lookup torn (.str key)) site := rfl
  have hmemtable : site.engine.memtable.get? (.str key) = (s.memory.lookup key).map Value.str :=
    Pairs.get?_entries s.memory key
  have htables : site.engine.tables.reverse
      = (newer.reverse.map fun t => t.table c.dataDir) ++ Table.unindexed c.dataDir name ::
          older.reverse.map fun t => t.table c.dataDir := by
    show ((older.map _) ++ Table.unindexed c.dataDir name :: newer.map _).reverse = _
    simp [List.map_reverse]
  have hremembered : ∀ v, s.memory.lookup key = some v →
      site.engine.lookup torn (.str key) = .ok (.str v) := by
    intro v hv
    rw [Engine.lookup, hmemtable, hv]
    rfl
  have hasked : s.memory.lookup key = none →
      site.engine.lookup torn (.str key) = findIn torn (.str key) site.engine.tables.reverse := by
    intro hnone
    rw [Engine.lookup, hmemtable, hnone]
    rfl
  rw [hget, blocks_withTorn_iff hon hsplit htable hlines key]
  -- Memory is asked first, then the newer tables, then the one in part, then the older ones.
  cases hmemory : s.memory.lookup key with
  | some value =>
    refine ⟨fun h => absurd h.2.1 (Option.some_ne_none value), fun _ => ?_⟩
    rw [hremembered value hmemory, Shelf.lookup_eq_or, hmemory]
    rfl
  | none =>
    rw [hasked hmemory, htables, findIn_append c.dataDir fun t ht =>
      hin t (List.mem_append_right older (List.mem_reverse.mp ht)),
      lookup_of_memory_none hsplit hmemory]
    cases hnewer : (newer.reverse.map Sheet.records).findSome? fun m => m.lookup key with
    | some value =>
      refine ⟨fun h => ?_, fun _ => rfl⟩
      rw [findSome?_eq_none_iff.mpr h.2.2] at hnewer
      exact absurd hnewer.symm (Option.some_ne_none value)
    | none =>
      have hread := @Directory.read?_withTorn_self files name (Utf8.encode (Sheet.textOf m)) count
      obtain ⟨hstuck, hfree⟩ := Table.get_cut c.dataDir hread hlines hcut (hm key hmemory)
      constructor
      · intro h
        show ofResult (findIn torn (.str key) (Table.unindexed c.dataDir name :: _)) site = _
        rw [findIn, hstuck h.1]
        rfl
      · intro h
        have hnot : ¬Table.IsStuck texts key :=
          fun hstuck => h ⟨hstuck, rfl, findSome?_eq_none_iff.mp hnewer⟩
        show ofResult (findIn torn (.str key) (Table.unindexed c.dataDir name :: _)) site = _
        rw [findIn, hfree hnot, Option.none_or]
        show ofResult (findIn torn (.str key) (older.reverse.map _)) site = _
        rw [findIn_sheets c.dataDir fun t ht =>
          hin t (List.mem_append_left newer (List.mem_reverse.mp ht))]
        rfl

end Engine

/-! ## Flushes at the end of a run -/

namespace World

/-- The directory of a flush that is lost while it writes the data of its table opens, and it
answers every key as before that is not blocked; a key that is blocked is not answered at all. -/
theorem get_torn_flush {events : List Event} (haccepted : ∀ e ∈ events, e.IsAccepted)
    (hsize : Event.volume events < Sheet.capacity) {e : Engine}
    (hengine : (start.run events).engine = some e) (hopen : e.isClosed = false)
    (horder : e.IsInOrder) (hfull : e.memtable ≠ []) (clock : Int) :
    let files := (start.run events).files
    ∃ table beside content,
      Engine.writeTable clock "" e.memtable { engine := e, files := files }
        = .ok table { engine := e, files := beside } ∧
      Engine.flush clock { engine := e, files := files }
        = .ok () { engine := { e with tables := e.tables ++ [table], memtable := [] }
                   files := beside.write Engine.logName [] } ∧
      beside.read? table.name = some content ∧
      ∀ (count : Nat) (c : Settings),
        let torn := files.withTorn table.name content count
        ∃ again, Engine.openAt c torn = (.ok again, torn) ∧
          ∀ key, ∃ value,
            Engine.get (.str key) { engine := e, files := files }
              = .ok value { engine := e, files := files } ∧
            (¬torn.Blocks table.name key →
              Engine.get (.str key) { engine := again, files := torn }
                = .ok value { engine := again, files := torn }) ∧
            (torn.Blocks table.name key →
              Engine.get (.str key) { engine := again, files := torn }
                = .error (.store (.corruptTable (c.dataDir.child table.name)))
                    { engine := again, files := torn }) := by
  obtain ⟨s, d, hd, rfl, hon, hweight⟩ := exists_opened haccepted hsize hengine hopen
  have hwrites : s.writes ≠ [] := by
    intro hnil
    apply hfull
    show s.memory.entries = []
    rw [Shelf.memory, hnil]
    rfl
  intro files
  obtain ⟨hwrite, hflush⟩ := Engine.flush_of_ne_nil hd hweight hwrites files clock
  have hdata := ((Engine.flushedSheet s d files clock).isIn_addTo files).data
  refine ⟨_, _, _, hwrite, hflush, hdata, fun count c => ?_⟩
  intro torn
  have htable : TableName.isTable (Engine.flushedSheet s d files clock).name = true :=
    TableName.isTable_next _ _ _
  have hnew : (Engine.flushedSheet s d files clock).name ∉ files.names :=
    TableName.next_notMem _ _ _
  have hpairwise := Shelf.pairwise_of_reopened (Shelf.reopened_of_isInOrder horder) hon.distinct
  have hne : ∀ t ∈ s.sheets, t.name ≠ (Engine.flushedSheet s d files clock).name :=
    fun t ht heq => hnew (heq ▸ Shelf.name_mem_names hon ht)
  obtain ⟨older, newer, hsplit⟩ := Shelf.exists_splitsAt hpairwise hne
  -- The log still has every key of the table that is there in part.
  have hm : ∀ key, s.memory.lookup key = none → s.memory.sorted.lookup key = none := by
    intro key hnone
    rw [← hnone]
    exact (Pairs.lookup_perm s.memory.perm_sorted.symm s.nodup_keys_memory key).symm
  refine ⟨_, Engine.openAt_withTorn hon hsplit htable hweight c _ count, fun key => ?_⟩
  obtain ⟨hblocked, hfree⟩ := Engine.get_withTorn hon hsplit htable hm count c key
  exact ⟨_, Engine.get_shelf hon d key, hfree, hblocked⟩

/-- The flush is lost with five characters written. -/
theorem get_torn_flush_overwrite :
    ∃ e table content again, (start.run overwriteEvents).engine = some e ∧
      Engine.openAt roomy ((start.run overwriteEvents).files.withTorn table content 5)
        = (.ok again, (start.run overwriteEvents).files.withTorn table content 5) ∧
      ∀ key, ∃ value,
        Engine.get (.str key) { engine := e, files := (start.run overwriteEvents).files }
          = .ok value { engine := e, files := (start.run overwriteEvents).files } := by
  obtain ⟨e, he, hclosed, horder, -, hlength⟩ := exists_engine_overwrite
  have hfull : e.memtable ≠ [] := by
    intro hnil
    rw [hnil] at hlength
    exact absurd hlength (by decide)
  obtain ⟨table, beside, content, -, -, -, hlost⟩ := get_torn_flush isAccepted_overwrite
    (Sheet.lt_capacity (by decide)) he hclosed horder hfull 1700000000000
  obtain ⟨again, hagain, hget⟩ := hlost 5 roomy
  refine ⟨e, table.name, content, again, he, hagain, fun key => ?_⟩
  obtain ⟨value, hvalue, -⟩ := hget key
  exact ⟨value, hvalue⟩

/-- A key is flushed, and a lesser key is written. -/
def cutEvents : List Event :=
  [.start roomy, .put 1700000000000 "z" "1", .flush 1700000000000, .put 1700000000000 "a" "2"]

/-- The directory of a flush of the lesser key that is lost with sixteen characters written. -/
def cutFiles : Directory :=
  (start.run cutEvents).files.withTorn "sst_1700000000001.jsonl"
    (Utf8.encode (Table.recordText ("a", "2") ++ ['\n'])) 16

theorem run_cut :
    let w := start.run cutEvents
    w.engine.map Engine.isClosed = some false ∧
      (w.engine.map fun e => e.tables.map Table.name) = some ["sst_1700000000000.jsonl"] ∧
      (w.engine.map fun e => e.memtable.map fun r => r.1.text) = some ["a"] ∧
      (w.engine.map fun e =>
          (Engine.flush 1700000000000 { engine := e, files := w.files }).left.files.read?
            "sst_1700000000001.jsonl")
        = some (some (Utf8.encode (Table.recordText ("a", "2") ++ ['\n']))) ∧
      (w.engine.map fun e =>
          (Engine.get (.str "z") { engine := e, files := w.files }).answer.toOption.map Value.text)
        = some (some "1") ∧
      (w.engine.map fun e =>
          let again :=
            { e with tables := e.tables ++ [Table.unindexed e.directory "sst_1700000000001.jsonl"] }
          (Engine.get (.str "z") { engine := again, files := cutFiles }).answer.isOk)
        = some false := by
  decide +kernel

/-- The key that was flushed before has its value in a table of its own, and it is not answered any
more. -/
theorem get_torn_flush_blocked :
    let w := start.run cutEvents
    ∃ e again, w.engine = some e ∧ e.isClosed = false ∧ e.IsInOrder ∧ e.memtable ≠ [] ∧
      (Engine.flush 1700000000000 { engine := e, files := w.files }).left.files.read?
          "sst_1700000000001.jsonl"
        = some (Utf8.encode (Table.recordText ("a", "2") ++ ['\n'])) ∧
      Engine.openAt e.settings cutFiles = (.ok again, cutFiles) ∧
      Engine.get (.str "z") { engine := e, files := w.files }
        = .ok (.str "1") { engine := e, files := w.files } ∧
      (Engine.get (.str "z") { engine := again, files := cutFiles }).answer.isOk = false := by
  obtain ⟨hclosed, htables, hmemtable, hflush, hbefore, hafter⟩ := run_cut
  obtain ⟨e, he⟩ : ∃ e, (start.run cutEvents).engine = some e := by
    rw [← Option.isSome_iff_exists, ← Option.isSome_map, hclosed]
    rfl
  rw [he] at hclosed htables hmemtable hflush hbefore hafter
  have haccepted : ∀ e ∈ cutEvents, e.IsAccepted := by
    intro e he
    simp only [cutEvents, List.mem_cons, List.not_mem_nil, or_false] at he
    rcases he with rfl | rfl | rfl | rfl
    · exact Settings.isAccepted_of_le (by decide) (by decide) _ _
    all_goals exact trivial
  obtain ⟨s, d, -, rfl, hon, hweight⟩ := exists_opened haccepted (Sheet.lt_capacity (by decide)) he
    (Option.some.inj hclosed)
  have htables : (s.engine d).tables.map Table.name = _ := Option.some.inj htables
  have hkeys : (s.engine d).memtable.map (fun r => r.1.text) = _ := Option.some.inj hmemtable
  have hsplit : s.SplitsAt "sst_1700000000001.jsonl" s.sheets [] := by
    refine ⟨(List.append_nil _).symm, ?_⟩
    have hnames : s.sheets.map Sheet.name = ["sst_1700000000000.jsonl"] := by
      rw [← htables, Shelf.engine, List.map_map]
      rfl
    rw [hnames]
    decide
  have hagain := Engine.openAt_withTorn hon hsplit (by decide) hweight d
    (Utf8.encode (Table.recordText ("a", "2") ++ ['\n'])) 16
  refine ⟨s.engine d, _, he, Option.some.inj hclosed, ?_, ?_, Option.some.inj hflush, hagain, ?_,
    Option.some.inj hafter⟩
  · have hpairwise : ((s.engine d).tables.map Table.name).Pairwise (· ≤ ·) := by
      rw [htables]
      decide
    exact List.pairwise_map.mp hpairwise
  · intro hnil
    rw [hnil] at hkeys
    exact absurd hkeys (by decide)
  · have hget := Engine.get_shelf hon d "z"
    have htext : (Engine.get (.str "z") (s.site d (start.run cutEvents).files)).answer.toOption.map
        Value.text = some "1" := Option.some.inj hbefore
    rw [Shelf.site, hget] at htext
    have htext : (Value.orNull (s.lookup "z")).text = "1" := Option.some.inj htext
    rw [hget]
    cases hlookup : s.lookup "z" with
    | none =>
      rw [hlookup] at htext
      exact absurd htext (by decide)
    | some value =>
      rw [hlookup] at htext
      obtain rfl : value = "1" := htext
      rfl

end World
end SchemaStore
