import SchemaStore.Proofs.Storage.Recovery
import SchemaStore.Proofs.Storage.Rewriting

/-!
Compaction of tables that may be damaged.  All tables are read and merged, and the merged records
are sorted, before a file is touched; whatever damage there is shows by then.  What comes after
cannot fail: the new table is written under a name that no file has, and only then the old ones go.
-/

namespace SchemaStore

/-! ## The names of files -/

namespace Directory

theorem names_write_of_notMem {d : Directory} {name : String} (h : name ∉ d.names)
    (content : Utf8.Bytes) : (d.write name content).names = d.names ++ [name] := by
  induction d with
  | nil => rfl
  | cons f rest ih =>
    obtain ⟨n, old⟩ := f
    rw [names, List.map_cons, List.mem_cons, not_or, ← names] at h
    rw [write, if_neg (Ne.symm h.1), names, List.map_cons, ← names, ih h.2]
    rfl

theorem names_removeAll (d : Directory) (removed : List String) :
    (d.removeAll removed).names = d.names.filter (· ∉ removed) := by
  induction removed generalizing d with
  | nil => simp [removeAll]
  | cons first rest ih =>
    have hremove : (d.remove first).names = d.names.filter (· ≠ first) := by
      rw [names, remove, names, List.filter_map]
      rfl
    rw [removeAll, List.foldl_cons, ← removeAll, ih, hremove, List.filter_filter]
    refine List.filter_congr fun name _ => ?_
    by_cases hfirst : name = first <;> by_cases hrest : name ∈ rest <;> simp [hfirst, hrest]

/-- The names of tables. -/
def tableNames (d : Directory) : List String := d.names.filter TableName.isTable

theorem tableNames_write_of_isTable {d : Directory} {name : String} (h : name ∉ d.names)
    (htable : TableName.isTable name = true) (content : Utf8.Bytes) :
    (d.write name content).tableNames = d.tableNames ++ [name] := by
  rw [tableNames, names_write_of_notMem h, List.filter_append, ← tableNames,
    List.filter_singleton, htable]
  rfl

theorem tableNames_write_of_not {d : Directory} {name : String}
    (htable : TableName.isTable name = false) (content : Utf8.Bytes) :
    (d.write name content).tableNames = d.tableNames := by
  by_cases h : name ∈ d.names
  · rw [tableNames, names_write_of_mem h, tableNames]
  · rw [tableNames, names_write_of_notMem h, List.filter_append, List.filter_singleton, htable,
      tableNames]
    simp

theorem tableNames_removeAll (d : Directory) (removed : List String) :
    (d.removeAll removed).tableNames = d.tableNames.filter (· ∉ removed) := by
  rw [tableNames, names_removeAll, List.filter_filter, tableNames, List.filter_filter]
  exact List.filter_congr fun name _ => Bool.and_comm _ _

end Directory

namespace Engine

open Table (IsWritable)

/-! ## Writing the merged table -/

/-- A table is written as a whole or, where its records cannot be sorted, not at all. -/
theorem writeTable_of_writable {site : Site} {items : List (Value × Value)}
    (hstep : Table.IsStep site.engine.settings.indexSample) (hitems : ∀ r ∈ items, IsWritable r)
    (hsize : Table.size items < Sheet.capacity) (clock : Int) (suffix : String) :
    (∃ f, writeTable clock suffix items site = .error f site) ∨
      ∃ t content index, t.name = TableName.next site.files.names clock suffix ∧
        writeTable clock suffix items site = .ok t
          { engine := site.engine
            files := (site.files.write t.name content).write (Table.indexName t.name) index } := by
  have hwrite : ∀ result files, Table.write site.engine.directory
      (TableName.next site.files.names clock suffix) items site.engine.settings.indexSample
      site.files = (result, files) →
      writeTable clock suffix items site = ofResult result { site with files := files } := by
    intro result files h
    rw [writeTable, site_bind]
    simp only [h]
    rfl
  cases hsorted : Order.sortBy (·.1) items with
  | error m =>
    refine .inl ⟨.misuse m, hwrite (.error (.misuse m)) site.files ?_⟩
    rw [Table.write, hsorted]
  | ok sorted =>
    obtain ⟨t, content, index, hwritten, hname⟩ := Table.write_of_sorted hstep
      site.engine.directory (TableName.next site.files.names clock suffix) hitems hsize hsorted
      site.files
    refine .inr ⟨t, content, index, hname, ?_⟩
    rw [hwrite _ _ hwritten, hname]
    rfl

/-- What is merged is written as a whole, or the site stays as it is. -/
theorem writeMerged_cases {site : Site}
    (hstep : Table.IsStep site.engine.settings.indexSample)
    (hsize : ∀ merged, mergeTables site.files [] site.engine.tables.reverse = .ok merged →
      Table.size merged < Sheet.capacity) (clock : Int) :
    (∃ f, writeMerged clock site = .error f site) ∨
      ∃ t content index,
        t.name = TableName.next site.files.names clock TableName.compactedSuffix ∧
        writeMerged clock site = .ok t
          { engine := site.engine
            files := (site.files.write t.name content).write (Table.indexName t.name) index } := by
  rw [writeMerged, site_bind]
  cases hmerge : mergeTables site.files [] site.engine.tables.reverse with
  | error f => exact .inl ⟨f, rfl⟩
  | ok merged =>
    rw [ofResult_bind]
    exact writeTable_of_writable hstep (isWritable_of_mergeTables hmerge (List.forall_mem_nil _))
      (hsize merged hmerge) clock _

/-! ## Compaction -/

theorem compact_of_few {site : Site} (hopen : site.engine.isClosed = false)
    (hfew : ¬2 ≤ site.engine.tables.length) (clock : Int) : compact clock site = .ok () site := by
  rw [compact, checkOpen_bind _ hopen]
  exact congrFun (if_neg hfew) site

theorem tableNames_of_openAt {c : Settings} {files opened : Directory} {e : Engine}
    (h : openAt c files = (.ok e, opened)) : ∀ name ∈ opened.tableNames, name ∈ e.tableFiles := by
  obtain ⟨-, memtable, tables, -, htables, rfl⟩ := openAt_eq_ok_iff.mp h
  intro name hname
  have hmem : name ∈ tables.map Table.name := by
    rw [map_name_of_mapM_load htables]
    exact (List.mergeSort_perm _ _).mem_iff.mpr hname
  obtain ⟨t, ht, rfl⟩ := List.mem_map.mp hmem
  exact List.mem_flatMap.mpr ⟨t, ht, List.mem_cons_self⟩

/-- Where the tables of an opened engine are more than one, a compaction that succeeds leaves one
table, and no other file of a table. -/
theorem compact_of_many {c : Settings} {files opened : Directory} {e : Engine} (hc : c.IsAccepted)
    (hopen : openAt c files = (.ok e, opened))
    (hsize : ∀ merged, mergeTables opened [] e.tables.reverse = .ok merged →
      Table.size merged < Sheet.capacity)
    (hmany : 2 ≤ e.tables.length) (clock : Int) :
    (∃ f, compact clock { engine := e, files := opened }
        = .error f { engine := e, files := opened }) ∨
      ∃ t left, compact clock { engine := e, files := opened }
          = .ok () { engine := { e with tables := [t] }, files := left } ∧
        left.tableNames = [t.name] := by
  have hclosed : e.isClosed = false := isClosed_of_openAt hopen
  have hstep : Table.IsStep e.settings.indexSample := settings_of_openAt hopen ▸ hc.isStep
  rcases @writeMerged_cases { engine := e, files := opened } hstep hsize clock with
    ⟨f, hfails⟩ | ⟨t, content, index, hname, hwritten⟩
  · refine .inl ⟨f, ?_⟩
    rw [compact_eq_writeMerged clock hclosed hmany]
    exact bind_of_error hfails
  · refine .inr ⟨t, _, compact_of_writeMerged hclosed hmany hwritten, ?_⟩
    have htable : TableName.isTable t.name = true := hname ▸ TableName.isTable_next _ _ _
    have hnew : t.name ∉ opened.names := hname ▸ TableName.next_notMem _ _ _
    -- The new table is none of those that go.
    have hkept : t.name ∉ e.tableFiles := by
      intro hmem
      obtain ⟨old, hold, hmem⟩ := List.mem_flatMap.mp hmem
      simp only [Table.fileNames, List.mem_cons, List.not_mem_nil, or_false] at hmem
      rcases hmem with hmem | hmem
      · have hfile := isSome_read?_of_openAt hopen old hold
        exact hnew (hmem ▸ Directory.mem_names_iff.mpr hfile)
      · exact TableName.ne_indexName htable _ hmem
    have hold : opened.tableNames.filter (· ∉ e.tableFiles) = [] := by
      refine List.filter_eq_nil_iff.mpr fun name hmem => ?_
      simpa using tableNames_of_openAt hopen name hmem
    rw [Directory.tableNames_removeAll,
      Directory.tableNames_write_of_not (TableName.isTable_indexName t.name),
      Directory.tableNames_write_of_isTable hnew htable, List.filter_append, hold,
      List.filter_singleton]
    simp [hkept]

/-- Compaction is all or nothing, whatever the files of the tables hold: where it fails, the files
and the engine are as they were, and where it succeeds, two or more tables have become one, the only
one that is left.  The merged records must take fewer characters than a table can have, which is ten
to the 4300: a place behind them has more digits than are written into an index. -/
theorem compact_all_or_nothing {c : Settings} {files opened : Directory} {e : Engine}
    (hc : c.IsAccepted) (hopen : openAt c files = (.ok e, opened))
    (hsize : ∀ merged, mergeTables opened [] e.tables.reverse = .ok merged →
      Table.size merged < Sheet.capacity) (clock : Int) :
    (∀ f after, compact clock { engine := e, files := opened } = .error f after →
      after = { engine := e, files := opened }) ∧
    ∀ after, compact clock { engine := e, files := opened } = .ok () after →
      (e.tables.length ≤ 1 → after = { engine := e, files := opened }) ∧
      (2 ≤ e.tables.length → ∃ t, after.engine = { e with tables := [t] } ∧
        after.files.names.filter TableName.isTable = [t.name]) := by
  have hclosed : e.isClosed = false := isClosed_of_openAt hopen
  by_cases hmany : 2 ≤ e.tables.length
  · rcases compact_of_many hc hopen hsize hmany clock with ⟨f, hfails⟩ | ⟨t, left, hdone, hleft⟩
    · rw [hfails]
      exact ⟨fun _ _ h => by cases h; rfl, fun _ h => (nomatch h)⟩
    · rw [hdone]
      refine ⟨fun _ _ h => (nomatch h), fun after h => ?_⟩
      cases h
      exact ⟨fun hfew => absurd hmany (by omega), fun _ => ⟨t, rfl, hleft⟩⟩
  · rw [compact_of_few hclosed hmany]
    refine ⟨fun _ _ h => (nomatch h), fun after h => ?_⟩
    cases h
    exact ⟨fun _ => rfl, fun h => absurd h hmany⟩

/-- Two tables made by hand, without indexes: members in any order and more of them, a blank line, a
value that is no text, and a last line without its ending. -/
def handmadeTables : Directory :=
  [("sst_1.jsonl", Utf8.encode "\n\x7b\"value\": [null], \"key\": \"b\"\x7d".toList),
   ("sst_2.jsonl", Utf8.encode "\x7b\"key\":\"b\",\"value\":\"2\",\"op\":0\x7d\n".toList)]

/-- Two tables, and in the newer one a record that lacks its value. -/
def valuelessTables : Directory :=
  [("sst_1.jsonl", Utf8.encode "\x7b\"key\": \"b\", \"value\": \"1\"\x7d\n".toList),
   ("sst_2.jsonl", Utf8.encode "\x7b\"key\": \"b\"\x7d\n".toList)]

/-- Tables whose names are in order already are opened in that order. -/
theorem openAt_of_sorted (c : Settings) {files : Directory} {names : List String}
    (hnames : (files.touch logName).tableNames = names) (hsorted : names.Pairwise (· ≤ ·)) :
    openAt c files = ((do
      let memtable ← (openedLog c.dataDir).replay (files.touch logName)
      let tables ← names.mapM fun name => Table.load c.dataDir name (files.touch logName)
      .ok { settings := c, log := openedLog c.dataDir, memtable := memtable, tables := tables,
            isClosed := false }), files.touch logName) := by
  have htables : openTables c.dataDir (files.touch logName)
      = names.mapM fun name => Table.load c.dataDir name (files.touch logName) := by
    rw [openTables, ← Directory.tableNames, hnames,
      List.mergeSort_of_pairwise (hsorted.imp fun h => Order.notAbove_iff.mpr h)]
  rw [openAt_eq, htables]

/-- What is to be known of a directory whose tables are compacted: how many there are, whether the
merged records fit into a table, and whether the compaction succeeds. -/
def compactionOf (files : Directory) : Option (Nat × Bool × Bool) :=
  (openAt World.roomy files).1.toOption.map fun e =>
    let site : Site := { engine := e, files := (openAt World.roomy files).2 }
    (e.tables.length,
      (mergeTables site.files [] e.tables.reverse).toOption.all fun m =>
        decide (Table.size m < Power.ten 4),
      (compact 5 site).answer.isOk)

theorem compactionOf_handmadeTables : compactionOf handmadeTables = some (2, true, true) := by
  rw [compactionOf, @openAt_of_sorted World.roomy _ ["sst_1.jsonl", "sst_2.jsonl"]
    (by decide +kernel) (by decide)]
  decide +kernel

theorem compactionOf_valuelessTables : compactionOf valuelessTables = some (2, true, false) := by
  rw [compactionOf, @openAt_of_sorted World.roomy _ ["sst_1.jsonl", "sst_2.jsonl"]
    (by decide +kernel) (by decide)]
  decide +kernel

theorem roomy_isAccepted : World.roomy.IsAccepted :=
  Settings.isAccepted_of_le (by decide) (by decide) _ _

theorem compact_all_or_nothing_handmade :
    (∃ e opened after t, openAt World.roomy handmadeTables = (.ok e, opened) ∧
      2 ≤ e.tables.length ∧ compact 5 { engine := e, files := opened } = .ok () after ∧
      after.engine = { e with tables := [t] } ∧
      after.files.names.filter TableName.isTable = [t.name]) ∧
    ∃ e opened f, openAt World.roomy valuelessTables = (.ok e, opened) ∧
      compact 5 { engine := e, files := opened } = .error f { engine := e, files := opened } := by
  have hsize : ∀ {merging : Except Failure Entries},
      (merging.toOption.all fun m => decide (Table.size m < Power.ten 4)) = true →
      ∀ merged, merging = .ok merged → Table.size merged < Sheet.capacity := by
    rintro _ hall merged rfl
    exact Sheet.lt_capacity (of_decide_eq_true hall)
  constructor
  · have hchecks := compactionOf_handmadeTables
    rw [compactionOf] at hchecks
    rcases hopen : openAt World.roomy handmadeTables with ⟨result, opened⟩
    rw [hopen] at hchecks
    cases result with
    | error f => cases hchecks
    | ok e =>
      obtain ⟨hlength, hchecks⟩ := Prod.mk.inj (Option.some.inj hchecks)
      obtain ⟨hall, hok⟩ := Prod.mk.inj hchecks
      have hmany : 2 ≤ e.tables.length := Nat.le_of_eq hlength.symm
      cases hcompact : compact 5 { engine := e, files := opened } with
      | error f after =>
        rw [hcompact] at hok
        cases hok
      | ok _ after =>
        have hone := ((compact_all_or_nothing roomy_isAccepted hopen (hsize hall) 5).2 after
          hcompact).2 hmany
        obtain ⟨t, hengine, hnames⟩ := hone
        exact ⟨e, opened, after, t, rfl, hmany, hcompact, hengine, hnames⟩
  · have hchecks := compactionOf_valuelessTables
    rw [compactionOf] at hchecks
    rcases hopen : openAt World.roomy valuelessTables with ⟨result, opened⟩
    rw [hopen] at hchecks
    cases result with
    | error f => cases hchecks
    | ok e =>
      obtain ⟨-, hchecks⟩ := Prod.mk.inj (Option.some.inj hchecks)
      obtain ⟨hall, hok⟩ := Prod.mk.inj hchecks
      cases hcompact : compact 5 { engine := e, files := opened } with
      | ok _ after =>
        rw [hcompact] at hok
        cases hok
      | error f after =>
        have hsame := (compact_all_or_nothing roomy_isAccepted hopen (hsize hall) 5).1 f after
          hcompact
        exact ⟨e, opened, f, rfl, hcompact.trans (by rw [hsame])⟩

end Engine

end SchemaStore
