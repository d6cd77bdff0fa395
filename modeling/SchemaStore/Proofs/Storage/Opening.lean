import SchemaStore.Proofs.Sequencing
import SchemaStore.Proofs.Storage.Names

/-!
Opening an engine, step by step.  The log is replayed line by line, provided that it is well-formed
text, and then each table is opened with the index that its index file holds.  Nothing else in the
directory has a say, so a change of the log alone leaves the tables as they are.
-/

namespace SchemaStore

/-! ## The log -/

namespace Log

/-- Replaying well-formed text is replaying its lines. -/
theorem replay_of_decodes {l : Log} {files : Directory} (hopen : l.isClosed = false)
    {cs : List Char} (hcs : Utf8.decodeFrom 0 (l.content files) = (cs, none)) :
    l.replay files = l.replayLines 1 [] (Text.lines cs) := by
  have hlines : Text.storedLines [] (l.content files) = (Text.lines cs, none) := by
    rw [Text.storedLines, Utf8.decodeInPieces, hcs]
    rfl
  rw [replay, checkOpen, hopen, hlines]
  simp only [Bool.false_eq_true, if_false, Except.ok_bind]
  cases l.replayLines 1 [] (Text.lines cs) <;> rfl

/-- A log that is replayed is open, and it holds well-formed text. -/
theorem exists_text_of_replay {l : Log} {files : Directory} {memory : Entries}
    (h : l.replay files = .ok memory) :
    l.isClosed = false ∧ ∃ cs, Utf8.decodeFrom 0 (l.content files) = (cs, none) ∧
      l.replayLines 1 [] (Text.lines cs) = .ok memory := by
  have hopen : l.isClosed = false := by
    cases hclosed : l.isClosed with
    | false => rfl
    | true =>
      rw [replay, checkOpen, hclosed] at h
      cases h
  refine ⟨hopen, ?_⟩
  rcases hdecode : Utf8.decodeFrom 0 (l.content files) with ⟨cs, fault⟩
  cases fault with
  | none => exact ⟨cs, rfl, (replay_of_decodes hopen hdecode).symm.trans h⟩
  | some fault =>
    have hfault : ∃ texts fault, Text.storedLines [] (l.content files) = (texts, some fault) := by
      rw [Text.storedLines, Utf8.decodeInPieces, hdecode]
      exact ⟨_, _, rfl⟩
    obtain ⟨texts, fault, hlines⟩ := hfault
    rw [replay, hlines] at h
    simp only [Except.bind_eq_ok] at h
    obtain ⟨_, -, _, -, h⟩ := h
    cases h

end Log

namespace Directory

/-- The text of a directory's log, as far as it is well formed. -/
def logText (files : Directory) : List Char :=
  (Utf8.decodeFrom 0 ((files.read? Engine.logName).getD [])).1

end Directory

/-! ## The tables -/

namespace Table

/-- The index of a table that is opened: an empty one where there is no index file. -/
def storedIndex (name : String) (files : Directory) : Except Failure Value :=
  match files.read? (indexName name) with
  | none => .ok (.dict [])
  | some content => readIndex content

theorem load_eq (directory : Path) (name : String) (files : Directory) :
    load directory name files = (do
      let index ← storedIndex name files
      let keys ← Failure.lift .misuse index.elements
      let sorted ← Failure.lift .misuse (Order.sortBy id keys)
      .ok { directory := directory, name := name, index := index, indexKeys := sorted }) := by
  rw [load, storedIndex]
  cases files.read? (indexName name) <;> rfl

theorem name_of_load {directory : Path} {name : String} {files : Directory} {t : Table}
    (h : load directory name files = .ok t) : t.name = name := by
  rw [load_eq] at h
  simp only [Except.bind_eq_ok] at h
  obtain ⟨index, -, keys, -, sorted, -, h⟩ := h
  rw [← Except.ok.inj h]

/-- What is in a table's index file decides whether the table opens. -/
theorem load_of_ok {directory : Path} {name : String} {files after : Directory} {t : Table}
    (h : load directory name files = .ok t)
    (hindex : after.read? (indexName name) = files.read? (indexName name)) (other : Path) :
    load other name after = .ok { t with directory := other } := by
  have hstored : storedIndex name after = storedIndex name files := by
    rw [storedIndex, hindex, storedIndex]
  rw [load_eq] at h
  rw [load_eq, hstored]
  simp only [Except.bind_eq_ok] at h ⊢
  obtain ⟨index, hread, keys, hkeys, sorted, hsorted, ht⟩ := h
  exact ⟨index, hread, keys, hkeys, sorted, hsorted, by rw [← Except.ok.inj ht]⟩

end Table

namespace Engine

theorem map_name_of_mapM_load {directory : Path} {files : Directory} {names : List String}
    {tables : List Table}
    (h : (names.mapM fun name => Table.load directory name files) = .ok tables) :
    tables.map Table.name = names := by
  induction names generalizing tables with
  | nil =>
    rw [← Except.ok.inj h]
    rfl
  | cons name names ih =>
    rw [List.mapM_cons] at h
    simp only [Except.bind_eq_ok] at h
    obtain ⟨t, ht, rest, hrest, h⟩ := h
    rw [← Except.ok.inj h, List.map_cons, Table.name_of_load ht, ih hrest]

theorem isTable_of_openTables {directory : Path} {files : Directory} {tables : List Table}
    (h : openTables directory files = .ok tables) :
    ∀ t ∈ tables, TableName.isTable t.name = true := by
  intro t ht
  have hname : t.name ∈ tables.map Table.name := List.mem_map_of_mem ht
  rw [map_name_of_mapM_load h] at hname
  exact (List.mem_filter.mp ((List.mergeSort_perm _ _).mem_iff.mp hname)).2

theorem mapM_load_of_ok {directory : Path} {files after : Directory} {names : List String}
    {tables : List Table}
    (h : (names.mapM fun name => Table.load directory name files) = .ok tables)
    (hindex : ∀ name ∈ names,
      after.read? (Table.indexName name) = files.read? (Table.indexName name)) (other : Path) :
    (names.mapM fun name => Table.load other name after)
      = .ok (tables.map fun t => { t with directory := other }) := by
  induction names generalizing tables with
  | nil =>
    rw [← Except.ok.inj h]
    rfl
  | cons name names ih =>
    rw [List.mapM_cons] at h
    simp only [Except.bind_eq_ok] at h
    obtain ⟨t, ht, rest, hrest, h⟩ := h
    rw [List.mapM_cons, Table.load_of_ok ht (hindex name List.mem_cons_self) other,
      ih hrest fun n hn => hindex n (List.mem_cons_of_mem name hn), ← Except.ok.inj h]
    rfl

/-! ## The engine -/

/-- The log of an engine that has just been opened. -/
def openedLog (directory : Path) : Log :=
  { directory := directory, name := logName, isClosed := false, orphan := none }

theorem content_openedLog (directory : Path) (files : Directory) :
    (openedLog directory).content files = (files.read? logName).getD [] := rfl

theorem openAt_eq (c : Settings) (files : Directory) :
    openAt c files = ((do
      let memtable ← (openedLog c.dataDir).replay (files.touch logName)
      let tables ← openTables c.dataDir (files.touch logName)
      .ok { settings := c, log := openedLog c.dataDir, memtable := memtable, tables := tables,
            isClosed := false }), files.touch logName) := rfl

/-- An engine opens when its log is replayed and its tables open. -/
theorem openAt_eq_ok_iff {c : Settings} {files opened : Directory} {e : Engine} :
    openAt c files = (.ok e, opened) ↔ opened = files.touch logName ∧
      ∃ memtable tables, (openedLog c.dataDir).replay opened = .ok memtable ∧
        openTables c.dataDir opened = .ok tables ∧
        e = { settings := c, log := openedLog c.dataDir, memtable := memtable, tables := tables,
              isClosed := false } := by
  rw [openAt_eq, Prod.mk.injEq]
  simp only [Except.bind_eq_ok, Except.ok.injEq]
  constructor
  · rintro ⟨⟨memtable, hmemtable, tables, htables, rfl⟩, rfl⟩
    exact ⟨rfl, memtable, tables, hmemtable, htables, rfl⟩
  · rintro ⟨rfl, memtable, tables, hmemtable, htables, rfl⟩
    exact ⟨⟨memtable, hmemtable, tables, htables, rfl⟩, rfl⟩

theorem openAt_of_corruptLog {c : Settings} {files : Directory} {f : Failure}
    (h : (openedLog c.dataDir).replay (files.touch logName) = .error f) :
    openAt c files = (.error f, files.touch logName) := by
  rw [openAt_eq, h]
  rfl

theorem settings_of_openAt {c : Settings} {files opened : Directory} {e : Engine}
    (h : openAt c files = (.ok e, opened)) : e.settings = c := by
  obtain ⟨-, _, _, -, -, rfl⟩ := openAt_eq_ok_iff.mp h
  rfl

theorem isClosed_of_openAt {c : Settings} {files opened : Directory} {e : Engine}
    (h : openAt c files = (.ok e, opened)) : e.isClosed = false := by
  obtain ⟨-, _, _, -, -, rfl⟩ := openAt_eq_ok_iff.mp h
  rfl

theorem read?_logName_of_openAt {c : Settings} {files opened : Directory} {e : Engine}
    (h : openAt c files = (.ok e, opened)) :
    opened.read? logName = some ((files.read? logName).getD []) := by
  rw [(openAt_eq_ok_iff.mp h).1, Directory.read?_touch_self]

/-- An engine that has just been opened has the files of its tables. -/
theorem isSome_read?_of_openAt {c : Settings} {files opened : Directory} {e : Engine}
    (h : openAt c files = (.ok e, opened)) :
    ∀ t ∈ e.tables, (opened.read? t.name).isSome = true := by
  obtain ⟨-, memtable, tables, -, htables, rfl⟩ := openAt_eq_ok_iff.mp h
  intro t ht
  have hname : t.name ∈ tables.map Table.name := List.mem_map_of_mem ht
  rw [map_name_of_mapM_load htables] at hname
  exact Directory.mem_names_iff.mp
    (List.mem_filter.mp ((List.mergeSort_perm _ _).mem_iff.mp hname)).1

/-- A change of the log alone leaves the tables as they are. -/
theorem openTables_write_log {directory : Path} {files : Directory} {tables : List Table}
    (h : openTables directory files = .ok tables) (hlog : logName ∈ files.names)
    (content : Utf8.Bytes) (other : Path) :
    openTables other (files.write logName content)
      = .ok (tables.map fun t => { t with directory := other }) := by
  rw [openTables, Directory.names_write_of_mem hlog]
  refine mapM_load_of_ok h (fun name hname => ?_) other
  have htable : TableName.isTable name = true :=
    (List.mem_filter.mp ((List.mergeSort_perm _ _).mem_iff.mp hname)).2
  exact Directory.read?_write_of_ne files content (TableName.indexName_ne_logName htable)

/-- Another log can be put in the place of an opened engine's; whatever it is replayed to, the tables
open beside it again. -/
theorem exists_openAt_write_log {c : Settings} {files opened : Directory} {e : Engine}
    (h : openAt c files = (.ok e, opened)) (d : Settings) {content : Utf8.Bytes} {memory : Entries}
    (hreplay : (openedLog d.dataDir).replay (opened.write logName content) = .ok memory) :
    ∃ again, openAt d (opened.write logName content) = (.ok again, opened.write logName content) ∧
      again.memtable = memory := by
  obtain ⟨rfl, _, tables, -, htables, -⟩ := openAt_eq_ok_iff.mp h
  have hlog : logName ∈ (files.touch logName).names :=
    Directory.mem_names_of_read? (Directory.read?_touch_self files logName)
  have htables' := openTables_write_log htables hlog content d.dataDir
  have htouch := Directory.touch_of_read?
    (Directory.read?_write_self (files.touch logName) logName content)
  exact ⟨_, openAt_eq_ok_iff.mpr ⟨htouch.symm, _, _, hreplay, htables', rfl⟩, rfl⟩

end Engine
end SchemaStore
