import Mathlib
import SchemaStore.Proofs.Storage.Worlds

/-!
The tables of a directory over many lifetimes.  A table is written once, under a name that no file
has, and from then on its files stay as they are until a compaction deletes them.  So in any world
the engine lists every table of the directory once; each table holds records in the order of their
keys; and its index has the places of those records that were sampled by the settings under which the
table was written, whatever the settings are by now.
-/

namespace SchemaStore

/-! ## What the files of a table hold -/

namespace Table

theorem isInStep_iff {sample : Value} {position : Nat} :
    isInStep sample position = true ↔ isSampled sample position = .ok true := by
  rw [isInStep]
  cases isSampled sample position with
  | error e =>
    constructor
    · exact fun h => absurd h Bool.false_ne_true
    · intro h
      cases h
  | ok b => exact ⟨fun h => congrArg Except.ok h, fun h => Except.ok.inj h⟩

/-- A step that is a whole number samples its multiples. -/
theorem isSampled_int_iff {n : Int} (hn : n ≠ 0) (position : Nat) :
    isSampled (.int n) position = .ok true ↔ n ∣ position := by
  have hsampled : isSampled (.int n) position = .ok ((Ratio.ofInt n).divides position) := if_neg hn
  have hdivides : (Ratio.ofInt n).divides position = ((position * 1 : Int) % n == 0) := rfl
  rw [hsampled, hdivides, Int.mul_one, Int.dvd_iff_emod_eq_zero]
  exact ⟨fun h => beq_iff_eq.mp (Except.ok.inj h), fun h => congrArg _ (beq_iff_eq.mpr h)⟩

end Table

theorem Settings.IsAccepted.sample_ne_zero {c : Settings} (h : c.IsAccepted) {n : Int}
    (hn : c.indexSample = .int n) : n ≠ 0 := by
  rintro rfl
  obtain ⟨q, hq, hlt⟩ := Table.quantity?_of_checkLimit h.limits.2
  rw [hn] at hq
  rw [← Option.some.inj hq] at hlt
  exact absurd hlt (by decide)

/-- The files of a table hold records: the data file their lines, and the index file the places of
those at the sampled positions. -/
structure Directory.HoldsTable (files : Directory) (name : String) (sample : Value)
    (records : Pairs) : Prop where
  ascending : records.Pairwise fun p q => p.1 < q.1
  data : files.read? name = some (Utf8.encode (Sheet.textOf records))
  /-- The place of a key is the number of bytes before the line of its record. -/
  index : ∃ content index, files.read? (Table.indexName name) = some content ∧
    Table.readIndex content = .ok (.dict index) ∧
    ∀ key place, (key, place) ∈ index ↔ ∃ before k value behind,
      records = before ++ (k, value) :: behind ∧ key = .str k ∧
      Table.isSampled sample before.length = .ok true ∧
      place = .int (Utf8.encode (Sheet.textOf before)).length
  positions : ∀ n : Int, sample = .int n →
    ∀ position : Nat, Table.isSampled sample position = .ok true ↔ n ∣ position
  /-- The table can be opened, and from the place of a record on that record and those behind it are
  read. -/
  reads : ∀ directory, ∃ t, Table.load directory name files = .ok t ∧
    ∀ before behind, records = before ++ behind →
      t.recordsFrom files (.int (Utf8.encode (Sheet.textOf before)).length)
        = (Pairs.entries behind, none)

namespace Sheet

variable {s : Sheet} {files : Directory}

theorem mem_indexOf_marks_iff {key place : Value} :
    (key, place) ∈ indexOf s.marks ↔ ∃ before k value behind,
      s.records = before ++ (k, value) :: behind ∧ key = .str k ∧
      s.isMarked before.length = true ∧ place = .int (textOf before).length := by
  rw [indexOf, List.mem_map]
  constructor
  · rintro ⟨mark, hmark, heq⟩
    obtain ⟨rfl, rfl⟩ := Prod.ext_iff.mp heq
    obtain ⟨before, value, behind, hsplit, hmarked, hplace⟩ := mem_marksFrom_iff.mp hmark
    rw [Nat.zero_add] at hmarked hplace
    exact ⟨before, mark.1, value, behind, hsplit, rfl, hmarked, by rw [hplace]⟩
  · rintro ⟨before, k, value, behind, hsplit, rfl, hmarked, rfl⟩
    rw [← Nat.zero_add before.length] at hmarked
    have hplace : (textOf before).length = 0 + (textOf before).length := (Nat.zero_add _).symm
    exact ⟨(k, (textOf before).length),
      mem_marksFrom_iff.mpr ⟨before, value, behind, hsplit, hmarked, hplace⟩, rfl⟩

theorem holdsTable {c : Settings} (hc : c.IsAccepted) (hin : s.IsIn files)
    (hsize : s.text.length < capacity) (hmarked : s.isMarked = Table.isInStep c.indexSample) :
    files.HoldsTable s.name c.indexSample s.records where
  ascending := s.ascending
  data := hin.data
  index := by
    refine ⟨_, _, hin.index, readIndex_indexText (isShort_of_lt hsize), fun key place => ?_⟩
    simp only [mem_indexOf_marks_iff, hmarked, Table.isInStep_iff,
      Utf8.length_encode (isAscii_textOf _)]
  positions n hn position := by
    rw [hn]
    exact Table.isSampled_int_iff (hc.sample_ne_zero hn) position
  reads directory := by
    refine ⟨s.table directory, load_table directory (isShort_of_lt hsize) hin, ?_⟩
    intro before behind hsplit
    rw [Utf8.length_encode (isAscii_textOf before)]
    exact recordsFrom_table hin.data hsplit

end Sheet

/-! ## The history of a table -/

namespace World

variable {w : World} {s : Shelf} {events : List Event}

/-- The tables of a shelf are in the files, be the log created or not. -/
theorem Keeps.isIn (h : w.Keeps s) {sheet : Sheet} (hsheet : sheet ∈ s.sheets) :
    sheet.IsIn w.files := by
  have htable := h.isOn.tables sheet hsheet
  exact (h.isOn.sheets sheet hsheet).congr
    (Directory.read?_touch_of_ne (TableName.ne_logName htable)).symm
    (Directory.read?_touch_of_ne (TableName.indexName_ne_logName htable)).symm

theorem Keeps.listed (h : w.Keeps s) {name : String} (hname : name ∈ w.files.names)
    (htable : TableName.isTable name = true) : ∃ sheet ∈ s.sheets, sheet.name = name := by
  rw [Directory.mem_names_iff, ← Directory.read?_touch_of_ne (TableName.ne_logName htable),
    ← Directory.mem_names_iff] at hname
  exact List.mem_map.mp (h.isOn.listed name hname htable)

/-- The files of a table come from one event of the run: before it there was no file under the name,
and every event after it left them as they are.  The sample is that of the engine that wrote them. -/
def WrittenOnce (events : List Event) (name : String) (sample : Value) : Prop :=
  ∃ before e after writer, events = before ++ e :: after ∧
    (start.run before).engine = some writer ∧ writer.settings.indexSample = sample ∧
    name ∉ (start.run before).files.names ∧
    ∀ next, next <+: after → ∀ file ∈ [name, Table.indexName name],
      (start.run (before ++ e :: next)).files.read? file = (start.run events).files.read? file

/-- A sheet was added by one event of the run, marked as the settings of the engine said, and its
files have been there since. -/
structure Added (sheet : Sheet) (c : Settings) (before : List Event) (e : Event)
    (after : List Event) : Prop where
  accepted : c.IsAccepted
  engine : ∃ writer, (start.run before).engine = some writer ∧ writer.settings = c
  marked : sheet.isMarked = Table.isInStep c.indexSample
  new : sheet.name ∉ (start.run before).files.names
  since : ∀ next, next <+: after → sheet.IsIn (start.run (before ++ e :: next)).files

theorem Added.concat {sheet : Sheet} {c : Settings} {before after : List Event} {e last : Event}
    (h : Added sheet c before e after)
    (hin : sheet.IsIn (start.run (before ++ e :: (after ++ [last]))).files) :
    Added sheet c before e (after ++ [last]) where
  accepted := h.accepted
  engine := h.engine
  marked := h.marked
  new := h.new
  since next hnext := by
    rcases List.prefix_concat_iff.mp hnext with rfl | hnext
    · exact hin
    · exact h.since next hnext

theorem Added.writtenOnce {sheet : Sheet} {c : Settings} {before after : List Event} {e : Event}
    (h : Added sheet c before e after) :
    WrittenOnce (before ++ e :: after) sheet.name c.indexSample := by
  obtain ⟨writer, hwriter, hsettings⟩ := h.engine
  refine ⟨before, e, after, writer, rfl, hwriter, by rw [hsettings], h.new, ?_⟩
  intro next hnext file hfile
  have hnow := h.since after (List.prefix_refl after)
  have hthen := h.since next hnext
  rcases List.mem_cons.mp hfile with rfl | hfile
  · rw [hthen.data, hnow.data]
  · rw [List.mem_singleton.mp hfile, hthen.index, hnow.index]

/-- A run leads to a world that holds a shelf, and each of its tables was added by an event. -/
structure Leads (events : List Event) (s : Shelf) : Prop where
  keeps : (start.run events).Keeps s
  added : ∀ sheet ∈ s.sheets, ∃ c before e after, events = before ++ e :: after ∧
    Added sheet c before e after

theorem leads_nil : Leads [] Shelf.empty where
  keeps := keeps_start
  added := fun _ h => absurd h List.not_mem_nil

theorem exists_leads_step (h : Leads events s) {last : Event} (haccepted : last.IsAccepted)
    (hsize : s.weight + Pairs.weight last.writes < Sheet.capacity) :
    ∃ next : Shelf, Leads (events ++ [last]) next ∧
      next.weight ≤ s.weight + Pairs.weight last.writes := by
  obtain ⟨next, hnext, hweight, hgrows⟩ := exists_keeps_step h.keeps haccepted hsize
  have hrun : start.run (events ++ [last]) = (start.run events).step last := run_append _ _ _
  rw [← hrun] at hnext
  refine ⟨next, ⟨hnext, fun sheet hsheet => ?_⟩, hweight⟩
  have hin := hnext.isIn hsheet
  rcases hgrows sheet hsheet with hold | ⟨hnew, writer, hwriter, hc, hmarked⟩
  · obtain ⟨c, before, e, after, rfl, hadded⟩ := h.added sheet hold
    rw [List.append_assoc, List.cons_append] at hin ⊢
    exact ⟨c, before, e, after ++ [last], rfl, hadded.concat hin⟩
  · refine ⟨writer.settings, events, last, [], rfl, hc, ⟨writer, hwriter, rfl⟩, hmarked, hnew, ?_⟩
    intro next hnext
    rw [List.prefix_nil.mp hnext]
    exact hin

theorem exists_leads_run (h : Leads events s) {more : List Event}
    (haccepted : ∀ e ∈ more, e.IsAccepted)
    (hsize : s.weight + Event.volume more < Sheet.capacity) :
    ∃ last : Shelf, Leads (events ++ more) last ∧ last.weight ≤ s.weight + Event.volume more := by
  induction more generalizing events s with
  | nil =>
    rw [List.append_nil]
    exact ⟨s, h, Nat.le_add_right _ _⟩
  | cons e more ih =>
    rw [volume_cons] at hsize ⊢
    rw [List.forall_mem_cons] at haccepted
    obtain ⟨next, hnext, hweight⟩ := exists_leads_step h haccepted.1 (by omega)
    obtain ⟨last, hlast, hle⟩ := ih hnext haccepted.2 (by omega)
    rw [List.append_assoc, List.singleton_append] at hlast
    exact ⟨last, hlast, by omega⟩

/-- The engine of a world lists the tables of the shelf, and each is what its files give. -/
theorem Keeps.tables {e : Engine} (h : w.Keeps s) (hsize : s.weight < Sheet.capacity)
    (he : w.engine = some e) :
    e.tables.map Table.name = s.sheets.map Sheet.name ∧
      ∀ t ∈ e.tables, Table.load e.directory t.name w.files = .ok t := by
  have htables : ∃ c, e.tables = (s.engine c).tables ∧ e.directory = c.dataDir := by
    have hserves := h.serves
    rw [he] at hserves
    cases hserves with
    | opened c _ => exact ⟨c, rfl, rfl⟩
    | closed c _ => exact ⟨c, rfl, rfl⟩
  obtain ⟨c, htables, hdirectory⟩ := htables
  rw [htables, hdirectory]
  refine ⟨List.map_map, fun t ht => ?_⟩
  obtain ⟨sheet, hsheet, rfl⟩ := List.mem_map.mp ht
  have hshort := Sheet.isShort_of_lt (Nat.lt_of_le_of_lt (s.length_text_le hsheet) hsize)
  exact Sheet.load_table c.dataDir hshort (h.isIn hsheet)

/-- In every world that a run leads to, the tables in the directory are those of the engine, each
listed once.  Each has its records in the order of their keys and, for the sample with which it was
written, the places of the sampled ones; and it was written once. -/
theorem tables_represented (haccepted : ∀ e ∈ events, e.IsAccepted)
    (hsize : Event.volume events < Sheet.capacity) :
    (∀ e, (start.run events).engine = some e →
      ((start.run events).files.names.filter TableName.isTable).Perm (e.tables.map Table.name) ∧
      (e.tables.map Table.name).Nodup ∧
      ∀ t ∈ e.tables, Table.load e.directory t.name (start.run events).files = .ok t) ∧
    ∀ name ∈ (start.run events).files.names, TableName.isTable name = true →
      ∃ sample records, (start.run events).files.HoldsTable name sample records ∧
        WrittenOnce events name sample := by
  have hempty : Shelf.empty.weight = 0 := rfl
  obtain ⟨s, hleads, hweight⟩ := exists_leads_run leads_nil haccepted (by omega)
  rw [List.nil_append] at hleads
  have hbelow : s.weight < Sheet.capacity := by omega
  refine ⟨fun e he => ?_, fun name hname htable => ?_⟩
  · obtain ⟨hnames, hload⟩ := hleads.keeps.tables hbelow he
    have hon := hleads.keeps.created (by rw [he]; rfl)
    rw [hnames]
    exact ⟨Shelf.perm_names hon, hon.distinct, hload⟩
  · obtain ⟨sheet, hsheet, rfl⟩ := hleads.keeps.listed hname htable
    obtain ⟨c, before, e, after, rfl, hadded⟩ := hleads.added sheet hsheet
    exact ⟨c.indexSample, sheet.records,
      Sheet.holdsTable hadded.accepted (hleads.keeps.isIn hsheet)
        (Nat.lt_of_le_of_lt (s.length_text_le hsheet) hbelow) hadded.marked,
      hadded.writtenOnce⟩

/-- Two tables are written and merged when every second record is sampled, and then, with the clock
set back, a third one when every record is. -/
def sampledEvents : List Event :=
  [.start { Settings.eager with indexSample := .int 2 }, .put 5 "c" "1", .put 5 "a" "2", .compact 5,
    .start { Settings.eager with memtableLimit := .int 2 }, .put 3 "d" "3", .put 3 "b" "4"]

theorem run_sampled :
    (start.run sampledEvents).engine.isSome = true ∧
      (start.run sampledEvents).files.names.filter TableName.isTable
        = ["sst_7_compacted.jsonl", "sst_3.jsonl"] ∧
      (start.run sampledEvents).files.read? "sst_7_compacted.jsonl.idx"
        = some (Utf8.encode "\x7b\"a\": 0\x7d".toList) := by
  refine ⟨?_, ?_, ?_⟩
  · cbv
  · cbv
  · cbv

/-- The index of the merged table has the first of its two records only, as its sample asks, though
by now every record is sampled. -/
theorem tables_represented_sampled :
    (∃ e, (start.run sampledEvents).engine = some e ∧
      ["sst_7_compacted.jsonl", "sst_3.jsonl"].Perm (e.tables.map Table.name)) ∧
    (start.run sampledEvents).files.read? "sst_7_compacted.jsonl.idx"
      = some (Utf8.encode "\x7b\"a\": 0\x7d".toList) ∧
    ∃ sample records,
      (start.run sampledEvents).files.HoldsTable "sst_7_compacted.jsonl" sample records ∧
        WrittenOnce sampledEvents "sst_7_compacted.jsonl" sample := by
  have haccepted : ∀ e ∈ sampledEvents, e.IsAccepted := by
    intro e he
    simp only [sampledEvents, List.mem_cons, List.not_mem_nil, or_false] at he
    rcases he with rfl | rfl | rfl | rfl | rfl | rfl | rfl
    any_goals exact trivial
    · exact Settings.isAccepted_of_le (by decide) (by decide) _ _
    · exact Settings.isAccepted_of_le (by decide) (by decide) _ _
  have hsize : Event.volume sampledEvents < Sheet.capacity := Sheet.lt_capacity (by decide)
  obtain ⟨hengines, htables⟩ := tables_represented haccepted hsize
  obtain ⟨hengine, hnames, hindex⟩ := run_sampled
  obtain ⟨e, he⟩ := Option.isSome_iff_exists.mp hengine
  have hperm := (hengines e he).1
  rw [hnames] at hperm
  have hlisted : "sst_7_compacted.jsonl"
      ∈ (start.run sampledEvents).files.names.filter TableName.isTable := by
    rw [hnames]
    exact List.mem_cons_self
  obtain ⟨hname, htable⟩ := List.mem_filter.mp hlisted
  exact ⟨⟨e, he, hperm⟩, hindex, htables _ hname htable⟩

end World
end SchemaStore
