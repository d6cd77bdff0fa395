import SchemaStore.Proofs.Storage.Worlds

/-!
Recovery after a crash.  An engine lists its tables in the order in which they were written, and an
engine that is opened takes them in the order of their names.  Where the two orders are the same,
opening the directory gives back the engine that was lost: the log holds every write since the last
flush, so the memtable comes back with its keys in their order, and no file is written.
-/

namespace SchemaStore

namespace Engine

/-- The engine with other settings, which may name its directory by another path. -/
def under (e : Engine) (c : Settings) : Engine :=
  { e with
    settings := c
    log := { e.log with directory := c.dataDir }
    tables := e.tables.map fun t => { t with directory := c.dataDir } }

def IsInOrder (e : Engine) : Prop := e.tables.Pairwise fun a b => a.name ≤ b.name

theorem under_engine (s : Shelf) (c d : Settings) : (s.engine c).under d = s.engine d := by
  unfold under Shelf.engine
  simp only [List.map_map]
  rfl

end Engine

namespace Shelf

theorem sortSheets_of_pairwise {sheets : List Sheet}
    (h : sheets.Pairwise fun a b => a.name ≤ b.name) : sortSheets sheets = sheets := by
  unfold sortSheets
  apply List.mergeSort_of_pairwise
  apply h.imp
  intro a b hab
  simp only [Bool.not_eq_true', decide_eq_false_iff_not]
  exact String.not_lt.mpr hab

theorem reopened_of_isInOrder {s : Shelf} {c : Settings} (h : (s.engine c).IsInOrder) :
    s.reopened = s := by
  have hsheets : (s.sheets.map fun sheet => sheet.table c.dataDir).Pairwise
      fun a b => a.name ≤ b.name := h
  rw [List.pairwise_map] at hsheets
  unfold reopened
  rw [sortSheets_of_pairwise hsheets]

end Shelf

namespace World

/-- Crashes, after each of which an engine is opened with settings of its own. -/
def recoveries (cs : List Settings) : List Event := cs.flatMap fun c => [.crash, .start c]

variable {w : World} {s : Shelf}

theorem run_recovery (hon : s.IsOn w.files) (hsize : s.weight < Sheet.capacity)
    (horder : s.reopened = s) (c : Settings) :
    w.run [.crash, .start c] = { w with engine := some (s.engine c) } := by
  have hfiles : w.files.touch Engine.logName = w.files := Directory.touch_of_read? hon.log
  have hcrash : s.IsOn ((w.step .crash).files.touch Engine.logName) := by
    show s.IsOn (w.files.touch Engine.logName)
    rw [hfiles]
    exact hon
  show (w.step .crash).step (.start c) = _
  rw [step_start hcrash hsize c, horder]
  show ({ files := w.files.touch Engine.logName, engine := some (s.engine c),
          written := w.written } : World) = _
  rw [hfiles]

/-- Every recovery finds the same files, so only the settings of the last one are left. -/
theorem run_recoveries (hon : s.IsOn w.files) (hsize : s.weight < Sheet.capacity)
    (horder : s.reopened = s) (cs : List Settings) (c : Settings) :
    w.run (recoveries (cs ++ [c])) = { w with engine := some (s.engine c) } := by
  induction cs generalizing w with
  | nil => exact run_recovery hon hsize horder c
  | cons d rest ih =>
    show w.run ([.crash, .start d] ++ recoveries (rest ++ [c])) = _
    rw [run_append, run_recovery hon hsize horder d]
    apply ih
    exact hon

/-- An open engine that is lost comes back, however often it is lost, if its tables are in the
order of their names: the same memtable, tables and files, and the same answers. -/
theorem recovery_faithful {events : List Event} (haccepted : ∀ e ∈ events, e.IsAccepted)
    (hsize : Event.volume events < Sheet.capacity) {e : Engine}
    (hengine : (start.run events).engine = some e) (hopen : e.isClosed = false)
    (horder : e.IsInOrder) (cs : List Settings) (c : Settings) :
    let w := start.run events
    let after := w.run (recoveries (cs ++ [c]))
    after.files = w.files ∧ after.engine = some (e.under c) ∧
      (∀ key, ∃ value,
        Engine.get (.str key) { engine := e, files := w.files }
          = .ok value { engine := e, files := w.files } ∧
        Engine.get (.str key) { engine := e.under c, files := after.files }
          = .ok value { engine := e.under c, files := after.files }) ∧
      ∀ opening, ∃ found,
        Engine.scan opening { engine := e, files := w.files }
          = .ok found { engine := e, files := w.files } ∧
        Engine.scan opening { engine := e.under c, files := after.files }
          = .ok found { engine := e.under c, files := after.files } := by
  have hempty : Shelf.empty.weight = 0 := rfl
  obtain ⟨s, hkeeps, hweight⟩ := exists_keeps_run keeps_start haccepted (by omega)
  have hon : s.IsOn (start.run events).files := hkeeps.created (by rw [hengine]; rfl)
  -- An engine that is open is the shelf itself, under the settings it was opened with.
  obtain ⟨d, rfl⟩ : ∃ d, e = s.engine d := by
    have hserves := hkeeps.serves
    rw [hengine] at hserves
    cases hserves with
    | opened d _ => exact ⟨d, rfl⟩
    | closed d _ => exact absurd hopen Bool.noConfusion
  have hsame := Shelf.reopened_of_isInOrder horder
  have hrun := run_recoveries hon (by omega) hsame cs c
  intro w after
  have hafter : after = { w with engine := some (s.engine c) } := hrun
  rw [hafter, Engine.under_engine]
  refine ⟨rfl, rfl, fun key => ?_, fun opening => ?_⟩
  · exact ⟨_, Engine.get_shelf hon d key, Engine.get_shelf hon c key⟩
  · exact ⟨_, Engine.scan_shelf hon d opening, Engine.scan_shelf hon c opening⟩

/-- Settings under which nothing is flushed unless it is asked for. -/
def roomy : Settings :=
  { Settings.eager with memtableLimit := .int 100, indexSample := .int 2 }

/-- Two tables are written one after the other; then a key of the first table, a new one and the
first again are written, which the memtable keeps in the order of their first writes. -/
def overwriteEvents : List Event :=
  [.start roomy, .put 1700000000000 "b" "1", .flush 1700000000000,
    .put 1700000000000 "d" "2", .flush 1700000000000, .put 1700000000000 "b" "3",
    .putNew 1700000000000 "c" "4", .put 1700000000000 "b" "5"]

theorem run_overwrite :
    let engine := (start.run overwriteEvents).engine
    engine.map Engine.isClosed = some false ∧
      (engine.map fun e => e.tables.map Table.name)
        = some ["sst_1700000000000.jsonl", "sst_1700000000001.jsonl"] ∧
      (engine.map fun e => e.memtable.map fun r => r.1.text) = some ["b", "c"] := by
  decide +kernel

theorem recovery_faithful_overwrite :
    ∃ e, (start.run overwriteEvents).engine = some e ∧ e.memtable.length = 2 ∧
      ∀ (cs : List Settings) (c : Settings),
        ((start.run overwriteEvents).run (recoveries (cs ++ [c]))).engine = some (e.under c) := by
  obtain ⟨hclosed, htables, hmemtable⟩ := run_overwrite
  obtain ⟨e, he⟩ : ∃ e, (start.run overwriteEvents).engine = some e := by
    rw [← Option.isSome_iff_exists, ← Option.isSome_map, hclosed]
    rfl
  rw [he] at hclosed htables hmemtable
  have haccepted : ∀ e ∈ overwriteEvents, e.IsAccepted := by
    intro e he
    simp only [overwriteEvents, List.mem_cons, List.not_mem_nil, or_false] at he
    rcases he with rfl | rfl | rfl | rfl | rfl | rfl | rfl | rfl
    · exact Settings.isAccepted_of_le (by decide) (by decide) _ _
    all_goals exact trivial
  have horder : e.IsInOrder := by
    unfold Engine.IsInOrder
    have hnames : (e.tables.map Table.name).Pairwise (· ≤ ·) := by
      have heq : e.tables.map Table.name = _ := Option.some.inj htables
      rw [heq]
      decide
    exact List.pairwise_map.mp hnames
  refine ⟨e, he, ?_, fun cs c => ?_⟩
  · have := congrArg List.length (Option.some.inj hmemtable)
    rwa [List.length_map] at this
  · exact (recovery_faithful haccepted (Sheet.lt_capacity (by decide)) he
      (Option.some.inj hclosed) horder cs c).2.1

end World
end SchemaStore
