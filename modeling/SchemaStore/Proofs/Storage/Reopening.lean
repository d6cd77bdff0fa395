import SchemaStore.Proofs.Storage.Worlds

/-!
Opening a directory again.  An engine that is opened takes the tables in the order of their names
for the order in which they were written.  So all values are the last ones exactly if, for each key
that is not in the log, the last name among the tables that hold the key belongs to the table with
its last value.  Compaction frees names, and then the order of names can be the wrong one.
-/

namespace SchemaStore

/-! ## What is in the files -/

namespace Directory

def HasLine (files : Directory) (name : String) (l : List Char) : Prop :=
  ∃ content, files.read? name = some content ∧ l ∈ (Text.storedLines [] content).1

instance (files : Directory) (name : String) (l : List Char) : Decidable (files.HasLine name l) :=
  decidable_of_iff
    ((files.read? name).any fun content => l ∈ (Text.storedLines [] content).1)
    (by simp [HasLine, Option.any_eq_true])

def LogHas (files : Directory) (key : String) : Prop :=
  ∃ value, files.HasLine Engine.logName (Log.writeText (key, value))

def TableHas (files : Directory) (name key value : String) : Prop :=
  TableName.isTable name = true ∧ files.HasLine name (Table.recordText (key, value))

/-- Of all tables that have a key, the one with the last name has it with a value. -/
def LastTableHas (files : Directory) (key value : String) : Prop :=
  ∃ name, files.TableHas name key value ∧
    ∀ other old, files.TableHas other key old → other ≤ name

theorem TableHas.mem_names {files : Directory} {name key value : String}
    (h : files.TableHas name key value) : name ∈ files.names := by
  obtain ⟨_, _, hread, _⟩ := h
  exact mem_names_of_read? hread

end Directory

namespace Pairs

theorem mem_keys_foldl_set {m writes : Pairs} {key : String} :
    key ∈ keys (writes.foldl (fun m p => m.set p.1 p.2) m) ↔ key ∈ m.keys ∨ key ∈ writes.keys := by
  induction writes generalizing m with
  | nil => simp [keys]
  | cons p writes ih =>
    rw [List.foldl_cons, ih, mem_keys_set]
    show _ ↔ key ∈ m.keys ∨ key ∈ p.1 :: keys writes
    rw [List.mem_cons]
    constructor
    · rintro ((h | h) | h)
      · exact .inr (.inl h)
      · exact .inl h
      · exact .inr (.inr h)
    · rintro (h | h | h)
      · exact .inl (.inr h)
      · exact .inl (.inl h)
      · exact .inr h

end Pairs

namespace Shelf

variable {s : Shelf} {files : Directory}

theorem logHas_iff (h : s.IsOn files) (key : String) :
    files.LogHas key ↔ s.memory.lookup key ≠ none := by
  rw [ne_eq, Pairs.lookup_eq_none_iff, Decidable.not_not, memory, Pairs.ofWrites,
    Pairs.mem_keys_foldl_set]
  constructor
  · rintro ⟨value, content, hread, hline⟩
    rw [h.log] at hread
    rw [← Option.some.inj hread, Log.storedLines_textOf] at hline
    obtain ⟨p, hp, htext⟩ := List.mem_map.mp hline
    rw [Log.writeText_injective htext] at hp
    exact .inr (List.mem_map.mpr ⟨_, hp, rfl⟩)
  · rintro (hin | hin)
    · exact absurd hin List.not_mem_nil
    · obtain ⟨p, hp, rfl⟩ := List.mem_map.mp hin
      refine ⟨p.2, _, h.log, ?_⟩
      rw [Log.storedLines_textOf]
      exact List.mem_map.mpr ⟨p, hp, rfl⟩

theorem tableHas_iff (h : s.IsOn files) (name key value : String) :
    files.TableHas name key value ↔
      ∃ sheet ∈ s.sheets, sheet.name = name ∧ sheet.records.lookup key = some value := by
  constructor
  · rintro ⟨htable, content, hread, hline⟩
    obtain ⟨sheet, hsheet, hname⟩ := List.mem_map.mp
      (h.listed name (Directory.mem_names_of_read? hread) htable)
    rw [← hname, (h.sheets sheet hsheet).data] at hread
    rw [← Option.some.inj hread, Sheet.text, Sheet.storedLines_textOf] at hline
    obtain ⟨p, hp, htext⟩ := List.mem_map.mp hline
    rw [Table.recordText_injective htext] at hp
    have hnodup := Pairs.nodup_keys_of_ascending sheet.ascending
    exact ⟨sheet, hsheet, hname, Pairs.lookup_of_mem hnodup hp⟩
  · rintro ⟨sheet, hsheet, rfl, hlookup⟩
    refine ⟨h.tables sheet hsheet, _, (h.sheets sheet hsheet).data, ?_⟩
    rw [Sheet.text, Sheet.storedLines_textOf]
    exact List.mem_map.mpr ⟨_, Pairs.mem_of_lookup hlookup, rfl⟩

/-- Among tables with falling names, a look-up finds what the one with the greatest name holds. -/
theorem findSome?_of_falling {sheets : List Sheet}
    (h : sheets.Pairwise fun a b => b.name < a.name) (key value : String) :
    ((sheets.map Sheet.records).findSome? fun m => m.lookup key) = some value ↔
      ∃ t ∈ sheets, t.records.lookup key = some value ∧
        ∀ u ∈ sheets, u.records.lookup key ≠ none → u.name ≤ t.name := by
  induction sheets with
  | nil => simp
  | cons first rest ih =>
    obtain ⟨hfirst, hrest⟩ := List.pairwise_cons.mp h
    rw [List.map_cons, List.findSome?_cons]
    cases hlookup : first.records.lookup key with
    | some v =>
      show some v = some value ↔ _
      constructor
      · intro heq
        refine ⟨first, List.mem_cons_self, hlookup.trans heq, fun u hu _ => ?_⟩
        rcases List.mem_cons.mp hu with rfl | hu
        · exact String.le_refl _
        · exact Order.le_of_lt (hfirst u hu)
      · rintro ⟨t, ht, hvalue, hlast⟩
        rcases List.mem_cons.mp ht with rfl | ht
        · exact hlookup.symm.trans hvalue
        · have hle := hlast first List.mem_cons_self (by rw [hlookup]; exact Option.some_ne_none v)
          exact absurd (hfirst t ht) (String.not_lt.mpr hle)
    | none =>
      show (List.findSome? _ _ = _) ↔ _
      rw [ih hrest]
      constructor
      · rintro ⟨t, ht, hvalue, hlast⟩
        refine ⟨t, List.mem_cons_of_mem first ht, hvalue, fun u hu hkey => ?_⟩
        rcases List.mem_cons.mp hu with rfl | hu
        · exact absurd hlookup hkey
        · exact hlast u hu hkey
      · rintro ⟨t, ht, hvalue, hlast⟩
        rcases List.mem_cons.mp ht with rfl | ht
        · rw [hlookup] at hvalue
          exact absurd hvalue.symm (Option.some_ne_none value)
        · exact ⟨t, ht, hvalue, fun u hu => hlast u (List.mem_cons_of_mem first hu)⟩

theorem falling_reverse_sortSheets {sheets : List Sheet} (h : (sheets.map Sheet.name).Nodup) :
    (sortSheets sheets).reverse.Pairwise fun a b => b.name < a.name := by
  rw [List.pairwise_reverse]
  have hle : ((sortSheets sheets).map Sheet.name).Pairwise (· ≤ ·) := by
    rw [map_name_sortSheets]
    exact Order.pairwise_sortTexts _
  have hne : (sortSheets sheets).Pairwise fun a b => a.name ≠ b.name :=
    List.pairwise_map.mp (((perm_sortSheets sheets).map _).nodup_iff.mpr h)
  exact (List.pairwise_map.mp hle).imp₂ (fun _ _ h h' => Order.lt_of_le_of_ne h h') hne

theorem lookup_merged_reopened (h : (s.sheets.map Sheet.name).Nodup) (key value : String) :
    s.reopened.merged.lookup key = some value ↔
      ∃ t ∈ s.sheets, t.records.lookup key = some value ∧
        ∀ u ∈ s.sheets, u.records.lookup key ≠ none → u.name ≤ t.name := by
  have hmem : ∀ t, t ∈ (sortSheets s.sheets).reverse ↔ t ∈ s.sheets :=
    fun t => List.mem_reverse.trans (perm_sortSheets s.sheets).mem_iff
  rw [merged, Pairs.lookup_layered, tableLayers]
  show List.findSome? _ ((sortSheets s.sheets).reverse.map Sheet.records) = _ ↔ _
  rw [findSome?_of_falling (falling_reverse_sortSheets h)]
  simp only [hmem]

theorem lastTableHas_iff (h : s.IsOn files) (key value : String) :
    files.LastTableHas key value ↔ s.reopened.merged.lookup key = some value := by
  rw [lookup_merged_reopened h.distinct]
  constructor
  · rintro ⟨name, htable, hlast⟩
    obtain ⟨t, ht, rfl, hvalue⟩ := (tableHas_iff h _ _ _).mp htable
    refine ⟨t, ht, hvalue, fun u hu hkey => ?_⟩
    obtain ⟨old, hold⟩ := Option.ne_none_iff_exists'.mp hkey
    exact hlast u.name old ((tableHas_iff h _ _ _).mpr ⟨u, hu, rfl, hold⟩)
  · rintro ⟨t, ht, hvalue, hlast⟩
    refine ⟨t.name, (tableHas_iff h _ _ _).mpr ⟨t, ht, rfl, hvalue⟩, fun other old hother => ?_⟩
    obtain ⟨u, hu, rfl, hold⟩ := (tableHas_iff h _ _ _).mp hother
    exact hlast u hu (by rw [hold]; exact Option.some_ne_none old)

/-- What the log does not have is looked up in the last table. -/
theorem lookup_reopened_eq_some_iff (h : s.IsOn files) {key : String} (hlog : ¬files.LogHas key)
    (value : String) : s.reopened.lookup key = some value ↔ files.LastTableHas key value := by
  have hmemory : s.memory.lookup key = none := by
    rw [logHas_iff h] at hlog
    exact Decidable.not_not.mp hlog
  rw [lastTableHas_iff h, lookup_eq_or]
  show (s.memory.lookup key).or _ = _ ↔ _
  rw [hmemory, Option.none_or]

end Shelf

/-! ## What is found after opening -/

namespace World

/-- For every key that is not in the log, the last table that has the key has its last value. -/
def IsInOrder (w : World) : Prop :=
  ∀ key value, w.written key = some value → ¬w.files.LogHas key → w.files.LastTableHas key value

theorem orNull_injective {a b : Option String} (h : Value.orNull a = Value.orNull b) : a = b := by
  cases a <;> cases b <;> cases h <;> rfl

theorem lookup_reopened_iff {w : World} {s : Shelf} (hon : s.IsOn w.files)
    (hrecent : ∀ key value, s.memory.lookup key = some value → w.written key = some value)
    (hknown : ∀ key, w.written key = none → s.lookup key = none) :
    (∀ key, s.reopened.lookup key = w.written key) ↔ w.IsInOrder := by
  constructor
  · intro hall key value hwritten hlog
    rw [← Shelf.lookup_reopened_eq_some_iff hon hlog, hall, hwritten]
  · intro horder key
    cases hmemory : s.memory.lookup key with
    | some value =>
      rw [Shelf.lookup_eq_or]
      show (s.memory.lookup key).or _ = _
      rw [hmemory]
      exact (hrecent key value hmemory).symm
    | none =>
      -- Memory is what the log has, so the key can only be in a table.
      have hlog : ¬w.files.LogHas key := fun hin => (Shelf.logHas_iff hon key).mp hin hmemory
      cases hwritten : w.written key with
      | none => exact lookup_reopened_eq_none s (hknown key hwritten)
      | some value =>
        exact (Shelf.lookup_reopened_eq_some_iff hon hlog value).mpr
          (horder key value hwritten hlog)

/-- After any run an engine can be opened, on the shelf that the files hold. -/
theorem exists_step_start {events : List Event} (haccepted : ∀ e ∈ events, e.IsAccepted)
    (hsize : Event.volume events < Sheet.capacity) (c : Settings) :
    ∃ s : Shelf, (start.run events).Keeps s ∧
      (start.run events).step (.start c)
        = { start.run events with files := (start.run events).files.touch Engine.logName
                                  engine := some (s.reopened.engine c) } := by
  have hempty : Shelf.empty.weight = 0 := rfl
  obtain ⟨s, hkeeps, hweight⟩ := exists_keeps_run keeps_start haccepted (by omega)
  exact ⟨s, hkeeps, step_start hkeeps.isOn (by omega) c⟩

/-- Whatever has happened before, an engine can be opened, and it then answers every key with its
last value exactly if, for the keys that are not in the log, the last tables have the last
values.  The bound is that of the numbers that can be read back from an index. -/
theorem get_started_iff {events : List Event} (haccepted : ∀ e ∈ events, e.IsAccepted)
    (hsize : Event.volume events < Sheet.capacity) (c : Settings) :
    let w := (start.run events).step (.start c)
    ∃ e, w.engine = some e ∧
      ((∀ key, Engine.get (.str key) { engine := e, files := w.files }
          = .ok (Value.orNull (w.written key)) { engine := e, files := w.files }) ↔
        w.IsInOrder) := by
  obtain ⟨s, hkeeps, hstep⟩ := exists_step_start haccepted hsize c
  rw [hstep]
  have hon := Shelf.isOn_reopened hkeeps.isOn
  refine ⟨s.reopened.engine c, rfl, ?_⟩
  refine Iff.trans ?_ (lookup_reopened_iff hkeeps.isOn hkeeps.recent hkeeps.known)
  refine forall_congr' fun key => ?_
  rw [Engine.get_shelf hon]
  constructor
  · intro heq
    injection heq with hvalue
    exact orNull_injective hvalue
  · intro heq
    rw [heq]

open Settings (eager eager_isAccepted)

/-- A key is written twice within a millisecond, the two tables are compacted, and the key is
written once more.  Compaction has freed the first name, which the new table takes. -/
def staleEvents : List Event :=
  [.start eager, .put 1700000000000 "a" "1", .put 1700000000000 "a" "2", .compact 1700000000000,
    .put 1700000000000 "a" "3", .crash]

theorem isAccepted_stale : ∀ e ∈ staleEvents, e.IsAccepted := by
  intro e he
  simp only [staleEvents, List.mem_cons, List.not_mem_nil, or_false] at he
  rcases he with rfl | rfl | rfl | rfl | rfl | rfl
  · exact eager_isAccepted
  all_goals exact trivial

theorem get_started_iff_stale :
    let w := (start.run staleEvents).step (.start eager)
    ∃ e, w.engine = some e ∧
      ((∀ key, Engine.get (.str key) { engine := e, files := w.files }
          = .ok (Value.orNull (w.written key)) { engine := e, files := w.files }) ↔
        w.IsInOrder) :=
  get_started_iff isAccepted_stale (Sheet.lt_capacity (by decide)) eager

/-- The log is empty, and the name of the compacted table is the last one. -/
theorem run_stale :
    let w := start.run staleEvents
    w.written "a" = some "3" ∧ w.files.read? Engine.logName = some [] ∧
      (∀ name ∈ w.files.names, TableName.isTable name = true →
        name ≤ "sst_1700000000002_compacted.jsonl") ∧
      w.files.HasLine "sst_1700000000002_compacted.jsonl" (Table.recordText ("a", "2")) := by
  decide +kernel

/-- The key has its second value again, not its third. -/
theorem get_started_stale :
    let w := (start.run staleEvents).step (.start eager)
    ∃ e, w.engine = some e ∧ w.written "a" = some "3" ∧
      Engine.get (.str "a") { engine := e, files := w.files }
        = .ok (.str "2") { engine := e, files := w.files } := by
  obtain ⟨hwritten, hread, hnames, hline⟩ := run_stale
  obtain ⟨s, hkeeps, hstep⟩ :=
    exists_step_start isAccepted_stale (Sheet.lt_capacity (by decide)) eager
  have hon := hkeeps.isOn
  rw [Directory.touch_of_read? hread] at hstep hon
  have hlog : ¬(start.run staleEvents).files.LogHas "a" := by
    rintro ⟨value, content, hcontent, hin⟩
    rw [hread] at hcontent
    obtain rfl := Option.some.inj hcontent
    exact absurd hin List.not_mem_nil
  have hlast : (start.run staleEvents).files.LastTableHas "a" "2" :=
    ⟨_, ⟨by decide, hline⟩, fun other old hother => hnames other hother.mem_names hother.1⟩
  have hlookup := (Shelf.lookup_reopened_eq_some_iff hon hlog "2").mpr hlast
  rw [hstep]
  refine ⟨s.reopened.engine eager, rfl, hwritten, ?_⟩
  rw [Engine.get_shelf (Shelf.isOn_reopened hon), hlookup]
  rfl

end World
end SchemaStore
