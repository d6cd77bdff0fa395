import SchemaStore.Proofs.Storage.Operations

/-!
Runs over many lifetimes.  A world is a directory with the engine that is open on it, if one is.
Engines are opened with settings that may differ each time, they are used, closed, or lost in a
crash; beside all this the world remembers what was written last for each key.
-/

namespace SchemaStore

/-- What happens in a world.  Where a table may be written, the event comes with the reading of the
clock. -/
inductive Event where
  /-- An engine is opened; one that was open before is forgotten. -/
  | start (c : Settings)
  | put (clock : Int) (key value : String)
  | putNew (clock : Int) (key value : String)
  | flush (clock : Int)
  | compact (clock : Int)
  | close (clock : Int)
  /-- The engine is lost, and the files stay as they are. -/
  | crash

namespace Event

def IsAccepted (e : Event) : Prop :=
  match e with
  | start c => c.IsAccepted
  | _ => True

def writes (e : Event) : Pairs :=
  match e with
  | put _ key value | putNew _ key value => [(key, value)]
  | _ => []

def volume (events : List Event) : Nat := Pairs.weight (events.flatMap writes)

end Event

structure World where
  files : Directory
  engine : Option Engine
  /-- The value of the last successful write of each key. -/
  written : String → Option String

namespace World

def start : World := { files := [], engine := none, written := fun _ => none }

/-- The last writes after another one. -/
def record (written : String → Option String) (key value : String) : String → Option String :=
  fun other => if key = other then some value else written other

/-- Lets the engine act, if one is there.  What it has written when it succeeds is read off its
answer. -/
def act {α : Type} (w : World) (action : Action α) (written : α → String → Option String) : World :=
  match w.engine with
  | none => w
  | some e =>
    match action { engine := e, files := w.files } with
    | .ok a site => { files := site.files, engine := some site.engine, written := written a }
    | .error _ site => { w with files := site.files, engine := some site.engine }

def step (w : World) (e : Event) : World :=
  match e with
  | .start c =>
    let (result, files) := Engine.openAt c w.files
    { w with files := files, engine := result.toOption }
  | .put clock key value =>
    w.act (Engine.put clock (.str key) (.str value)) fun _ => record w.written key value
  | .putNew clock key value =>
    w.act (Engine.putNew clock (.str key) (.str value)) fun isNew =>
      if isNew then record w.written key value else w.written
  | .flush clock => w.act (Engine.flush clock) fun _ => w.written
  | .compact clock => w.act (Engine.compact clock) fun _ => w.written
  | .close clock => w.act (Engine.close clock) fun _ => w.written
  | .crash => { w with engine := none }

def run (w : World) (events : List Event) : World := events.foldl step w

theorem run_append (w : World) (first second : List Event) :
    w.run (first ++ second) = (w.run first).run second :=
  List.foldl_append

/-! ## What a world holds -/

/-- The engine of a world is one that holds a shelf, open or closed. -/
inductive Serves (s : Shelf) : Option Engine → Prop where
  | none : Serves s none
  | opened (c : Settings) (hc : c.IsAccepted) : Serves s (some (s.engine c))
  | closed (c : Settings) (hempty : s.writes = []) : Serves s (some (Engine.closedEngine s c))

/-- A world holds a shelf: the files are those of the shelf, once the log has been created, and
nothing is held that was not written.  The log holds last writes only. -/
structure Keeps (w : World) (s : Shelf) : Prop where
  serves : Serves s w.engine
  isOn : s.IsOn (w.files.touch Engine.logName)
  created : w.engine.isSome = true → s.IsOn w.files
  recent : ∀ key value, s.memory.lookup key = some value → w.written key = some value
  known : ∀ key, w.written key = none → s.lookup key = none

theorem keeps_start : start.Keeps Shelf.empty where
  serves := .none
  isOn := Shelf.isOn_empty
  created := fun h => absurd h Bool.false_ne_true
  recent := fun _ _ h => absurd h (Option.some_ne_none _).symm
  known := fun _ _ => rfl

variable {w : World} {s : Shelf}

theorem act_of_ok {α : Type} {action : Action α} {written : α → String → Option String}
    {e : Engine} (he : w.engine = some e) {a : α} {site : Site}
    (h : action { engine := e, files := w.files } = .ok a site) :
    w.act action written
      = { files := site.files, engine := some site.engine, written := written a } := by
  rw [act, he]
  simp only [h]

theorem act_of_none {α : Type} (action : Action α) (written : α → String → Option String)
    (he : w.engine = none) : w.act action written = w := by
  rw [act, he]

/-- An action that fails and changes nothing leaves the world as it is. -/
theorem act_of_error {α : Type} {action : Action α} {written : α → String → Option String}
    {e : Engine} (he : w.engine = some e) {failure : Failure}
    (h : action { engine := e, files := w.files }
      = .error failure { engine := e, files := w.files }) :
    w.act action written = w := by
  rw [act, he]
  simp only [h]
  rw [← he]

/-- Opening gives an engine whose tables are in the order of their names. -/
theorem step_start (hon : s.IsOn (w.files.touch Engine.logName)) (hsize : s.weight < Sheet.capacity)
    (c : Settings) :
    w.step (.start c)
      = { w with files := w.files.touch Engine.logName
                 engine := some (s.reopened.engine c) } := by
  have hopen := Engine.openAt_touch hon c fun sheet hsheet =>
    Nat.lt_of_le_of_lt (s.length_text_le hsheet) hsize
  rw [step, hopen]
  rfl

/-- Files that are those of a shelf have a log already. -/
theorem keeps_of_isOn {files : Directory} {engine : Option Engine}
    {written : String → Option String} (hserves : Serves s engine) (hon : s.IsOn files)
    (hrecent : ∀ key value, s.memory.lookup key = some value → written key = some value)
    (hknown : ∀ key, written key = none → s.lookup key = none) :
    Keeps { files := files, engine := engine, written := written } s where
  serves := hserves
  isOn := by
    show s.IsOn (files.touch Engine.logName)
    rw [Directory.touch_of_read? hon.log]
    exact hon
  created := fun _ => hon
  recent := hrecent
  known := hknown

theorem lookup_reopened_eq_none (s : Shelf) {key : String} (h : s.lookup key = none) :
    s.reopened.lookup key = none := by
  rw [Shelf.lookup_eq_findSome?, List.findSome?_eq_none_iff] at h ⊢
  intro layer hlayer
  refine h layer ?_
  rcases List.mem_cons.mp hlayer with rfl | hlayer
  · exact List.mem_cons_self
  · obtain ⟨sheet, hsheet, rfl⟩ := List.mem_map.mp hlayer
    refine List.mem_cons_of_mem _ (List.mem_map.mpr ⟨sheet, ?_, rfl⟩)
    exact List.mem_reverse.mpr
      ((Shelf.perm_sortSheets s.sheets).mem_iff.mp (List.mem_reverse.mp hsheet))

theorem keeps_put {c : Settings} (hc : c.IsAccepted) (h : w.Keeps s) (name : String)
    (key value : String) {after : Directory} (hon : (s.put c name (key, value)).IsOn after) :
    Keeps { files := after, engine := some ((s.put c name (key, value)).engine c),
            written := record w.written key value } (s.put c name (key, value)) := by
  refine keeps_of_isOn (.opened c hc) hon (fun other v hv => ?_) (fun other hother => ?_)
  · -- What is in memory after the write is the write itself or was there before.
    have hmemory : (s.append (key, value)).memory.lookup other = some v := by
      rw [Shelf.put] at hv
      split at hv
      · rw [Shelf.flush] at hv
        split at hv
        · exact hv
        · exact absurd hv (Option.some_ne_none _).symm
      · exact hv
    rw [Shelf.memory_append, Pairs.lookup_set] at hmemory
    rw [record]
    split at hmemory
    · next heq => rw [if_pos heq, hmemory]
    · next hne =>
      rw [if_neg hne]
      exact h.recent other v hmemory
  · rw [record] at hother
    rw [Shelf.lookup_put]
    split at hother
    · exact absurd hother (Option.some_ne_none _)
    · next hne =>
      rw [if_neg hne]
      exact h.known other hother

theorem keeps_flush {name : String} {sample : Value} (h : w.Keeps s) {after : Directory}
    {engine : Option Engine} (hserves : Serves (s.flush name sample) engine)
    (hon : (s.flush name sample).IsOn after) :
    Keeps { files := after, engine := engine, written := w.written } (s.flush name sample) := by
  refine keeps_of_isOn hserves hon (fun key value hvalue => ?_) (fun key hkey => ?_)
  · rw [Shelf.flush] at hvalue
    split at hvalue
    · exact h.recent key value hvalue
    · exact absurd hvalue (Option.some_ne_none _).symm
  · rw [Shelf.lookup_flush]
    exact h.known key hkey

theorem keeps_compact {name : String} {sample : Value} (h : w.Keeps s) {after : Directory}
    {engine : Option Engine} (hserves : Serves (s.compact name sample) engine)
    (hon : (s.compact name sample).IsOn after) :
    Keeps { files := after, engine := engine, written := w.written } (s.compact name sample) := by
  refine keeps_of_isOn hserves hon (fun key value hvalue => ?_) (fun key hkey => ?_)
  · refine h.recent key value ?_
    rw [Shelf.compact] at hvalue
    split at hvalue <;> exact hvalue
  · rw [Shelf.lookup_compact]
    exact h.known key hkey

/-! ## What a world goes on holding -/

theorem step_of_none (he : w.engine = none) {e : Event} (hstart : ∀ c, e ≠ .start c) :
    w.step e = w := by
  cases e with
  | start c => exact absurd rfl (hstart c)
  | crash =>
    show ({ w with engine := none } : World) = w
    rw [← he]
  | _ => exact act_of_none _ _ he

theorem step_of_closed {c : Settings} (hempty : s.writes = [])
    (he : w.engine = some (Engine.closedEngine s c)) {e : Event} (hstart : ∀ c, e ≠ .start c)
    (hcrash : e ≠ .crash) : w.step e = w := by
  have hclosed : (Engine.closedEngine s c).isClosed = true := rfl
  have hmemtable := Engine.memtable_closedEngine hempty c
  have hsame : ({ files := w.files, engine := some (Engine.closedEngine s c),
                  written := w.written } : World) = w := by
    rw [← he]
  cases e with
  | start c => exact absurd rfl (hstart c)
  | crash => exact absurd rfl hcrash
  | put clock key value => exact act_of_error he (Engine.put_closed hclosed _ _ _)
  | putNew clock key value => exact act_of_error he (Engine.putNew_closed hclosed _ _ _)
  | compact clock => exact act_of_error he (Engine.compact_closed hclosed _)
  | flush clock =>
    exact (act_of_ok he (Engine.flush_of_memtable_nil hmemtable clock)).trans hsame
  | close clock => exact (act_of_ok he (Engine.close_closed hclosed clock)).trans hsame

theorem keeps_crash (h : w.Keeps s) : Keeps { w with engine := none } s where
  serves := .none
  isOn := h.isOn
  created := fun h => absurd h Bool.false_ne_true
  recent := h.recent
  known := h.known

theorem keeps_step_start {c : Settings} (hc : c.IsAccepted) (h : w.Keeps s)
    (hsize : s.weight < Sheet.capacity) : (w.step (.start c)).Keeps s.reopened := by
  rw [step_start h.isOn hsize]
  refine keeps_of_isOn (.opened c hc) (Shelf.isOn_reopened h.isOn) h.recent fun key hkey => ?_
  exact lookup_reopened_eq_none s (h.known key hkey)

/-- Every table of the next shelf was there before, or its name is new among the files and it is
marked as the settings of the engine say. -/
def Grows (w : World) (s next : Shelf) : Prop :=
  ∀ sheet ∈ next.sheets, sheet ∈ s.sheets ∨ sheet.name ∉ w.files.names ∧
    ∃ e, w.engine = some e ∧ e.settings.IsAccepted ∧
      sheet.isMarked = Table.isInStep e.settings.indexSample

theorem grows_refl (w : World) (s : Shelf) : w.Grows s s := fun _ h => .inl h

theorem grows_reopened (w : World) (s : Shelf) : w.Grows s s.reopened :=
  fun _ h => .inl ((Shelf.perm_sortSheets s.sheets).mem_iff.mp h)

theorem grows_of_isFrom {c : Settings} (hc : c.IsAccepted) (he : w.engine = some (s.engine c))
    {next : Shelf} {clock : Int} {suffix : String} (h : ∀ sheet ∈ next.sheets,
      s.IsFrom (TableName.next w.files.names clock suffix) c.indexSample sheet) : w.Grows s next := by
  intro sheet hsheet
  rcases h sheet hsheet with hold | ⟨hname, hmarked⟩
  · exact .inl hold
  · rw [hname]
    exact .inr ⟨TableName.next_notMem _ _ _, s.engine c, he, hc, hmarked⟩

theorem exists_keeps_of_opened {c : Settings} (hc : c.IsAccepted) (h : w.Keeps s)
    (he : w.engine = some (s.engine c)) {e : Event} (hstart : ∀ c, e ≠ .start c)
    (hsize : s.weight + Pairs.weight e.writes < Sheet.capacity) :
    ∃ next : Shelf, (w.step e).Keeps next ∧
      next.weight ≤ s.weight + Pairs.weight e.writes ∧ w.Grows s next := by
  have hon : s.IsOn w.files := h.created (by rw [he]; rfl)
  have hweight : s.weight < Sheet.capacity := by omega
  cases e with
  | start c => exact absurd rfl (hstart c)
  | crash => exact ⟨s, keeps_crash h, Nat.le_add_right _ _, grows_refl w s⟩
  | put clock key value =>
    obtain ⟨after, hput, hafter⟩ := Engine.put_shelf hc hon (key, value) hsize clock
    have hstep : w.step (.put clock key value) = _ := act_of_ok he hput
    rw [hstep]
    exact ⟨_, keeps_put hc h _ key value hafter, s.weight_put_le c _ (key, value),
      grows_of_isFrom hc he fun _ => Shelf.isFrom_put⟩
  | putNew clock key value =>
    cases hfound : s.lookup key with
    | some old =>
      have hstep : w.step (.putNew clock key value) = _ :=
        act_of_ok he (Engine.putNew_shelf_of_some hon c clock (.str value) hfound)
      rw [hstep]
      exact ⟨s, keeps_of_isOn (.opened c hc) hon h.recent h.known, Nat.le_add_right _ _,
        grows_refl w s⟩
    | none =>
      obtain ⟨after, hput, hafter⟩ := Engine.putNew_shelf_of_none hc hon (key, value) hsize
        clock hfound
      have hstep : w.step (.putNew clock key value) = _ := act_of_ok he hput
      rw [hstep]
      exact ⟨_, keeps_put hc h _ key value hafter, s.weight_put_le c _ (key, value),
        grows_of_isFrom hc he fun _ => Shelf.isFrom_put⟩
  | flush clock =>
    obtain ⟨after, hflush, hafter⟩ := Engine.flush_shelf hc hon hweight clock
    have hstep : w.step (.flush clock) = _ := act_of_ok he hflush
    rw [hstep]
    exact ⟨_, keeps_flush h (.opened c hc) hafter,
      Nat.le_trans (Nat.le_of_eq (s.weight_flush _ _)) (Nat.le_add_right _ _),
      grows_of_isFrom hc he fun _ => Shelf.isFrom_flush⟩
  | compact clock =>
    obtain ⟨after, hcompact, hafter⟩ := Engine.compact_shelf hc hon hweight clock
    have hstep : w.step (.compact clock) = _ := act_of_ok he hcompact
    rw [hstep]
    exact ⟨_, keeps_compact h (.opened c hc) hafter,
      Nat.le_trans (s.weight_compact_le _ _) (Nat.le_add_right _ _),
      grows_of_isFrom hc he fun _ => Shelf.isFrom_compact⟩
  | close clock =>
    obtain ⟨after, hclose, hafter⟩ := Engine.close_shelf hc hon hweight clock
    have hstep : w.step (.close clock) = _ := act_of_ok he hclose
    rw [hstep]
    exact ⟨_, keeps_flush h (.closed c (s.writes_flush _ _)) hafter,
      Nat.le_trans (Nat.le_of_eq (s.weight_flush _ _)) (Nat.le_add_right _ _),
      grows_of_isFrom hc he fun _ => Shelf.isFrom_flush⟩

/-- Every event leaves a world that holds a shelf, and no more than was held and written; tables are
only added under new names. -/
theorem exists_keeps_step (h : w.Keeps s) {e : Event} (he : e.IsAccepted)
    (hsize : s.weight + Pairs.weight e.writes < Sheet.capacity) :
    ∃ next : Shelf, (w.step e).Keeps next ∧
      next.weight ≤ s.weight + Pairs.weight e.writes ∧ w.Grows s next := by
  -- Opening does not depend on the engine that is there; every other event does.
  by_cases hstart : ∃ c, e = .start c
  · obtain ⟨c, rfl⟩ := hstart
    refine ⟨s.reopened, keeps_step_start he h (by omega), ?_, grows_reopened w s⟩
    rw [Shelf.weight_reopened]
    exact Nat.le_add_right _ _
  · have hstart : ∀ c, e ≠ .start c := fun c hc => hstart ⟨c, hc⟩
    have hserves := h.serves
    generalize hengine : w.engine = engine at hserves
    cases hserves with
    | none =>
      rw [step_of_none hengine hstart]
      exact ⟨s, h, Nat.le_add_right _ _, grows_refl w s⟩
    | opened c hc => exact exists_keeps_of_opened hc h hengine hstart hsize
    | closed c hempty =>
      by_cases hcrash : e = .crash
      · subst hcrash
        exact ⟨s, keeps_crash h, Nat.le_add_right _ _, grows_refl w s⟩
      · rw [step_of_closed hempty hengine hstart hcrash]
        exact ⟨s, h, Nat.le_add_right _ _, grows_refl w s⟩

theorem volume_cons (e : Event) (rest : List Event) :
    Event.volume (e :: rest) = Pairs.weight e.writes + Event.volume rest := by
  rw [Event.volume, List.flatMap_cons, Pairs.weight_append, ← Event.volume]

/-- A whole run leaves a world that holds a shelf. -/
theorem exists_keeps_run (h : w.Keeps s) {events : List Event}
    (haccepted : ∀ e ∈ events, e.IsAccepted)
    (hsize : s.weight + Event.volume events < Sheet.capacity) :
    ∃ last : Shelf, (w.run events).Keeps last ∧ last.weight ≤ s.weight + Event.volume events := by
  induction events generalizing w s with
  | nil => exact ⟨s, h, Nat.le_add_right _ _⟩
  | cons e rest ih =>
    rw [volume_cons] at hsize ⊢
    obtain ⟨next, hnext, hweight, -⟩ := exists_keeps_step h (haccepted e List.mem_cons_self)
      (by omega)
    obtain ⟨last, hlast, hle⟩ := ih hnext (fun e he => haccepted e (List.mem_cons_of_mem _ he))
      (by omega)
    exact ⟨last, hlast, by omega⟩

/-- An engine that is open at the end of a run is the shelf of its files, under the settings with
which it was opened. -/
theorem exists_opened {events : List Event} (haccepted : ∀ e ∈ events, e.IsAccepted)
    (hsize : Event.volume events < Sheet.capacity) {e : Engine}
    (hengine : (start.run events).engine = some e) (hopen : e.isClosed = false) :
    ∃ (s : Shelf) (c : Settings), c.IsAccepted ∧ e = s.engine c ∧
      s.IsOn (start.run events).files ∧ s.weight < Sheet.capacity := by
  have hempty : Shelf.empty.weight = 0 := rfl
  obtain ⟨s, hkeeps, hweight⟩ := exists_keeps_run keeps_start haccepted (by omega)
  have hon : s.IsOn (start.run events).files := hkeeps.created (by rw [hengine]; rfl)
  have hserves := hkeeps.serves
  rw [hengine] at hserves
  cases hserves with
  | opened c hc => exact ⟨s, c, hc, rfl, hon, by omega⟩
  | closed c _ => exact absurd hopen Bool.noConfusion

end World
end SchemaStore
