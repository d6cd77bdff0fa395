import SchemaStore.Proofs.Storage.Opening

/-!
What becomes of damaged files.  The store has an error of its own for a line that is no JSON text,
and every other damage shows as whatever failure it causes: bytes that are no text, an object that
lacks a member, a key that cannot be one, an index that is none.  So a damaged file is reported when
the first of its lines that is not as it should be is no JSON text.  Here it is told for the log and
the indexes of tables, which are read when an engine is opened.
-/

namespace SchemaStore

/-! ## What is reported -/

/-- An error of the store. -/
def Failure.isStore : Failure → Bool
  | store _ => true
  | _ => false

/-- A result that is no failure, or one that the store reports as its own. -/
def IsReported {α : Type} (result : Except Failure α) : Prop :=
  ∀ f, result = .error f → f.isStore = true

section

variable {α β : Type}

theorem isReported_ok (a : α) : IsReported (.ok a) := fun _ h => nomatch h

theorem isReported_error {f : Failure} :
    IsReported (.error f : Except Failure α) ↔ f.isStore = true :=
  ⟨fun h => h f rfl, fun h _ heq => Except.error.inj heq ▸ h⟩

instance (result : Except Failure α) : Decidable (IsReported result) :=
  match result with
  | .ok a => .isTrue (isReported_ok a)
  | .error _ => decidable_of_iff _ isReported_error.symm

theorem isReported_bind {x : Except Failure α} {next : α → Except Failure β} :
    IsReported (x >>= next) ↔ IsReported x ∧ ∀ a, x = .ok a → IsReported (next a) := by
  cases x with
  | error f =>
    show IsReported (.error f) ↔ _
    rw [isReported_error, isReported_error]
    exact ⟨fun h => ⟨h, fun _ heq => nomatch heq⟩, fun h => h.1⟩
  | ok a =>
    exact ⟨fun h => ⟨isReported_ok a, fun _ heq => Except.ok.inj heq ▸ h⟩, fun h => h.2 a rfl⟩

/-- A result whose failures, if it has any, are all from elsewhere. -/
def IsForeign (result : Except Failure α) : Prop := ∀ f, result = .error f → f.isStore = false

theorem isForeign_ok (a : α) : IsForeign (.ok a) := fun _ h => nomatch h

theorem isForeign_error {f : Failure} (h : f.isStore = false) :
    IsForeign (.error f : Except Failure α) := fun _ heq => Except.error.inj heq ▸ h

theorem IsForeign.bind {x : Except Failure α} {next : α → Except Failure β} (hx : IsForeign x)
    (hnext : ∀ a, IsForeign (next a)) : IsForeign (x >>= next) := by
  cases x with
  | error f => exact isForeign_error (hx f rfl)
  | ok a => exact hnext a

theorem isForeign_lift {ε : Type} {wrap : ε → Failure} (h : ∀ e, (wrap e).isStore = false)
    (result : Except ε α) : IsForeign (Failure.lift wrap result) := by
  cases result with
  | ok a => exact isForeign_ok a
  | error e => exact isForeign_error (h e)

theorem IsForeign.mapM {f : α → Except Failure β} (hf : ∀ x, IsForeign (f x)) (xs : List α) :
    IsForeign (xs.mapM f) := by
  induction xs with
  | nil => exact isForeign_ok []
  | cons x xs ih =>
    rw [List.mapM_cons]
    exact (hf x).bind fun y => ih.bind fun ys => isForeign_ok (y :: ys)

theorem IsForeign.isReported_iff {result : Except Failure α} (h : IsForeign result) :
    IsReported result ↔ ∃ a, result = .ok a := by
  cases result with
  | ok a => exact iff_of_true (isReported_ok a) ⟨a, rfl⟩
  | error f =>
    rw [isReported_error, h f rfl]
    refine iff_of_false Bool.false_ne_true ?_
    rintro ⟨_, ha⟩
    cases ha

/-- What a result comes to: where it is whole it succeeds, and elsewhere it ends with a failure that
is an error of the store just where it is reported. -/
def Ends (result : Except Failure α) (whole reported : Prop) : Prop :=
  (whole ∧ ∃ a, result = .ok a) ∨
    ¬whole ∧ ∃ f, result = .error f ∧ (f.isStore = true ↔ reported)

variable {result : Except Failure α} {whole reported : Prop}

theorem Ends.exists_iff (h : Ends result whole reported) : (∃ a, result = .ok a) ↔ whole := by
  rcases h with ⟨hwhole, hok⟩ | ⟨hwhole, f, hf, -⟩
  · exact iff_of_true hok hwhole
  · refine iff_of_false (fun ⟨_, h⟩ => ?_) hwhole
    rw [hf] at h
    cases h

theorem Ends.isReported_iff (h : Ends result whole reported) :
    IsReported result ↔ whole ∨ reported := by
  rcases h with ⟨hwhole, a, ha⟩ | ⟨hwhole, f, hf, hstore⟩
  · rw [ha]
    exact iff_of_true (isReported_ok a) (.inl hwhole)
  · rw [hf, isReported_error, hstore, or_iff_right hwhole]

/-- Of a row, the first element that does not pass is reported. -/
def FirstIsReported (passes reported : α → Prop) (xs : List α) : Prop :=
  ∀ before x after, xs = before ++ x :: after → (∀ y ∈ before, passes y) → passes x ∨ reported x

variable {passes reported : α → Prop}

theorem firstIsReported_nil : FirstIsReported passes reported [] := by
  intro before x after h
  cases before <;> cases h

theorem firstIsReported_cons {x : α} {xs : List α} :
    FirstIsReported passes reported (x :: xs) ↔
      (passes x ∨ reported x) ∧ (passes x → FirstIsReported passes reported xs) := by
  constructor
  · intro h
    refine ⟨h [] x xs rfl fun _ hy => absurd hy List.not_mem_nil,
      fun hx before y after hxs hall => ?_⟩
    refine h (x :: before) y after (by rw [hxs]; rfl) fun z hz => ?_
    rcases List.mem_cons.mp hz with rfl | hz
    · exact hx
    · exact hall z hz
  · rintro ⟨hx, hrest⟩ before y after hxs hall
    cases before with
    | nil =>
      obtain ⟨rfl, -⟩ := List.cons.inj hxs
      exact hx
    | cons z before =>
      obtain ⟨rfl, hbehind⟩ := List.cons.inj hxs
      exact hrest (hall x List.mem_cons_self) before y after hbehind fun w hw =>
        hall w (List.mem_cons_of_mem x hw)

end

/-! ## Stored lines -/

/-- The lines that are read from a file, and the fault that reading ends with. -/
abbrev StoredLines := List (List Char) × Option Utf8.Fault

namespace StoredLines

/-- All lines pass, and the bytes are well formed. -/
def IsWhole (passes : List Char → Prop) (lines : StoredLines) : Prop :=
  (∀ text ∈ lines.1, passes text) ∧ lines.2 = none

/-- The first line that does not pass is reported, and where all of them pass the bytes are well
formed. -/
def EndsReported (passes reported : List Char → Prop) (lines : StoredLines) : Prop :=
  FirstIsReported passes reported lines.1 ∧ ((∀ text ∈ lines.1, passes text) → lines.2 = none)

variable {passes reported : List Char → Prop} {text : List Char} {texts : List (List Char)}
  {fault : Option Utf8.Fault}

theorem IsWhole.endsReported {lines : StoredLines} (h : lines.IsWhole passes) :
    lines.EndsReported passes reported :=
  ⟨fun _ x _ heq _ => .inl (h.1 x (heq ▸ List.mem_append_right _ List.mem_cons_self)), fun _ => h.2⟩

theorem isReported_iff_endsReported {α : Type} {result : Except Failure α} {lines : StoredLines}
    (h : Ends result (lines.IsWhole passes) (lines.EndsReported passes reported)) :
    IsReported result ↔ lines.EndsReported passes reported := by
  rw [h.isReported_iff, or_iff_right_of_imp IsWhole.endsReported]

theorem endsReported_cons :
    EndsReported passes reported (text :: texts, fault) ↔
      (passes text ∨ reported text) ∧
        (passes text → EndsReported passes reported (texts, fault)) := by
  simp only [EndsReported, firstIsReported_cons, List.forall_mem_cons]
  constructor
  · rintro ⟨⟨htext, hrest⟩, hfault⟩
    exact ⟨htext, fun hpasses => ⟨hrest hpasses, fun hall => hfault ⟨hpasses, hall⟩⟩⟩
  · rintro ⟨htext, hrest⟩
    exact ⟨⟨htext, fun hpasses => (hrest hpasses).1⟩, fun hall => (hrest hall.1).2 hall.2⟩

/-- When every line has been taken, the bytes decide. -/
theorem ends_nil {α : Type} {result : Except Failure α}
    (hnone : fault = none → ∃ a, result = .ok a)
    (hsome : ∀ e, fault = some e → result = .error (.encoding e)) :
    Ends result (IsWhole passes ([], fault)) (EndsReported passes reported ([], fault)) := by
  cases fault with
  | none => exact .inl ⟨⟨fun _ h => absurd h List.not_mem_nil, rfl⟩, hnone rfl⟩
  | some e =>
    exact .inr ⟨fun h => (nomatch h.2), .encoding e, hsome e rfl, fun h => (nomatch h),
      fun h => (nomatch h.2 fun _ h => absurd h List.not_mem_nil)⟩

theorem ends_cons_of_passes {α : Type} {result : Except Failure α} (htext : passes text)
    (h : Ends result (IsWhole passes (texts, fault))
      (EndsReported passes reported (texts, fault))) :
    Ends result (IsWhole passes (text :: texts, fault))
      (EndsReported passes reported (text :: texts, fault)) := by
  have hwhole : IsWhole passes (text :: texts, fault) ↔ IsWhole passes (texts, fault) := by
    rw [IsWhole, IsWhole, List.forall_mem_cons, and_iff_right htext]
  have hreported : EndsReported passes reported (text :: texts, fault) ↔
      EndsReported passes reported (texts, fault) := by
    rw [endsReported_cons, and_iff_right (.inl htext), forall_prop_of_true htext]
  rwa [hwhole, hreported]

theorem ends_cons_of_error {α : Type} {result : Except Failure α} (htext : ¬passes text)
    {f : Failure} (hf : result = .error f) (hstore : f.isStore = true ↔ reported text) :
    Ends result (IsWhole passes (text :: texts, fault))
      (EndsReported passes reported (text :: texts, fault)) := by
  refine .inr ⟨fun h => htext (h.1 text List.mem_cons_self), f, hf, ?_⟩
  rw [endsReported_cons, or_iff_right htext, hstore]
  exact (and_iff_left fun h => absurd h htext).symm

end StoredLines

namespace Record

/-- A line that is to be read and is no JSON text. -/
def IsBroken (text : List Char) : Prop :=
  text.all Text.isBlank = false ∧ ∃ fault, Json.readPlain text = .error fault

/-- A line that holds an object. -/
def IsObject (text : List Char) (es : Entries) : Prop :=
  ∃ v, Json.readPlain text = .ok v ∧ v.entries? = some es

/-- What a line that is read holds. -/
theorem isObject_iff {text : List Char} {v : Value} (hread : Json.readPlain text = .ok v)
    {es : Entries} : IsObject text es ↔ v.entries? = some es := by
  constructor
  · rintro ⟨w, hw, hes⟩
    exact Except.ok.inj (hread.symm.trans hw) ▸ hes
  · exact fun hes => ⟨v, hread, hes⟩

theorem not_isBroken_of_readPlain {text : List Char} {v : Value}
    (hread : Json.readPlain text = .ok v) : ¬IsBroken text := by
  rintro ⟨-, fault, hfault⟩
  rw [hread] at hfault
  cases hfault

theorem member_of_entries {v : Value} {es : Entries} (h : v.entries? = some es) (name : String) :
    member v name = match es.field? name with
      | some x => .ok x
      | none => .error (.missingKey (.str name)) := by
  cases v <;> cases h <;> rfl

theorem exists_member_eq_error {v : Value} (h : v.entries? = none) (name : String) :
    ∃ m, member v name = .error (.misuse m) := by
  cases v with
  | dict es => cases h
  | view es => cases h
  | _ => exact ⟨_, rfl⟩

theorem isStore_pick {xs : List Value} {n : Int} {f : Failure}
    (h : subscript.pick xs n = .error f) : f.isStore = false := by
  unfold subscript.pick at h
  generalize (if n < 0 then n + xs.length else n) = i at h
  dsimp only at h
  split at h
  · cases h
    rfl
  · split at h
    · cases h
      rfl
    · split at h
      · cases h
      · cases h
        rfl

/-- A part that is not there is no error of the store. -/
theorem isStore_subscript {container key : Value} {f : Failure}
    (h : subscript container key = .error f) : f.isStore = false := by
  unfold subscript at h
  split at h
  · split at h
    · cases h
      rfl
    · split at h <;> cases h
      rfl
  · split at h
    · cases h
      rfl
    · split at h <;> cases h
      rfl
  · split at h
    · cases h
      rfl
    · exact isStore_pick h
  · split at h
    · cases h
      rfl
    · exact isStore_pick h
  · split at h
    · cases h
      rfl
    · exact isStore_pick h
  · cases h
    rfl

theorem member_eq_ok_iff {v : Value} {es : Entries} (h : v.entries? = some es) {name : String}
    {x : Value} : member v name = .ok x ↔ es.field? name = some x := by
  rw [member_of_entries h]
  cases es.field? name <;> simp

end Record

/-! ## The log -/

namespace Log

/-- An object of the log records a write, and not some other operation. -/
def IsWrite (es : Entries) : Prop :=
  ((es.field? Record.operationName).getD .null).same (.str Record.putOperation) = true

instance (es : Entries) : Decidable (IsWrite es) :=
  inferInstanceAs (Decidable (_ = true))

/-- A line of the log that is blank, records another operation, or records a write in full. -/
def IsWholeLine (text : List Char) : Prop :=
  text.all Text.isBlank = true ∨ ∃ es, Record.IsObject text es ∧
    (IsWrite es → (∃ value, es.field? Record.valueName = some value) ∧
      ∃ key, es.field? Record.keyName = some key ∧ key.unhashable? = none)

variable {l : Log} {number : Nat} {memory : Entries} {text : List Char}

theorem replayLine_of_broken (h : Record.IsBroken text) :
    l.replayLine number memory text = .error (.store (.corruptLog l.path number)) := by
  obtain ⟨hblank, fault, hread⟩ := h
  rw [replayLine, hblank, hread]
  rfl

theorem isWholeLine_iff (hblank : text.all Text.isBlank = false) {v : Value}
    (hread : Json.readPlain text = .ok v) :
    IsWholeLine text ↔ ∃ es, v.entries? = some es ∧
      (IsWrite es → (∃ value, es.field? Record.valueName = some value) ∧
        ∃ key, es.field? Record.keyName = some key ∧ key.unhashable? = none) := by
  simp only [IsWholeLine, hblank, Bool.false_eq_true, false_or, Record.isObject_iff hread]

theorem replayLine_of_noObject (hblank : text.all Text.isBlank = false) {v : Value}
    (hread : Json.readPlain text = .ok v) (hes : v.entries? = none) :
    l.replayLine number memory text = .error (.noOperation v "get") := by
  rw [replayLine, hblank, if_neg Bool.false_ne_true, hread]
  simp only [hes]

theorem replayLine_of_object (hblank : text.all Text.isBlank = false) {v : Value}
    (hread : Json.readPlain text = .ok v) {es : Entries} (hes : v.entries? = some es) :
    l.replayLine number memory text =
      if IsWrite es then do
        let value ← Record.member v Record.valueName
        let key ← Record.member v Record.keyName
        Record.checkHashable key
        .ok (memory.insert key value)
      else .ok memory := by
  rw [replayLine, hblank, if_neg Bool.false_ne_true, hread]
  simp only [hes]
  rfl

/-- A line that is neither blank nor broken is whole, or replaying it ends with a failure that is no
error of the store. -/
theorem replayLine_of_read (hblank : text.all Text.isBlank = false) {v : Value}
    (hread : Json.readPlain text = .ok v) :
    (IsWholeLine text ∧ ∃ after, l.replayLine number memory text = .ok after) ∨
      (¬IsWholeLine text ∧
        ∃ f, l.replayLine number memory text = .error f ∧ f.isStore = false) := by
  rw [isWholeLine_iff hblank hread]
  cases hes : v.entries? with
  | none =>
    exact .inr ⟨fun ⟨_, h, _⟩ => (nomatch h), _, replayLine_of_noObject hblank hread hes, rfl⟩
  | some es =>
    simp only [Option.some.injEq, exists_eq_left', replayLine_of_object hblank hread hes]
    by_cases hwrite : IsWrite es
    · simp only [if_pos hwrite, Record.member_of_entries hes]
      cases hvalue : es.field? Record.valueName with
      | none => exact .inr ⟨fun h => (nomatch (h hwrite).1), .missingKey _, rfl, rfl⟩
      | some value =>
        cases hkey : es.field? Record.keyName with
        | none => exact .inr ⟨fun h => (nomatch (h hwrite).2), .missingKey _, rfl, rfl⟩
        | some key =>
          simp only [Except.ok_bind, Record.checkHashable]
          cases hhash : key.unhashable? with
          | none =>
            exact .inl ⟨fun _ => ⟨⟨value, rfl⟩, key, rfl, hhash⟩, memory.insert key value, rfl⟩
          | some m =>
            refine .inr ⟨fun h => ?_, .misuse m, rfl, rfl⟩
            obtain ⟨-, other, hother, hnone⟩ := h hwrite
            rw [← Option.some.inj hother, hhash] at hnone
            cases hnone
    · simp only [if_neg hwrite]
      exact .inl ⟨fun h => absurd h hwrite, memory, rfl⟩

/-- Every line is blank, broken, or read. -/
theorem ends_replayLine (l : Log) (number : Nat) (memory : Entries) (text : List Char) :
    Ends (l.replayLine number memory text) (IsWholeLine text) (Record.IsBroken text) := by
  cases hblank : text.all Text.isBlank with
  | true =>
    refine .inl ⟨.inl hblank, memory, ?_⟩
    rw [replayLine, hblank, if_pos rfl]
  | false =>
    cases hread : Json.readPlain text with
    | error fault =>
      have hbroken : Record.IsBroken text := ⟨hblank, fault, hread⟩
      refine .inr ⟨?_, _, replayLine_of_broken hbroken, fun _ => hbroken, fun _ => rfl⟩
      rintro (h | ⟨_, ⟨_, h, _⟩, _⟩)
      · rw [hblank] at h
        cases h
      · rw [hread] at h
        cases h
    | ok v =>
      refine (replayLine_of_read hblank hread).imp_right ?_
      rintro ⟨hwhole, f, hf, hstore⟩
      exact ⟨hwhole, f, hf, by simp [hstore, Record.not_isBroken_of_readPlain hread]⟩

/-- Replays lines, and then fails if the bytes behind them are at fault. -/
def replayStored (l : Log) (number : Nat) (memory : Entries) (lines : StoredLines) :
    Except Failure Entries := do
  let memory ← l.replayLines number memory lines.1
  match lines.2 with
  | none => .ok memory
  | some fault => .error (.encoding fault)

theorem replay_eq {files : Directory} (hopen : l.isClosed = false) :
    l.replay files = l.replayStored 1 [] (Text.storedLines [] (l.content files)) := by
  rw [replay, checkOpen, hopen]
  rfl

/-- A damaged log is reported when the first line that is not whole is broken. -/
theorem ends_replayStored (l : Log) (number : Nat) (memory : Entries) (lines : StoredLines) :
    Ends (l.replayStored number memory lines) (lines.IsWhole IsWholeLine)
      (lines.EndsReported IsWholeLine Record.IsBroken) := by
  obtain ⟨texts, fault⟩ := lines
  induction texts generalizing number memory with
  | nil =>
    refine StoredLines.ends_nil (fun h => ⟨memory, ?_⟩) fun e h => ?_
    · rw [h]
      rfl
    · rw [h]
      rfl
  | cons text texts ih =>
    have hstep : l.replayStored number memory (text :: texts, fault)
        = (l.replayLine number memory text >>= fun memory =>
            l.replayStored (number + 1) memory (texts, fault)) := by
      rw [replayStored, replayLines]
      cases l.replayLine number memory text <;> rfl
    rw [hstep]
    obtain ⟨htext, after, hline⟩ | ⟨htext, f, hline, hstore⟩ := l.ends_replayLine number memory text
    · rw [hline]
      exact StoredLines.ends_cons_of_passes htext (ih (number + 1) after)
    · rw [hline]
      exact StoredLines.ends_cons_of_error htext rfl hstore

end Log

/-! ## The indexes of tables -/

namespace Table

/-- A table can be opened: its index file is missing, or it holds JSON whose keys can be sorted. -/
def Opens (name : String) (files : Directory) : Prop :=
  ∃ index keys sorted, storedIndex name files = .ok index ∧ index.elements = .ok keys ∧
    Order.sortBy id keys = .ok sorted

theorem exists_load_iff {directory : Path} {name : String} {files : Directory} :
    (∃ t, load directory name files = .ok t) ↔ Opens name files := by
  rw [load_eq, Opens]
  simp only [Except.bind_eq_ok, Failure.lift_eq_ok_iff]
  constructor
  · rintro ⟨_, index, hindex, keys, hkeys, sorted, hsorted, _⟩
    exact ⟨index, keys, sorted, hindex, hkeys, hsorted⟩
  · rintro ⟨index, keys, sorted, hindex, hkeys, hsorted⟩
    exact ⟨_, index, hindex, keys, hkeys, sorted, hsorted, rfl⟩

/-- A table that does not open is never reported. -/
theorem isForeign_load (directory : Path) (name : String) (files : Directory) :
    IsForeign (load directory name files) := by
  have hindex : IsForeign (storedIndex name files) := by
    rw [storedIndex]
    split
    · exact isForeign_ok _
    · exact (isForeign_lift (fun _ => rfl) _).bind fun _ => isForeign_lift (fun _ => rfl) _
  rw [load_eq]
  exact hindex.bind fun _ => (isForeign_lift (fun _ => rfl) _).bind fun _ =>
    (isForeign_lift (fun _ => rfl) _).bind fun _ => isForeign_ok _

end Table

/-! ## Opening -/

namespace Directory

/-- The lines of a file. -/
def linesOf (files : Directory) (name : String) : StoredLines :=
  Text.storedLines [] ((files.read? name).getD [])

end Directory

namespace Engine

theorem exists_openTables_iff {directory : Path} {files : Directory} :
    (∃ tables, openTables directory files = .ok tables) ↔
      ∀ name ∈ files.names, TableName.isTable name = true → Table.Opens name files := by
  rw [openTables, Except.exists_mapM_eq_ok]
  simp only [Table.exists_load_iff, (List.mergeSort_perm _ _).mem_iff, List.mem_filter, and_imp]

theorem isForeign_openTables (directory : Path) (files : Directory) :
    IsForeign (openTables directory files) :=
  IsForeign.mapM (fun name => Table.isForeign_load directory name files) _

/-- Whether there is a log does not matter to tables. -/
theorem opens_touch_iff {files : Directory} :
    (∀ name ∈ (files.touch logName).names, TableName.isTable name = true →
        Table.Opens name (files.touch logName)) ↔
      ∀ name ∈ files.names, TableName.isTable name = true → Table.Opens name files := by
  have hnames : ∀ name, TableName.isTable name = true →
      (name ∈ (files.touch logName).names ↔ name ∈ files.names) := by
    intro name htable
    rw [Directory.mem_names_iff, Directory.mem_names_iff,
      Directory.read?_touch_of_ne (TableName.ne_logName htable)]
  have hopens : ∀ name, TableName.isTable name = true →
      (Table.Opens name (files.touch logName) ↔ Table.Opens name files) := by
    intro name htable
    rw [Table.Opens, Table.storedIndex,
      Directory.read?_touch_of_ne (TableName.indexName_ne_logName htable)]
    rfl
  constructor
  · intro h name hname htable
    exact (hopens name htable).mp (h name ((hnames name htable).mpr hname) htable)
  · intro h name hname htable
    exact (hopens name htable).mpr (h name ((hnames name htable).mp hname) htable)

/-- Opening a damaged directory is reported as far as the log is; a table that does not open is
never reported. -/
theorem isReported_openAt_iff (c : Settings) (files : Directory) :
    IsReported (openAt c files).1 ↔
      (files.linesOf logName).EndsReported Log.IsWholeLine Record.IsBroken ∧
        ((files.linesOf logName).IsWhole Log.IsWholeLine →
          ∀ name ∈ files.names, TableName.isTable name = true → Table.Opens name files) := by
  have hlines : Text.storedLines [] ((openedLog c.dataDir).content (files.touch logName))
      = (files.linesOf logName) := by
    rw [content_openedLog, Directory.read?_touch_self, Option.getD_some, Directory.linesOf]
  have hopen : (openedLog c.dataDir).isClosed = false := rfl
  have htables : ∀ memtable : Entries, IsReported (do
      let tables ← openTables c.dataDir (files.touch logName)
      .ok ({ settings := c, log := openedLog c.dataDir, memtable := memtable, tables := tables,
             isClosed := false } : Engine)) ↔
      ∀ name ∈ files.names, TableName.isTable name = true → Table.Opens name files := by
    intro memtable
    rw [isReported_bind, (isForeign_openTables _ _).isReported_iff, exists_openTables_iff,
      opens_touch_iff]
    exact and_iff_left fun _ _ => isReported_ok _
  have hreplay := (openedLog c.dataDir).ends_replayStored 1 [] (files.linesOf logName)
  rw [← hlines, ← Log.replay_eq hopen, hlines] at hreplay
  rw [openAt_eq, isReported_bind, StoredLines.isReported_iff_endsReported hreplay,
    ← hreplay.exists_iff]
  simp only [htables, forall_exists_index]

end Engine

end SchemaStore
