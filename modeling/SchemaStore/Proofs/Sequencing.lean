import SchemaStore.Storage.Engine

/-!
Steps one after the other.  Results and actions are sequenced by `do`; once the first step is
known to succeed or to fail, these lemmas say what the whole comes to.
-/

namespace Except

variable {ε α β : Type}

@[simp]
theorem ok_bind (a : α) (f : α → Except ε β) : (Except.ok a >>= f) = f a := rfl

/-- A sequence succeeds if both of its parts do. -/
theorem bind_eq_ok {x : Except ε α} {f : α → Except ε β} {b : β} :
    (x >>= f) = .ok b ↔ ∃ a, x = .ok a ∧ f a = .ok b := by
  cases x with
  | error e =>
    constructor
    · intro h
      cases h
    · rintro ⟨_, h, _⟩
      cases h
  | ok a =>
    constructor
    · exact fun h => ⟨a, rfl, h⟩
    · rintro ⟨_, ha, h⟩
      rwa [Except.ok.inj ha]

/-- A sequence fails with its first part, or with the second behind it. -/
theorem bind_eq_error {x : Except ε α} {f : α → Except ε β} {e : ε} :
    (x >>= f) = .error e ↔ x = .error e ∨ ∃ a, x = .ok a ∧ f a = .error e := by
  cases x with
  | error other =>
    have hbind : ((.error other : Except ε α) >>= f) = .error e ↔ other = e :=
      ⟨Except.error.inj, fun h => congrArg Except.error h⟩
    simp [hbind]
  | ok a => simp

theorem bind_ne_error {x : Except ε α} {f : α → Except ε β} {e : ε} (hx : x ≠ .error e)
    (hf : ∀ a, f a ≠ .error e) : (x >>= f) ≠ .error e := by
  cases x with
  | error other => exact fun h => hx (congrArg Except.error (Except.error.inj h))
  | ok a => exact hf a

theorem isOk_iff {x : Except ε Unit} : x.isOk = true ↔ x = .ok () := by
  cases x with
  | error e => exact ⟨fun h => absurd h Bool.false_ne_true, fun h => nomatch h⟩
  | ok _ => exact ⟨fun _ => rfl, fun _ => rfl⟩

/-- A row of checks succeeds if every check does. -/
theorem forM_eq_ok {f : α → Except ε Unit} {xs : List α} :
    xs.forM f = .ok () ↔ ∀ x ∈ xs, f x = .ok () := by
  induction xs with
  | nil => exact ⟨fun _ _ h => absurd h List.not_mem_nil, fun _ => rfl⟩
  | cons x xs ih =>
    have hcons : (x :: xs).forM f = (f x >>= fun _ => xs.forM f) := rfl
    rw [hcons, bind_eq_ok, List.forall_mem_cons, ih]
    exact ⟨fun ⟨_, hx, hxs⟩ => ⟨hx, hxs⟩, fun ⟨hx, hxs⟩ => ⟨(), hx, hxs⟩⟩

/-- A row of checks fails with one of them. -/
theorem exists_of_forM_eq_error {f : α → Except ε Unit} {xs : List α} {e : ε}
    (h : xs.forM f = .error e) : ∃ x ∈ xs, f x = .error e := by
  induction xs with
  | nil => cases h
  | cons x xs ih =>
    have hcons : (x :: xs).forM f = (f x >>= fun _ => xs.forM f) := rfl
    rw [hcons, bind_eq_error] at h
    rcases h with hx | ⟨_, -, hxs⟩
    · exact ⟨x, List.mem_cons_self, hx⟩
    · obtain ⟨y, hy, hfails⟩ := ih hxs
      exact ⟨y, List.mem_cons_of_mem x hy, hfails⟩

/-- A row of steps has results if every step has one. -/
theorem exists_mapM_eq_ok {f : α → Except ε β} {xs : List α} :
    (∃ ys, xs.mapM f = .ok ys) ↔ ∀ x ∈ xs, ∃ y, f x = .ok y := by
  induction xs with
  | nil => exact ⟨fun _ _ h => absurd h List.not_mem_nil, fun _ => ⟨[], rfl⟩⟩
  | cons x xs ih =>
    rw [List.forall_mem_cons, ← ih, List.mapM_cons]
    simp only [bind_eq_ok]
    constructor
    · rintro ⟨_, y, hy, ys, hys, _⟩
      exact ⟨⟨y, hy⟩, ys, hys⟩
    · rintro ⟨⟨y, hy⟩, ys, hys⟩
      exact ⟨_, y, hy, ys, hys, rfl⟩

end Except

namespace EStateM.Result

variable {ε σ α : Type}

def answer (outcome : EStateM.Result ε σ α) : Except ε α :=
  match outcome with
  | .ok a _ => .ok a
  | .error e _ => .error e

def left (outcome : EStateM.Result ε σ α) : σ :=
  match outcome with
  | .ok _ s | .error _ s => s

theorem exists_eq_ok {outcome : EStateM.Result ε σ α} (h : outcome.answer.isOk = true) :
    ∃ a, outcome = .ok a outcome.left := by
  cases outcome with
  | ok a s => exact ⟨a, rfl⟩
  | error e s => cases h

end EStateM.Result

namespace SchemaStore

@[simp]
theorem Failure.lift_ok {ε α : Type} (wrap : ε → Failure) (a : α) :
    Failure.lift wrap (.ok a) = .ok a := rfl

theorem Failure.lift_eq_ok_iff {ε α : Type} {wrap : ε → Failure} {result : Except ε α} {a : α} :
    Failure.lift wrap result = .ok a ↔ result = .ok a := by
  cases result with
  | ok b => rw [lift_ok, Except.ok.injEq, Except.ok.injEq]
  | error e =>
    constructor
    · intro h
      cases h
    · intro h
      cases h

variable {ε σ α β : Type}

theorem bind_of_ok {first : EStateM ε σ α} {next : α → EStateM ε σ β} {before after : σ} {a : α}
    (h : first before = .ok a after) : (first >>= next) before = next a after := by
  show EStateM.bind first next before = _
  rw [EStateM.bind, h]

theorem bind_of_error {first : EStateM ε σ α} {next : α → EStateM ε σ β} {before after : σ} {e : ε}
    (h : first before = .error e after) : (first >>= next) before = .error e after := by
  show EStateM.bind first next before = _
  rw [EStateM.bind, h]

/-- A sequence that succeeds goes through what its first part succeeds with. -/
theorem exists_of_bind_eq_ok {first : EStateM ε σ α} {next : α → EStateM ε σ β} {before after : σ}
    {b : β} (h : (first >>= next) before = .ok b after) :
    ∃ a middle, first before = .ok a middle ∧ next a middle = .ok b after := by
  cases houtcome : first before with
  | ok a middle =>
    rw [bind_of_ok houtcome] at h
    exact ⟨a, middle, rfl, h⟩
  | error e middle =>
    rw [bind_of_error houtcome] at h
    cases h

namespace Engine

theorem site_bind (next : Site → Action β) (site : Site) :
    ((MonadState.get : Action Site) >>= next) site = next site site := rfl

theorem ofResult_bind (a : α) (next : α → Action β) (site : Site) :
    (ofResult (.ok a) >>= next) site = next a site := rfl

theorem answer_ofResult (result : Except Failure α) (site : Site) :
    (ofResult result site).answer = result := by
  cases result <;> rfl

theorem setLog_bind (changed : Log × Directory) (next : Unit → Action β) (site : Site) :
    (setLog changed >>= next) site
      = next () { engine := { site.engine with log := changed.1 }, files := changed.2 } := rfl

theorem checkOpen_bind (next : Unit → Action β) {site : Site}
    (h : site.engine.isClosed = false) : (checkOpen >>= next) site = next () site := by
  refine bind_of_ok ?_
  unfold checkOpen
  rw [site_bind, h]
  rfl

end Engine
end SchemaStore
