import SchemaStore.Proofs.Documents.FailedInsertions

/-!
Turns of a run.  Besides the uses of a store a client is given its rules and its models, connects,
and closes its connection.  Connecting forgets the store that is open and opens one on the
directory, so a turn other than a use takes what is stored through a crash, an opening and a
closing at most.  What these keep, and every use keeps too, a whole run keeps.
-/

namespace SchemaStore

/-! ## Connections -/

namespace Session

variable {x : Session} {p : Path} {P : Shelf → Prop} {α β : Type}

/-- The step keeps a property of what is open and of the files, whether it succeeds or fails. -/
def Preserves (p : Path) (P : Shelf → Prop) (step : Step α) : Prop :=
  ∀ x : Session, x.Bears p P → (step x).left.Bears p P

theorem IsReading.preserves {step : Step α} (h : IsReading step) : Preserves p P step :=
  fun x hx => hx.of_isUnchanged (h x)

theorem Preserves.bind {first : Step α} {next : α → Step β} (hfirst : Preserves p P first)
    (hnext : ∀ a, Preserves p P (next a)) : Preserves p P (first >>= next) := by
  intro x hx
  have hleft := hfirst x hx
  cases houtcome : first x with
  | ok a after =>
    rw [houtcome] at hleft
    rw [bind_of_ok houtcome]
    exact hnext a after hleft
  | error failure after =>
    rw [houtcome] at hleft
    rw [bind_of_error houtcome]
    exact hleft

theorem Preserves.tryCatch {step : Step α} {handle : Failure → Step α}
    (hstep : Preserves p P step) (hhandle : ∀ e, Preserves p P (handle e)) :
    Preserves p P (tryCatch step handle) := by
  intro x hx
  have hleft := hstep x hx
  show (EStateM.tryCatch step handle x).left.Bears p P
  rw [EStateM.tryCatch]
  cases houtcome : step x with
  | ok a after =>
    rw [houtcome] at hleft
    exact hleft
  | error failure after =>
    rw [houtcome] at hleft
    exact hhandle failure after hleft

theorem isReading_throw (e : Failure) : IsReading (throw e : Step α) := IsUnchanged.refl

theorem isReading_bindModels {bind : String → Step Binding} (h : ∀ name, IsReading (bind name))
    (models : List (String × Model)) : IsReading (bindModels bind models) := by
  induction models with
  | nil => exact isReading_pure _
  | cons named rest ih =>
    exact (h named.1).bind fun _ => ih.bind fun _ => isReading_pure _

theorem isReading_connectBy {bind : String → Step Binding} (h : ∀ name, IsReading (bind name))
    (isStored : Bool) : IsReading (connectBy isStored bind) := by
  refine isReading_state.bind fun x => (isReading_require _).bind fun client => ?_
  refine (isReading_bindModels h client.models).bind fun models => ?_
  exact IsReading.bind (fun _ => .of_eq rfl rfl) fun _ => isReading_pure _

/-- Connecting forgets the store that is open and opens one, to which the models are bound. -/
theorem preserves_connectStore (hsize : ∀ s, P s → s.weight < Sheet.capacity)
    (hreopened : ∀ s, P s → P s.reopened) {c : Settings} (hc : c.IsAccepted)
    (hplace : c.dataDir.resolved = p.resolved) : Preserves p P (connectStore (.ok c)) := by
  have hcrash : Preserves p P crash := fun _ hx => bears_crash hx
  have hopen : Preserves p P (openEngine c true) :=
    fun _ hx => bears_openEngine hx hsize hreopened hc hplace
  refine hcrash.bind fun _ => isReading_state.preserves.bind fun _ => ?_
  refine (isReading_require _).preserves.bind fun _ => ?_
  have hbound : Preserves p P (tryCatch
      (connectBy true fun name => do
        let c ← collection (.str name)
        pure (.collection c))
      fun e => do
        crash
        throw e : Step Connection) := by
    refine Preserves.tryCatch (IsReading.preserves (isReading_connectBy (fun name => ?_) true)) ?_
    · exact (isReading_collection _).bind fun _ => isReading_pure _
    · exact fun e => hcrash.bind fun _ => (isReading_throw e).preserves
  show Preserves p P (openEngine c true >>= fun _ => _)
  refine hopen.bind fun _ => hbound.bind fun connection => ?_
  have hplaced : IsReading (modify fun s => { s with dataDir := c.dataDir } : Step PUnit) :=
    fun _ => .of_eq rfl rfl
  exact hplaced.preserves.bind fun _ => (isReading_pure connection).preserves

theorem isReading_addModel (name : String) (description : Value) :
    IsReading (addModel name description) := by
  intro x
  rw [addModel, state_bind]
  cases x.client with
  | none => exact .refl x
  | some c =>
    rw [require_bind]
    cases c.define name description with
    | error e => exact .refl x
    | ok made => exact .of_eq rfl rfl

/-- Closing a connection closes the store, if there is one. -/
theorem preserves_closeConnection (hsize : ∀ s, P s → s.weight < Sheet.capacity)
    (hflush : ∀ s name sample, P s → P (s.flush name sample)) : Preserves p P closeConnection := by
  have hclose : Preserves p P close := fun x hx =>
    bears_onEngine hx (fun _ hs => hs) fun _ => Engine.bears_close hsize hflush x.clock
  refine isReading_state.preserves.bind fun _ => ?_
  refine (isReading_require _).preserves.bind fun c => ?_
  cases hstored : c.isStored with
  | true =>
    exact hclose.bind fun _ => isReading_state.preserves.bind fun _ => (isReading_pure _).preserves
  | false => exact (isReading_pure _).preserves

end Session

/-! ## Turns -/

/-- What is done with a store, or with a client of it. -/
inductive Turn where
  | use (u : Use)
  | setClient (rules : Registry)
  | addModel (name : String) (description : Value)
  /-- The models of the client are bound to their collections in a store that is opened anew. -/
  | connect (c : Settings)
  | closeConnection

namespace Turn

def IsAllowed (p : Path) (t : Turn) : Prop :=
  match t with
  | use u => u.IsAllowed p
  | connect c => c.IsAccepted ∧ c.dataDir.resolved = p.resolved
  | _ => True

def writes (x : Session) (t : Turn) : Pairs :=
  match t with
  | use u => u.writes x
  | _ => []

/-- What the turn leaves, whether it succeeds or not. -/
def apply (x : Session) (t : Turn) : Session :=
  match t with
  | use u => u.apply x
  | setClient rules => (Session.setClient rules x).left
  | addModel name description => (Session.addModel name description x).left
  | connect c => (Session.connectStore (.ok c) x).left
  | closeConnection => (Session.closeConnection x).left

def run (x : Session) (turns : List Turn) : Session := turns.foldl apply x

def volume (x : Session) (turns : List Turn) : Nat :=
  match turns with
  | [] => 0
  | t :: rest => Pairs.weight (t.writes x) + volume (apply x t) rest

theorem volume_append (x : Session) (turns rest : List Turn) :
    volume x (turns ++ rest) = volume x turns + volume (run x turns) rest := by
  induction turns generalizing x with
  | nil => exact (Nat.zero_add _).symm
  | cons t turns ih =>
    rw [List.cons_append, volume, volume, ih, Nat.add_assoc]
    rfl

variable {x : Session} {p : Path} {n : Nat}

/-- A turn that is no use of the store keeps what a crash, an opening and a closing keep. -/
theorem bears_apply {P : Shelf → Prop} (hx : x.Bears p P)
    (hsize : ∀ s, P s → s.weight < Sheet.capacity) (hreopened : ∀ s, P s → P s.reopened)
    (hflush : ∀ s name sample, P s → P (s.flush name sample)) {t : Turn} (ht : t.IsAllowed p)
    (huse : ∀ u, t ≠ use u) : (t.apply x).Bears p P := by
  cases t with
  | use u => exact absurd rfl (huse u)
  | setClient rules => exact hx.of_isUnchanged (.of_eq rfl rfl)
  | addModel name description => exact hx.of_isUnchanged (Session.isReading_addModel name _ x)
  | connect c => exact Session.preserves_connectStore hsize hreopened ht.1 ht.2 x hx
  | closeConnection => exact Session.preserves_closeConnection hsize hflush x hx

/-- What each turn keeps, of a bound that grows by what it writes, a run keeps. -/
theorem bears_run {P : Nat → Shelf → Prop} {Q : Turn → Prop}
    (hstep : ∀ {x : Session} {n : Nat} {t : Turn}, x.Bears p (P n) → Q t →
      n + Pairs.weight (t.writes x) < Sheet.capacity →
      (t.apply x).Bears p (P (n + Pairs.weight (t.writes x))))
    (hx : x.Bears p (P n)) {turns : List Turn} (hturns : ∀ t ∈ turns, Q t)
    (hsize : n + volume x turns < Sheet.capacity) :
    (run x turns).Bears p (P (n + volume x turns)) := by
  induction turns generalizing x n with
  | nil => exact hx
  | cons t rest ih =>
    rw [volume] at hsize ⊢
    have hnext := hstep hx (hturns t List.mem_cons_self) (by omega)
    have hlast := ih hnext (fun t hin => hturns t (List.mem_cons_of_mem _ hin)) (by omega)
    rwa [Nat.add_assoc] at hlast

theorem stands_apply (hx : x.Stands p n) {t : Turn} (ht : t.IsAllowed p)
    (hsize : n + Pairs.weight (t.writes x) < Sheet.capacity) :
    (t.apply x).Stands p (n + Pairs.weight (t.writes x)) := by
  by_cases huse : ∃ u, t = use u
  · obtain ⟨u, rfl⟩ := huse
    exact Use.stands_apply hx ht hsize
  · have hkept := bears_apply (Session.stands_iff_bears.mp hx) (fun _ hs => by omega)
      (fun s hs => s.weight_reopened.symm ▸ hs)
      (fun s name sample hs => by rwa [Shelf.weight_flush]) ht fun u hu => huse ⟨u, hu⟩
    exact (Session.stands_iff_bears.mpr hkept).mono (Nat.le_add_right n _)

theorem stands_run (hx : x.Stands p n) {turns : List Turn} (hturns : ∀ t ∈ turns, t.IsAllowed p)
    (hsize : n + volume x turns < Sheet.capacity) :
    (run x turns).Stands p (n + volume x turns) := by
  refine Session.stands_iff_bears.mpr (bears_run (P := fun n s => s.weight ≤ n) ?_
    (Session.stands_iff_bears.mp hx) hturns hsize)
  intro x n t hx ht hsize
  exact Session.stands_iff_bears.mp (stands_apply (Session.stands_iff_bears.mpr hx) ht hsize)

end Turn
end SchemaStore
