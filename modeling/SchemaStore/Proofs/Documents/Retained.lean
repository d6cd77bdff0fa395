import SchemaStore.Proofs.Documents.Turns
import SchemaStore.Proofs.Storage.Fixed

/-!
Documents that are retained.  Once an insertion has written a document, its record is fixed in the
engine, and it stays so whatever clients do afterwards: insert more, flush, compact, close, lose the
store, and open and bind it again.  What a turn of a run does to the shelf behind the session is
followed from step to step, as the bound of what is held is.
-/

namespace SchemaStore

namespace Engine

variable {α β : Type} {r : String × String} {k l : Nat}

theorem Retains.mono {action : Action α} (h : Retains r k action) (hle : k ≤ l) :
    Retains r l action := by
  intro site n hsite hsize
  obtain ⟨hbears, hdirectory⟩ := h hsite (by omega)
  exact ⟨hbears.imp fun _ hs => hs.mono (by omega), hdirectory⟩

theorem IsReading.retains {action : Action α} (h : IsReading action) : Retains r 0 action := by
  intro site n hsite _
  rw [h site]
  exact ⟨hsite, rfl⟩

theorem Retains.bind {first : Action α} {next : α → Action β} (hfirst : Retains r k first)
    (hnext : ∀ a, IsReading (next a)) : Retains r k (first >>= next) := by
  intro site n hsite hsize
  have hleft := hfirst hsite hsize
  cases houtcome : first site with
  | ok a after =>
    rw [houtcome] at hleft
    rw [bind_of_ok houtcome, hnext a after]
    exact hleft
  | error failure after =>
    rw [houtcome] at hleft
    rw [bind_of_error houtcome]
    exact hleft

end Engine

/-! ## Insertions -/

namespace Collection

variable {es : Entries} {text : String} {r : String × String} {k n : Nat} {clock : Int}

theorem retains_insert (c : Collection) (clock : Int) (es : Entries)
    (hk : ∀ text, Stored.encode (.dict es) = .ok text →
      Pairs.weight [(c.keyOf (idOf es).text, text)] ≤ k) :
    Engine.Retains r k (c.insert clock es) := by
  cases hencode : Stored.encode (.dict es) with
  | error fault =>
    refine Engine.Retains.mono (Engine.IsReading.retains fun site => ?_) (Nat.zero_le k)
    obtain ⟨failure, -, hfails⟩ := insert_of_unencodable hencode
    rw [hfails]
    rfl
  | ok text =>
    have hput := Engine.retains_putNew (p := r) clock (c.keyOf (idOf es).text, text)
    rw [funext (insert_of_encode hencode c clock)]
    refine (hput.mono (hk text hencode)).bind fun isNew => ?_
    cases isNew <;> exact fun _ => rfl

/-- What an insertion has written is fixed. -/
theorem bears_of_insert {c : Collection} {site after : Site} (hsite : site.IsWithin n)
    (hencode : Stored.encode (.dict es) = .ok text)
    (hsize : n + Pairs.weight [(c.keyOf (idOf es).text, text)] < Sheet.capacity)
    (h : c.insert clock es site = .ok () after) :
    (after.Bears fun s => s.Fixes (n + Pairs.weight [(c.keyOf (idOf es).text, text)])
        (c.keyOf (idOf es).text, text)) ∧
      after.engine.directory = site.engine.directory := by
  rw [insert_of_encode hencode] at h
  obtain ⟨isNew, written, hput, h⟩ := exists_of_bind_eq_ok h
  cases isNew with
  | false => cases h
  | true =>
    cases h
    exact Engine.bears_of_putNew hsite hsize hput

end Collection

namespace Session

variable {x y : Session} {p : Path} {n k : Nat} {r : String × String} {α β : Type}

theorem left_bind_pure (first : Step α) (f : α → β) (x : Session) :
    ((first >>= fun a => pure (f a)) x).left = (first x).left := by
  cases houtcome : first x with
  | ok a after =>
    rw [bind_of_ok houtcome]
    rfl
  | error failure after =>
    rw [bind_of_error houtcome]
    rfl

theorem bears_of_retains (hx : x.Bears p fun s => s.Fixes n r) {action : Action α}
    (haction : Engine.Retains r k action) (hsize : n + k < Sheet.capacity) :
    (onEngine action x).left.Bears p fun s => s.Fixes (n + k) r :=
  bears_onEngine hx (fun _ hs => hs.mono (Nat.le_add_right n k)) fun _ hsite => haction hsite hsize

theorem fixes_insertInto (hx : x.Bears p fun s => s.Fixes n r) (c : Collection) (doc : Value)
    (hsize : n + Pairs.weight (x.writesInto c doc) < Sheet.capacity) :
    (insertInto c doc x).left.Bears p
      fun s => s.Fixes (n + Pairs.weight (x.writesInto c doc)) r := by
  cases hdoc : Collection.documentOf doc with
  | error failure =>
    rw [insertInto_of_noDocument c hdoc]
    exact hx.imp fun _ hs => hs.mono (Nat.le_add_right _ _)
  | ok es =>
    have hissued : Bears { x with issued := x.issued + 1 } p fun s => s.Fixes n r :=
      hx.of_isUnchanged (.of_eq rfl rfl)
    rw [insertInto_of_document c hdoc, left_bind_pure]
    refine bears_of_retains hissued
      (c.retains_insert x.clock (x.storedForm es) fun text hencode => ?_) hsize
    exact Nat.le_of_eq (by rw [writesInto_eq hdoc hencode])

theorem fixes_insertThrough (hx : x.Bears p fun s => s.Fixes n r) (m : Model) (doc : Value)
    (hsize : n + Pairs.weight (x.writesThrough m doc) < Sheet.capacity) :
    (insertThrough m doc x).left.Bears p
      fun s => s.Fixes (n + Pairs.weight (x.writesThrough m doc)) r := by
  have hsame : ∀ {y : Session}, x.IsUnchanged y →
      y.Bears p fun s => s.Fixes (n + Pairs.weight (x.writesThrough m doc)) r :=
    fun hy => (hx.of_isUnchanged hy).imp fun _ hs => hs.mono (Nat.le_add_right _ _)
  cases hvalid : m.schema.validate doc with
  | error e =>
    rw [insertThrough_of_invalid hvalid]
    exact hsame (.refl x)
  | ok _ =>
    cases hbinding : m.binding with
    | none =>
      rw [insertThrough_of_unbound hvalid hbinding]
      exact hsame (.refl x)
    | some b =>
      cases b with
      | collection c =>
        rw [writesThrough_of_collection hbinding] at hsize ⊢
        rw [insertThrough_of_collection hvalid hbinding]
        exact fixes_insertInto hx c doc hsize
      | recorder number =>
        rw [insertThrough_of_recorder hvalid hbinding]
        cases x.recorders[number]? with
        | none => exact hsame (.refl x)
        | some recorder => exact hsame (.of_eq rfl rfl)

/-- A document that has been inserted is stored with its id, under a key of its collection. -/
theorem bears_of_insertInto (hx : x.Stands p n) {c : Collection} {doc stored : Value}
    (hsize : n + Pairs.weight (x.writesInto c doc) < Sheet.capacity)
    (h : insertInto c doc x = .ok stored y) :
    ∃ es id text, Collection.documentOf doc = .ok es ∧
      Stored.encode (.dict (x.storedForm es)) = .ok text ∧
      y.Bears p fun s => s.Fixes (n + Pairs.weight (x.writesInto c doc)) (c.keyOf id, text) := by
  cases hdoc : Collection.documentOf doc with
  | error failure =>
    rw [insertInto_of_noDocument c hdoc] at h
    cases h
  | ok es =>
    rw [insertInto_of_document c hdoc] at h
    obtain ⟨_, _, hengine, h⟩ := exists_of_bind_eq_ok h
    cases h
    obtain ⟨site, after, hsite, houtcome, rfl⟩ := onEngine_eq_ok hengine
    obtain ⟨hwithin, hplace⟩ := (hx.of_isUnchanged (.of_eq rfl rfl)).site hsite
    cases hencode : Stored.encode (.dict (x.storedForm es)) with
    | error fault =>
      obtain ⟨failure, -, hfails⟩ := Collection.insert_of_unencodable hencode
      rw [hfails] at houtcome
      cases houtcome
    | ok text =>
      rw [writesInto_eq hdoc hencode] at hsize ⊢
      obtain ⟨hafter, hdirectory⟩ := Collection.bears_of_insert hwithin hencode hsize houtcome
      exact ⟨es, _, text, rfl, hencode, bears_settle hsite hplace hafter hdirectory⟩

theorem bears_of_insertThrough (hx : x.Stands p n) {m : Model} {c : Collection}
    (hbound : m.binding = some (.collection c)) {doc stored : Value}
    (hsize : n + Pairs.weight (x.writesThrough m doc) < Sheet.capacity)
    (h : insertThrough m doc x = .ok stored y) :
    ∃ es id text, Collection.documentOf doc = .ok es ∧
      Stored.encode (.dict (x.storedForm es)) = .ok text ∧
      y.Bears p fun s => s.Fixes (n + Pairs.weight (x.writesThrough m doc)) (c.keyOf id, text) := by
  cases hvalid : m.schema.validate doc with
  | error e =>
    rw [insertThrough_of_invalid hvalid] at h
    cases h
  | ok _ =>
    rw [insertThrough_of_collection hvalid hbound] at h
    rw [writesThrough_of_collection hbound] at hsize ⊢
    exact bears_of_insertInto hx hsize h

end Session

/-- What is written once stays fixed in every use but one that writes past the collections. -/
theorem Use.fixes_apply {x : Session} {p : Path} {n : Nat} {r : String × String}
    (hx : x.Bears p fun s => s.Fixes n r) {u : Use} (hu : u.IsAllowed p)
    (hput : ∀ key value, u ≠ .put key value)
    (hsize : n + Pairs.weight (u.writes x) < Sheet.capacity) :
    (u.apply x).Bears p fun s => s.Fixes (n + Pairs.weight (u.writes x)) r := by
  cases u with
  | setClock ms => exact hx.of_isUnchanged (.of_eq rfl rfl)
  | issue count => exact hx.of_isUnchanged (.of_eq rfl rfl)
  | start c =>
    exact Session.bears_openEngine hx (fun _ hs => Nat.lt_of_le_of_lt hs.weight hsize)
      (fun _ hs => hs.reopened) hu.1 hu.2
  | put key value => exact absurd rfl (hput key value)
  | putNew key value =>
    exact Session.bears_of_retains hx (Engine.retains_putNew x.clock (key, value)) hsize
  | flush => exact Session.bears_of_retains hx (Engine.retains_flush x.clock) hsize
  | compact => exact Session.bears_of_retains hx (Engine.retains_compact x.clock) hsize
  | close => exact Session.bears_of_retains hx (Engine.retains_close x.clock) hsize
  | crash => exact Session.bears_crash hx
  | lookup key => exact hx.of_isUnchanged (Session.isReading_onEngine (Engine.isReading_get key) x)
  | scan opening =>
    exact hx.of_isUnchanged (Session.isReading_onEngine (Engine.isReading_scan opening) x)
  | collection name => exact hx.of_isUnchanged (Session.isReading_collection name x)
  | findIn c filter => exact hx.of_isUnchanged (Session.isReading_findIn c filter x)
  | get name id => exact hx.of_isUnchanged (Session.isReading_documentOfId name id x)
  | findThrough m filter => exact hx.of_isUnchanged (Session.isReading_findThrough m filter x)
  | insertInto c doc => exact Session.fixes_insertInto hx c doc hsize
  | insertThrough m doc => exact Session.fixes_insertThrough hx m doc hsize

/-! ## Runs -/

namespace Turn

variable {x : Session} {p : Path} {n : Nat} {r : String × String}

/-- The turn writes nothing past the collections that may stand over what is there. -/
def IsAdditive (t : Turn) : Prop := ∀ key value, t ≠ use (.put key value)

theorem fixes_apply (hx : x.Bears p fun s => s.Fixes n r) {t : Turn} (ht : t.IsAllowed p)
    (hadditive : t.IsAdditive) (hsize : n + Pairs.weight (t.writes x) < Sheet.capacity) :
    (t.apply x).Bears p fun s => s.Fixes (n + Pairs.weight (t.writes x)) r := by
  by_cases huse : ∃ u, t = use u
  · obtain ⟨u, rfl⟩ := huse
    exact Use.fixes_apply hx ht (fun key value hu => hadditive key value (by rw [hu])) hsize
  · have hkept := bears_apply hx (fun _ hs => Nat.lt_of_le_of_lt hs.weight (by omega))
      (fun _ hs => hs.reopened) (fun _ name sample hs => hs.flush name sample) ht
      fun u hu => huse ⟨u, hu⟩
    exact hkept.imp fun _ hs => hs.mono (Nat.le_add_right _ _)

/-- A record that is fixed stays so in a whole run. -/
theorem fixes_run (hx : x.Bears p fun s => s.Fixes n r) {turns : List Turn}
    (hturns : ∀ t ∈ turns, t.IsAllowed p ∧ t.IsAdditive)
    (hsize : n + volume x turns < Sheet.capacity) :
    (run x turns).Bears p fun s => s.Fixes (n + volume x turns) r :=
  bears_run (P := fun n s => s.Fixes n r) (fun hx ht hsize => fixes_apply hx ht.1 ht.2 hsize) hx
    hturns hsize

/-- A document that was inserted through a model at some point of a run is fixed from then on, in
the form in which it was stored. -/
theorem exists_fixes_run {clock : Int} {before after : List Turn} {m : Model} {c : Collection}
    {doc stored : Value} (hbefore : ∀ t ∈ before, t.IsAllowed p)
    (hafter : ∀ t ∈ after, t.IsAllowed p ∧ t.IsAdditive)
    (hbound : m.binding = some (.collection c))
    (hsize : volume (Session.start clock) (before ++ use (.insertThrough m doc) :: after)
      < Sheet.capacity)
    (hinsert : Session.insertThrough m doc (run (Session.start clock) before) = .ok stored x) :
    ∃ es fresh id text, Stored.encode (.dict (Collection.withId es fresh)) = .ok text ∧
      (run x after).Bears p fun s =>
        s.Fixes (volume (Session.start clock) (before ++ use (.insertThrough m doc) :: after))
          (c.keyOf id, text) := by
  have hleft : apply (run (Session.start clock) before) (use (.insertThrough m doc)) = x :=
    congrArg EStateM.Result.left hinsert
  rw [volume_append, volume, hleft, writes, Use.writes] at hsize ⊢
  have hbegun := stands_run (Session.stands_start clock p) hbefore (by omega)
  obtain ⟨es, id, text, -, hencode, hwritten⟩ :=
    Session.bears_of_insertThrough hbegun hbound (by omega) hinsert
  have hfixed := fixes_run hwritten hafter (by omega)
  exact ⟨es, _, id, text, hencode, hfixed.imp fun _ hs => hs.mono (by omega)⟩

end Turn
end SchemaStore
