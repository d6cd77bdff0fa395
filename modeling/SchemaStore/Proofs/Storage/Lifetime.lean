import SchemaStore.Proofs.Storage.Operations

/-!
One lifetime of the storage engine.  From the moment it is opened on an empty directory, an engine
answers every request as a plain map from texts to texts does, whatever has been flushed and
compacted in between and whatever the clock shows.
-/

namespace SchemaStore

/-- What is asked of an engine that holds texts.  Where a table may be written, the request comes
with the reading of the clock. -/
inductive Request where
  | put (clock : Int) (key value : String)
  | putNew (clock : Int) (key value : String)
  | get (key : String)
  | scan (start : String)
  | flush (clock : Int)
  | compact (clock : Int)

inductive Answer where
  | done
  | wrote (isNew : Bool)
  | value (v : Value)
  | found (records : List (String × Value))

namespace Request

def perform (r : Request) : Action Answer :=
  match r with
  | put clock key value => do
    Engine.put clock (.str key) (.str value)
    pure .done
  | putNew clock key value => do
    let isNew ← Engine.putNew clock (.str key) (.str value)
    pure (.wrote isNew)
  | get key => do
    let v ← Engine.get (.str key)
    pure (.value v)
  | scan start => do
    let records ← Engine.scan start
    pure (.found records)
  | flush clock => do
    Engine.flush clock
    pure .done
  | compact clock => do
    Engine.compact clock
    pure .done

def writes (r : Request) : Pairs :=
  match r with
  | put _ key value | putNew _ key value => [(key, value)]
  | _ => []

/-- What becomes of a plain map. -/
def update (r : Request) (m : Pairs) : Pairs :=
  match r with
  | put _ key value => m.set key value
  | putNew _ key value => if (m.lookup key).isSome then m else m.set key value
  | _ => m

/-- The request has the outcome that it has for a plain map: it succeeds, its answer is that of the
map, and unless it is to change something it leaves the engine and its files as they were. -/
def Agrees (r : Request) (m : Pairs) (before : Site)
    (outcome : EStateM.Result Failure Site Answer) : Prop :=
  match r with
  | put _ _ _ | flush _ | compact _ => ∃ after, outcome = .ok .done after
  | putNew _ key _ =>
    match m.lookup key with
    | none => ∃ after, outcome = .ok (.wrote true) after
    | some _ => outcome = .ok (.wrote false) before
  | get key => outcome = .ok (.value (Value.orNull (m.lookup key))) before
  | scan start =>
    ∃ records : Pairs, records.Perm (m.startingWith start) ∧
      outcome = .ok (.found (Engine.listing records)) before

/-- Every request of a row has the outcome that it has for a plain map. -/
def Refines (m : Pairs) (site : Site) (requests : List Request) : Prop :=
  match requests with
  | [] => True
  | r :: rest =>
    r.Agrees m site (r.perform site) ∧
      Refines (r.update m) (r.perform site).left rest

def volume (requests : List Request) : Nat := Pairs.weight (requests.flatMap writes)

end Request

namespace Request

variable {c : Settings} {s : Shelf} {files : Directory} {m : Pairs}

theorem step_refines (hc : c.IsAccepted) (hon : s.IsOn files) (hm : s.Holds m) (r : Request)
    (hsize : s.weight + Pairs.weight r.writes < Sheet.capacity) :
    r.Agrees m (s.site c files) (r.perform (s.site c files)) ∧
      ∃ (next : Shelf) (after : Directory),
        (r.perform (s.site c files)).left = next.site c after ∧ next.IsOn after ∧
        next.Holds (r.update m) ∧ next.weight ≤ s.weight + Pairs.weight r.writes := by
  have hweight : s.weight < Sheet.capacity := by omega
  cases r with
  | put clock key value =>
    obtain ⟨after, hput, hafter⟩ := Engine.put_shelf hc hon (key, value) hsize clock
    have hperform : (put clock key value).perform (s.site c files) = .ok .done _ :=
      bind_of_ok hput
    rw [hperform]
    exact ⟨⟨_, rfl⟩, _, after, rfl, hafter, hm.put c _ (key, value), s.weight_put_le c _ _⟩
  | putNew clock key value =>
    cases hfound : m.lookup key with
    | some old =>
      have hput := Engine.putNew_shelf_of_some hon c clock (.str value)
        ((hm.lookup key).trans hfound)
      have hperform : (putNew clock key value).perform (s.site c files)
          = .ok (.wrote false) (s.site c files) := bind_of_ok hput
      rw [hperform, Agrees, hfound, update, hfound]
      exact ⟨rfl, s, files, rfl, hon, hm, Nat.le_add_right _ _⟩
    | none =>
      obtain ⟨after, hput, hafter⟩ := Engine.putNew_shelf_of_none hc hon (key, value) hsize clock
        ((hm.lookup key).trans hfound)
      have hperform : (putNew clock key value).perform (s.site c files) = .ok (.wrote true) _ :=
        bind_of_ok hput
      rw [hperform, Agrees, hfound, update, hfound]
      exact ⟨⟨_, rfl⟩, _, after, rfl, hafter, hm.put c _ (key, value), s.weight_put_le c _ _⟩
  | get key =>
    have hperform : (get key).perform (s.site c files)
        = .ok (.value (Value.orNull (s.lookup key))) (s.site c files) :=
      bind_of_ok (Engine.get_shelf hon c key)
    rw [hperform, hm.lookup]
    exact ⟨rfl, s, files, rfl, hon, hm, Nat.le_add_right _ _⟩
  | scan start =>
    have hperform : (scan start).perform (s.site c files)
        = .ok (.found (Engine.listing (s.scan start))) (s.site c files) :=
      bind_of_ok (Engine.scan_shelf hon c start)
    rw [hperform]
    exact ⟨⟨s.scan start, hm.scan start, rfl⟩, s, files, rfl, hon, hm, Nat.le_add_right _ _⟩
  | flush clock =>
    obtain ⟨after, hflush, hafter⟩ := Engine.flush_shelf hc hon hweight clock
    have hperform : (flush clock).perform (s.site c files) = .ok .done _ :=
      bind_of_ok hflush
    rw [hperform]
    refine ⟨⟨_, rfl⟩, _, after, rfl, hafter, ⟨hm.nodup, fun key => ?_⟩, ?_⟩
    · rw [Shelf.lookup_flush]
      exact hm.lookup key
    · rw [Shelf.weight_flush]
      exact Nat.le_add_right _ _
  | compact clock =>
    obtain ⟨after, hcompact, hafter⟩ := Engine.compact_shelf hc hon hweight clock
    have hperform : (compact clock).perform (s.site c files) = .ok .done _ :=
      bind_of_ok hcompact
    rw [hperform]
    refine ⟨⟨_, rfl⟩, _, after, rfl, hafter, ⟨hm.nodup, fun key => ?_⟩, ?_⟩
    · rw [Shelf.lookup_compact]
      exact hm.lookup key
    · exact Nat.le_trans (s.weight_compact_le _ _) (Nat.le_add_right _ _)

theorem volume_cons (r : Request) (rest : List Request) :
    volume (r :: rest) = Pairs.weight r.writes + volume rest := by
  rw [volume, List.flatMap_cons, Pairs.weight_append, ← volume]

theorem run_refines (hc : c.IsAccepted) (hon : s.IsOn files) (hm : s.Holds m)
    (requests : List Request) (hsize : s.weight + volume requests < Sheet.capacity) :
    Refines m (s.site c files) requests := by
  -- A request changes the shelf, the files and the map; only the settings stay.
  induction requests generalizing s files m with
  | nil => trivial
  | cons r rest ih =>
    rw [volume_cons] at hsize
    obtain ⟨hagrees, next, after, hsite, hafter, hnext, hweight⟩ :=
      step_refines hc hon hm r (by omega)
    refine ⟨hagrees, ?_⟩
    rw [hsite]
    exact ih hafter hnext (by omega)

/-- From an empty directory on, an engine refines a plain map for as long as it is used.  The bound
is ten to the 4300 characters: behind it, a place in an index has more digits than a number may have
that is read back. -/
theorem lifetime_refines {c : Settings} (hc : c.IsAccepted) (requests : List Request)
    (hsize : volume requests < Sheet.capacity) :
    ∃ e files, Engine.openAt c [] = (.ok e, files) ∧
      Refines [] { engine := e, files := files } requests := by
  refine ⟨Shelf.empty.engine c, Directory.touch [] Engine.logName, Engine.openAt_nil c, ?_⟩
  refine run_refines hc Shelf.isOn_empty Shelf.holds_empty requests ?_
  rw [show Shelf.empty.weight = 0 from rfl, Nat.zero_add]
  exact hsize

/-- A key that is written twice, flushed and compacted under a clock that stands still. -/
theorem lifetime_refines_rewrite :
    ∃ e files, Engine.openAt Settings.eager [] = (.ok e, files) ∧
      Refines [] { engine := e, files := files }
        [put 5 "a" "1", put 5 "a" "2", compact 5, putNew 5 "a" "3", get "a", scan ""] :=
  lifetime_refines Settings.eager_isAccepted _
    (Sheet.lt_capacity (by decide))

end Request
end SchemaStore
