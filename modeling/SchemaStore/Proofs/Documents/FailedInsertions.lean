import SchemaStore.Proofs.Documents.Steps

/-!
Insertions that fail.  Whatever has been done with a store before, an insertion that fails has
changed neither the engine nor any file, whether it was the schema, the form of the document, its
encoding, an id that is taken, or a closed store that stopped it; and what the schema refuses comes
to no collection.
-/

namespace SchemaStore
namespace Session

variable {x y z : Session} {p : Path} {n : Nat}

/-! ## Insertions -/

/-- What would be written if the document were inserted now. -/
def writesInto (x : Session) (c : Collection) (doc : Value) : Pairs :=
  match Collection.documentOf doc with
  | .ok es =>
    match Stored.encode (.dict (x.storedForm es)) with
    | .ok text => [(c.keyOf (Collection.idOf (x.storedForm es)).text, text)]
    | .error _ => []
  | .error _ => []

theorem writesInto_eq {c : Collection} {doc : Value} {es : Entries} {text : String}
    (hdoc : Collection.documentOf doc = .ok es)
    (hencode : Stored.encode (.dict (x.storedForm es)) = .ok text) :
    x.writesInto c doc = [(c.keyOf (Collection.idOf (x.storedForm es)).text, text)] := by
  rw [writesInto, hdoc]
  simp only [hencode]

end Session

namespace Collection

/-- What stops an insertion into an engine is no error of a schema, and comes before anything is
written. -/
theorem insert_within {site : Site} {n : Nat} (hsite : site.IsWithin n) (c : Collection)
    (clock : Int) (es : Entries)
    (hsize : ∀ text, Stored.encode (.dict es) = .ok text →
      n + Pairs.weight [(c.keyOf (idOf es).text, text)] < Sheet.capacity) :
    (∃ text after, Stored.encode (.dict es) = .ok text ∧ c.insert clock es site = .ok () after ∧
      after.IsWithin (n + Pairs.weight [(c.keyOf (idOf es).text, text)]) ∧
      after.engine.directory = site.engine.directory) ∨
    ∃ failure, (∀ e, failure ≠ .validation e) ∧
      c.insert clock es site = .error failure site := by
  cases hencode : Stored.encode (.dict es) with
  | error fault =>
    obtain ⟨failure, hforeign, hfails⟩ := insert_of_unencodable hencode
    exact .inr ⟨failure, hforeign, hfails c clock site⟩
  | ok text =>
    have hsize := hsize text hencode
    rw [insert_of_encode hencode]
    cases hsite with
    | @opened s settings files hc hon hs =>
      cases hfound : s.lookup (c.keyOf (idOf es).text) with
      | some old =>
        have hput := Engine.putNew_shelf_of_some hon settings clock (.str text) hfound
        exact .inr ⟨.store _, nofun, bind_of_ok hput⟩
      | none =>
        obtain ⟨after, hput, hafter⟩ := Engine.putNew_shelf_of_none hc hon
          (c.keyOf (idOf es).text, text) (by omega) clock hfound
        have hweight := s.weight_put_le settings (TableName.next files.names clock "")
          (c.keyOf (idOf es).text, text)
        exact .inl ⟨text, _, rfl, bind_of_ok hput, .opened hc hafter (by omega), rfl⟩
    | closed hempty hon hs =>
      exact .inr ⟨.store _, nofun, bind_of_error (Engine.putNew_closed rfl _ _ _)⟩

theorem addPairs_ne_validation (position : Nat) (es : Entries) (elements : List Value)
    (e : ValidationError) : addPairs position es elements ≠ .error (.validation e) := by
  have hhashable : ∀ key, Record.checkHashable key ≠ .error (.validation e) := by
    intro key
    rw [Record.checkHashable]
    split <;> nofun
  have hpair : ∀ position element, pairOf position element ≠ .error (.validation e) := by
    intro position element
    rw [pairOf]
    split
    · nofun
    · exact Except.bind_ne_error (hhashable _) fun _ => nofun
    · nofun
  induction elements generalizing position es with
  | nil => nofun
  | cons element rest ih => exact Except.bind_ne_error (hpair position element) fun _ => ih _ _

/-- What is no document is refused in another way than by a schema. -/
theorem documentOf_ne_validation (v : Value) (e : ValidationError) :
    documentOf v ≠ .error (.validation e) := by
  unfold documentOf
  split
  · nofun
  · nofun
  · nofun
  · refine Except.bind_ne_error ?_ fun elements => addPairs_ne_validation 0 [] elements e
    cases v.elements <;> nofun

end Collection

namespace Session

variable {x y z : Session} {p : Path} {n : Nat}

/-- What an insertion may come to.  It succeeds and leaves things within a bound, or it fails and
leaves them as they were; of the failure more may be known. -/
inductive Outcome (x : Session) (p : Path) (n : Nat) (known : Failure → Session → Prop) :
    EStateM.Result Failure Session Value → Prop where
  | done {stored : Value} {y : Session} (h : y.Stands p n) : Outcome x p n known (.ok stored y)
  | failed {failure : Failure} {y : Session} (h : x.IsUnchanged y) (hknown : known failure y) :
      Outcome x p n known (.error failure y)

namespace Outcome

variable {known other : Failure → Session → Prop} {outcome : EStateM.Result Failure Session Value}

theorem imp (h : Outcome x p n known outcome)
    (himp : ∀ failure y, known failure y → other failure y) : Outcome x p n other outcome := by
  cases h with
  | done h => exact .done h
  | failed h hknown => exact .failed h (himp _ _ hknown)

theorem left {k : Nat} (h : Outcome x p k known outcome) (hx : x.Stands p n) (hle : n ≤ k) :
    outcome.left.Stands p k := by
  cases h with
  | done h => exact h
  | failed h _ => exact (hx.of_isUnchanged h).mono hle

end Outcome

theorem outcome_insertInto (hx : x.Stands p n) (c : Collection) (doc : Value)
    (hsize : n + Pairs.weight (x.writesInto c doc) < Sheet.capacity) :
    Outcome x p (n + Pairs.weight (x.writesInto c doc))
      (fun failure _ => ∀ e, failure ≠ .validation e) (insertInto c doc x) := by
  cases hdoc : Collection.documentOf doc with
  | error failure =>
    rw [insertInto_of_noDocument c hdoc]
    refine .failed (.refl x) ?_
    rintro e rfl
    exact Collection.documentOf_ne_validation doc e hdoc
  | ok es =>
    have hissued : x.IsUnchanged { x with issued := x.issued + 1 } := .of_eq rfl rfl
    rw [insertInto_of_document c hdoc]
    cases hsite : Session.site? { x with issued := x.issued + 1 } with
    | none =>
      rw [bind_of_error (onEngine_of_none hsite _)]
      exact .failed hissued nofun
    | some site =>
      obtain ⟨hwithin, hplace⟩ := (hx.of_isUnchanged hissued).site hsite
      have hinsert := onEngine_of_site? hsite (c.insert x.clock (x.storedForm es))
      obtain ⟨text, after, hencode, houtcome, hafter, hdirectory⟩ | ⟨_, hforeign, houtcome⟩ :=
        Collection.insert_within hwithin c x.clock (x.storedForm es) fun text hencode =>
          writesInto_eq hdoc hencode ▸ hsize
      · rw [houtcome] at hinsert
        rw [bind_of_ok hinsert, writesInto_eq hdoc hencode]
        exact .done (stands_settle hsite hplace hafter hdirectory)
      · rw [houtcome] at hinsert
        rw [bind_of_error hinsert]
        exact .failed (hissued.trans (isUnchanged_settle hsite)) hforeign

/-! ## Models -/

/-- A document that its schema refuses comes to nothing, whatever the model is bound to. -/
theorem insertThrough_of_invalid {m : Model} {doc : Value} {r : Report ValidationError}
    (h : m.schema.validate doc = .error r) (x : Session) :
    insertThrough m doc x = .error (.ofReport .validation r) x := by
  rw [insertThrough, Model.validate, h]
  rfl

theorem insertThrough_of_unbound {m : Model} {doc : Value} (h : m.schema.validate doc = .ok ())
    (hunbound : m.binding = none) (x : Session) :
    insertThrough m doc x = .error (.unboundModel m.name) x := by
  rw [insertThrough, Model.validate, h, Model.bound, hunbound]
  rfl

theorem insertThrough_of_collection {m : Model} {doc : Value}
    (h : m.schema.validate doc = .ok ()) {c : Collection}
    (hbound : m.binding = some (.collection c)) (x : Session) :
    insertThrough m doc x = insertInto c doc x := by
  rw [insertThrough, Model.validate, h, Model.bound, hbound]
  rfl

theorem insertThrough_of_recorder {m : Model} {doc : Value} (h : m.schema.validate doc = .ok ())
    {number : Nat} (hbound : m.binding = some (.recorder number)) (x : Session) :
    insertThrough m doc x
      = (require x.recorders[number]? >>= fun r => do
          setRecorder number (r.insert doc).2
          pure (r.insert doc).1) x := by
  rw [insertThrough, Model.validate, h, Model.bound, hbound]
  rfl

/-- What would be written if the document were inserted through the model now. -/
def writesThrough (x : Session) (m : Model) (doc : Value) : Pairs :=
  match m.binding with
  | some (.collection c) => x.writesInto c doc
  | _ => []

theorem writesThrough_of_collection {m : Model} {c : Collection}
    (hbound : m.binding = some (.collection c)) (x : Session) (doc : Value) :
    x.writesThrough m doc = x.writesInto c doc := by
  rw [writesThrough, hbound]

theorem outcome_insertThrough (hx : x.Stands p n) (m : Model) (doc : Value)
    (hsize : n + Pairs.weight (x.writesThrough m doc) < Sheet.capacity) :
    Outcome x p (n + Pairs.weight (x.writesThrough m doc))
      (fun failure y =>
        ∀ e, failure = .validation e → m.schema.validate doc = .error (.fault e) ∧ y = x)
      (insertThrough m doc x) := by
  cases hvalid : m.schema.validate doc with
  | error r =>
    rw [insertThrough_of_invalid hvalid]
    refine .failed (.refl x) fun e he => ?_
    cases r with
    | fault e' =>
      cases he
      exact ⟨rfl, rfl⟩
    | unshowable => cases he
  | ok _ =>
    cases hbinding : m.binding with
    | none =>
      rw [insertThrough_of_unbound hvalid hbinding]
      exact .failed (.refl x) nofun
    | some b =>
      cases b with
      | collection c =>
        rw [writesThrough_of_collection hbinding] at hsize ⊢
        rw [insertThrough_of_collection hvalid hbinding]
        exact (outcome_insertInto hx c doc hsize).imp fun _ _ hne e he => absurd he (hne e)
      | recorder number =>
        rw [insertThrough_of_recorder hvalid hbinding]
        cases x.recorders[number]? with
        | none => exact .failed (.refl x) nofun
        | some r =>
          have hrecorded : x.IsUnchanged
              { x with recorders := x.recorders.set number (r.insert doc).2 } := .of_eq rfl rfl
          exact .done ((hx.of_isUnchanged hrecorded).mono (Nat.le_add_right _ _))

end Session

/-! ## Uses of a store -/

/-- What is done with a store, and with the engine and the models that belong to it. -/
inductive Use where
  /-- The clock shows another time. -/
  | setClock (ms : Int)
  /-- Ids are given out elsewhere, so that the next one may be any. -/
  | issue (count : Nat)
  /-- The store is opened.  One that was open before is forgotten. -/
  | start (c : Settings)
  | put (key value : String)
  | putNew (key value : String)
  | lookup (key : Value)
  | scan (opening : String)
  | flush
  | compact
  | close
  /-- The store is lost, and the files stay as they are. -/
  | crash
  | collection (name : Value)
  | insertInto (c : Collection) (doc : Value)
  | findIn (c : Collection) (filter : Value)
  | get (name id : Value)
  | insertThrough (m : Model) (doc : Value)
  | findThrough (m : Model) (filter : Value)

namespace Use

/-- The store is always opened on the same directory, with settings that pass the checks. -/
def IsAllowed (p : Path) (u : Use) : Prop :=
  match u with
  | start c => c.IsAccepted ∧ c.dataDir.resolved = p.resolved
  | _ => True

/-- What the use would write. -/
def writes (x : Session) (u : Use) : Pairs :=
  match u with
  | put key value | putNew key value => [(key, value)]
  | insertInto c doc => x.writesInto c doc
  | insertThrough m doc => x.writesThrough m doc
  | _ => []

/-- What the use leaves, whether it succeeds or not. -/
def apply (x : Session) (u : Use) : Session :=
  match u with
  | setClock ms => (Session.setClock ms x).left
  | issue count => { x with issued := count }
  | start c => (Session.openEngine c true x).left
  | put key value => (Session.put (.str key) (.str value) x).left
  | putNew key value => (Session.putNew (.str key) (.str value) x).left
  | lookup key => (Session.lookup key x).left
  | scan opening => (Session.scan opening x).left
  | flush => (Session.flush x).left
  | compact => (Session.compact x).left
  | close => (Session.close x).left
  | crash => (Session.crash x).left
  | collection name => (Session.collection name x).left
  | insertInto c doc => (Session.insertInto c doc x).left
  | findIn c filter => (Session.findIn c filter x).left
  | get name id => (Session.documentOfId name id x).left
  | insertThrough m doc => (Session.insertThrough m doc x).left
  | findThrough m filter => (Session.findThrough m filter x).left

def run (x : Session) (uses : List Use) : Session := uses.foldl apply x

def volume (x : Session) (uses : List Use) : Nat :=
  match uses with
  | [] => 0
  | u :: rest => Pairs.weight (u.writes x) + volume (apply x u) rest

theorem volume_append (x : Session) (uses rest : List Use) :
    volume x (uses ++ rest) = volume x uses + volume (run x uses) rest := by
  induction uses generalizing x with
  | nil => exact (Nat.zero_add _).symm
  | cons u uses ih =>
    rw [List.cons_append, volume, volume, ih, Nat.add_assoc]
    rfl

variable {x : Session} {p : Path} {n : Nat}

/-- Every use leaves a session within a bound, whether it succeeds or fails. -/
theorem stands_apply (hx : x.Stands p n) {u : Use} (hu : u.IsAllowed p)
    (hsize : n + Pairs.weight (u.writes x) < Sheet.capacity) :
    (u.apply x).Stands p (n + Pairs.weight (u.writes x)) := by
  have hheld : n < Sheet.capacity := by omega
  cases u with
  | setClock ms => exact hx.of_isUnchanged (.of_eq rfl rfl)
  | issue count => exact hx.of_isUnchanged (.of_eq rfl rfl)
  | start c => exact Session.stands_openEngine hx hu.1 hu.2 hheld
  | put key value =>
    exact Session.stands_onEngine hx (Engine.isAtomic_put x.clock (key, value)) hsize
  | putNew key value =>
    exact Session.stands_onEngine hx (Engine.isAtomic_putNew x.clock (key, value)) hsize
  | flush => exact Session.stands_onEngine hx (Engine.isAtomic_flush x.clock) hsize
  | compact => exact Session.stands_onEngine hx (Engine.isAtomic_compact x.clock) hsize
  | close => exact Session.stands_onEngine hx (Engine.isAtomic_close x.clock) hsize
  | crash => exact ⟨fun h => absurd h (Option.some_ne_none _).symm, hx.files⟩
  | lookup key => exact hx.of_isUnchanged (Session.isReading_onEngine (Engine.isReading_get key) x)
  | scan opening =>
    exact hx.of_isUnchanged (Session.isReading_onEngine (Engine.isReading_scan opening) x)
  | collection name => exact hx.of_isUnchanged (Session.isReading_collection name x)
  | findIn c filter => exact hx.of_isUnchanged (Session.isReading_findIn c filter x)
  | get name id => exact hx.of_isUnchanged (Session.isReading_documentOfId name id x)
  | findThrough m filter => exact hx.of_isUnchanged (Session.isReading_findThrough m filter x)
  | insertInto c doc =>
    exact (Session.outcome_insertInto hx c doc hsize).left hx (Nat.le_add_right _ _)
  | insertThrough m doc =>
    exact (Session.outcome_insertThrough hx m doc hsize).left hx (Nat.le_add_right _ _)

theorem stands_run (hx : x.Stands p n) {uses : List Use} (huses : ∀ u ∈ uses, u.IsAllowed p)
    (hsize : n + volume x uses < Sheet.capacity) : (run x uses).Stands p (n + volume x uses) := by
  induction uses generalizing x n with
  | nil => exact hx
  | cons u rest ih =>
    rw [volume] at hsize ⊢
    have hnext := stands_apply hx (huses u List.mem_cons_self) (by omega)
    have hlast := ih hnext (fun u hin => huses u (List.mem_cons_of_mem _ hin)) (by omega)
    rwa [Nat.add_assoc] at hlast

/-- At every point of a run an insertion that fails, into whatever collection or through whatever
model, leaves the engine and every file as they were; and where the schema refuses the document,
nothing at all has changed, and the outcome is the same for every other binding of the model.  The
bound is that of the numbers that can be read back from an index. -/
theorem failed_insertion_unchanged (clock : Int) {p : Path} {uses : List Use}
    (huses : ∀ u ∈ uses, u.IsAllowed p) :
    let x := run (Session.start clock) uses
    (∀ c doc, volume (Session.start clock) (uses ++ [.insertInto c doc]) < Sheet.capacity →
      ∀ failure y, Session.insertInto c doc x = .error failure y → x.IsUnchanged y) ∧
    ∀ m doc, volume (Session.start clock) (uses ++ [.insertThrough m doc]) < Sheet.capacity →
      ∀ failure y, Session.insertThrough m doc x = .error failure y → x.IsUnchanged y ∧
        ∀ e, failure = .validation e →
          y = x ∧ ∀ b, Session.insertThrough (m.bind b) doc x = .error failure x := by
  have hlast : ∀ u : Use,
      volume (Session.start clock) (uses ++ [u]) < Sheet.capacity →
      (run (Session.start clock) uses).Stands p (0 + volume (Session.start clock) uses) ∧
        0 + volume (Session.start clock) uses
          + Pairs.weight (u.writes (run (Session.start clock) uses)) < Sheet.capacity := by
    intro u hsize
    rw [volume_append, volume, volume, Nat.add_zero] at hsize
    exact ⟨stands_run (Session.stands_start clock p) huses (by omega), by omega⟩
  refine ⟨fun c doc hsize failure y hfailed => ?_, fun m doc hsize failure y hfailed => ?_⟩
  · obtain ⟨hx, hsize⟩ := hlast _ hsize
    have houtcome := Session.outcome_insertInto hx c doc hsize
    rw [hfailed] at houtcome
    cases houtcome with
    | failed hy _ => exact hy
  · obtain ⟨hx, hsize⟩ := hlast _ hsize
    have houtcome := Session.outcome_insertThrough hx m doc hsize
    rw [hfailed] at houtcome
    cases houtcome with
    | failed hy hknown =>
      refine ⟨hy, fun e he => ?_⟩
      obtain ⟨hrefused, hsame⟩ := hknown e he
      rw [he]
      exact ⟨hsame, fun b => Session.insertThrough_of_invalid (m := m.bind b) hrefused _⟩

/-- A document whose id will be taken. -/
def ticket : Value := .dict [(.str Collection.idField, .str "1")]

/-- One document, which goes to a table at once. -/
def ticketUses : List Use :=
  [.start Settings.eager, .insertInto (Collection.named "a") ticket]

/-- A model of documents with a number, in the collection of the tickets. -/
def numbered (schema : Schema) : Model :=
  { schema := schema, binding := some (.collection (Collection.named "a")) }

/-- The id is found in the table, at the limit of the memtable; and a ticket has no number. -/
theorem failed_insertion_unchanged_ticket :
    let x := run (Session.start 7) ticketUses
    (∀ u ∈ ticketUses, u.IsAllowed Disk.workingPath) ∧
      (x.opened.map fun o => o.engine.tables.length) = some 1 ∧
      (∃ failure y, Session.insertInto (Collection.named "a") ticket x = .error failure y ∧
        x.IsUnchanged y) ∧
      ∃ schema e, Session.insertThrough (numbered schema) ticket x = .error (.validation e) x ∧
        Session.insertThrough ((numbered schema).bind (.recorder 0)) ticket x
          = .error (.validation e) x := by
  intro x
  have hallowed : ∀ u ∈ ticketUses, u.IsAllowed Disk.workingPath := by
    have hstart : (Use.start Settings.eager).IsAllowed Disk.workingPath :=
      ⟨Settings.eager_isAccepted, rfl⟩
    simpa [ticketUses] using ⟨hstart, trivial⟩
  obtain ⟨hinto, hthrough⟩ := failed_insertion_unchanged 7 hallowed
  have htaken : (Session.insertInto (Collection.named "a") ticket x).answer.isOk = false := by
    decide +kernel
  have hsize : volume (Session.start 7)
      (ticketUses ++ [.insertInto (Collection.named "a") ticket]) < Sheet.capacity :=
    Sheet.lt_capacity (by decide +kernel)
  refine ⟨hallowed, by decide +kernel, ?_, ?_⟩
  · cases houtcome : Session.insertInto (Collection.named "a") ticket x with
    | ok stored y =>
      rw [houtcome] at htaken
      cases htaken
    | error failure y =>
      exact ⟨failure, y, rfl, hinto _ _ hsize failure y houtcome⟩
  · obtain ⟨schema, hschema⟩ : ∃ schema,
        Schema.compile Registry.standard "Numbered" (.dict [(.str "n", .type .int)]) = .ok schema :=
      ⟨_, rfl⟩
    obtain ⟨e, hvalid⟩ : ∃ e, schema.validate ticket = .error (.fault e) := by
      cases hschema
      exact ⟨.expected "Numbered.n" "Number", by cbv⟩
    have houtcome := Session.insertThrough_of_invalid (m := numbered schema) hvalid x
    have hsame : volume (Session.start 7)
        (ticketUses ++ [.insertThrough (numbered schema) ticket])
          = volume (Session.start 7)
            (ticketUses ++ [.insertInto (Collection.named "a") ticket]) := by
      rw [volume_append, volume_append]
      rfl
    obtain ⟨-, hvalidation⟩ := hthrough _ _ (hsame ▸ hsize) _ _ houtcome
    exact ⟨schema, e, houtcome, (hvalidation e rfl).2 _⟩

end Use
end SchemaStore
