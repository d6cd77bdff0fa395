import SchemaStore.Session
import SchemaStore.Proofs.Documents.Collections

/-!
Steps of a session on one store.  What a step of the session does to the store that is open comes
down to an action on the site of its engine: the engine together with the files of its directory.
-/

namespace SchemaStore

/-! ## Directories of a disk -/

namespace Disk

theorem lookup_cons (p : Path) (files : Directory) (rest : List (Path × Directory)) (q : Path) :
    List.lookup q ((p, files) :: rest) = if p = q then some files else rest.lookup q := by
  rw [List.lookup_cons]
  by_cases h : p = q
  · rw [if_pos h, h, beq_self_eq_true]
  · rw [if_neg h, beq_eq_false_iff_ne.mpr (Ne.symm h)]

theorem lookup_replace (directories : List (Path × Directory)) (p q : Path) (files : Directory) :
    (directories.map fun e => if e.1 = p then (p, files) else e).lookup q
      = if p = q then (directories.lookup q).map fun _ => files else directories.lookup q := by
  induction directories with
  | nil => simp
  | cons e rest ih =>
    obtain ⟨r, old⟩ := e
    rw [List.map_cons, lookup_cons]
    by_cases hr : r = p
    · subst hr
      rw [if_pos rfl, lookup_cons, ih]
      by_cases hq : r = q <;> simp [hq]
    · rw [if_neg hr, lookup_cons, ih]
      show (if r = q then some old else _) = _
      by_cases hq : r = q
      · rw [if_pos hq, if_pos hq, if_neg (fun h => hr (hq.trans h.symm))]
      · rw [if_neg hq, if_neg hq]

theorem directory_setDirectory (d : Disk) (p q : Path) (files : Directory) :
    (d.setDirectory p files).directory q
      = if p.resolved = q.resolved then files else d.directory q := by
  rw [directory, directory, directory?, directory?, setDirectory, directory?]
  by_cases hthere : (d.directories.lookup p.resolved).isSome = true
  · rw [if_pos hthere]
    show ((d.directories.map _).lookup q.resolved).getD [] = _
    rw [lookup_replace]
    split
    · next h =>
      rw [h] at hthere
      obtain ⟨old, hold⟩ := Option.isSome_iff_exists.mp hthere
      rw [hold]
      rfl
    · rfl
  · rw [if_neg hthere]
    show ((d.directories ++ [(p.resolved, files)]).lookup q.resolved).getD [] = _
    rw [Option.not_isSome_iff_eq_none] at hthere
    rw [List.lookup_append, lookup_cons]
    split
    · next h =>
      rw [← h, hthere]
      rfl
    · rw [List.lookup_nil, Option.or_none]

/-- The files of a directory depend on the place that the path leads to. -/
theorem directory_congr (d : Disk) {p q : Path} (h : p.resolved = q.resolved) :
    d.directory p = d.directory q := by
  rw [directory, directory?, h]
  rfl

/-- A directory is made without a change to any files. -/
theorem directory_makeDirectory {d after : Disk} {p : Path} (h : d.makeDirectory p = .ok after)
    (q : Path) : after.directory q = d.directory q := by
  have hfold : ∀ (paths : List Path) (d : Disk),
      (paths.foldl (fun d p => d.setDirectory p (d.directory p)) d).directory q
        = d.directory q := by
    intro paths
    induction paths with
    | nil => exact fun _ => rfl
    | cons path paths ih =>
      intro d
      rw [List.foldl_cons, ih, directory_setDirectory]
      split
      · next hpath => exact d.directory_congr hpath
      · rfl
  rw [makeDirectory] at h
  split at h
  · cases h
  · split at h
    · cases h
    · split at h
      · cases h
      · rw [← Except.ok.inj h]
        exact hfold _ d

end Disk

/-! ## A store that is open -/

namespace Session

variable {x : Session} {p : Path} {site : Site} {m : Pairs}

/-- In the session a store is open on a directory, with its engine and files.  All collections it
was asked for have texts as names. -/
structure Offers (x : Session) (p : Path) (site : Site) : Prop where
  opened : ∃ names : List String,
    x.opened = some { engine := site.engine, collections := some (names.map .str) }
  files : x.disk.directory p = site.files
  place : site.engine.directory.resolved = p.resolved

theorem state_bind {α : Type} (next : Session → Step α) (x : Session) :
    ((get : Step Session) >>= next) x = next x x := rfl

theorem require_bind {α β : Type} (a : α) (next : α → Step β) (x : Session) :
    (require (some a) >>= next) x = next a x := rfl

theorem ofResult_bind {α β : Type} (a : α) (next : α → Step β) (x : Session) :
    (ofResult (.ok a) >>= next) x = next a x := rfl

theorem directory_start (clock : Int) (p : Path) : (start clock).disk.directory p = [] := by
  show (List.lookup p.resolved [(Disk.workingPath, ([] : Directory))]).getD [] = []
  rw [Disk.lookup_cons]
  split <;> rfl

/-- The engine that is open, with the files of its directory. -/
def site? (x : Session) : Option Site :=
  x.opened.map fun o => { engine := o.engine, files := x.disk.directory o.engine.directory }

theorem onEngine_of_site? {α : Type} (h : x.site? = some site) (action : Action α) :
    onEngine action x
      = match action site with
        | .ok a after => .ok a (x.settle after)
        | .error e after => .error e (x.settle after) := by
  obtain ⟨o, hopened, rfl⟩ := Option.map_eq_some_iff.mp h
  rw [onEngine, state_bind, hopened, require_bind]
  show (match action { engine := o.engine, files := x.disk.directory o.engine.directory } with
    | .ok a after => (do set (x.settle after); pure a : Step α)
    | .error e after => (do set (x.settle after); throw e : Step α)) x = _
  cases action { engine := o.engine, files := x.disk.directory o.engine.directory } <;> rfl

/-- Where nothing is open an engine cannot act. -/
theorem onEngine_of_none {α : Type} (h : x.site? = none) (action : Action α) :
    onEngine action x = .error .notOpen x := by
  rw [onEngine, state_bind, Option.map_eq_none_iff.mp h]
  rfl

theorem Offers.site? (h : x.Offers p site) : x.site? = some site := by
  obtain ⟨names, hopened⟩ := h.opened
  have hfiles : x.disk.directory site.engine.directory = site.files :=
    (x.disk.directory_congr h.place).trans h.files
  rw [Session.site?, hopened, Option.map_some, hfiles]

theorem onEngine_eq {α : Type} (h : x.Offers p site) (action : Action α) :
    onEngine action x
      = match action site with
        | .ok a after => .ok a (x.settle after)
        | .error e after => .error e (x.settle after) :=
  onEngine_of_site? h.site? action

theorem onEngine_of_ok {α : Type} (h : x.Offers p site) {action : Action α} {a : α} {after : Site}
    (haction : action site = .ok a after) : onEngine action x = .ok a (x.settle after) := by
  rw [onEngine_eq h, haction]

theorem onEngine_of_error {α : Type} (h : x.Offers p site) {action : Action α} {e : Failure}
    {after : Site} (haction : action site = .error e after) :
    onEngine action x = .error e (x.settle after) := by
  rw [onEngine_eq h, haction]

theorem offers_settle (h : x.Offers p site) {after : Site}
    (hdirectory : after.engine.directory = site.engine.directory) :
    (x.settle after).Offers p after := by
  have hplace : after.engine.directory.resolved = p.resolved := by rw [hdirectory, h.place]
  refine ⟨?_, ?_, hplace⟩
  · obtain ⟨names, hopened⟩ := h.opened
    refine ⟨names, ?_⟩
    rw [settle, hopened]
    rfl
  · show (x.disk.setDirectory after.engine.directory after.files).directory p = after.files
    rw [Disk.directory_setDirectory, if_pos hplace]

theorem Offers.congr (h : x.Offers p site) {y : Session} (hopened : y.opened = x.opened)
    (hdisk : y.disk = x.disk) : y.Offers p site := by
  obtain ⟨names, hnames⟩ := h.opened
  exact ⟨⟨names, hopened.trans hnames⟩, by rw [hdisk]; exact h.files, h.place⟩

/-- The collection of a name, which the store may remember from now on. -/
theorem collection_eq (h : x.Offers p site) {name : String} (hname : Collection.IsName name) :
    ∃ y, collection (.str name) x = .ok (Collection.named name) y ∧ y.Offers p site ∧
      y.issued = x.issued := by
  obtain ⟨names, hopened⟩ := h.opened
  rw [collection, state_bind, hopened, require_bind, require_bind, Collection.checkName_str hname,
    ofResult_bind]
  cases hfind : (names.map Value.str).find? fun n : Value => n.standsFor (.str name) with
  | none =>
    refine ⟨{ x with opened := some { engine := site.engine
                                      collections := some ((names ++ [name]).map .str) } },
      ?_, ⟨⟨names ++ [name], rfl⟩, h.files, h.place⟩, rfl⟩
    rw [List.map_append]
    rfl
  | some known =>
    have hknown : known = .str name := by
      obtain ⟨other, _, rfl⟩ := List.mem_map.mp (List.mem_of_find?_eq_some hfind)
      have hsame := List.find?_some hfind
      rw [Value.standsFor_str] at hsame
      rw [beq_iff_eq.mp hsame]
    refine ⟨x, ?_, h, rfl⟩
    rw [hknown]
    rfl

/-- The document as it would be stored if it were inserted now. -/
def storedForm (x : Session) (es : Entries) : Entries :=
  Collection.withId es (String.ofList (Text.hex 32 (x.issued + 1)))

theorem insertInto_of_noDocument (c : Collection) {doc : Value} {failure : Failure}
    (hdoc : Collection.documentOf doc = .error failure) (x : Session) :
    insertInto c doc x = .error failure x := by
  rw [insertInto, hdoc]
  rfl

/-- An id is given out before the engine is asked. -/
theorem insertInto_of_document (c : Collection) {doc : Value} {es : Entries}
    (hdoc : Collection.documentOf doc = .ok es) (x : Session) :
    insertInto c doc x
      = (onEngine (c.insert x.clock (x.storedForm es)) >>= fun _ =>
          pure (.dict (x.storedForm es))) { x with issued := x.issued + 1 } := by
  rw [insertInto, hdoc, storedForm]
  rfl

/-- An insertion comes down to the insertion of the stored form. -/
theorem insert_eq (h : x.Offers p site) {name : String} (hname : Collection.IsName name)
    {doc : Value} {es : Entries} (hdoc : Collection.documentOf doc = .ok es) :
    ∃ y, y.Offers p site ∧
      insert (.str name) doc x
        = (onEngine ((Collection.named name).insert y.clock (x.storedForm es)) >>= fun _ =>
            pure (.dict (x.storedForm es))) y := by
  obtain ⟨z, hcollection, hz, hissued⟩ := collection_eq h hname
  refine ⟨{ z with issued := z.issued + 1 }, hz.congr rfl rfl, ?_⟩
  refine (bind_of_ok hcollection).trans ?_
  rw [insertInto_of_document _ hdoc, storedForm, storedForm, hissued]

theorem insert_of_noDocument (h : x.Offers p site) {name : String}
    (hname : Collection.IsName name) {doc : Value} {failure : Failure}
    (hdoc : Collection.documentOf doc = .error failure) :
    ∃ y, y.Offers p site ∧ insert (.str name) doc x = .error failure y := by
  obtain ⟨z, hcollection, hz, _⟩ := collection_eq h hname
  exact ⟨z, hz, (bind_of_ok hcollection).trans (insertInto_of_noDocument _ hdoc z)⟩

theorem collection_of_none (h : x.opened = none) (name : Value) :
    collection name x = .error .notOpen x := by
  rw [collection, state_bind, h]
  rfl

theorem insert_of_none (h : x.opened = none) (name : String) (doc : Value) :
    insert (.str name) doc x = .error .notOpen x := by
  rw [insert, bind_of_error (collection_of_none h _)]

/-- The outcome of an insertion that fails and changes nothing. -/
theorem insert_of_error (h : x.Offers p site) {name : String} (hname : Collection.IsName name)
    {doc : Value} {es : Entries} (hdoc : Collection.documentOf doc = .ok es) {failure : Failure}
    (haction : ∀ clock,
      (Collection.named name).insert clock (x.storedForm es) site = .error failure site) :
    ∃ y, insert (.str name) doc x = .error failure y ∧ y.Offers p site := by
  obtain ⟨y, hy, hinsert⟩ := insert_eq h hname hdoc
  refine ⟨y.settle site, ?_, offers_settle hy rfl⟩
  rw [hinsert, bind_of_error (onEngine_of_error hy (haction y.clock))]

section

variable {name : String} {doc : Value} {es : Entries} {text : String}
  (h : x.Offers p site) (hm : site.Serves m) (hname : Collection.IsName name)
  (hdoc : Collection.documentOf doc = .ok es)
  (hencode : Stored.encode (.dict (x.storedForm es)) = .ok text)
include h hm hname hdoc hencode

theorem insert_of_new (hopen : site.engine.isClosed = false)
    (hnew : m.lookup
      ((Collection.named name).keyOf (Collection.idOf (x.storedForm es)).text) = none)
    (hsize : m.weight + Pairs.weight [((Collection.named name).keyOf
      (Collection.idOf (x.storedForm es)).text, text)] < Sheet.capacity) :
    ∃ y after, insert (.str name) doc x = .ok (.dict (x.storedForm es)) y ∧ y.Offers p after ∧
      after.Serves (m ++ [((Collection.named name).keyOf
        (Collection.idOf (x.storedForm es)).text, text)]) := by
  obtain ⟨y, hy, hinsert⟩ := insert_eq h hname hdoc
  obtain ⟨after, haction, hafter, hdirectory⟩ := Collection.insert_of_new hm hopen hencode
    (Collection.named name) y.clock hnew hsize
  refine ⟨y.settle after, after, ?_, offers_settle hy hdirectory, hafter⟩
  rw [hinsert, bind_of_ok (onEngine_of_ok hy haction)]
  rfl

theorem insert_of_taken (hopen : site.engine.isClosed = false) {old : String}
    (htaken : m.lookup
      ((Collection.named name).keyOf (Collection.idOf (x.storedForm es)).text) = some old) :
    ∃ y, insert (.str name) doc x
        = .error (.store (.duplicateId (Collection.idOf (x.storedForm es)) name)) y ∧
      y.Offers p site :=
  insert_of_error h hname hdoc fun clock =>
    Collection.insert_of_taken hm hopen hencode (Collection.named name) clock htaken

end

/-- An insertion either is refused and changes nothing, or writes one document under an id that was
new. -/
theorem insert_cases (h : x.Offers p site) (hm : site.Serves m) {name : String}
    (hname : Collection.IsName name) (doc : Value)
    (hsize : ∀ es text, Collection.documentOf doc = .ok es →
      Stored.encode (.dict (x.storedForm es)) = .ok text →
      m.weight + Pairs.weight [((Collection.named name).keyOf
        (Collection.idOf (x.storedForm es)).text, text)] < Sheet.capacity) :
    (∃ failure y, insert (.str name) doc x = .error failure y ∧ y.Offers p site) ∨
    ∃ es text y after, Collection.documentOf doc = .ok es ∧
      Stored.encode (.dict (x.storedForm es)) = .ok text ∧
      insert (.str name) doc x = .ok (.dict (x.storedForm es)) y ∧ y.Offers p after ∧
      after.Serves (m ++ [((Collection.named name).keyOf
        (Collection.idOf (x.storedForm es)).text, text)]) := by
  cases hdoc : Collection.documentOf doc with
  | error failure =>
    obtain ⟨y, hy, houtcome⟩ := insert_of_noDocument h hname hdoc
    exact .inl ⟨failure, y, houtcome, hy⟩
  | ok es =>
    cases hencode : Stored.encode (.dict (x.storedForm es)) with
    | error fault =>
      obtain ⟨failure, -, hfails⟩ := Collection.insert_of_unencodable hencode
      exact .inl ⟨failure, insert_of_error h hname hdoc fun clock => hfails _ clock site⟩
    | ok text =>
      cases hclosed : site.engine.isClosed with
      | true =>
        obtain ⟨failure, haction⟩ := Collection.insert_closed hclosed (Collection.named name)
          (x.storedForm es)
        exact .inl ⟨failure, insert_of_error h hname hdoc haction⟩
      | false =>
        cases hlookup : m.lookup
          ((Collection.named name).keyOf (Collection.idOf (x.storedForm es)).text) with
        | some old =>
          exact .inl ⟨_, insert_of_taken h hm hname hdoc hencode hclosed hlookup⟩
        | none =>
          obtain ⟨y, after, houtcome, hy, hafter⟩ := insert_of_new h hm hname hdoc hencode hclosed
            hlookup (hsize es text hdoc hencode)
          exact .inr ⟨es, text, y, after, rfl, hencode, houtcome, hy, hafter⟩

/-! ## Opening a store -/

theorem openEngine_eq {c : Settings} {disk : Disk}
    (hdisk : x.disk.makeDirectory c.dataDir = .ok disk) {e : Engine} {files : Directory}
    (hopen : Engine.openAt c (x.disk.directory c.dataDir) = (.ok e, files)) :
    openEngine c true x
      = .ok () { x with
                  disk := disk.setDirectory c.dataDir files
                  opened := some { engine := e, collections := some [] } } := by
  have hmake : makeDirectory c.dataDir x = .ok () { x with disk := disk } := by
    rw [makeDirectory, state_bind, hdisk]
    rfl
  rw [← Disk.directory_makeDirectory hdisk] at hopen
  rw [openEngine, bind_of_ok hmake, state_bind]
  simp only [hopen]
  rfl

theorem openEngine_of_error {c : Settings} {failure : Failure}
    (hdisk : x.disk.makeDirectory c.dataDir = .error failure) :
    openEngine c true x = .error failure x := by
  have hmake : makeDirectory c.dataDir x = .error failure x := by
    rw [makeDirectory, state_bind, hdisk]
    rfl
  rw [openEngine, bind_of_error hmake]

theorem exists_offers_openEngine {c : Settings} (hc : c.IsAccepted)
    (hplace : c.dataDir.resolved = p.resolved) {disk : Disk}
    (hdisk : x.disk.makeDirectory c.dataDir = .ok disk)
    (hfiles : ((x.disk.directory p).touch Engine.logName).Keeps m)
    (hsize : m.weight < Sheet.capacity) :
    ∃ y e files, openEngine c true x = .ok () y ∧ y.Offers p { engine := e, files := files } ∧
      Site.Serves m { engine := e, files := files } ∧ e.isClosed = false := by
  rw [← x.disk.directory_congr hplace] at hfiles
  obtain ⟨e, hopen, hdirectory, hclosed, hserves⟩ := Engine.openAt_keeps hfiles hsize hc
  refine ⟨_, e, _, openEngine_eq hdisk hopen, ⟨⟨[], rfl⟩, ?_, ?_⟩, hserves, hclosed⟩
  · show (disk.setDirectory c.dataDir _).directory p = _
    rw [Disk.directory_setDirectory, if_pos hplace]
  · show e.directory.resolved = _
    rw [hdirectory, hplace]

/-! ## Steps that write no documents -/

/-- A step that keeps what the store holds, and does nothing where no store is open. -/
structure IsSteady {α : Type} (p : Path) (m : Pairs) (step : Step α) : Prop where
  idle : ∀ x : Session, x.opened = none → (step x).left = x
  steady : ∀ (x : Session) (site : Site), x.Offers p site → site.Serves m →
    ∃ after, (step x).left.Offers p after ∧ after.Serves m

theorem exists_offers_onEngine {α : Type} (h : x.Offers p site) (hm : site.Serves m)
    {action : Action α} (haction : Engine.Steady m action) :
    ∃ after, (onEngine action x).left.Offers p after ∧ after.Serves m := by
  obtain ⟨hserves, hdirectory⟩ := haction site hm
  rw [onEngine_eq h]
  cases houtcome : action site with
  | ok a after | error e after =>
    rw [houtcome] at hserves hdirectory
    exact ⟨after, offers_settle h hdirectory, hserves⟩

theorem isSteady_onEngine {α : Type} {action : Int → Action α}
    (haction : ∀ clock, Engine.Steady m (action clock)) :
    IsSteady p m (do
      let s ← get
      onEngine (action s.clock)) where
  idle := by
    intro x hx
    rw [state_bind, onEngine_of_none (Option.map_eq_none_iff.mpr hx)]
    rfl
  steady := fun x _ hx hsite => exists_offers_onEngine hx hsite (haction x.clock)

theorem isSteady_query {α : Type} {name : String} (hname : Collection.IsName name)
    {query : Collection → Action α} (hquery : ∀ c, Engine.IsReading (query c)) :
    IsSteady p m (do
      let c ← collection (.str name)
      onEngine (query c)) where
  idle := by
    intro x hx
    rw [bind_of_error (collection_of_none hx _)]
    rfl
  steady := by
    intro x site hx hsite
    obtain ⟨y, hcollection, hy, _⟩ := collection_eq hx hname
    rw [bind_of_ok hcollection]
    exact exists_offers_onEngine hy hsite (hquery _).steady

end Session
end SchemaStore
