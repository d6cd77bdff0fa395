import SchemaStore.Proofs.Documents.Sessions

/-!
A store over its whole life.  A journal is a session together with the documents that were inserted
with success since the directory was empty.  The store may be opened, closed and lost in a crash any
number of times, and any number of collections share its keys; still each collection holds exactly
the documents that were inserted into it, each as it was first written.
-/

namespace SchemaStore

/-- An insertion that succeeded: the collection, the text of the id, and the text that the document
is stored as. -/
structure Insertion where
  name : String
  id : String
  text : String

def Insertion.key (i : Insertion) : String := (Collection.named i.name).keyOf i.id

/-- What happens to a store. -/
inductive Call where
  /-- The clock shows another time. -/
  | setClock (ms : Int)
  /-- Ids are given out elsewhere, so that the next one may be any. -/
  | issue (count : Nat)
  /-- The store is opened.  One that was open before is forgotten. -/
  | start (c : Settings)
  | insert (name : String) (doc : Value)
  | find (name : String) (filter : Value)
  | get (name : String) (id : Value)
  | flush
  | compact
  | close
  /-- The store is lost, and the files stay as they are. -/
  | crash

namespace Call

/-- Collections have proper names, and the store is always opened on the same directory, with
settings that pass the checks. -/
def IsAllowed (p : Path) (call : Call) : Prop :=
  match call with
  | start c => c.IsAccepted ∧ c.dataDir.resolved = p.resolved
  | insert name _ | find name _ | get name _ => Collection.IsName name
  | _ => True

/-- What the call would write. -/
def writes (x : Session) (call : Call) : Pairs :=
  match call with
  | insert name doc =>
    match Collection.documentOf doc with
    | .ok es =>
      match Stored.encode (.dict (x.storedForm es)) with
      | .ok text =>
        [((Collection.named name).keyOf (Collection.idOf (x.storedForm es)).text, text)]
      | .error _ => []
    | .error _ => []
  | _ => []

theorem writes_insert {x : Session} {name : String} {doc : Value} {es : Entries} {text : String}
    (hdoc : Collection.documentOf doc = .ok es)
    (hencode : Stored.encode (.dict (x.storedForm es)) = .ok text) :
    (insert name doc).writes x
      = [((Collection.named name).keyOf (Collection.idOf (x.storedForm es)).text, text)] := by
  rw [writes, hdoc]
  simp only [hencode]

end Call

structure Journal where
  session : Session
  /-- The insertions that succeeded, the first of them first. -/
  inserted : List Insertion

namespace Journal

def start (clock : Int) : Journal := { session := Session.start clock, inserted := [] }

/-- What the answer to an insertion adds. -/
def recorded (name : String) (answer : Except Failure Value) : List Insertion :=
  match answer with
  | .ok (.dict stored) =>
    match Stored.encode (.dict stored) with
    | .ok text => [{ name := name, id := (Collection.idOf stored).text, text := text }]
    | .error _ => []
  | _ => []

def after {α : Type} (w : Journal) (step : Step α) : Journal :=
  { w with session := (step w.session).left }

def step (w : Journal) (call : Call) : Journal :=
  match call with
  | .setClock ms => w.after (Session.setClock ms)
  | .issue count => w.after (modify fun x => { x with issued := count } : Step Unit)
  | .start c => w.after (Session.openEngine c true)
  | .insert name doc =>
    let outcome := Session.insert (.str name) doc w.session
    { session := outcome.left, inserted := w.inserted ++ recorded name outcome.answer }
  | .find name filter => w.after (Session.find (.str name) filter)
  | .get name id => w.after (Session.documentOfId (.str name) id)
  | .flush => w.after Session.flush
  | .compact => w.after Session.compact
  | .close => w.after Session.close
  | .crash => w.after Session.crash

def run (w : Journal) (calls : List Call) : Journal := calls.foldl step w

def volume (w : Journal) (calls : List Call) : Nat :=
  match calls with
  | [] => 0
  | call :: rest => Pairs.weight (call.writes w.session) + volume (w.step call) rest

theorem volume_append (w : Journal) (calls rest : List Call) :
    w.volume (calls ++ rest) = w.volume calls + (w.run calls).volume rest := by
  induction calls generalizing w with
  | nil => exact (Nat.zero_add _).symm
  | cons call calls ih =>
    rw [List.cons_append, volume, volume, ih, Nat.add_assoc]
    rfl

/-- What the engine is to hold. -/
def pairs (w : Journal) : Pairs := w.inserted.map fun i => (i.key, i.text)

def IsOpen (w : Journal) : Prop :=
  (w.session.opened.any fun o => !o.engine.isClosed) = true

/-- The store can be opened if its directory can be made. -/
def CanOpen (p : Path) (w : Journal) : Prop :=
  ∀ c : Settings, c.IsAccepted → c.dataDir.resolved = p.resolved →
    (w.session.disk.makeDirectory c.dataDir).isOk = true → (w.step (.start c)).IsOpen

/-- The open store of a journal holds what was inserted, and goes on writing each id once. -/
structure IsWriteOnce (w : Journal) : Prop where
  /-- In no collection was an id used twice. -/
  once : (w.inserted.map fun i => (i.name, i.id)).Nodup
  /-- A document with a stored form can be inserted exactly if no document was inserted into the
  collection under an id with the same text. -/
  inserts : ∀ {name : String} {doc : Value} {es : Entries} {text : String},
    Collection.IsName name → Collection.documentOf doc = .ok es →
    Stored.encode (.dict (w.session.storedForm es)) = .ok text →
    w.pairs.weight + Pairs.weight ((Call.insert name doc).writes w.session) < Sheet.capacity →
    ((∃ answer y, Session.insert (.str name) doc w.session = .ok answer y) ↔
      ∀ i ∈ w.inserted, i.name = name → i.id ≠ (Collection.idOf (w.session.storedForm es)).text)
  /-- A scan of a collection shows what was inserted into it, and a query goes through the same
  texts. -/
  scans : ∀ {name : String}, Collection.IsName name →
    ∃ found y, Session.scan (Collection.named name).keyStart w.session = .ok found y ∧
      found.Perm ((w.inserted.filter fun i => i.name = name).map fun i => (i.key, .str i.text)) ∧
      ∀ filter, (Session.find (.str name) filter w.session).answer = Collection.select filter found
  /-- The engine has each document under its key. -/
  gets : ∀ i ∈ w.inserted, ∃ y, Session.lookup (.str i.key) w.session = .ok (.str i.text) y

/-! ## What a journal keeps -/

/-- The files hold what was inserted, each key in a single place, and so does the store if one is
open. -/
structure Keeps (p : Path) (w : Journal) : Prop where
  offers : ∀ o, w.session.opened = some o →
    ∃ site : Site, w.session.Offers p site ∧ site.Serves w.pairs
  files : ((w.session.disk.directory p).touch Engine.logName).Keeps w.pairs
  names : ∀ i ∈ w.inserted, Collection.IsName i.name

variable {w : Journal} {p : Path} {site : Site}

theorem keeps_start (clock : Int) (p : Path) : (start clock).Keeps p where
  offers := fun _ h => absurd h (Option.some_ne_none _).symm
  files := by
    have hempty : (start clock).session.disk.directory p = [] := Session.directory_start clock p
    rw [hempty]
    exact ⟨Shelf.empty, Shelf.isOn_empty, Shelf.spreads_empty⟩
  names := fun _ h => absurd h List.not_mem_nil

theorem keeps_of_offers {x : Session} {inserted : List Insertion} (hx : x.Offers p site)
    (hsite : site.Serves (pairs { session := x, inserted := inserted }))
    (hnames : ∀ i ∈ inserted, Collection.IsName i.name) :
    Keeps p { session := x, inserted := inserted } where
  offers := fun _ _ => ⟨site, hx, hsite⟩
  files := by
    obtain ⟨s, hon, hs⟩ := hsite.keeps
    rw [hx.files]
    exact ⟨s, (Directory.touch_of_read? hon.log).symm ▸ hon, hs⟩
  names := hnames

/-- A step that writes no documents. -/
theorem keeps_after {α : Type} (h : w.Keeps p) {step : Step α}
    (hstep : Session.IsSteady p w.pairs step) : (w.after step).Keeps p := by
  cases hopened : w.session.opened with
  | none =>
    rw [after, hstep.idle w.session hopened]
    exact h
  | some o =>
    obtain ⟨site, hoffers, hserves⟩ := h.offers o hopened
    obtain ⟨next, hnext, hkept⟩ := hstep.steady w.session site hoffers hserves
    exact keeps_of_offers hnext hkept h.names

theorem keeps_aside {α : Type} (h : w.Keeps p) {step : Step α}
    (hopened : (step w.session).left.opened = w.session.opened)
    (hdisk : (step w.session).left.disk = w.session.disk) : (w.after step).Keeps p where
  offers := by
    intro o ho
    obtain ⟨site, hoffers, hserves⟩ := h.offers o (hopened.symm.trans ho)
    exact ⟨site, hoffers.congr hopened hdisk, hserves⟩
  files := by
    show ((step w.session).left.disk.directory p |>.touch _).Keeps w.pairs
    rw [hdisk]
    exact h.files
  names := h.names

theorem keeps_crash (h : w.Keeps p) : (w.after Session.crash).Keeps p where
  offers := fun _ ho => absurd ho (Option.some_ne_none _).symm
  files := h.files
  names := h.names

theorem keeps_openEngine (h : w.Keeps p) {c : Settings} (hc : c.IsAccepted)
    (hplace : c.dataDir.resolved = p.resolved) (hsize : w.pairs.weight < Sheet.capacity) :
    (w.after (Session.openEngine c true)).Keeps p := by
  cases hdisk : w.session.disk.makeDirectory c.dataDir with
  | error failure =>
    rw [after, Session.openEngine_of_error hdisk]
    exact h
  | ok disk =>
    obtain ⟨y, e, files, hopen, hoffers, hserves, _⟩ :=
      Session.exists_offers_openEngine hc hplace hdisk h.files hsize
    rw [after, hopen]
    exact keeps_of_offers hoffers hserves h.names

theorem keeps_insert (h : w.Keeps p) {name : String} (hname : Collection.IsName name) (doc : Value)
    (hsize : w.pairs.weight + Pairs.weight ((Call.insert name doc).writes w.session)
      < Sheet.capacity) :
    (w.step (.insert name doc)).Keeps p ∧
      (w.step (.insert name doc)).pairs.weight
        ≤ w.pairs.weight + Pairs.weight ((Call.insert name doc).writes w.session) := by
  -- An insertion that is refused records nothing.
  have hrefused : ∀ {failure : Failure} {y : Session},
      Session.insert (.str name) doc w.session = .error failure y →
      w.step (.insert name doc) = { session := y, inserted := w.inserted } := by
    intro failure y houtcome
    rw [step, houtcome]
    exact congrArg (fun inserted => ({ session := y, inserted := inserted } : Journal))
      (List.append_nil _)
  cases hopened : w.session.opened with
  | none =>
    rw [hrefused (Session.insert_of_none hopened name doc)]
    exact ⟨h, Nat.le_add_right _ _⟩
  | some o =>
    obtain ⟨site, hoffers, hserves⟩ := h.offers o hopened
    rcases Session.insert_cases hoffers hserves hname doc
        (fun es text hdoc hencode => Call.writes_insert hdoc hencode ▸ hsize) with
      ⟨failure, y, houtcome, hy⟩ | ⟨es, text, y, next, hdoc, hencode, houtcome, hy, hnext⟩
    · rw [hrefused houtcome]
      exact ⟨keeps_of_offers hy hserves h.names, Nat.le_add_right _ _⟩
    · have hstep : w.step (.insert name doc)
          = { session := y
              inserted := w.inserted ++ [{ name := name
                                           id := (Collection.idOf (w.session.storedForm es)).text
                                           text := text }] } := by
        rw [step, houtcome]
        show ({ session := y, inserted := w.inserted ++ recorded name (.ok _) } : Journal) = _
        rw [recorded, hencode]
      rw [hstep, Call.writes_insert hdoc hencode, ← Pairs.weight_append, pairs, List.map_append,
        ← pairs]
      refine ⟨keeps_of_offers hy ?_ fun i hi => ?_, Nat.le_refl _⟩
      · rw [pairs, List.map_append, ← pairs]
        exact hnext
      · rcases List.mem_append.mp hi with hi | hi
        · exact h.names i hi
        · rw [List.mem_singleton.mp hi]
          exact hname

theorem keeps_step (h : w.Keeps p) {call : Call} (hcall : call.IsAllowed p)
    (hsize : w.pairs.weight + Pairs.weight (call.writes w.session) < Sheet.capacity) :
    (w.step call).Keeps p ∧
      (w.step call).pairs.weight ≤ w.pairs.weight + Pairs.weight (call.writes w.session) := by
  have hheld : w.pairs.weight < Sheet.capacity := by omega
  cases call with
  | insert name doc => exact keeps_insert h hcall doc hsize
  | setClock ms => exact ⟨keeps_aside h rfl rfl, Nat.le_add_right _ _⟩
  | issue count => exact ⟨keeps_aside h rfl rfl, Nat.le_add_right _ _⟩
  | start c => exact ⟨keeps_openEngine h hcall.1 hcall.2 hheld, Nat.le_add_right _ _⟩
  | crash => exact ⟨keeps_crash h, Nat.le_add_right _ _⟩
  | find name filter =>
    refine ⟨keeps_after h (Session.isSteady_query hcall fun c => ?_), Nat.le_add_right _ _⟩
    exact c.isReading_find filter
  | get name id =>
    refine ⟨keeps_after h (Session.isSteady_query hcall fun c => ?_), Nat.le_add_right _ _⟩
    exact c.isReading_get id
  | flush =>
    exact ⟨keeps_after h (Session.isSteady_onEngine (Engine.steady_flush hheld)),
      Nat.le_add_right _ _⟩
  | compact =>
    exact ⟨keeps_after h (Session.isSteady_onEngine (Engine.steady_compact hheld)),
      Nat.le_add_right _ _⟩
  | close =>
    exact ⟨keeps_after h (Session.isSteady_onEngine (Engine.steady_close hheld)),
      Nat.le_add_right _ _⟩

theorem keeps_run (h : w.Keeps p) {calls : List Call} (hcalls : ∀ call ∈ calls, call.IsAllowed p)
    (hsize : w.pairs.weight + w.volume calls < Sheet.capacity) :
    (w.run calls).Keeps p ∧ (w.run calls).pairs.weight ≤ w.pairs.weight + w.volume calls := by
  induction calls generalizing w with
  | nil => exact ⟨h, Nat.le_add_right _ _⟩
  | cons call rest ih =>
    rw [volume] at hsize ⊢
    obtain ⟨hnext, hweight⟩ := keeps_step h (hcalls call List.mem_cons_self) (by omega)
    obtain ⟨hlast, hle⟩ := ih hnext (fun call hin => hcalls call (List.mem_cons_of_mem _ hin))
      (by omega)
    exact ⟨hlast, Nat.le_trans hle (by omega)⟩

/-! ## What an open store shows -/

/-- Behind an open store is a shelf over which the insertions are spread. -/
theorem exists_shelf (h : w.Keeps p) (hopen : w.IsOpen) :
    ∃ s c files, w.session.Offers p (Shelf.site s c files) ∧ c.IsAccepted ∧ s.IsOn files ∧
      s.Spreads w.pairs := by
  obtain ⟨o, hopened, hclosed⟩ := (Option.any_eq_true _ _).mp hopen
  obtain ⟨site, hoffers, hserves⟩ := h.offers o hopened
  obtain ⟨names, hnames⟩ := hoffers.opened
  cases hserves with
  | @opened s c files hc hon hs => exact ⟨s, c, files, hoffers, hc, hon, hs⟩
  | closed _ _ _ =>
    rw [Option.some.inj (hopened.symm.trans hnames)] at hclosed
    exact absurd hclosed Bool.false_ne_true

theorem keys_pairs (w : Journal) : w.pairs.keys = w.inserted.map Insertion.key := by
  rw [Pairs.keys, pairs, List.map_map]
  rfl

theorem lookup_pairs_eq_none_iff (h : w.Keeps p) {name : String} (hname : Collection.IsName name)
    (id : String) :
    w.pairs.lookup ((Collection.named name).keyOf id) = none ↔
      ∀ i ∈ w.inserted, i.name = name → i.id ≠ id := by
  rw [Pairs.lookup_eq_none_iff, keys_pairs, List.mem_map]
  constructor
  · rintro hkey i hi rfl rfl
    exact hkey ⟨i, hi, rfl⟩
  · rintro hnew ⟨i, hi, hkey⟩
    obtain ⟨hsame, hid⟩ := Collection.keyOf_inj (h.names i hi) hname hkey
    exact hnew i hi hsame hid

theorem startingWith_pairs (h : w.Keeps p) {name : String} (hname : Collection.IsName name) :
    w.pairs.startingWith (Collection.named name).keyStart
      = (w.inserted.filter fun i => i.name = name).map fun i => (i.key, i.text) := by
  rw [Pairs.startingWith, pairs, List.filter_map]
  refine congrArg (List.map _) (List.filter_congr fun i hi => ?_)
  exact Collection.keyStart_isPrefixOf hname (h.names i hi) i.id

theorem nodup_inserted (hnodup : w.pairs.keys.Nodup) :
    (w.inserted.map fun i => (i.name, i.id)).Nodup := by
  rw [keys_pairs] at hnodup
  refine List.pairwise_map.mpr ((List.pairwise_map.mp hnodup).imp fun {a b} hkey hsame => hkey ?_)
  obtain ⟨hname, hid⟩ := Prod.mk.inj hsame
  rw [Insertion.key, Insertion.key, hname, hid]

theorem scan_open (h : w.Keeps p) (hopen : w.IsOpen) {name : String}
    (hname : Collection.IsName name) :
    ∃ found y, Session.scan (Collection.named name).keyStart w.session = .ok found y ∧
      found.Perm ((w.inserted.filter fun i => i.name = name).map fun i => (i.key, .str i.text)) ∧
      ∀ filter,
        (Session.find (.str name) filter w.session).answer = Collection.select filter found := by
  obtain ⟨s, c, files, hoffers, _, hon, hs⟩ := exists_shelf h hopen
  have hscan := Engine.scan_shelf hon c (Collection.named name).keyStart
  refine ⟨_, _, Session.onEngine_of_ok hoffers hscan, ?_, fun filter => ?_⟩
  · have hperm := hs.holds.scan (Collection.named name).keyStart
    rw [startingWith_pairs h hname] at hperm
    have hlisting := hperm.map fun p => (p.1, Value.str p.2)
    rw [List.map_map] at hlisting
    exact hlisting
  · obtain ⟨y, hcollection, hy, _⟩ := Session.collection_eq hoffers hname
    have hfind : (Collection.named name).find filter (s.site c files)
        = Engine.ofResult (Collection.select filter
            (Engine.listing (s.scan (Collection.named name).keyStart))) (s.site c files) :=
      bind_of_ok hscan
    rw [Session.find, bind_of_ok hcollection, Session.findIn, Session.onEngine_eq hy, hfind]
    cases Collection.select filter (Engine.listing (s.scan (Collection.named name).keyStart)) <;>
      rfl

/-- The engine has what was inserted under its key. -/
theorem get_of_mem {s : Shelf} {files : Directory} (hon : s.IsOn files) (hs : s.Spreads w.pairs)
    (c : Settings) {i : Insertion} (hi : i ∈ w.inserted) :
    Engine.get (.str i.key) (s.site c files) = .ok (.str i.text) (s.site c files) := by
  have hpair : (i.key, i.text) ∈ w.pairs := List.mem_map.mpr ⟨i, hi, rfl⟩
  have hget := Engine.get_shelf hon c i.key
  rw [hs.holds.lookup, Pairs.lookup_of_mem hs.nodup hpair] at hget
  exact hget

theorem isWriteOnce_of_keeps (h : w.Keeps p) (hopen : w.IsOpen) : w.IsWriteOnce := by
  obtain ⟨s, c, files, hoffers, hc, hon, hs⟩ := exists_shelf h hopen
  have hserves : (s.site c files).Serves w.pairs := .opened hc hon hs
  refine ⟨nodup_inserted hs.nodup, fun {name doc es text} hname hdoc hencode hsize => ?_,
    scan_open h hopen, fun i hi => ?_⟩
  · rw [← lookup_pairs_eq_none_iff h hname]
    rw [Call.writes_insert hdoc hencode] at hsize
    constructor
    · rintro ⟨answer, y, houtcome⟩
      rw [← Option.not_isSome_iff_eq_none]
      intro htaken
      obtain ⟨old, hold⟩ := Option.isSome_iff_exists.mp htaken
      obtain ⟨z, hrefused, _⟩ :=
        Session.insert_of_taken hoffers hserves hname hdoc hencode rfl hold
      rw [hrefused] at houtcome
      cases houtcome
    · intro hnew
      obtain ⟨y, after, houtcome, _⟩ :=
        Session.insert_of_new hoffers hserves hname hdoc hencode rfl hnew hsize
      exact ⟨_, y, houtcome⟩
  · exact ⟨_, Session.onEngine_of_ok hoffers (get_of_mem hon hs c hi)⟩

theorem canOpen_of_keeps (h : w.Keeps p) (hsize : w.pairs.weight < Sheet.capacity) :
    w.CanOpen p := by
  intro c hc hplace hmade
  cases hdisk : w.session.disk.makeDirectory c.dataDir with
  | error failure =>
    rw [hdisk] at hmade
    exact absurd hmade Bool.false_ne_true
  | ok disk =>
    obtain ⟨y, e, files, hopen, hoffers, _, hclosed⟩ :=
      Session.exists_offers_openEngine hc hplace hdisk h.files hsize
    obtain ⟨names, hopened⟩ := hoffers.opened
    rw [step, after, hopen, IsOpen]
    show (y.opened.any _) = true
    rw [hopened, Option.any_some]
    show (!e.isClosed) = true
    rw [hclosed]
    rfl

/-- At every point of a run the store can be opened; and while it is open, it holds exactly what was
inserted since the directory was empty, and takes exactly what is new.  The bound is that of the
numbers that can be read back from an index. -/
theorem run_isWriteOnce (clock : Int) {p : Path} {calls : List Call}
    (hcalls : ∀ call ∈ calls, call.IsAllowed p)
    (hsize : (start clock).volume calls < Sheet.capacity) :
    ((start clock).run calls).CanOpen p ∧
      (((start clock).run calls).IsOpen → ((start clock).run calls).IsWriteOnce) := by
  have hstart : (start clock).pairs.weight = 0 := rfl
  obtain ⟨h, hweight⟩ := keeps_run (keeps_start clock p) hcalls (by omega)
  exact ⟨canOpen_of_keeps h (by omega), isWriteOnce_of_keeps h⟩

def bare (id : String) : Value := .dict [(.str Collection.idField, .str id)]

/-- Ids that are empty, that have a colon, and that are used in two collections, while the clock
goes back and every write goes to a table of its own; then a crash. -/
def sharedCalls : List Call :=
  [.start Settings.eager, .insert "a" (bare "b:"), .setClock (-5), .insert "a" (bare ""),
    .insert "b" (bare "b:"), .insert "a" (bare "b:"), .crash]

/-- After the crash the store is opened again, with the three documents that were new. -/
theorem run_isWriteOnce_shared :
    let w := (start 7).run (sharedCalls ++ [.start Settings.eager])
    w.IsOpen ∧ w.IsWriteOnce ∧
      (w.inserted.map fun i => (i.name, i.id)) = [("a", "b:"), ("a", ""), ("b", "b:")] := by
  have ha : Collection.IsName "a" := ⟨by decide, by decide⟩
  have hb : Collection.IsName "b" := ⟨by decide, by decide⟩
  have hstart : (Call.start Settings.eager).IsAllowed Disk.workingPath :=
    ⟨Settings.eager_isAccepted, rfl⟩
  have hcalls : ∀ call ∈ sharedCalls ++ [.start Settings.eager],
      call.IsAllowed Disk.workingPath := by
    intro call hcall
    simp only [sharedCalls, List.cons_append, List.nil_append, List.mem_cons, List.not_mem_nil,
      or_false] at hcall
    rcases hcall with rfl | rfl | rfl | rfl | rfl | rfl | rfl | rfl
    all_goals first | exact trivial | exact hstart | exact ha | exact hb
  have hopen : ((start 7).run (sharedCalls ++ [.start Settings.eager])).IsOpen := by
    have hsize : (start 7).volume sharedCalls < Sheet.capacity :=
      Sheet.lt_capacity (by decide +kernel)
    have hcan := (run_isWriteOnce 7
      (fun call hcall => hcalls call (List.mem_append_left _ hcall)) hsize).1
    rw [run, List.foldl_append]
    exact hcan _ Settings.eager_isAccepted rfl (by decide +kernel)
  have hsize : (start 7).volume (sharedCalls ++ [.start Settings.eager]) < Sheet.capacity :=
    Sheet.lt_capacity (by decide +kernel)
  exact ⟨hopen, (run_isWriteOnce 7 hcalls hsize).2 hopen, by decide +kernel⟩

end Journal
end SchemaStore
