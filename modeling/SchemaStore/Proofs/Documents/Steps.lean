import SchemaStore.Proofs.Documents.Sessions
import SchemaStore.Proofs.Storage.Atomicity

/-!
Steps of a session by what they leave.  A step that only reads leaves the engine and all files as
they were, even where it remembers a name or takes note of a query.  A step that writes leaves an
engine within a bound, and so it can be followed from the files upwards what is open at any time.
-/

namespace SchemaStore
namespace Session

variable {x y z : Session} {p : Path} {site : Site} {n k : Nat} {α β : Type}

/-! ## Sessions that differ in nothing that is stored -/

/-- The engine that is open, and every file, is the same in both sessions. -/
structure IsUnchanged (x y : Session) : Prop where
  engine : (y.opened.map fun o => o.engine) = x.opened.map fun o => o.engine
  files : ∀ q, y.disk.directory q = x.disk.directory q

namespace IsUnchanged

theorem refl (x : Session) : x.IsUnchanged x := ⟨rfl, fun _ => rfl⟩

theorem trans (hxy : x.IsUnchanged y) (hyz : y.IsUnchanged z) : x.IsUnchanged z :=
  ⟨hyz.engine.trans hxy.engine, fun q => (hyz.files q).trans (hxy.files q)⟩

theorem of_eq (hopened : y.opened = x.opened) (hdisk : y.disk = x.disk) : x.IsUnchanged y :=
  ⟨by rw [hopened], fun _ => by rw [hdisk]⟩

theorem site?_eq (h : x.IsUnchanged y) : y.site? = x.site? := by
  have hsite : ∀ x : Session, x.site?
      = (x.opened.map fun o => o.engine).map fun e =>
          { engine := e, files := x.disk.directory e.directory } := by
    intro x
    rw [site?, Option.map_map]
    rfl
  rw [hsite, hsite, h.engine]
  simp only [h.files]

end IsUnchanged

/-- What an engine leaves as it was, the session does too. -/
theorem isUnchanged_settle (h : x.site? = some site) : x.IsUnchanged (x.settle site) := by
  obtain ⟨o, hopened, rfl⟩ := Option.map_eq_some_iff.mp h
  refine ⟨by rw [settle, hopened]; rfl, fun q => ?_⟩
  show (x.disk.setDirectory o.engine.directory _).directory q = _
  rw [Disk.directory_setDirectory]
  split
  · next hplace => exact x.disk.directory_congr hplace
  · rfl

theorem site?_settle (h : x.site? = some site) {after : Site}
    (hdirectory : after.engine.directory = site.engine.directory) :
    (x.settle after).site? = some after := by
  obtain ⟨o, hopened, rfl⟩ := Option.map_eq_some_iff.mp h
  have hfiles : (x.disk.setDirectory after.engine.directory after.files).directory
      after.engine.directory = after.files := by
    rw [Disk.directory_setDirectory, if_pos rfl]
  rw [site?, settle, hopened, Option.map_some, Option.map_some, hfiles]

theorem onEngine_eq_ok {action : Action α} {a : α} (h : onEngine action x = .ok a y) :
    ∃ site after, x.site? = some site ∧ action site = .ok a after ∧ y = x.settle after := by
  cases hsite : x.site? with
  | none =>
    rw [onEngine_of_none hsite] at h
    cases h
  | some site =>
    rw [onEngine_of_site? hsite] at h
    cases houtcome : action site with
    | ok b after =>
      rw [houtcome] at h
      cases h
      exact ⟨site, after, rfl, houtcome, rfl⟩
    | error failure after =>
      rw [houtcome] at h
      cases h

theorem ofResult_eq_ok {result : Except Failure α} {a : α} (h : ofResult result x = .ok a y) :
    result = .ok a ∧ y = x := by
  cases result with
  | ok b =>
    cases h
    exact ⟨rfl, rfl⟩
  | error e => cases h

/-! ## Steps that only read -/

/-- The step changes nothing that is stored, whatever it answers. -/
def IsReading (step : Step α) : Prop := ∀ x : Session, x.IsUnchanged (step x).left

theorem IsReading.bind {first : Step α} {next : α → Step β} (hfirst : IsReading first)
    (hnext : ∀ a, IsReading (next a)) : IsReading (first >>= next) := by
  intro x
  have hleft := hfirst x
  cases houtcome : first x with
  | ok a after =>
    rw [houtcome] at hleft
    rw [bind_of_ok houtcome]
    exact hleft.trans (hnext a after)
  | error failure after =>
    rw [houtcome] at hleft
    rw [bind_of_error houtcome]
    exact hleft

theorem isReading_pure (a : α) : IsReading (pure a : Step α) := IsUnchanged.refl

theorem isReading_state : IsReading (get : Step Session) := IsUnchanged.refl

theorem isReading_ofResult (result : Except Failure α) : IsReading (ofResult result) := by
  intro x
  cases result <;> exact .refl x

theorem isReading_require (found : Option α) : IsReading (require found) := by
  intro x
  cases found <;> exact .refl x

theorem isReading_onEngine {action : Action α} (haction : Engine.IsReading action) :
    IsReading (onEngine action) := by
  intro x
  cases hsite : x.site? with
  | none =>
    rw [onEngine_of_none hsite]
    exact .refl x
  | some site =>
    have hleft := haction site
    rw [onEngine_of_site? hsite]
    cases houtcome : action site with
    | ok a after | error failure after =>
      rw [houtcome] at hleft
      obtain rfl : after = site := hleft
      exact isUnchanged_settle hsite

/-- What asking for a collection comes to: a failure, or the collection of the name or of one that
stands for it.  The store remembers the name, and the engine knows nothing of it. -/
theorem collection_cases (name : Value) (x : Session) :
    (∃ failure, collection name x = .error failure x) ∨
      ∃ known y, collection name x = .ok { name := known } y ∧ x.IsUnchanged y ∧
        (known = name ∨ known.standsFor name = true) := by
  rw [collection, state_bind]
  cases hopened : x.opened with
  | none => exact .inl ⟨_, rfl⟩
  | some o =>
    obtain ⟨engine, collections⟩ := o
    cases collections with
    | none => exact .inl ⟨_, rfl⟩
    | some names =>
      cases hcheck : Collection.checkName name with
      | error failure => exact .inl ⟨failure, rfl⟩
      | ok _ =>
        rw [require_bind, require_bind, ofResult_bind]
        cases hfind : names.find? fun n : Value => n.standsFor name with
        | some known =>
          have hsame := List.find?_some (p := fun n : Value => n.standsFor name) hfind
          exact .inr ⟨known, x, rfl, .refl x, .inr hsame⟩
        | none =>
          cases hshown : name.isShowable with
          | false => exact .inl ⟨_, rfl⟩
          | true => exact .inr ⟨name, _, rfl, ⟨by rw [hopened]; rfl, fun _ => rfl⟩, .inl rfl⟩

theorem isReading_collection (name : Value) : IsReading (collection name) := by
  intro x
  obtain ⟨failure, houtcome⟩ | ⟨known, y, houtcome, hy, -⟩ := collection_cases name x
  · rw [houtcome]
    exact .refl x
  · rw [houtcome]
    exact hy

theorem isReading_findIn (c : Collection) (filter : Value) : IsReading (findIn c filter) :=
  isReading_onEngine (c.isReading_find filter)

theorem isReading_documentOfId (name id : Value) : IsReading (documentOfId name id) :=
  (isReading_collection name).bind fun c => isReading_onEngine (c.isReading_get id)

theorem isReading_recorder (number : Nat) : IsReading (recorder number) :=
  isReading_state.bind fun _ => isReading_require _

theorem isReading_setRecorder (number : Nat) (r : Recorder) : IsReading (setRecorder number r) :=
  fun _ => .of_eq rfl rfl

theorem isReading_findThrough (m : Model) (filter : Value) : IsReading (findThrough m filter) := by
  rw [findThrough]
  refine (isReading_ofResult _).bind fun b => ?_
  have hlast : ∀ docs, IsReading (do
      ofResult (m.validateAll docs)
      pure docs : Step (List Value)) :=
    fun docs => (isReading_ofResult _).bind fun _ => isReading_pure docs
  cases b with
  | collection c => exact (isReading_findIn c filter).bind hlast
  | recorder number =>
    refine (isReading_recorder number).bind fun r => ?_
    exact (isReading_setRecorder number _).bind fun _ => hlast _

/-! ## Sessions that bear a property

What is known of the shelf behind a session is known of the engine that is open and of the files
alike, so that it outlives a crash. -/

/-- What is open on the directory, and the files in it, are those of shelves with a property. -/
structure Bears (x : Session) (p : Path) (P : Shelf → Prop) : Prop where
  site : ∀ {site : Site}, x.site? = some site →
    site.Bears P ∧ site.engine.directory.resolved = p.resolved
  files : ∃ s : Shelf, s.IsOn ((x.disk.directory p).touch Engine.logName) ∧ P s

section

variable {P Q : Shelf → Prop}

theorem bears_start (clock : Int) (p : Path) (h : P Shelf.empty) : (start clock).Bears p P where
  site := fun h => absurd h (Option.some_ne_none _).symm
  files := by
    rw [directory_start]
    exact ⟨Shelf.empty, Shelf.isOn_empty, h⟩

theorem bears_of_site (hsite : x.site? = some site) (hbears : site.Bears P)
    (hplace : site.engine.directory.resolved = p.resolved) : x.Bears p P where
  site := by
    intro other hother
    obtain rfl := Option.some.inj (hsite.symm.trans hother)
    exact ⟨hbears, hplace⟩
  files := by
    obtain ⟨s, hon, hs⟩ := hbears.exists_shelf
    obtain ⟨o, -, rfl⟩ := Option.map_eq_some_iff.mp hsite
    rw [← x.disk.directory_congr hplace, Directory.touch_of_read? hon.log]
    exact ⟨s, hon, hs⟩

theorem Bears.imp (h : x.Bears p P) (himp : ∀ s, P s → Q s) : x.Bears p Q where
  site := fun hsite => ⟨(h.site hsite).1.imp himp, (h.site hsite).2⟩
  files := by
    obtain ⟨s, hon, hs⟩ := h.files
    exact ⟨s, hon, himp s hs⟩

theorem Bears.of_isUnchanged (h : x.Bears p P) (hxy : x.IsUnchanged y) : y.Bears p P where
  site := fun hsite => h.site (hxy.site?_eq ▸ hsite)
  files := by
    rw [hxy.files]
    exact h.files

theorem bears_settle (hsite : x.site? = some site)
    (hplace : site.engine.directory.resolved = p.resolved) {after : Site} (hafter : after.Bears P)
    (hdirectory : after.engine.directory = site.engine.directory) : (x.settle after).Bears p P :=
  bears_of_site (site?_settle hsite hdirectory) hafter (by rw [hdirectory, hplace])

/-- An engine that acts takes the session from one property to another. -/
theorem bears_onEngine (hx : x.Bears p P) (himp : ∀ s, P s → Q s) {action : Action α}
    (haction : ∀ site : Site, site.Bears P → (action site).left.Bears Q ∧
      (action site).left.engine.directory = site.engine.directory) :
    (onEngine action x).left.Bears p Q := by
  cases hsite : x.site? with
  | none =>
    rw [onEngine_of_none hsite]
    exact hx.imp himp
  | some site =>
    obtain ⟨hbears, hplace⟩ := hx.site hsite
    obtain ⟨hafter, hdirectory⟩ := haction site hbears
    rw [onEngine_of_site? hsite]
    cases houtcome : action site with
    | ok a after | error failure after =>
      rw [houtcome] at hafter hdirectory
      exact bears_settle hsite hplace hafter hdirectory

theorem bears_crash (hx : x.Bears p P) : (crash x).left.Bears p P :=
  ⟨fun h => absurd h (Option.some_ne_none _).symm, hx.files⟩

theorem bears_openEngine (hx : x.Bears p P) (hsize : ∀ s, P s → s.weight < Sheet.capacity)
    (hreopened : ∀ s, P s → P s.reopened) {c : Settings} (hc : c.IsAccepted)
    (hplace : c.dataDir.resolved = p.resolved) : (openEngine c true x).left.Bears p P := by
  cases hdisk : x.disk.makeDirectory c.dataDir with
  | error failure =>
    rw [openEngine_of_error hdisk]
    exact hx
  | ok disk =>
    obtain ⟨s, hon, hs⟩ := hx.files
    rw [← x.disk.directory_congr hplace] at hon
    obtain ⟨e, hopen, hdirectory, _, hbears⟩ := Engine.openAt_bears hsize hreopened hon hs hc
    rw [openEngine_eq hdisk hopen]
    refine bears_of_site (Option.map_eq_some_iff.mpr ⟨_, rfl, ?_⟩) hbears ?_
    · show ({ engine := e, files := (disk.setDirectory c.dataDir _).directory e.directory } : Site)
        = _
      rw [hdirectory, Disk.directory_setDirectory, if_pos rfl]
    · show e.directory.resolved = _
      rw [hdirectory, hplace]

end

/-! ## Sessions within a bound -/

/-- What is open on the directory, and the files in it, are within a bound. -/
structure Stands (x : Session) (p : Path) (n : Nat) : Prop where
  site : ∀ {site : Site}, x.site? = some site →
    site.IsWithin n ∧ site.engine.directory.resolved = p.resolved
  files : ∃ s : Shelf, s.IsOn ((x.disk.directory p).touch Engine.logName) ∧ s.weight ≤ n

theorem stands_iff_bears : x.Stands p n ↔ x.Bears p fun s => s.weight ≤ n := by
  constructor
  · intro h
    exact ⟨fun hsite => (h.site hsite).imp Site.isWithin_iff_bears.mp id, h.files⟩
  · intro h
    exact ⟨fun hsite => (h.site hsite).imp Site.isWithin_iff_bears.mpr id, h.files⟩

theorem stands_start (clock : Int) (p : Path) : (start clock).Stands p 0 :=
  stands_iff_bears.mpr (bears_start clock p (Nat.le_refl 0))

theorem Stands.mono (h : x.Stands p n) (hle : n ≤ k) : x.Stands p k :=
  stands_iff_bears.mpr ((stands_iff_bears.mp h).imp fun _ hs => Nat.le_trans hs hle)

theorem Stands.of_isUnchanged (h : x.Stands p n) (hxy : x.IsUnchanged y) : y.Stands p n :=
  stands_iff_bears.mpr ((stands_iff_bears.mp h).of_isUnchanged hxy)

theorem stands_settle (hsite : x.site? = some site)
    (hplace : site.engine.directory.resolved = p.resolved) {after : Site}
    (hafter : after.IsWithin n) (hdirectory : after.engine.directory = site.engine.directory) :
    (x.settle after).Stands p n :=
  stands_iff_bears.mpr (bears_settle hsite hplace (Site.isWithin_iff_bears.mp hafter) hdirectory)

theorem stands_onEngine (hx : x.Stands p n) {action : Action α} (haction : Engine.IsAtomic k action)
    (hsize : n + k < Sheet.capacity) : (onEngine action x).left.Stands p (n + k) := by
  refine stands_iff_bears.mpr (bears_onEngine (stands_iff_bears.mp hx)
    (fun _ hs => Nat.le_trans hs (Nat.le_add_right n k)) fun site hsite => ?_)
  have hwithin := Site.isWithin_iff_bears.mpr hsite
  rw [← Site.isWithin_iff_bears]
  obtain ⟨a, after, houtcome, hafter, hdirectory⟩ | ⟨failure, houtcome⟩ := haction hwithin hsize
  · rw [houtcome]
    exact ⟨hafter, hdirectory⟩
  · rw [houtcome]
    exact ⟨hwithin.mono (Nat.le_add_right n k), rfl⟩

theorem stands_openEngine (hx : x.Stands p n) {c : Settings} (hc : c.IsAccepted)
    (hplace : c.dataDir.resolved = p.resolved) (hsize : n < Sheet.capacity) :
    (openEngine c true x).left.Stands p n :=
  stands_iff_bears.mpr (bears_openEngine (stands_iff_bears.mp hx)
    (fun _ hs => Nat.lt_of_le_of_lt hs hsize) (fun s hs => s.weight_reopened.symm ▸ hs) hc hplace)

end Session
end SchemaStore
