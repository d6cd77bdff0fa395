import SchemaStore.Proofs.Documents.Returned

/-!
Documents by their ids.  An insertion makes the key of a document from the text of its id, whatever
the id is, and a look-up takes the text itself.  So a document is found under the text of its id,
and under the id where that is a text, for as long as the store is used.
-/

namespace SchemaStore

open Stored (encode decode)

namespace Collection

/-- A document as it will be stored has its id among its fields. -/
theorem field?_withId (es : Entries) (fresh : String) :
    (withId es fresh).field? idField = some (idOf (withId es fresh)) := by
  have hid : ((withId es fresh).field? idField).isSome = true := by
    rw [withId]
    split
    · next hhas => exact hhas
    · rw [Entries.field?_insert]
      rfl
  obtain ⟨id, hid⟩ := Option.isSome_iff_exists.mp hid
  rw [idOf, hid]
  rfl

theorem get_of_stored {c : Collection} {id text : String} {site after : Site}
    (h : Engine.get (.str (c.keyOf id)) site = .ok (.str text) after) :
    c.get (.str id) site
      = Engine.ofResult (Failure.lift .ofDecode (decode (.str text))) after :=
  bind_of_ok h

end Collection

namespace Session

variable {x : Session} {p : Path} {site : Site}

/-- A look-up comes down to one in the engine. -/
theorem documentOfId_of_stored (h : x.Offers p site) {name id text : String}
    (hname : Collection.IsName name)
    (hget : Engine.get (.str ((Collection.named name).keyOf id)) site = .ok (.str text) site) :
    (documentOfId (.str name) (.str id) x).answer
      = Failure.lift .ofDecode (decode (.str text)) := by
  obtain ⟨y, hcollection, hy, _⟩ := collection_eq h hname
  rw [documentOfId, bind_of_ok hcollection, onEngine_eq hy, Collection.get_of_stored hget]
  cases Failure.lift .ofDecode (decode (.str text)) <;> rfl

/-- Only a text can be looked up. -/
theorem documentOfId_of_noText (h : x.Offers p site) {name : String}
    (hname : Collection.IsName name) {id : Value} (hid : ∀ s, id ≠ .str s) :
    (documentOfId (.str name) id x).answer
      = .error (.misuse (.notConcatenable id.typeName)) := by
  obtain ⟨y, hcollection, hy, _⟩ := collection_eq h hname
  rw [documentOfId, bind_of_ok hcollection, onEngine_eq hy]
  cases id with
  | str s => exact absurd rfl (hid s)
  | _ => rfl

end Session

namespace Journal

variable {w : Journal} {p : Path}

/-- A look-up under the text of an id gives the document that was inserted, as it decodes. -/
theorem documentOfId_of_mem (h : w.Keeps p) (hopen : w.IsOpen) {i : Insertion}
    (hi : i ∈ w.inserted) :
    (Session.documentOfId (.str i.name) (.str i.id) w.session).answer
      = Failure.lift .ofDecode (decode (.str i.text)) := by
  obtain ⟨s, c, files, hoffers, _, hon, hs⟩ := exists_shelf h hopen
  exact Session.documentOfId_of_stored hoffers (h.names i hi) (get_of_mem hon hs c hi)

/-- Nothing is stored at the start. -/
theorem weight_start_add {clock : Int} {calls : List Call}
    (h : (start clock).volume calls < Sheet.capacity) :
    (start clock).pairs.weight + (start clock).volume calls < Sheet.capacity := by
  have hstart : (start clock).pairs.weight = 0 := rfl
  omega

theorem mem_insertionsOf {documents : List (String × Entries)} {d : String × Entries}
    (hd : d ∈ documents) {text : String} (htext : encode (.dict d.2) = .ok text) :
    { name := d.1, id := (Collection.idOf d.2).text, text := text } ∈ insertionsOf documents := by
  refine List.mem_flatMap.mpr ⟨d, hd, ?_⟩
  rw [recorded, htext]
  exact List.mem_singleton.mpr rfl

/-- Whatever came after its insertion, a document is found in an open store under the text of its
id: the answer is what its stored form decodes to, and nothing but the decoding can fail.  An id
that is a text is its own text. -/
theorem documentOfId_returned (clock : Int) {p : Path} {calls : List Call}
    (hcalls : ∀ call ∈ calls, call.IsAllowed p)
    (hsize : (start clock).volume calls < Sheet.capacity)
    (hopen : ((start clock).run calls).IsOpen) :
    ∀ d ∈ (start clock).returned calls, ∃ id text,
      d.2.field? Collection.idField = some id ∧ encode (.dict d.2) = .ok text ∧
      (Session.documentOfId (.str d.1) (.str id.text) ((start clock).run calls).session).answer
        = Failure.lift .ofDecode (decode (.str text)) ∧
      (∀ s, id = .str s →
        (Session.documentOfId (.str d.1) id ((start clock).run calls).session).answer
          = Failure.lift .ofDecode (decode (.str text))) := by
  intro d hd
  obtain ⟨hkeeps, -⟩ := keeps_run (keeps_start clock p) hcalls (weight_start_add hsize)
  obtain ⟨_, es, fresh, text, _, _, hstored, htext⟩ :=
    exists_of_returned (keeps_start clock p) hcalls (weight_start_add hsize) hd
  have hfield : d.2.field? Collection.idField = some (Collection.idOf d.2) := by
    rw [hstored]
    exact Collection.field?_withId es fresh
  have hin : { name := d.1, id := (Collection.idOf d.2).text, text := text }
      ∈ ((start clock).run calls).inserted := by
    rw [inserted_run]
    exact mem_insertionsOf hd htext
  have hanswer := documentOfId_of_mem hkeeps hopen hin
  refine ⟨Collection.idOf d.2, text, hfield, htext, hanswer, fun s hs => ?_⟩
  rw [hs] at hanswer ⊢
  exact hanswer

/-- An order is inserted under a number, and the store is closed and opened again. -/
def numberedCalls : List Call :=
  [.start Settings.eager, .insert "a" (.dict order), .close, .start Settings.eager]

theorem isAllowed_numberedCalls : ∀ call ∈ numberedCalls, call.IsAllowed Disk.workingPath := by
  have ha : Collection.IsName "a" := ⟨by decide, by decide⟩
  have hstart : (Call.start Settings.eager).IsAllowed Disk.workingPath :=
    ⟨Settings.eager_isAccepted, rfl⟩
  simpa [numberedCalls] using ⟨hstart, ha, trivial, hstart⟩

theorem isOpen_numberedCalls : ((start 7).run numberedCalls).IsOpen := by
  show (_ = true)
  decide +kernel

theorem volume_numberedCalls : (start 7).volume numberedCalls < Sheet.capacity :=
  Sheet.lt_capacity (by decide +kernel)

/-- The insertion returned the order, which has an id of its own. -/
theorem order_mem_returned : ("a", order) ∈ (start 7).returned numberedCalls := by
  have hnames : ((start 7).returned numberedCalls).map (·.1) = ["a"] := by decide +kernel
  have ha : "a" ∈ ((start 7).returned numberedCalls).map (·.1) := by
    rw [hnames]
    exact List.mem_singleton.mpr rfl
  obtain ⟨⟨name, stored⟩, hd, rfl⟩ := List.mem_map.mp ha
  obtain ⟨doc, es, fresh, _, hcall, hdoc, hstored, _⟩ :=
    exists_of_returned (keeps_start 7 Disk.workingPath) isAllowed_numberedCalls
      (weight_start_add volume_numberedCalls) hd
  have hcases : doc = .dict order := by simpa [numberedCalls] using hcall
  rw [hcases] at hdoc
  cases hdoc
  have hid : Entries.field? order Collection.idField = some (.int 1) := by
    simp [order, Entries.field?, Entries.get?_cons]
  have hkept : Collection.withId order fresh = order := by simp [Collection.withId, hid]
  have hsame : stored = order := hstored.trans hkept
  rwa [hsame] at hd

/-- The order is found under the text of its number. -/
theorem documentOfId_returned_order :
    (Session.documentOfId (.str "a") (.str "1") ((start 7).run numberedCalls).session).answer
      = .ok (Value.dict order).listed := by
  obtain ⟨id, text, hid, htext, hanswer, -⟩ := documentOfId_returned 7 isAllowed_numberedCalls
    volume_numberedCalls isOpen_numberedCalls _ order_mem_returned
  have hone : id = .int 1 := by
    simpa [order, Entries.field?, Entries.get?_cons] using hid.symm
  rw [hone] at hanswer
  have hdecode := keepsForm_order.decode_encode htext
  rw [hdecode] at hanswer
  exact hanswer

/-- A look-up under the number itself fails. -/
theorem documentOfId_returned_number :
    ("a", order) ∈ (start 7).returned numberedCalls ∧
      order.field? Collection.idField = some (.int 1) ∧
      ((start 7).run numberedCalls).IsOpen ∧
      (Session.documentOfId (.str "a") (.int 1) ((start 7).run numberedCalls).session).answer
        = .error (.misuse (.notConcatenable "int")) := by
  refine ⟨order_mem_returned, by simp [order, Entries.field?, Entries.get?_cons],
    isOpen_numberedCalls, ?_⟩
  obtain ⟨hkeeps, -⟩ := keeps_run (keeps_start 7 Disk.workingPath)
    isAllowed_numberedCalls (weight_start_add volume_numberedCalls)
  obtain ⟨_, _, _, hoffers, _⟩ := exists_shelf hkeeps isOpen_numberedCalls
  exact Session.documentOfId_of_noText hoffers ⟨by decide, by decide⟩ (by simp)

end Journal
end SchemaStore
