import SchemaStore.Proofs.Documents.Lookups
import SchemaStore.Proofs.Documents.Retained
import SchemaStore.Proofs.Schemas.Conformance
import SchemaStore.Proofs.Stored.Outcomes

/-!
Models with an exclusive description.  The name of the id starts as that of an option, so no
description declares it as a field, and an exclusive one refuses every document that has it.  What
is stored always has it.  So a document that has been inserted through such a model, which stays
for good, is in the way of every query through the model that asks for all documents.
-/

namespace SchemaStore

open Description (declared isExclusive isOption)

/-! ## Schemas -/

theorem Description.isOption_of_mem_declared {ds : Entries} {f : String × Value}
    (hf : f ∈ declared ds) : isOption f.1 = false := by
  obtain ⟨⟨key, d⟩, -, hfield⟩ := List.mem_filterMap.mp hf
  cases key with
  | str name =>
    rw [field?] at hfield
    split at hfield
    · cases hfield
    · next hname =>
      rw [← Option.some.inj hfield]
      exact Bool.not_eq_true _ ▸ hname
  | _ => cases hfield

/-- No description declares the id. -/
theorem Description.ne_idField_of_mem_declared {ds : Entries} {f : String × Value}
    (hf : f ∈ declared ds) : f.1 ≠ Collection.idField := by
  intro hid
  have hname := isOption_of_mem_declared hf
  rw [hid] at hname
  cases hname

namespace Schema

variable {rules : Registry} {label : String} {ds : Entries} {schema : Schema}

/-- Keys that are not declared are an error of their own, before any field is looked at. -/
theorem validate_of_undeclared (hschema : compile rules label (.dict ds) = .ok schema)
    (hexclusive : isExclusive ds = true) {doc : Value} {es : Entries}
    (hentries : doc.entries? = some es) {e : Value × Value} (he : e ∈ es)
    (hundeclared : ∀ f ∈ declared ds, e.1 ≠ .str f.1) :
    ∃ keys,
      (∀ key, key ∈ keys ↔ (∃ e ∈ es, e.1 = key) ∧ ∀ f ∈ declared ds, key ≠ .str f.1) ∧
      schema.validate doc = .error (.quoting keys (.extraKeys label keys)) := by
  obtain ⟨node, hnode, hvalidator⟩ := compile_eq_ok hschema
  rw [Node.ofDescription, Node.ofEntries, Except.bind_eq_ok] at hnode
  obtain ⟨nodes, hnodes, hnode⟩ := hnode
  rw [← Except.ok.inj hnode, Validator.ofNode, Except.bind_eq_ok] at hvalidator
  obtain ⟨fields, hfields, hvalidator⟩ := hvalidator
  have hkeys : ∀ key, key ∈ Validator.undeclared fields es ↔
      (∃ e ∈ es, e.1 = key) ∧ ∀ f ∈ declared ds, key ≠ .str f.1 :=
    fun _ => Validator.mem_undeclared_ofFields hnodes hfields
  have hsome : (Validator.undeclared fields es).isEmpty = false :=
    List.isEmpty_eq_false_iff.mpr
      (List.ne_nil_of_mem ((hkeys e.1).mpr ⟨⟨e, he, rfl⟩, hundeclared⟩))
  refine ⟨Validator.undeclared fields es, hkeys, ?_⟩
  rw [validate, ← Except.ok.inj hvalidator, Validator.check, hentries, hexclusive]
  simp only [if_true, hsome, Bool.false_eq_true, if_false]

/-- An exclusive description refuses every document that has an id. -/
theorem validate_of_id (hschema : compile rules label (.dict ds) = .ok schema)
    (hexclusive : isExclusive ds = true) {doc v : Value} {es : Entries}
    (hentries : doc.entries? = some es) (hv : (.str Collection.idField, v) ∈ es) :
    ∃ keys, .str Collection.idField ∈ keys ∧
      (∀ key, key ∈ keys ↔ (∃ e ∈ es, e.1 = key) ∧ ∀ f ∈ declared ds, key ≠ .str f.1) ∧
      schema.validate doc = .error (.quoting keys (.extraKeys label keys)) := by
  have hundeclared : ∀ f ∈ declared ds, Value.str Collection.idField ≠ .str f.1 := fun _ hf heq =>
    Description.ne_idField_of_mem_declared hf (Value.str.inj heq).symm
  obtain ⟨keys, hkeys, hrefused⟩ :=
    validate_of_undeclared hschema hexclusive hentries hv hundeclared
  exact ⟨keys, (hkeys _).mpr ⟨⟨_, hv, rfl⟩, hundeclared⟩, hkeys, hrefused⟩

end Schema

theorem Model.define_eq_ok {rules : Registry} {name : String} {description : Value}
    {binding : Option Binding} {m : Model} (h : define rules name description binding = .ok m) :
    Schema.compile rules name description = .ok m.schema ∧ m.binding = binding := by
  rw [define, Except.bind_eq_ok] at h
  obtain ⟨schema, hschema, h⟩ := h
  rw [← Except.ok.inj h]
  exact ⟨hschema, rfl⟩

/-- Binding a model to what it is bound to changes nothing. -/
theorem Model.bind_of_binding {m : Model} {b : Binding} (h : m.binding = some b) :
    m.bind b = m := by
  rw [bind, ← h]

/-! ## Queries for all documents -/

namespace Collection

/-- Without a filter everything that is found is decoded and given back. -/
theorem mem_of_select_null {found : List (String × Value)} {docs : List Value}
    (h : select .null found = .ok docs) {q : String × Value} (hq : q ∈ found) :
    ∃ doc ∈ docs, Stored.decode q.2 = .ok doc := by
  induction found generalizing docs with
  | nil => exact absurd hq List.not_mem_nil
  | cons first found ih =>
    have haccepts : ∀ doc, Filter.accepts .null doc = .ok true := fun _ => rfl
    rw [select, Except.bind_eq_ok] at h
    obtain ⟨doc, hdoc, h⟩ := h
    rw [haccepts, Failure.lift_ok, Except.ok_bind, Except.bind_eq_ok] at h
    obtain ⟨rest, hrest, h⟩ := h
    obtain rfl : doc :: rest = docs := Except.ok.inj h
    rcases List.mem_cons.mp hq with rfl | hq
    · exact ⟨doc, List.mem_cons_self, Failure.lift_eq_ok_iff.mp hdoc⟩
    · obtain ⟨other, hother, hdecode⟩ := ih hrest hq
      exact ⟨other, List.mem_cons_of_mem doc hother, hdecode⟩

/-- A document whose record is fixed is among those that a query without a filter finds. -/
theorem exists_mem_of_find {c : Collection} {id text : String} {n : Nat} {site after : Site}
    (hsite : site.Bears fun s => s.Fixes n (c.keyOf id, text)) {docs : List Value}
    (h : c.find .null site = .ok docs after) :
    ∃ doc ∈ docs, Stored.decodeText text = .ok doc := by
  cases hsite with
  | @opened s settings files hc hon hs =>
    have hprefix : c.keyStart.toList.isPrefixOf (c.keyOf id).toList = true := by
      rw [List.isPrefixOf_iff_prefix, keyOf, String.toList_append]
      exact List.prefix_append _ _
    have hscan : (s.scan c.keyStart).lookup (c.keyOf id) = some text := by
      rw [s.lookup_scan, if_pos hprefix, hs.lookup]
    have hfound : (c.keyOf id, .str text) ∈ Engine.listing (s.scan c.keyStart) :=
      List.mem_map_of_mem (Pairs.mem_of_lookup hscan)
    have hrecords : Engine.scan c.keyStart (s.site settings files)
        = .ok (Engine.listing (s.scan c.keyStart)) (s.site settings files) :=
      Engine.scan_shelf hon settings c.keyStart
    rw [find, bind_of_ok hrecords] at h
    have hselect : select .null (Engine.listing (s.scan c.keyStart)) = .ok docs := by
      rw [← Engine.answer_ofResult (select _ _), h]
      rfl
    exact mem_of_select_null hselect hfound
  | closed hempty hon hs =>
    rw [find, bind_of_error (Engine.scan_closed rfl c.keyStart)] at h
    cases h

end Collection

namespace Session

variable {x y : Session} {c : Collection}

/-- What a query through a model gives has been found in the collection, and matches the schema. -/
theorem findThrough_eq_ok {m : Model} (hbound : m.binding = some (.collection c)) {filter : Value}
    {docs : List Value} (h : findThrough m filter x = .ok docs y) :
    (∃ z, findIn c filter x = .ok docs z) ∧ ∀ doc ∈ docs, m.schema.validate doc = .ok () := by
  have heq : findThrough m filter x = (findIn c filter >>= fun docs => do
      ofResult (m.validateAll docs)
      pure docs) x := by
    rw [findThrough, Model.bound, hbound]
    rfl
  rw [heq] at h
  obtain ⟨found, after, hfind, h⟩ := exists_of_bind_eq_ok h
  obtain ⟨_, _, hvalidated, h⟩ := exists_of_bind_eq_ok h
  cases h
  obtain ⟨hvalid, -⟩ := ofResult_eq_ok hvalidated
  exact ⟨⟨after, hfind⟩, fun doc hdoc =>
    Failure.lift_eq_ok_iff.mp (Except.forM_eq_ok.mp hvalid doc hdoc)⟩

/-- A name that is a text gives the collection of that name. -/
theorem collection_eq_ok {name : String} (h : collection (.str name) x = .ok c y) :
    c = Collection.named name := by
  obtain ⟨failure, houtcome⟩ | ⟨known, after, houtcome, -, hknown⟩ := collection_cases (.str name) x
  · rw [houtcome] at h
    cases h
  · rw [houtcome] at h
    cases h
    obtain rfl | hsame := hknown
    · rfl
    · rw [(Value.standsFor_str_iff known name).mp hsame]
      rfl

/-- Where the stored form of a document is fixed, what a collection gives without a filter has a
document with an id. -/
theorem exists_mem_of_findIn {p : Path} {n : Nat} {es : Entries} {fresh id text : String}
    (hx : x.Bears p fun s => s.Fixes n (c.keyOf id, text))
    (hencode : Stored.encode (.dict (Collection.withId es fresh)) = .ok text) {docs : List Value}
    (h : findIn c .null x = .ok docs y) :
    ∃ fs v, .dict fs ∈ docs ∧ Entries.field? fs Collection.idField = some v ∧
      ∀ e ∈ fs, ∃ s, e.1 = .str s := by
  obtain ⟨site, after, hsite, hfound, -⟩ := onEngine_eq_ok h
  obtain ⟨doc, hdoc, hdecode⟩ := Collection.exists_mem_of_find (hx.site hsite).1 hfound
  have htag : Collection.idField ≠ Stored.dateTag ∧ Collection.idField ≠ Stored.dateTimeTag :=
    ⟨by decide, by decide⟩
  have hhas : (Entries.field? (Collection.withId es fresh) Collection.idField).isSome = true := by
    rw [Collection.field?_withId]
    rfl
  obtain ⟨fs, v, rfl, hid, -⟩ := Stored.exists_field_of_decode hencode hdecode htag hhas
    fun _ _ _ _ _ _ _ => trivial
  exact ⟨fs, v, hdoc, hid, Stored.key_of_decode hencode hdecode rfl⟩

/-- A model finds nothing where the collection gives what the schema refuses. -/
theorem findThrough_ne_ok {m : Model} (hbound : m.binding = some (.collection c)) {filter : Value}
    (hrefused : ∀ docs z, findIn c filter x = .ok docs z →
      ∃ doc ∈ docs, ∃ r, m.schema.validate doc = .error r) (docs : List Value) :
    findThrough m filter x ≠ .ok docs y := by
  intro hfind
  obtain ⟨⟨z, hfound⟩, hvalid⟩ := findThrough_eq_ok hbound hfind
  obtain ⟨doc, hdoc, r, hr⟩ := hrefused docs z hfound
  rw [hvalid doc hdoc] at hr
  cases hr

end Session

/-! ## Runs -/

namespace Model

open Collection (idField)

/-- A model with an exclusive description is write-only.  The id is no field of any description, so
the model refuses every document that has one, with a validation error unless a key that the error
has to name cannot be shown.  And once a document has been inserted through it, at any point of any
run, whatever the collection gives when asked for all documents has one with an id; so a query
through the model without a filter never succeeds again, whether the model is bound as it was or
anew, and whatever is done with the store and its clients, as long as nothing is put into the engine
past the collections.  The bound is that of the numbers that can be read back from an index. -/
theorem exclusive_writeOnly {rules : Registry} {label : String} {ds : Entries} {name : String}
    {m : Model} (hmodel : define rules label (.dict ds)
      (some (.collection (Collection.named name))) = .ok m)
    (hexclusive : isExclusive ds = true) (clock : Int) {p : Path} :
    (∀ f ∈ declared ds, f.1 ≠ idField) ∧
    (∀ doc es v, Value.entries? doc = some es → (.str idField, v) ∈ es → ∀ x, ∃ keys,
      .str idField ∈ keys ∧
      (∀ key, key ∈ keys ↔ (∃ e ∈ es, e.1 = key) ∧ ∀ f ∈ declared ds, key ≠ .str f.1) ∧
      ((∀ key ∈ keys, key.isShowable = true) →
        Session.insertThrough m doc x = .error (.validation (.extraKeys label keys)) x) ∧
      ((∃ key ∈ keys, key.isShowable = false) →
        Session.insertThrough m doc x = .error (.badValue .unshowable) x)) ∧
    ∀ before after doc, (∀ t ∈ before, t.IsAllowed p) →
      (∀ t ∈ after, t.IsAllowed p ∧ t.IsAdditive) →
      Turn.volume (Session.start clock) (before ++ .use (.insertThrough m doc) :: after)
        < Sheet.capacity →
      ∀ stored x,
        Session.insertThrough m doc (Turn.run (Session.start clock) before) = .ok stored x →
        (∀ docs y, Session.findIn (Collection.named name) .null (Turn.run x after) = .ok docs y →
          ∃ doc ∈ docs, ∃ keys, .str idField ∈ keys ∧
            m.schema.validate doc = .error (.fault (.extraKeys label keys))) ∧
        (∀ docs y, Session.findThrough m .null (Turn.run x after) ≠ .ok docs y) ∧
        ∀ c y, Session.collection (.str name) (Turn.run x after) = .ok c y →
          ∀ docs z, Session.findThrough (m.bind (.collection c)) .null y ≠ .ok docs z := by
  obtain ⟨hschema, hbound⟩ := define_eq_ok hmodel
  refine ⟨fun f => Description.ne_idField_of_mem_declared, fun doc es v hentries hv x => ?_, ?_⟩
  · obtain ⟨keys, hid, hkeys, hrefused⟩ := Schema.validate_of_id hschema hexclusive hentries hv
    have hinsert := Session.insertThrough_of_invalid hrefused x
    refine ⟨keys, hid, hkeys, fun hshown => ?_, fun hlong => ?_⟩
    · rw [hinsert, Report.quoting_eq_fault_iff.mpr ⟨rfl, hshown⟩]
      rfl
    · rw [hinsert, Report.quoting_eq_unshowable_iff.mpr hlong]
      rfl
  · intro before after doc hbefore hafter hsize stored x hinsert
    obtain ⟨es, fresh, id, text, hencode, hfixed⟩ :=
      Turn.exists_fixes_run hbefore hafter hbound hsize hinsert
    have hrefused : ∀ {z : Session}, (Turn.run x after).IsUnchanged z → ∀ docs y,
        Session.findIn (Collection.named name) .null z = .ok docs y →
        ∃ doc ∈ docs, ∃ keys, .str idField ∈ keys ∧
          m.schema.validate doc = .error (.fault (.extraKeys label keys)) := by
      intro z hz docs y hfind
      obtain ⟨fs, v, hdoc, hid, hnames⟩ :=
        Session.exists_mem_of_findIn (hfixed.of_isUnchanged hz) hencode hfind
      have hentries : (Value.dict fs).entries? = some fs := rfl
      obtain ⟨keys, hinside, hkeys, hvalidate⟩ :=
        Schema.validate_of_id hschema hexclusive hentries (Entries.mem_of_field? hid)
      -- What has been read back has texts for keys, and every text can be shown.
      have hshown : ∀ key ∈ keys, key.isShowable = true := by
        intro key hkey
        obtain ⟨e, he, rfl⟩ := ((hkeys key).mp hkey).1
        obtain ⟨s, hs⟩ := hnames e he
        rw [hs]
        rfl
      refine ⟨.dict fs, hdoc, keys, hinside, ?_⟩
      rw [hvalidate, Report.quoting_eq_fault_iff.mpr ⟨rfl, hshown⟩]
    have hnever : ∀ {z : Session}, (Turn.run x after).IsUnchanged z → ∀ docs y,
        Session.findThrough m .null z ≠ .ok docs y := by
      refine fun hz docs y => Session.findThrough_ne_ok hbound (fun found w hfind => ?_) docs
      obtain ⟨doc, hdoc, keys, -, he⟩ := hrefused hz found w hfind
      exact ⟨doc, hdoc, _, he⟩
    refine ⟨hrefused (.refl _), hnever (.refl _), fun c y hcollection docs z => ?_⟩
    obtain rfl := Session.collection_eq_ok hcollection
    have hunchanged := Session.isReading_collection (.str name) (Turn.run x after)
    rw [hcollection] at hunchanged
    rw [bind_of_binding hbound]
    exact hnever hunchanged docs z

/-- A description of nothing but a number. -/
def strictFields : Entries := [(.str "_exclusive", .bool true), (.str "n", .type .int)]

def strict : Model where
  schema :=
    { name := "Strict"
      description := .dict strictFields
      validator := .objectOf "Strict" true
        [("n", .primitive (Description.fieldPath "Strict" "n") Kind.number.label
          (Predicate.natural .number))] }
  binding := some (.collection (Collection.named "Strict"))

theorem isExclusive_strictFields : isExclusive strictFields = true := by decide +kernel

theorem define_strict : define Registry.standard "Strict" (.dict strictFields)
    (some (.collection (Collection.named "Strict"))) = .ok strict := by
  rw [strict, ← isExclusive_strictFields]
  rfl

def numberDocument (n : Int) : Value := .dict [(.str "n", .int n)]

/-- Settings under which the first documents stay in memory until a flush. -/
def calm : Settings := { Settings.eager with memtableLimit := .int 9 }

def strictBefore : List Turn :=
  [.setClient Registry.standard, .addModel "Strict" (.dict strictFields), .connect calm]

/-- The store is lost, opened again, flushed, merged, closed, and opened for another number. -/
def strictAfter : List Turn :=
  [.use .crash, .connect calm, .use .flush, .use .compact, .closeConnection, .connect calm,
    .use (.insertThrough strict (numberDocument 2))]

theorem isAllowed_connect : (Turn.connect calm).IsAllowed Disk.workingPath :=
  ⟨Settings.isAccepted_of_le (by decide) (by decide) _ _, rfl⟩

theorem isAllowed_strictBefore : ∀ t ∈ strictBefore, t.IsAllowed Disk.workingPath := by
  simpa [strictBefore] using ⟨trivial, trivial, isAllowed_connect⟩

theorem isAllowed_strictAfter :
    ∀ t ∈ strictAfter, t.IsAllowed Disk.workingPath ∧ t.IsAdditive := by
  intro t ht
  simp only [strictAfter, List.mem_cons, List.not_mem_nil, or_false] at ht
  rcases ht with rfl | rfl | rfl | rfl | rfl | rfl | rfl
  all_goals first | exact ⟨trivial, nofun⟩ | exact ⟨isAllowed_connect, nofun⟩

def firstInsertion : EStateM.Result Failure Session Value :=
  Session.insertThrough strict (numberDocument 1) (Turn.run (Session.start 7) strictBefore)

def lastBinding : EStateM.Result Failure Session Collection :=
  Session.collection (.str "Strict") (Turn.run firstInsertion.left strictAfter)

/-- In the end the collection is bound again and has both numbers, and they cannot be queried. -/
theorem exclusive_writeOnly_strict :
    firstInsertion.answer.isOk = true ∧
      ∃ c, lastBinding = .ok c lastBinding.left ∧
        (Session.findIn c .null lastBinding.left).answer.toOption.map List.length = some 2 ∧
        ∀ docs x, Session.findThrough (strict.bind (.collection c)) .null lastBinding.left
          ≠ .ok docs x := by
  have hsize : Turn.volume (Session.start 7)
      (strictBefore ++ .use (.insertThrough strict (numberDocument 1)) :: strictAfter)
        < Sheet.capacity := Sheet.lt_capacity (by decide +kernel)
  obtain ⟨-, -, hrun⟩ := exclusive_writeOnly define_strict isExclusive_strictFields 7
    (p := Disk.workingPath)
  have hinserted : firstInsertion.answer.isOk = true := by decide +kernel
  have hbound : lastBinding.answer.isOk = true := by decide +kernel
  obtain ⟨stored, hfirst⟩ := EStateM.Result.exists_eq_ok hinserted
  obtain ⟨c, hlast⟩ := EStateM.Result.exists_eq_ok hbound
  obtain ⟨-, -, hnever⟩ :=
    hrun _ _ _ isAllowed_strictBefore isAllowed_strictAfter hsize _ _ hfirst
  refine ⟨hinserted, c, hlast, ?_, hnever c _ hlast⟩
  rw [Session.collection_eq_ok hlast]
  decide +kernel

/-- A document with an id, and with a key that cannot be shown. -/
def unshowableEntries : Entries := [(.str idField, .int 1), (.unshowable, .int 2)]

/-- The model refuses the document, but not with a validation error. -/
theorem exclusive_writeOnly_unshowable :
    define Registry.standard "Strict" (.dict strictFields)
        (some (.collection (Collection.named "Strict"))) = .ok strict ∧
      isExclusive strictFields = true ∧
      (.str idField, .int 1) ∈ unshowableEntries ∧
      ∀ x y e, Session.insertThrough strict (.dict unshowableEntries) x
        ≠ .error (.validation e) y := by
  refine ⟨define_strict, isExclusive_strictFields, List.mem_cons_self, fun x y e he => ?_⟩
  have hkey : (.unshowable, .int 2) ∈ unshowableEntries :=
    List.mem_cons_of_mem _ (List.mem_singleton_self _)
  have hnever : ∀ f ∈ declared strictFields, Value.unshowable ≠ .str f.1 := by
    intro f _
    rw [Value.unshowable]
    intro heq
    cases heq
  obtain ⟨keys, hkeys, hrefused⟩ := Schema.validate_of_undeclared (define_eq_ok define_strict).1
    isExclusive_strictFields (rfl : (Value.dict unshowableEntries).entries? = _) hkey hnever
  have hlong : ∃ key ∈ keys, key.isShowable = false :=
    ⟨_, (hkeys _).mpr ⟨⟨_, hkey, rfl⟩, hnever⟩, Value.isShowable_unshowable⟩
  rw [Session.insertThrough_of_invalid hrefused, Report.quoting_eq_unshowable_iff.mpr hlong] at he
  cases he

end Model
end SchemaStore
