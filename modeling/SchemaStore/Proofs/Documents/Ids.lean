import SchemaStore.Proofs.Documents.Lookups
import SchemaStore.Proofs.Stored.Outcomes

/-!
How the documents of a collection are told apart.  A store tells ids apart by their texts, and a
query by their values.  The two agree between ids of one plain type, and between plain ids as far as
queries go; they do not in general: a number and a truth value may be equal and differ in their
texts, and a number has the text of a string.
-/

namespace SchemaStore

open Stored (encode decode decodeText readBack?)

/-! ## Queries for an id -/

namespace Filter

variable {x : Value} {name : String} {es : Entries}

/-- A query for the value of a field asks whether the field equals the value, unless that is a
dictionary of operators. -/
theorem accepts_field (hx : ∀ es, x ≠ .dict es) :
    accepts (.dict [(.str name, x)]) (.dict es)
      = (((Value.dict es).field name).equals x).mapError fun m => .fault (.misuse m) := by
  have hcondition : ∀ v, matchCondition (.str name) v x
      = (v.equals x).mapError fun m => .fault (.misuse m) := by
    intro v
    cases x with
    | dict es => exact absurd rfl (hx es)
    | _ =>
      rw [matchCondition]
      · cases v.equals _ <;> rfl
      · intro _ heq
        cases heq
  show matchFields (.dict es) [(.str name, x)]
    = ((((es.get? (.str name)).getD .null).equals x).mapError fun m => .fault (.misuse m))
  simp only [matchFields, Value.entries?, hcondition]
  cases ((es.get? (.str name)).getD .null).equals x with
  | error m => rfl
  | ok b => cases b <;> rfl

theorem accepts_field_of_quiet (hx : ∀ es, x ≠ .dict es)
    (hquiet : Value.signals false ((Value.dict es).field name) x = false) :
    accepts (.dict [(.str name, x)]) (.dict es)
      = .ok (((Value.dict es).field name).same x) := by
  rw [accepts_field hx, Value.equals, hquiet]
  rfl

theorem accepts_field_of_signals (hx : ∀ es, x ≠ .dict es)
    (hsignals : Value.signals false ((Value.dict es).field name) x = true) :
    accepts (.dict [(.str name, x)]) (.dict es)
      = .error (.fault (.misuse .undefinedOrder)) := by
  rw [accepts_field hx, Value.equals, hsignals]
  rfl

end Filter

namespace Journal

/-! ## Plain ids -/

namespace IsPlainId

variable {a b x : Value}

theorem isLegible (h : IsPlainId a) : Stored.IsLegible a := by
  cases a <;> first
    | exact absurd h id
    | exact Stored.isLegible_leaf (by simp) (by simp) (by simp) (by simp)

theorem restored_eq (h : IsPlainId a) : Stored.restored a = a := by
  cases a <;> first | exact absurd h id | rfl

/-- Whole numbers at the same place are the same. -/
theorem eq_of_same_quantity {n m : Int} {q : Quantity} (hn : (Quantity.ofInt n).same q = true)
    (hm : (Quantity.ofInt m).same q = true) : n = m := by
  cases q with
  | exact r =>
    have hn' : n * (r.den : Int) = r.num := by
      simpa [Quantity.same, Quantity.ofInt, Ratio.same, Ratio.ofInt] using hn
    have hm' : m * (r.den : Int) = r.num := by
      simpa [Quantity.same, Quantity.ofInt, Ratio.same, Ratio.ofInt] using hm
    have hpos : (r.den : Int) ≠ 0 := by
      have := r.den_pos
      omega
    exact Int.eq_of_mul_eq_mul_right hpos (hn'.trans hm'.symm)
  | infinite negative => cases hn
  | undefined => cases hn

theorem exists_quantity_of_same {n : Int} (h : (Value.int n).same x = true) :
    ∃ p, x.plane? = some p ∧ (Quantity.ofInt n).same p.1 = true := by
  rw [Value.same, Value.sameNumber, Value.plane?] at h
  cases hplane : x.plane? with
  | none =>
    rw [hplane] at h
    cases h
  | some p =>
    rw [hplane] at h
    exact ⟨p, rfl, (Bool.and_eq_true_iff.mp h).1⟩

/-- A plain id that is no number equals nothing but itself. -/
theorem eq_of_same_left (ha : IsPlainId a) (hint : ∀ n, a ≠ .int n) (h : a.same x = true) :
    x = a := by
  cases a <;> first | exact absurd ha id | skip
  case int n => exact absurd rfl (hint n)
  all_goals cases x <;> simp_all [Value.same]

theorem eq_of_same (ha : IsPlainId a) (hb : IsPlainId b) (h : a.same b = true) : a = b := by
  by_contra hne
  have hfalse := ha.standsFor_eq_false hb hne
  rw [Value.standsFor, h, Bool.or_true] at hfalse
  exact absurd hfalse.symm Bool.false_ne_true

/-- Plain ids that equal the same value are the same. -/
theorem eq_of_same_both (ha : IsPlainId a) (hb : IsPlainId b) (hax : a.same x = true)
    (hbx : b.same x = true) : a = b := by
  by_cases haint : ∃ n, a = .int n
  · by_cases hbint : ∃ m, b = .int m
    · obtain ⟨n, rfl⟩ := haint
      obtain ⟨m, rfl⟩ := hbint
      obtain ⟨p, hp, hn⟩ := exists_quantity_of_same hax
      obtain ⟨q, hq, hm⟩ := exists_quantity_of_same hbx
      cases hp.symm.trans hq
      rw [eq_of_same_quantity hn hm]
    · rw [hb.eq_of_same_left (fun m hm => hbint ⟨m, hm⟩) hbx] at hax
      exact ha.eq_of_same hb hax
  · rw [ha.eq_of_same_left (fun n hn => haint ⟨n, hn⟩) hax] at hbx
    exact (hb.eq_of_same ha hbx).symm

/-- Plain ids of one type with the same text are equal. -/
theorem same_of_text (ha : IsPlainId a) (hb : IsPlainId b) (htype : a.typeName = b.typeName)
    (htext : a.text = b.text) : a.same b = true := by
  cases a <;> first | exact absurd ha id | skip
  all_goals cases b <;> first | exact absurd hb id | skip
  all_goals simp [Value.typeName] at htype
  case null.null => simp [Value.same]
  case int.int n m =>
    have hsame : n = m := Int.repr_inj.mp htext
    rw [Value.same_int, hsame, beq_self_eq_true]
  case str.str s t =>
    have hsame : s = t := htext
    rw [Value.same_str, hsame, beq_self_eq_true]
  case date.date d e =>
    have hread := Iso.readDate_iso d
    have htext : String.ofList d.iso = String.ofList e.iso := htext
    rw [htext, Iso.readDate_iso] at hread
    rw [Except.ok.inj hread, Value.same]
    exact beq_self_eq_true _

end IsPlainId

theorem HasPlainId.isPlainId {es : Entries} (h : HasPlainId es) :
    IsPlainId (Collection.idOf es) := by
  obtain ⟨id, hid, hplain⟩ := h
  rwa [Collection.idOf, hid]

/-! ## Telling ids apart -/

/-- The documents of a collection. -/
def documentsIn (name : String) (documents : List (String × Entries)) : List Entries :=
  (documents.filter fun d => d.1 = name).map (·.2)

theorem mem_documentsIn {name : String} {documents : List (String × Entries)} {es : Entries} :
    es ∈ documentsIn name documents ↔ (name, es) ∈ documents := by
  simp [documentsIn]

/-- How ids are told apart in a collection of an open store that holds the documents. -/
structure TellsApart (w : Journal) (name : String) (documents : List Entries) : Prop where
  /-- No two documents have ids with the same text. -/
  texts : (documents.map fun es => (Collection.idOf es).text).Nodup
  /-- A document with a stored form is refused as a duplicate exactly if there is a document with an
  id of the same text. -/
  refuses : ∀ {doc : Value} {es : Entries} {text : String},
    Collection.documentOf doc = .ok es → encode (.dict (w.session.storedForm es)) = .ok text →
    w.pairs.weight + Pairs.weight ((Call.insert name doc).writes w.session) < Sheet.capacity →
    ((Session.insert (.str name) doc w.session).answer
        = .error (.store (.duplicateId (Collection.idOf (w.session.storedForm es)) name)) ↔
      ∃ stored ∈ documents,
        (Collection.idOf stored).text = (Collection.idOf (w.session.storedForm es)).text)
  /-- Between plain ids of one type the same text means an equal id. -/
  equal : ∀ {id : Value}, IsPlainId id →
    (∀ stored ∈ documents, IsPlainId (Collection.idOf stored) ∧
      (Collection.idOf stored).typeName = id.typeName) →
    (∃ stored ∈ documents, (Collection.idOf stored).text = id.text) →
    ∃ stored ∈ documents, (Collection.idOf stored).same id = true
  /-- A query for an id finds the documents whose ids, as they are read back, equal it.  It is at
  most one if all ids are plain. -/
  finds : ∀ {x : Value}, (∀ es, x ≠ .dict es) →
    (∀ doc ∈ documents.filterMap fun es => readBack? (.dict es),
      Value.signals false (doc.field Collection.idField) x = false) → ∃ docs,
    (Session.find (.str name) (.dict [(.str Collection.idField, x)]) w.session).answer = .ok docs ∧
      docs.Perm ((documents.filterMap fun es => readBack? (.dict es)).filter
        fun doc => (doc.field Collection.idField).same x) ∧
      ((∀ es ∈ documents, es.IsKeyed ∧ HasPlainId es) → docs.length ≤ 1)
  /-- Where an id meets a decimal that signals, it cannot be asked whether they are equal, and the
  query fails. -/
  fails : ∀ {x : Value}, (∀ es, x ≠ .dict es) →
    (∃ doc ∈ documents.filterMap fun es => readBack? (.dict es),
      Value.signals false (doc.field Collection.idField) x = true) →
    (Session.find (.str name) (.dict [(.str Collection.idField, x)]) w.session).answer
      = .error (.misuse .undefinedOrder)

section

variable {w : Journal} {p : Path} {name : String} {documents : List (String × Entries)}

theorem lookup_eq_none_iff (h : w.Keeps p) (hname : Collection.IsName name)
    (hinserted : w.inserted = insertionsOf documents)
    (hencode : ∀ d ∈ documents, ∃ text, encode (.dict d.2) = .ok text) (id : String) :
    w.pairs.lookup ((Collection.named name).keyOf id) = none ↔
      ¬∃ es ∈ documentsIn name documents, (Collection.idOf es).text = id := by
  have hused : (∃ i ∈ w.inserted, i.name = name ∧ i.id = id) ↔
      ∃ es ∈ documentsIn name documents, (Collection.idOf es).text = id := by
    have hmap : (w.inserted.map fun i => (i.name, i.id))
        = documents.map fun d => (d.1, (Collection.idOf d.2).text) := by
      rw [hinserted]
      exact map_insertionsOf hencode fun _ _ _ _ => rfl
    have hmem : (name, id) ∈ w.inserted.map (fun i => (i.name, i.id)) ↔
        (name, id) ∈ documents.map fun d => (d.1, (Collection.idOf d.2).text) := by
      rw [hmap]
    simpa [mem_documentsIn] using hmem
  rw [lookup_pairs_eq_none_iff h hname, ← hused]
  simp

theorem refuses_iff (h : w.Keeps p) (hopen : w.IsOpen) (hname : Collection.IsName name)
    (hinserted : w.inserted = insertionsOf documents)
    (hencode : ∀ d ∈ documents, ∃ text, encode (.dict d.2) = .ok text) {doc : Value} {es : Entries}
    {text : String} (hdoc : Collection.documentOf doc = .ok es)
    (htext : encode (.dict (w.session.storedForm es)) = .ok text)
    (hsize : w.pairs.weight + Pairs.weight ((Call.insert name doc).writes w.session)
      < Sheet.capacity) :
    ((Session.insert (.str name) doc w.session).answer
        = .error (.store (.duplicateId (Collection.idOf (w.session.storedForm es)) name)) ↔
      ∃ stored ∈ documentsIn name documents,
        (Collection.idOf stored).text = (Collection.idOf (w.session.storedForm es)).text) := by
  obtain ⟨s, c, files, hoffers, hc, hon, hs⟩ := exists_shelf h hopen
  have hserves : (s.site c files).Serves w.pairs := .opened hc hon hs
  have hnone := lookup_eq_none_iff h hname hinserted hencode
    (Collection.idOf (w.session.storedForm es)).text
  rw [Call.writes_insert hdoc htext] at hsize
  cases hlookup : w.pairs.lookup
    ((Collection.named name).keyOf (Collection.idOf (w.session.storedForm es)).text) with
  | none =>
    obtain ⟨y, _, houtcome, _⟩ :=
      Session.insert_of_new hoffers hserves hname hdoc htext rfl hlookup hsize
    rw [houtcome]
    exact ⟨fun hanswer => (nomatch hanswer), fun hstored => absurd hstored (hnone.mp hlookup)⟩
  | some old =>
    obtain ⟨y, houtcome, _⟩ :=
      Session.insert_of_taken hoffers hserves hname hdoc htext rfl hlookup
    rw [houtcome]
    refine ⟨fun _ => ?_, fun _ => rfl⟩
    by_contra hnew
    rw [hnone.mpr hnew] at hlookup
    cases hlookup

/-- Of a list whose members differ from each other and do not, there is at most one. -/
theorem length_le_one_of_pairwise {α : Type} {r : α → α → Prop} {xs : List α} (h : xs.Pairwise r)
    (hall : ∀ a ∈ xs, ∀ b ∈ xs, ¬r a b) : xs.length ≤ 1 := by
  cases xs with
  | nil => exact Nat.zero_le 1
  | cons a xs =>
    cases xs with
    | nil => exact Nat.le_refl 1
    | cons b xs =>
      have hab : r a b := (List.pairwise_cons.mp h).1 b List.mem_cons_self
      exact absurd hab
        (hall a List.mem_cons_self b (List.mem_cons_of_mem a List.mem_cons_self))

/-- A document that decodes comes back as a document with an id, and with its own if that is
plain. -/
theorem exists_id_of_readBack? {es : Entries} (hes : (es.field? Collection.idField).isSome)
    {doc : Value} (hdoc : readBack? (.dict es) = some doc) {text : String}
    (htext : encode (.dict es) = .ok text) :
    (∃ fs, doc = .dict fs) ∧
      (es.IsKeyed → HasPlainId es → doc.field Collection.idField = Collection.idOf es) := by
  have hdecode : decodeText text = .ok doc := Stored.decode_of_readBack? hdoc htext
  have htag : Collection.idField ≠ Stored.dateTag ∧ Collection.idField ≠ Stored.dateTimeTag :=
    ⟨by decide, by decide⟩
  obtain ⟨fs, v, rfl, -, -⟩ := Stored.exists_field_of_decode htext hdecode htag hes
    fun _ _ _ _ _ _ _ => trivial
  refine ⟨⟨fs, rfl⟩, fun hkeyed hplain => ?_⟩
  obtain ⟨id, hid, hplain⟩ := hplain
  obtain ⟨gs, hgs, hfield⟩ :=
    Stored.field?_of_decode htext hdecode hkeyed (by decide) hid hplain.isLegible
  cases hgs
  show (fs.field? Collection.idField).getD .null = _
  rw [hfield, hplain.restored_eq, Collection.idOf, hid]

section

variable (hencode : ∀ d ∈ documents, ∃ text, encode (.dict d.2) = .ok text)
  (hids : ∀ es ∈ documentsIn name documents, (es.field? Collection.idField).isSome)
  (hreads : ∀ es ∈ documentsIn name documents, (readBack? (.dict es)).isSome)
include hencode hids hreads

/-- Where all documents are read back, what each comes to is a document again. -/
theorem exists_readBack : ∃ value : Entries → Value,
    (documentsIn name documents).filterMap (fun es => readBack? (.dict es))
      = (documents.filter fun d => d.1 = name).map (fun d => value d.2) ∧
    ∀ d ∈ documents, d.1 = name → (∃ fs, value d.2 = .dict fs) ∧
      ∀ text, encode (.dict d.2) = .ok text → decode (.str text) = .ok (value d.2) := by
  -- All of them are read back, so the default is never taken.
  obtain ⟨value, hvalue⟩ : ∃ value : Entries → Value,
      ∀ es ∈ documentsIn name documents, readBack? (.dict es) = some (value es) := by
    refine ⟨fun es => (readBack? (.dict es)).getD .null, fun es hes => ?_⟩
    obtain ⟨doc, hdoc⟩ := Option.isSome_iff_exists.mp (hreads es hes)
    show readBack? (.dict es) = some ((readBack? (.dict es)).getD .null)
    rw [hdoc]
    rfl
  refine ⟨value, ?_, ?_⟩
  · rw [List.filterMap_congr hvalue, List.filterMap_eq_map', documentsIn, List.map_map]
    rfl
  · rintro d hd rfl
    have hin : d.2 ∈ documentsIn d.1 documents := mem_documentsIn.mpr hd
    obtain ⟨text, htext⟩ := hencode d hd
    exact ⟨(exists_id_of_readBack? (hids d.2 hin) (hvalue d.2 hin) htext).1,
      fun text htext => Stored.decode_of_readBack? (hvalue d.2 hin) htext⟩

variable (h : w.Keeps p) (hopen : w.IsOpen) (hname : Collection.IsName name)
  (hinserted : w.inserted = insertionsOf documents) {x : Value} (hx : ∀ es, x ≠ .dict es)
include h hopen hname hinserted hx

/-- A query for an id finds what equals it, as the documents are read back. -/
theorem find_id
    (hquiet : ∀ doc ∈ (documentsIn name documents).filterMap fun es => readBack? (.dict es),
      Value.signals false (doc.field Collection.idField) x = false) :
    ∃ docs, (Session.find (.str name) (.dict [(.str Collection.idField, x)]) w.session).answer
        = .ok docs ∧
      docs.Perm ((documentsIn name documents).filterMap (fun es => readBack? (.dict es)) |>.filter
        fun doc => (doc.field Collection.idField).same x) := by
  obtain ⟨value, hvalues, hvalue⟩ := exists_readBack hencode hids hreads
  rw [hvalues] at hquiet ⊢
  refine find_decoded value h hopen hname hinserted hencode
    (fun d hd hdname => (hvalue d hd hdname).2)
    (fun doc => (doc.field Collection.idField).same x) fun d hd hdname => ?_
  have hd' := hquiet _ (List.mem_map_of_mem (List.mem_filter.mpr ⟨hd, by simpa using hdname⟩))
  obtain ⟨fs, hfs⟩ := (hvalue d hd hdname).1
  rw [hfs] at hd' ⊢
  exact Filter.accepts_field_of_quiet hx hd'

theorem find_id_of_signals
    (hsignals : ∃ doc ∈ (documentsIn name documents).filterMap fun es => readBack? (.dict es),
      Value.signals false (doc.field Collection.idField) x = true) :
    (Session.find (.str name) (.dict [(.str Collection.idField, x)]) w.session).answer
      = .error (.misuse .undefinedOrder) := by
  obtain ⟨value, hvalues, hvalue⟩ := exists_readBack hencode hids hreads
  rw [hvalues] at hsignals
  refine find_of_fails value h hopen hname hinserted hencode
    (fun d hd hdname => (hvalue d hd hdname).2) (r := .fault (.misuse .undefinedOrder))
    (fun d hd hdname => ?_) ?_
  · obtain ⟨fs, hfs⟩ := (hvalue d hd hdname).1
    rw [hfs]
    cases hmeets : Value.signals false ((Value.dict fs).field Collection.idField) x with
    | false => exact .inl ⟨_, Filter.accepts_field_of_quiet hx hmeets⟩
    | true => exact .inr (Filter.accepts_field_of_signals hx hmeets)
  · obtain ⟨doc, hdoc, hmeets⟩ := hsignals
    obtain ⟨d, hd, rfl⟩ := List.mem_map.mp hdoc
    obtain ⟨hin, hdname⟩ : d ∈ documents ∧ d.1 = name := by simpa using hd
    obtain ⟨fs, hfs⟩ := (hvalue d hin hdname).1
    refine ⟨d, hin, hdname, ?_⟩
    rw [hfs] at hmeets ⊢
    exact Filter.accepts_field_of_signals hx hmeets

end

/-- Of documents with plain ids of different texts, at most one is read back with an id that equals
a value. -/
theorem length_filter_id_le_one {stored : List Entries}
    (htexts : stored.Pairwise fun es fs => (Collection.idOf es).text ≠ (Collection.idOf fs).text)
    (hencode : ∀ es ∈ stored, ∃ text, encode (.dict es) = .ok text)
    (hplain : ∀ es ∈ stored, es.IsKeyed ∧ HasPlainId es) (x : Value) :
    ((stored.filterMap fun es => readBack? (.dict es)).filter
      fun doc => (doc.field Collection.idField).same x).length ≤ 1 := by
  have hid : ∀ es ∈ stored, ∀ doc, readBack? (.dict es) = some doc →
      doc.field Collection.idField = Collection.idOf es := by
    intro es hes doc hdoc
    obtain ⟨text, htext⟩ := hencode es hes
    obtain ⟨hkeyed, hplain⟩ := hplain es hes
    have hfield : (es.field? Collection.idField).isSome := by
      obtain ⟨id, hid, -⟩ := hplain
      rw [hid]
      rfl
    exact (exists_id_of_readBack? hfield hdoc htext).2 hkeyed hplain
  have hdiffer : (stored.filterMap fun es => readBack? (.dict es)).Pairwise fun a b =>
      ¬((a.field Collection.idField).same x = true ∧
        (b.field Collection.idField).same x = true) := by
    rw [List.pairwise_filterMap]
    refine htexts.imp_of_mem fun {es fs} hes hfs hne a ha b hb hboth => hne ?_
    rw [hid es hes a ha, hid fs hfs b hb] at hboth
    have hsame := (hplain es hes).2.isPlainId.eq_of_same_both (hplain fs hfs).2.isPlainId
      hboth.1 hboth.2
    rw [hsame]
  refine length_le_one_of_pairwise (hdiffer.filter _) fun a ha b hb hnot => hnot ⟨?_, ?_⟩
  · exact (List.mem_filter.mp ha).2
  · exact (List.mem_filter.mp hb).2

end

/-- While every document of a collection decodes, ids are told apart by their texts when documents
are inserted, and by their values when they are looked for. -/
theorem tellsApart_returned (clock : Int) {p : Path} {calls : List Call}
    (hcalls : ∀ call ∈ calls, call.IsAllowed p)
    (hsize : (start clock).volume calls < Sheet.capacity)
    (hopen : ((start clock).run calls).IsOpen) {name : String} (hname : Collection.IsName name)
    (hreads : ∀ es ∈ documentsIn name ((start clock).returned calls),
      (readBack? (.dict es)).isSome) :
    ((start clock).run calls).TellsApart name
      (documentsIn name ((start clock).returned calls)) := by
  obtain ⟨hkeeps, -⟩ := keeps_run (keeps_start clock p) hcalls (weight_start_add hsize)
  have hstored : ∀ d ∈ (start clock).returned calls,
      (d.2.field? Collection.idField).isSome ∧ ∃ text, encode (.dict d.2) = .ok text := by
    intro d hd
    obtain ⟨_, es, fresh, text, _, _, hstored, htext⟩ :=
      exists_of_returned (keeps_start clock p) hcalls (weight_start_add hsize) hd
    refine ⟨?_, text, htext⟩
    rw [hstored, Collection.field?_withId]
    rfl
  have hencode := fun d hd => (hstored d hd).2
  have hinserted : ((start clock).run calls).inserted
      = insertionsOf ((start clock).returned calls) := inserted_run (start clock) calls
  have htexts : (documentsIn name ((start clock).returned calls)).Pairwise
      fun es fs => (Collection.idOf es).text ≠ (Collection.idOf fs).text := by
    have honce := (isWriteOnce_of_keeps hkeeps hopen).once
    rw [hinserted] at honce
    exact List.pairwise_map.mpr (pairwise_texts name hencode honce)
  have hids : ∀ es ∈ documentsIn name ((start clock).returned calls),
      (es.field? Collection.idField).isSome := fun es hes =>
    (hstored _ (mem_documentsIn.mp hes)).1
  refine ⟨List.pairwise_map.mpr htexts, refuses_iff hkeeps hopen hname hinserted hencode, ?_,
    fun {x} hx hquiet => ?_,
    find_id_of_signals hencode hids hreads hkeeps hopen hname hinserted⟩
  · rintro id hid hall ⟨es, hes, htext⟩
    obtain ⟨hplain, htype⟩ := hall es hes
    exact ⟨es, hes, hplain.same_of_text hid htype htext⟩
  · obtain ⟨docs, hfind, hdocs⟩ :=
      find_id hencode hids hreads hkeeps hopen hname hinserted hx hquiet
    refine ⟨docs, hfind, hdocs, fun hplain => ?_⟩
    rw [hdocs.length_eq]
    exact length_filter_id_le_one htexts
      (fun es hes => hencode _ (mem_documentsIn.mp hes)) hplain x

theorem returned_numberedCalls : (start 7).returned numberedCalls = [("a", order)] := by
  have hlength : ((start 7).returned numberedCalls).length = 1 := by decide +kernel
  obtain ⟨d, hd⟩ := List.length_eq_one_iff.mp hlength
  have hmem := order_mem_returned
  rw [hd, List.mem_singleton] at hmem
  rw [hd, hmem]

theorem readBack?_order : readBack? (.dict order) = some (Value.dict order).listed := by
  obtain ⟨_, _, _, text, _, _, _, htext⟩ :=
    exists_of_returned (keeps_start 7 Disk.workingPath) isAllowed_numberedCalls
      (weight_start_add volume_numberedCalls) order_mem_returned
  have hdecode : decodeText text = .ok (Value.dict order).listed :=
    keepsForm_order.decode_encode htext
  rw [readBack?, htext]
  show (decodeText text).toOption = _
  rw [hdecode]
  rfl

/-- The order with the number one is what a query for the equal truth value finds, and a query for
the text of the number finds nothing. -/
theorem tellsApart_returned_order :
    let w := (start 7).run numberedCalls
    w.TellsApart "a" [order] ∧
      (∃ docs, (Session.find (.str "a") (.dict [(.str Collection.idField, .bool true)])
        w.session).answer = .ok docs ∧ docs.length = 1) ∧
      ∃ docs, (Session.find (.str "a") (.dict [(.str Collection.idField, .str "1")])
        w.session).answer = .ok docs ∧ docs.length = 0 := by
  have hdocuments : documentsIn "a" ((start 7).returned numberedCalls) = [order] := by
    rw [returned_numberedCalls]
    rfl
  have ha : Collection.IsName "a" := ⟨by decide, by decide⟩
  have htells := tellsApart_returned 7 isAllowed_numberedCalls volume_numberedCalls
    isOpen_numberedCalls ha (by
      rw [hdocuments, List.forall_mem_singleton, readBack?_order]
      rfl)
  rw [hdocuments] at htells
  have hfound : [order].filterMap (fun es => readBack? (.dict es))
      = [(Value.dict order).listed] := by
    rw [List.filterMap_cons, readBack?_order]
    rfl
  have hid : (Value.dict order).listed.field Collection.idField = .int 1 := by
    simp [order, Value.listed, Value.listedEntries, Value.field, Value.entries?, Entries.field?,
      Entries.get?_cons]
  refine ⟨htells, ?_, ?_⟩
  · obtain ⟨docs, hfind, hdocs, -⟩ := htells.finds (x := .bool true) (by simp) (by
      rw [hfound, List.forall_mem_singleton, hid]
      simp [Value.signals, Value.isSignalling])
    rw [hfound] at hdocs
    refine ⟨docs, hfind, hdocs.length_eq.trans ?_⟩
    simp [hid, Value.same, Value.sameNumber, Value.plane?, Stored.same_ofInt_self]
  · obtain ⟨docs, hfind, hdocs, -⟩ := htells.finds (x := .str "1") (by simp) (by
      rw [hfound, List.forall_mem_singleton, hid]
      simp [Value.signals, Value.isSignalling])
    rw [hfound] at hdocs
    refine ⟨docs, hfind, hdocs.length_eq.trans ?_⟩
    simp [hid, Value.same, Value.sameNumber, Value.plane?]

/-- Two documents whose ids are equal and have different texts. -/
def twinCalls : List Call :=
  [.start Settings.eager, .insert "a" (.dict [(.str Collection.idField, .int 1)]),
    .insert "a" (.dict [(.str Collection.idField, .bool true)])]

theorem isAllowed_twinCalls : ∀ call ∈ twinCalls, call.IsAllowed Disk.workingPath := by
  have ha : Collection.IsName "a" := ⟨by decide, by decide⟩
  have hstart : (Call.start Settings.eager).IsAllowed Disk.workingPath :=
    ⟨Settings.eager_isAccepted, rfl⟩
  simpa [twinCalls] using ⟨hstart, ha, ha⟩

/-- Both documents are taken, and a query for the id of the one finds both; but a document whose id
is the text of theirs is refused, although it equals neither. -/
theorem tellsApart_returned_twins :
    let w := (start 7).run twinCalls
    w.IsOpen ∧
      (∀ es ∈ documentsIn "a" ((start 7).returned twinCalls), (readBack? (.dict es)).isSome) ∧
      (∃ docs, (Session.find (.str "a") (.dict [(.str Collection.idField, .int 1)])
        w.session).answer = .ok docs ∧ docs.length = 2) ∧
      (Session.insert (.str "a") (bare "1") w.session).answer
        = .error (.store (.duplicateId (.str "1") "a")) := by
  have hopen : ((start 7).run twinCalls).IsOpen := by
    show (_ = true)
    decide +kernel
  have hreads : ∀ es ∈ documentsIn "a" ((start 7).returned twinCalls),
      (readBack? (.dict es)).isSome := by
    have hall : (documentsIn "a" ((start 7).returned twinCalls)).all
        (fun es => (readBack? (.dict es)).isSome) = true := by decide +kernel
    exact List.all_eq_true.mp hall
  have ha : Collection.IsName "a" := ⟨by decide, by decide⟩
  have hsize : (start 7).pairs.weight + (start 7).volume twinCalls < Sheet.capacity :=
    weight_start_add (Sheet.lt_capacity (by decide +kernel))
  obtain ⟨hkeeps, -⟩ := keeps_run (keeps_start 7 Disk.workingPath) isAllowed_twinCalls hsize
  have hencode : ∀ d ∈ (start 7).returned twinCalls, ∃ text, encode (.dict d.2) = .ok text := by
    intro d hd
    obtain ⟨_, _, _, text, _, _, _, htext⟩ :=
      exists_of_returned (keeps_start 7 Disk.workingPath) isAllowed_twinCalls hsize hd
    exact ⟨text, htext⟩
  have hinserted : ((start 7).run twinCalls).inserted
      = insertionsOf ((start 7).returned twinCalls) := inserted_run (start 7) twinCalls
  refine ⟨hopen, hreads, ?_, ?_⟩
  · have hids : ∀ es ∈ documentsIn "a" ((start 7).returned twinCalls),
        (es.field? Collection.idField).isSome := by
      have hall : (documentsIn "a" ((start 7).returned twinCalls)).all
          (fun es => (es.field? Collection.idField).isSome) = true := by decide +kernel
      exact List.all_eq_true.mp hall
    have hquiet : ((documentsIn "a" ((start 7).returned twinCalls)).filterMap
        fun es => readBack? (.dict es)).all
        (fun doc => !Value.signals false (doc.field Collection.idField) (.int 1)) = true := by
      decide +kernel
    obtain ⟨docs, hfind, hdocs⟩ := find_id hencode hids hreads hkeeps hopen ha hinserted
      (x := .int 1) (by simp) fun doc hdoc =>
        (Bool.not_eq_true' _).mp (List.all_eq_true.mp hquiet doc hdoc)
    refine ⟨docs, hfind, hdocs.length_eq.trans ?_⟩
    decide +kernel
  · have hid : Entries.field? [(.str Collection.idField, .str "1")] Collection.idField
        = some (.str "1") := by simp [Entries.field?, Entries.get?_cons]
    have hform : ((start 7).run twinCalls).session.storedForm
        [(.str Collection.idField, .str "1")] = [(.str Collection.idField, .str "1")] := by
      simp [Session.storedForm, Collection.withId, hid]
    obtain ⟨text, htext⟩ : ∃ text,
        encode (.dict [(.str Collection.idField, .str "1")]) = .ok text := by
      rw [Stored.encode_ok_iff]
      simp [Stored.allStorable_dict_iff, Stored.allStorable_leaf_iff, Stored.IsStorable,
        Stored.IsKey]
    have hdoc : Collection.documentOf (bare "1")
        = .ok [(.str Collection.idField, .str "1")] := rfl
    have hrefused := refuses_iff hkeeps hopen ha hinserted hencode hdoc (hform.symm ▸ htext)
      (Sheet.lt_capacity (by decide +kernel))
    rw [hform, Collection.idOf, hid] at hrefused
    apply hrefused.mpr
    have htaken : (documentsIn "a" ((start 7).returned twinCalls)).any
        (fun es => (Collection.idOf es).text == "1") = true := by decide +kernel
    show ∃ stored ∈ _, (Collection.idOf stored).text = "1"
    simpa using htaken

end Journal
end SchemaStore
