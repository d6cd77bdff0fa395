import SchemaStore.Proofs.Documents.Journals
import SchemaStore.Proofs.Stored.Form

/-!
What an insertion returns and what a query finds.  As long as every document of a collection keeps
its form in storage, a query without a filter finds exactly the documents that were returned, with
tuples as lists.  A single document that does not keep its form is enough to make the collection
unreadable.
-/

namespace SchemaStore

open Stored (encode decode)

/-! ## Queries -/

namespace Collection

theorem select_of_decode {filter : Value} {keep : Value → Bool} {found : List (String × Value)}
    {value : String × Value → Value} (hdecode : ∀ q ∈ found, decode q.2 = .ok (value q))
    (haccepts : ∀ q ∈ found, Filter.accepts filter (value q) = .ok (keep (value q))) :
    select filter found = .ok ((found.map value).filter keep) := by
  induction found with
  | nil => rfl
  | cons q found ih =>
    obtain ⟨key, stored⟩ := q
    have hstored : decode stored = .ok (value (key, stored)) := hdecode _ List.mem_cons_self
    have hrest := ih (fun q hq => hdecode q (List.mem_cons_of_mem _ hq))
      fun q hq => haccepts q (List.mem_cons_of_mem _ hq)
    rw [select, hstored, Failure.lift_ok, Except.ok_bind, haccepts _ List.mem_cons_self,
      Failure.lift_ok, Except.ok_bind, hrest, Except.ok_bind, List.map_cons, List.filter_cons]

/-- A filter that fails in one way only fails in that way as soon as it does for one document. -/
theorem select_of_fails {filter : Value} {r : Report FilterFault} {found : List (String × Value)}
    {value : String × Value → Value} (hdecode : ∀ q ∈ found, decode q.2 = .ok (value q))
    (haccepts : ∀ q ∈ found, (∃ b, Filter.accepts filter (value q) = .ok b) ∨
      Filter.accepts filter (value q) = .error r)
    (hfails : ∃ q ∈ found, Filter.accepts filter (value q) = .error r) :
    select filter found = .error (.ofReport .ofFilter r) := by
  induction found with
  | nil =>
    obtain ⟨_, hq, _⟩ := hfails
    cases hq
  | cons q found ih =>
    obtain ⟨key, stored⟩ := q
    have hstored : decode stored = .ok (value (key, stored)) := hdecode _ List.mem_cons_self
    rw [select, hstored, Failure.lift_ok, Except.ok_bind]
    rcases haccepts _ List.mem_cons_self with ⟨b, hb⟩ | hr
    · have hrest : ∃ q ∈ found, Filter.accepts filter (value q) = .error r := by
        obtain ⟨q, hq, hr⟩ := hfails
        rcases List.mem_cons.mp hq with rfl | hq
        · rw [hb] at hr
          cases hr
        · exact ⟨q, hq, hr⟩
      rw [hb, Failure.lift_ok, Except.ok_bind,
        ih (fun q hq => hdecode q (List.mem_cons_of_mem _ hq))
          (fun q hq => haccepts q (List.mem_cons_of_mem _ hq)) hrest]
      rfl
    · rw [hr]
      rfl

end Collection

namespace Journal

/-- The document that a call returns as inserted, with its collection. -/
def returnedBy (w : Journal) (call : Call) : List (String × Entries) :=
  match call with
  | .insert name doc =>
    match (Session.insert (.str name) doc w.session).answer with
    | .ok (.dict stored) => [(name, stored)]
    | _ => []
  | _ => []

/-- The documents that insertions return in the course of a run, with their collections. -/
def returned (w : Journal) (calls : List Call) : List (String × Entries) :=
  match calls with
  | [] => []
  | call :: rest => w.returnedBy call ++ returned (w.step call) rest

/-- The insertions that go down in a journal for the documents that were returned. -/
def insertionsOf (documents : List (String × Entries)) : List Insertion :=
  documents.flatMap fun d => recorded d.1 (.ok (.dict d.2))

variable {w : Journal} {p : Path}

theorem inserted_step (w : Journal) (call : Call) :
    (w.step call).inserted = w.inserted ++ insertionsOf (w.returnedBy call) := by
  cases call with
  | insert name doc =>
    show w.inserted ++ recorded name (Session.insert (.str name) doc w.session).answer
      = w.inserted ++ insertionsOf (w.returnedBy (.insert name doc))
    rw [returnedBy]
    cases (Session.insert (.str name) doc w.session).answer with
    | error e => rfl
    | ok v =>
      cases v with
      | dict es => simp [insertionsOf]
      | _ => rfl
  | _ => exact (List.append_nil _).symm

theorem inserted_run (w : Journal) (calls : List Call) :
    (w.run calls).inserted = w.inserted ++ insertionsOf (w.returned calls) := by
  induction calls generalizing w with
  | nil => exact (List.append_nil _).symm
  | cons call rest ih =>
    show ((w.step call).run rest).inserted = _
    rw [ih, inserted_step, returned, insertionsOf, insertionsOf, insertionsOf, List.flatMap_append,
      List.append_assoc]

/-- What an insertion returns is the document with an id, and has a stored form. -/
theorem exists_of_returnedBy (h : w.Keeps p) {call : Call} (hcall : call.IsAllowed p)
    (hsize : w.pairs.weight + Pairs.weight (call.writes w.session) < Sheet.capacity)
    {d : String × Entries} (hd : d ∈ w.returnedBy call) :
    ∃ doc es fresh text, call = .insert d.1 doc ∧ Collection.documentOf doc = .ok es ∧
      d.2 = Collection.withId es fresh ∧ encode (.dict d.2) = .ok text := by
  cases call with
  | insert name doc =>
    rw [returnedBy] at hd
    cases hopened : w.session.opened with
    | none =>
      rw [Session.insert_of_none hopened name doc] at hd
      exact absurd hd List.not_mem_nil
    | some o =>
      obtain ⟨site, hoffers, hserves⟩ := h.offers o hopened
      rcases Session.insert_cases hoffers hserves hcall doc
          (fun es text hdoc hencode => Call.writes_insert hdoc hencode ▸ hsize) with
        ⟨failure, y, houtcome, _⟩ | ⟨es, text, y, next, hdoc, hencode, houtcome, _, _⟩
      · rw [houtcome] at hd
        exact absurd hd List.not_mem_nil
      · rw [houtcome] at hd
        rw [List.mem_singleton.mp hd]
        exact ⟨doc, es, _, text, rfl, hdoc, rfl, hencode⟩
  | _ => exact absurd hd List.not_mem_nil

theorem exists_of_returned (h : w.Keeps p) {calls : List Call}
    (hcalls : ∀ call ∈ calls, call.IsAllowed p)
    (hsize : w.pairs.weight + w.volume calls < Sheet.capacity)
    {d : String × Entries} (hd : d ∈ w.returned calls) :
    ∃ doc es fresh text, .insert d.1 doc ∈ calls ∧ Collection.documentOf doc = .ok es ∧
      d.2 = Collection.withId es fresh ∧ encode (.dict d.2) = .ok text := by
  induction calls generalizing w with
  | nil => cases hd
  | cons call rest ih =>
    rw [volume] at hsize
    have hcall := hcalls call List.mem_cons_self
    obtain ⟨hnext, hweight⟩ := keeps_step h hcall (by omega)
    rcases List.mem_append.mp hd with hd | hd
    · obtain ⟨doc, es, fresh, text, rfl, hdoc, hstored, htext⟩ :=
        exists_of_returnedBy h hcall (by omega) hd
      exact ⟨doc, es, fresh, text, List.mem_cons_self, hdoc, hstored, htext⟩
    · obtain ⟨doc, es, fresh, text, hin, hdoc, hstored, htext⟩ :=
        ih hnext (fun call hin => hcalls call (List.mem_cons_of_mem _ hin)) (by omega) hd
      exact ⟨doc, es, fresh, text, List.mem_cons_of_mem _ hin, hdoc, hstored, htext⟩

section

variable {documents : List (String × Entries)}

theorem insertionsOf_cons {d : String × Entries} {text : String}
    (h : encode (.dict d.2) = .ok text) :
    insertionsOf (d :: documents)
      = { name := d.1, id := (Collection.idOf d.2).text, text := text }
        :: insertionsOf documents := by
  rw [insertionsOf, List.flatMap_cons, recorded, h]
  rfl

theorem map_insertionsOf {α : Type} {f : Insertion → α} {g : String × Entries → α}
    (hencode : ∀ d ∈ documents, ∃ text, encode (.dict d.2) = .ok text)
    (h : ∀ d ∈ documents, ∀ text, encode (.dict d.2) = .ok text →
      f { name := d.1, id := (Collection.idOf d.2).text, text := text } = g d) :
    (insertionsOf documents).map f = documents.map g := by
  induction documents with
  | nil => rfl
  | cons d documents ih =>
    obtain ⟨text, htext⟩ := hencode d List.mem_cons_self
    rw [insertionsOf_cons htext, List.map_cons, List.map_cons, h d List.mem_cons_self text htext,
      ih (fun d hd => hencode d (List.mem_cons_of_mem _ hd))
        fun d hd => h d (List.mem_cons_of_mem _ hd)]

theorem filter_insertionsOf (hencode : ∀ d ∈ documents, ∃ text, encode (.dict d.2) = .ok text)
    (name : String) :
    (insertionsOf documents).filter (fun i => i.name = name)
      = insertionsOf (documents.filter fun d => d.1 = name) := by
  induction documents with
  | nil => rfl
  | cons d documents ih =>
    obtain ⟨text, htext⟩ := hencode d List.mem_cons_self
    have hrest := ih fun d hd => hencode d (List.mem_cons_of_mem _ hd)
    rw [insertionsOf_cons htext]
    by_cases hname : d.1 = name
    · rw [List.filter_cons_of_pos (by simpa using hname), hrest,
        List.filter_cons_of_pos (by simpa using hname), insertionsOf_cons htext]
    · rw [List.filter_cons_of_neg (by simpa using hname), hrest,
        List.filter_cons_of_neg (by simpa using hname)]

end

section

variable {name : String} {documents : List (String × Entries)} (value : Entries → Value)

/-- While every document of a collection decodes, a query goes through what the documents decode
to. -/
theorem exists_found (h : w.Keeps p) (hopen : w.IsOpen) (hname : Collection.IsName name)
    (hinserted : w.inserted = insertionsOf documents)
    (hencode : ∀ d ∈ documents, ∃ text, encode (.dict d.2) = .ok text)
    (hdecode : ∀ d ∈ documents, d.1 = name → ∀ text, encode (.dict d.2) = .ok text →
      decode (.str text) = .ok (value d.2)) :
    ∃ (found : List (String × Value)) (read : String × Value → Value),
      (∀ filter, (Session.find (.str name) filter w.session).answer
        = Collection.select filter found) ∧
      (∀ q ∈ found, decode q.2 = .ok (read q)) ∧
      (found.map read).Perm ((documents.filter fun d => d.1 = name).map fun d => value d.2) := by
  obtain ⟨found, _, _, hfound, hfind⟩ := scan_open h hopen hname
  have hmem : ∀ d ∈ documents.filter fun d => d.1 = name, d ∈ documents ∧ d.1 = name := by
    intro d hd
    simpa using hd
  have hdecoded : (found.map fun q => decode q.2).Perm
      ((documents.filter fun d => d.1 = name).map fun d => .ok (value d.2)) := by
    rw [hinserted, filter_insertionsOf hencode] at hfound
    have hperm := hfound.map fun q => decode q.2
    rw [List.map_map] at hperm
    rwa [map_insertionsOf (fun d hd => hencode d (hmem d hd).1) fun d hd text htext =>
      hdecode d (hmem d hd).1 (hmem d hd).2 text htext] at hperm
  -- All that is found decodes, so the default is never taken.
  let decoded : Except Stored.DecodeFault Value → Value := fun v => v.toOption.getD .null
  refine ⟨found, fun q => decoded (decode q.2), hfind, fun q hq => ?_, ?_⟩
  · obtain ⟨d, _, heq⟩ := List.mem_map.mp (hdecoded.mem_iff.mp (List.mem_map_of_mem hq))
    show decode q.2 = .ok (decoded (decode q.2))
    rw [← heq]
    rfl
  · have hperm := hdecoded.map decoded
    rwa [List.map_map, List.map_map] at hperm

/-- A query that can be asked of every document has an answer. -/
theorem find_decoded (h : w.Keeps p) (hopen : w.IsOpen) (hname : Collection.IsName name)
    (hinserted : w.inserted = insertionsOf documents)
    (hencode : ∀ d ∈ documents, ∃ text, encode (.dict d.2) = .ok text)
    (hdecode : ∀ d ∈ documents, d.1 = name → ∀ text, encode (.dict d.2) = .ok text →
      decode (.str text) = .ok (value d.2)) {filter : Value} (keep : Value → Bool)
    (haccepts : ∀ d ∈ documents, d.1 = name →
      Filter.accepts filter (value d.2) = .ok (keep (value d.2))) :
    ∃ docs, (Session.find (.str name) filter w.session).answer = .ok docs ∧
      docs.Perm (((documents.filter fun d => d.1 = name).map fun d => value d.2).filter keep) := by
  obtain ⟨found, read, hfind, hread, hperm⟩ :=
    exists_found value h hopen hname hinserted hencode hdecode
  have hselect : Collection.select filter found = .ok ((found.map read).filter keep) := by
    apply Collection.select_of_decode hread
    intro q hq
    obtain ⟨d, hd, heq⟩ := List.mem_map.mp (hperm.mem_iff.mp (List.mem_map_of_mem hq))
    obtain ⟨hin, hdname⟩ : d ∈ documents ∧ d.1 = name := by simpa using hd
    rw [← heq]
    exact haccepts d hin hdname
  exact ⟨_, (hfind filter).trans hselect, hperm.filter keep⟩

/-- A query that fails in one way only fails in that way as soon as it does for one document. -/
theorem find_of_fails (h : w.Keeps p) (hopen : w.IsOpen) (hname : Collection.IsName name)
    (hinserted : w.inserted = insertionsOf documents)
    (hencode : ∀ d ∈ documents, ∃ text, encode (.dict d.2) = .ok text)
    (hdecode : ∀ d ∈ documents, d.1 = name → ∀ text, encode (.dict d.2) = .ok text →
      decode (.str text) = .ok (value d.2)) {filter : Value} {r : Report FilterFault}
    (haccepts : ∀ d ∈ documents, d.1 = name → (∃ b, Filter.accepts filter (value d.2) = .ok b) ∨
      Filter.accepts filter (value d.2) = .error r)
    (hfails : ∃ d ∈ documents, d.1 = name ∧ Filter.accepts filter (value d.2) = .error r) :
    (Session.find (.str name) filter w.session).answer = .error (.ofReport .ofFilter r) := by
  obtain ⟨found, read, hfind, hread, hperm⟩ :=
    exists_found value h hopen hname hinserted hencode hdecode
  rw [hfind]
  apply Collection.select_of_fails hread
  · intro q hq
    obtain ⟨d, hd, heq⟩ := List.mem_map.mp (hperm.mem_iff.mp (List.mem_map_of_mem hq))
    obtain ⟨hin, hdname⟩ : d ∈ documents ∧ d.1 = name := by simpa using hd
    rw [← heq]
    exact haccepts d hin hdname
  · obtain ⟨d, hd, hdname, hr⟩ := hfails
    have hin : value d.2 ∈ (documents.filter fun d => d.1 = name).map fun d => value d.2 :=
      List.mem_map.mpr ⟨d, List.mem_filter.mpr ⟨hd, by simpa using hdname⟩, rfl⟩
    obtain ⟨q, hq, heq⟩ := List.mem_map.mp (hperm.mem_iff.mpr hin)
    exact ⟨q, hq, heq.symm ▸ hr⟩

end

/-- The documents of a collection that keep their form are what a query without a filter finds. -/
theorem find_null (h : w.Keeps p) (hopen : w.IsOpen) {name : String}
    (hname : Collection.IsName name) {documents : List (String × Entries)}
    (hinserted : w.inserted = insertionsOf documents)
    (hencode : ∀ d ∈ documents, ∃ text, encode (.dict d.2) = .ok text)
    (hform : ∀ d ∈ documents, d.1 = name → Stored.KeepsForm (.dict d.2)) :
    ∃ docs, (Session.find (.str name) .null w.session).answer = .ok docs ∧
      docs.Perm ((documents.filter fun d => d.1 = name).map fun d => (Value.dict d.2).listed) := by
  have hall : ∀ doc, Filter.accepts .null doc = .ok true := fun _ => rfl
  obtain ⟨docs, hfind, hdocs⟩ := find_decoded (fun es => (Value.dict es).listed) h hopen hname
    hinserted hencode
    (fun d hd hdname text htext => (hform d hd hdname).decode_encode htext) (fun _ => true)
    fun _ _ _ => hall _
  exact ⟨docs, hfind, by rwa [List.filter_true] at hdocs⟩

/-! ## Finding each document once -/

/-- What a list of different things has that is like one of them is that one. -/
theorem countP_eq_one {α : Type} {r : α → α → Bool} {xs : List α}
    (hxs : xs.Pairwise fun a b => r a b = false ∧ r b a = false) {x : α} (hx : x ∈ xs)
    (hself : r x x = true) : xs.countP (fun a => r a x) = 1 := by
  induction xs with
  | nil => cases hx
  | cons a xs ih =>
    obtain ⟨hfirst, hrest⟩ := List.pairwise_cons.mp hxs
    rcases List.mem_cons.mp hx with rfl | hx
    · rw [List.countP_cons_of_pos (p := fun a => r a x) hself, List.countP_eq_zero.mpr]
      intro b hb
      rw [(hfirst b hb).2]
      exact Bool.false_ne_true
    · rw [List.countP_cons_of_neg, ih hrest hx]
      rw [(hfirst x hx).1]
      exact Bool.false_ne_true

/-- An id of a kind whose values are equal only if their texts are. -/
def IsPlainId : Value → Prop
  | .null | .int _ | .str _ | .date _ => True
  | _ => False

theorem IsPlainId.listed {v : Value} (h : IsPlainId v) : v.listed = v := by
  cases v <;> first | exact absurd h id | rfl

theorem IsPlainId.standsFor_eq_false {a b : Value} (ha : IsPlainId a) (hb : IsPlainId b)
    (hne : a ≠ b) : a.standsFor b = false := by
  rw [← Bool.not_eq_true]
  intro h
  refine hne ?_
  cases a <;> cases b <;>
    simp_all [IsPlainId, Value.standsFor, Value.areStoredNaN, Value.same, Value.sameNumber,
      Value.plane?]

def HasPlainId (es : Entries) : Prop :=
  ∃ id, es.field? Collection.idField = some id ∧ IsPlainId id

theorem HasPlainId.same_listed_eq_false {es fs : Entries} (hes : HasPlainId es)
    (hfs : HasPlainId fs) (hne : (Collection.idOf es).text ≠ (Collection.idOf fs).text) :
    (Value.dict es).listed.same (Value.dict fs).listed = false := by
  obtain ⟨a, ha, hplain⟩ := hes
  obtain ⟨b, hb, hplain'⟩ := hfs
  rw [Collection.idOf, Collection.idOf, ha, hb] at hne
  have hdiffer : a ≠ b := by
    rintro rfl
    exact hne rfl
  rw [Value.listed, Value.listed, Value.listedEntries_eq_map, Value.listedEntries_eq_map]
  have hleft : Entries.field? (es.map fun e => (e.1, e.2.listed)) Collection.idField = some a := by
    rw [Entries.field?_map, ha, Option.map_some, hplain.listed]
  have hright : Entries.field? (fs.map fun e => (e.1, e.2.listed)) Collection.idField = some b := by
    rw [Entries.field?_map, hb, Option.map_some, hplain'.listed]
  exact Value.same_dict_eq_false hleft hright (hplain.standsFor_eq_false hplain' hdiffer)

/-- Insertions of which no two have the same name and id are, in one collection, of documents whose
ids have different texts. -/
theorem pairwise_texts {documents : List (String × Entries)} (name : String)
    (hencode : ∀ d ∈ documents, ∃ text, encode (.dict d.2) = .ok text)
    (hnodup : ((insertionsOf documents).map fun i => (i.name, i.id)).Nodup) :
    (documents.filter fun d => d.1 = name).Pairwise
      fun a b => (Collection.idOf a.2).text ≠ (Collection.idOf b.2).text := by
  have hmap : ((insertionsOf documents).map fun i => (i.name, i.id))
      = documents.map fun d => (d.1, (Collection.idOf d.2).text) :=
    map_insertionsOf hencode fun _ _ _ _ => rfl
  rw [hmap] at hnodup
  have hpairs := (List.pairwise_map.mp hnodup).filter fun d => d.1 = name
  refine hpairs.imp_of_mem fun {a b} ha hb hne htext => hne ?_
  have ha' : a.1 = name := of_decide_eq_true (List.mem_filter.mp ha).2
  have hb' : b.1 = name := of_decide_eq_true (List.mem_filter.mp hb).2
  exact Prod.ext (ha'.trans hb'.symm) htext

/-- With plain ids such documents differ. -/
theorem pairwise_listed {documents : List (String × Entries)} {name : String}
    (hencode : ∀ d ∈ documents, ∃ text, encode (.dict d.2) = .ok text)
    (hnodup : ((insertionsOf documents).map fun i => (i.name, i.id)).Nodup)
    (hids : ∀ d ∈ documents, d.1 = name → HasPlainId d.2) :
    ((documents.filter fun d => d.1 = name).map fun d => (Value.dict d.2).listed).Pairwise
      fun a b => a.same b = false ∧ b.same a = false := by
  rw [List.pairwise_map]
  refine (pairwise_texts name hencode hnodup).imp_of_mem fun {a b} ha hb htexts => ?_
  obtain ⟨ha, hname⟩ := List.mem_filter.mp ha
  obtain ⟨hb, hname'⟩ := List.mem_filter.mp hb
  have ha' : a.1 = name := of_decide_eq_true hname
  have hb' : b.1 = name := of_decide_eq_true hname'
  exact ⟨(hids a ha ha').same_listed_eq_false (hids b hb hb') htexts,
    (hids b hb hb').same_listed_eq_false (hids a ha ha') htexts.symm⟩

/-- While every document of a collection keeps its form, a query without a filter finds what the
insertions returned, with lists for tuples.  With plain ids it finds each document once. -/
theorem find_returned (clock : Int) {p : Path} {calls : List Call}
    (hcalls : ∀ call ∈ calls, call.IsAllowed p)
    (hsize : (start clock).volume calls < Sheet.capacity)
    (hopen : ((start clock).run calls).IsOpen) {name : String} (hname : Collection.IsName name)
    (hform : ∀ d ∈ (start clock).returned calls, d.1 = name → Stored.KeepsForm (.dict d.2)) :
    ∃ docs,
      (Session.find (.str name) .null ((start clock).run calls).session).answer = .ok docs ∧
      docs.Perm ((((start clock).returned calls).filter fun d => d.1 = name).map
        fun d => (Value.dict d.2).listed) ∧
      ((∀ d ∈ (start clock).returned calls, d.1 = name → HasPlainId d.2) →
        ∀ d ∈ (start clock).returned calls, d.1 = name →
          docs.countP (fun doc => doc.same (Value.dict d.2).listed) = 1) := by
  have hstart : (start clock).pairs.weight = 0 := rfl
  obtain ⟨hkeeps, -⟩ := keeps_run (keeps_start clock p) hcalls (by omega)
  have hencode : ∀ d ∈ (start clock).returned calls, ∃ text, encode (.dict d.2) = .ok text := by
    intro d hd
    obtain ⟨_, _, _, text, _, _, _, htext⟩ :=
      exists_of_returned (keeps_start clock p) hcalls (by omega) hd
    exact ⟨text, htext⟩
  have hinserted : ((start clock).run calls).inserted
      = insertionsOf ((start clock).returned calls) := inserted_run (start clock) calls
  obtain ⟨docs, hfind, hdocs⟩ := find_null hkeeps hopen hname hinserted hencode hform
  refine ⟨docs, hfind, hdocs, fun hids d hd hdname => ?_⟩
  rw [hdocs.countP_eq]
  apply countP_eq_one
  · have honce := (isWriteOnce_of_keeps hkeeps hopen).once
    rw [hinserted] at honce
    exact pairwise_listed hencode honce hids
  · refine List.mem_map.mpr ⟨d, ?_, rfl⟩
    simpa using ⟨hd, hdname⟩
  · obtain ⟨text, htext⟩ := hencode d hd
    exact Stored.same_listed_self _ ((Stored.encode_ok_iff _).mp ⟨text, htext⟩) (hform d hd hdname)

def oneAndAHalf : Binary64 := .finite false (3 * Power.two 51) (-52)

theorem isNumber_oneAndAHalf : oneAndAHalf.IsNumber := ⟨by decide, by decide, by decide, by decide⟩

/-- An order under a number, with a tuple, a double and a date. -/
def order : Entries :=
  [(.str Collection.idField, .int 1),
    (.str "items", .tuple [.str "tea", .list [.null, .bool true, .float oneAndAHalf]]),
    (.str "on", .date { year := 2023, month := 11, day := 30 })]

theorem keepsForm_order : Stored.KeepsForm (.dict order) := by
  have hnamed : Entries.IsNamed order := ⟨[Collection.idField, "items", "on"], by decide, rfl⟩
  have htag : ¬Stored.LooksTagged order :=
    Stored.not_looksTagged_of_mem List.mem_cons_self
      (by simp [Collection.idField, Stored.dateTag])
      (by simp [Collection.idField, Stored.dateTimeTag])
  refine Stored.keepsForm_dict_iff.mpr ⟨⟨hnamed, htag⟩, ?_⟩
  simp [order, Stored.keepsForm_tuple_iff, Stored.keepsForm_list_iff, Stored.keepsForm_leaf_iff,
    Stored.IsFaithful, isNumber_oneAndAHalf]

/-- A document without an id of its own. -/
def note : Entries := [(.str "text", .str Stored.dateTag), (.str "pages", .int 2)]

theorem keepsForm_note (fresh : String) :
    Stored.KeepsForm (.dict (note ++ [(.str Collection.idField, .str fresh)])) := by
  have hnamed : Entries.IsNamed (note ++ [(.str Collection.idField, .str fresh)]) :=
    ⟨["text", "pages", Collection.idField], by decide, rfl⟩
  have htag : ¬Stored.LooksTagged (note ++ [(.str Collection.idField, .str fresh)]) :=
    Stored.not_looksTagged_of_mem List.mem_cons_self (by simp [Stored.dateTag])
      (by simp [Stored.dateTimeTag])
  refine Stored.keepsForm_dict_iff.mpr ⟨⟨hnamed, htag⟩, ?_⟩
  simp [note, Stored.keepsForm_leaf_iff, Stored.IsFaithful]

/-- Two collections are written to, and then the store is lost in a crash. -/
def orderCalls : List Call :=
  [.start Settings.eager, .insert "a" (.dict order), .insert "b" (.dict order),
    .insert "a" (.dict note), .crash]

theorem isAllowed_orderCalls :
    ∀ call ∈ orderCalls ++ [.start Settings.eager], call.IsAllowed Disk.workingPath := by
  have ha : Collection.IsName "a" := ⟨by decide, by decide⟩
  have hb : Collection.IsName "b" := ⟨by decide, by decide⟩
  have hstart : (Call.start Settings.eager).IsAllowed Disk.workingPath :=
    ⟨Settings.eager_isAccepted, rfl⟩
  simpa [orderCalls] using ⟨hstart, ha, hb, ha, trivial, hstart⟩

/-- What was inserted into the first collection are the order and the note, the note with an id. -/
theorem keepsForm_of_orderCalls {doc : Value} {es : Entries} {fresh : String}
    (hcall : .insert "a" doc ∈ orderCalls ++ [.start Settings.eager])
    (hdoc : Collection.documentOf doc = .ok es) :
    Stored.KeepsForm (.dict (Collection.withId es fresh)) ∧
      HasPlainId (Collection.withId es fresh) := by
  have hcases : doc = .dict order ∨ doc = .dict note := by
    simpa [orderCalls] using hcall
  rcases hcases with rfl | rfl
  · cases hdoc
    have hid : Entries.field? order Collection.idField = some (.int 1) := by
      simp [order, Entries.field?, Entries.get?_cons]
    have hkept : Collection.withId order fresh = order := by simp [Collection.withId, hid]
    rw [hkept]
    exact ⟨keepsForm_order, .int 1, hid, trivial⟩
  · cases hdoc
    have hnew : Collection.withId note fresh
        = note ++ [(.str Collection.idField, .str fresh)] := by
      simp [Collection.withId, note, Entries.field?, Entries.get?_cons, Entries.insert,
        Collection.idField]
    rw [hnew]
    refine ⟨keepsForm_note fresh, .str fresh, ?_, trivial⟩
    simp [note, Entries.field?, Entries.get?_cons, Collection.idField]

/-- After the crash the store is opened again, and each document is found once. -/
theorem find_returned_reopened :
    let calls := orderCalls ++ [.start Settings.eager]
    ∃ docs,
      (Session.find (.str "a") .null ((start 7).run calls).session).answer = .ok docs ∧
      docs.length = 2 ∧
      ∀ d ∈ (start 7).returned calls, d.1 = "a" →
        docs.countP (fun doc => doc.same (Value.dict d.2).listed) = 1 := by
  have hsize : (start 7).volume (orderCalls ++ [.start Settings.eager]) < Sheet.capacity :=
    Sheet.lt_capacity (by decide +kernel)
  have hopen : ((start 7).run (orderCalls ++ [.start Settings.eager])).IsOpen := by
    have hbefore : (start 7).volume orderCalls < Sheet.capacity := by
      rw [volume_append] at hsize
      exact Nat.lt_of_le_of_lt (Nat.le_add_right _ _) hsize
    have hstart : (start 7).pairs.weight = 0 := rfl
    obtain ⟨hkeeps, hweight⟩ := keeps_run (keeps_start 7 Disk.workingPath)
      (fun call hcall => isAllowed_orderCalls call (List.mem_append_left _ hcall)) (by omega)
    rw [run, List.foldl_append]
    exact canOpen_of_keeps hkeeps (by omega) _ Settings.eager_isAccepted rfl (by decide +kernel)
  have hkept : ∀ d ∈ (start 7).returned (orderCalls ++ [.start Settings.eager]), d.1 = "a" →
      Stored.KeepsForm (.dict d.2) ∧ HasPlainId d.2 := by
    intro d hd hname
    have hstart : (start 7).pairs.weight = 0 := rfl
    obtain ⟨doc, es, fresh, _, hcall, hdoc, hstored, _⟩ :=
      exists_of_returned (keeps_start 7 Disk.workingPath) isAllowed_orderCalls (by omega) hd
    rw [hname] at hcall
    rw [hstored]
    exact keepsForm_of_orderCalls hcall hdoc
  obtain ⟨docs, hfind, hdocs, honce⟩ := find_returned 7 isAllowed_orderCalls hsize hopen
    ⟨by decide, by decide⟩ fun d hd hname => (hkept d hd hname).1
  refine ⟨docs, hfind, ?_, honce fun d hd hname => (hkept d hd hname).2⟩
  rw [hdocs.length_eq, List.length_map]
  decide +kernel

/-- A document with a part that looks like the stored form of a date. -/
def reminder : Entries :=
  [(.str Collection.idField, .str "x"), (.str "due", .dict [(.str Stored.dateTag, .str "soon")])]

def reminderCalls : List Call := [.start Settings.eager, .insert "a" (.dict reminder)]

/-- The document is taken, and from then on no query of its collection succeeds. -/
theorem find_returned_unreadable :
    ((start 7).run reminderCalls).IsOpen ∧
      ((start 7).returned reminderCalls).map (·.1) = ["a"] ∧
      (Session.find (.str "a") .null ((start 7).run reminderCalls).session).answer.isOk
        = false := by
  refine ⟨?_, by decide +kernel, by decide +kernel⟩
  show (_ = true)
  decide +kernel

end Journal
end SchemaStore
