import SchemaStore.Proofs.Storage.Damage
import SchemaStore.Proofs.Value.Orders

/-!
Filters as rows of conditions.  A condition compares the value of a field with a bound.  A filter
tries its conditions in order, and the first that does not hold decides: so an operator that is
not known is reported exactly if all conditions before it hold.  With known operators over plain
data no condition fails, and a filter is the conjunction of its conditions in whatever order they
stand.
-/

/-! ## Rows of tests -/

namespace Except

variable {ε α : Type} {p : α → Except ε Bool} {xs ys : List α}

theorem allM_cons {x : α} :
    (x :: xs).allM p = match p x with
      | .ok true => xs.allM p
      | result => result := by
  rw [List.allM]
  cases p x with
  | error e => rfl
  | ok b => cases b <;> rfl

theorem allM_cons_of_true {x : α} (h : p x = .ok true) : (x :: xs).allM p = xs.allM p := by
  rw [allM_cons, h]

theorem allM_cons_of_ne {x : α} (h : p x ≠ .ok true) : (x :: xs).allM p = p x := by
  rw [allM_cons]
  split
  · next hx => exact absurd hx h
  · rfl

theorem allM_singleton (x : α) : [x].allM p = p x := by
  rw [allM_cons]
  split
  · next h => exact h.symm
  · rfl

/-- Tests that hold are passed over. -/
theorem allM_append_of_true (h : ∀ x ∈ xs, p x = .ok true) : (xs ++ ys).allM p = ys.allM p := by
  induction xs with
  | nil => rfl
  | cons x xs ih =>
    rw [List.cons_append, allM_cons_of_true (h x List.mem_cons_self)]
    exact ih fun y hy => h y (List.mem_cons_of_mem x hy)

/-- After a test that does not hold nothing is tried. -/
theorem allM_append_of_ne (h : ¬∀ x ∈ xs, p x = .ok true) : (xs ++ ys).allM p = xs.allM p := by
  induction xs with
  | nil => exact absurd (List.forall_mem_nil _) h
  | cons x xs ih =>
    rw [List.cons_append]
    by_cases hx : p x = .ok true
    · rw [allM_cons_of_true hx, allM_cons_of_true hx]
      exact ih fun hxs => h (List.forall_mem_cons.mpr ⟨hx, hxs⟩)
    · rw [allM_cons_of_ne hx, allM_cons_of_ne hx]

theorem allM_eq_true_iff : xs.allM p = .ok true ↔ ∀ x ∈ xs, p x = .ok true := by
  induction xs with
  | nil => exact iff_of_true rfl (List.forall_mem_nil _)
  | cons x xs ih =>
    rw [List.forall_mem_cons]
    by_cases hx : p x = .ok true
    · rw [allM_cons_of_true hx, ih, and_iff_right hx]
    · rw [allM_cons_of_ne hx]
      exact iff_of_false hx fun h => hx h.1

/-- What a row of tests fails with, one of the tests fails with. -/
theorem exists_of_allM_eq_error {e : ε} (h : xs.allM p = .error e) : ∃ x ∈ xs, p x = .error e := by
  induction xs with
  | nil => cases h
  | cons x xs ih =>
    by_cases hx : p x = .ok true
    · rw [allM_cons_of_true hx] at h
      obtain ⟨y, hy, hfails⟩ := ih h
      exact ⟨y, List.mem_cons_of_mem x hy, hfails⟩
    · rw [allM_cons_of_ne hx] at h
      exact ⟨x, List.mem_cons_self, h⟩

/-- A row of tests none of which fails has an answer. -/
theorem exists_allM (h : ∀ x ∈ xs, ∃ b, p x = .ok b) : ∃ b, xs.allM p = .ok b := by
  cases hrow : xs.allM p with
  | ok b => exact ⟨b, rfl⟩
  | error e =>
    obtain ⟨x, hx, hfails⟩ := exists_of_allM_eq_error hrow
    obtain ⟨b, hb⟩ := h x hx
    rw [hb] at hfails
    cases hfails

end Except

namespace SchemaStore

theorem Entries.exists_mem_of_get? {es : Entries} {key v : Value} (h : es.get? key = some v) :
    ∃ k, (k, v) ∈ es := by
  induction es with
  | nil => cases h
  | cons e es ih =>
    obtain ⟨k, w⟩ := e
    rw [get?_cons] at h
    split at h
    · rw [Option.some.inj h]
      exact ⟨k, List.mem_cons_self⟩
    · obtain ⟨l, hl⟩ := ih h
      exact ⟨l, List.mem_cons_of_mem _ hl⟩

namespace Filter

/-! ## Conditions -/

/-- One condition of a filter. -/
structure Condition where
  field : Value
  operator : Value
  bound : Value

/-- A value that is no dictionary is compared for equality. -/
def conditionsOn (field : Value) : Value → List Condition
  | .dict operators => operators.map fun e => { field := field, operator := e.1, bound := e.2 }
  | wanted => [{ field := field, operator := .str "$eq", bound := wanted }]

theorem conditionsOn_of_ne {wanted : Value} (h : ∀ operators, wanted ≠ .dict operators)
    (field : Value) :
    conditionsOn field wanted
      = [{ field := field, operator := .str "$eq", bound := wanted }] := by
  cases wanted with
  | dict operators => exact absurd rfl (h operators)
  | _ => rfl

/-- The conditions of a filter, in the order in which they are tried. -/
def conditions (fields : Entries) : List Condition :=
  fields.flatMap fun e => conditionsOn e.1 e.2

namespace Condition

/-- The filter that has the condition alone. -/
def alone (c : Condition) : Value := .dict [(c.field, .dict [(c.operator, c.bound)])]

/-- Whether the condition on its own matches a document. -/
def test (doc : Entries) (c : Condition) : Except (Report FilterFault) Bool :=
  accepts c.alone (.dict doc)

def isKnown (c : Condition) : Bool := (Comparison.named? c.operator).isSome

end Condition

variable {fields doc : Entries}

theorem test_eq (field operator bound : Value) (doc : Entries) :
    Condition.test doc { field := field, operator := operator, bound := bound }
      = matchOperators field ((doc.get? field).getD .null) [(operator, bound)] := by
  show matchFields (.dict doc) [(field, .dict [(operator, bound)])] = _
  simp only [matchFields, Value.entries?, matchCondition]
  cases matchOperators field ((doc.get? field).getD .null) [(operator, bound)] with
  | error fault => rfl
  | ok b => cases b <;> rfl

theorem test_unknown {c : Condition} (h : c.isKnown = false) (doc : Entries) :
    c.test doc = .error (.quoting [c.operator, c.field] (.unknownOperator c.operator c.field)) := by
  obtain ⟨field, operator, bound⟩ := c
  have hnone : Comparison.named? operator = none := by
    rw [← Option.not_isSome_iff_eq_none]
    exact ne_true_of_eq_false h
  rw [test_eq, matchOperators, hnone]

theorem test_known {c : Condition} {comparison : Comparison}
    (h : Comparison.named? c.operator = some comparison) (doc : Entries) :
    c.test doc
      = match comparison.holds ((doc.get? c.field).getD .null) c.bound with
        | .ok b => .ok b
        | .error m => .error (.fault (.misuse m)) := by
  obtain ⟨field, operator, bound⟩ := c
  have h : Comparison.named? operator = some comparison := h
  rw [test_eq, matchOperators, h]
  simp only [matchOperators]
  cases comparison.holds ((doc.get? field).getD .null) bound with
  | error m => rfl
  | ok b => cases b <;> rfl

theorem holds_ordered {v : Value} (h : v ≠ .null) (r : Relation) (bound : Value) :
    (Comparison.ordered r).holds v bound = match v.compare r bound with
      | .ok b => .ok b
      | .error .undefinedOrder => .error .undefinedOrder
      | .error _ => .ok false := by
  cases v with
  | null => exact absurd rfl h
  | _ => rfl

theorem matchOperators_cons (field v operator bound : Value) (rest : List (Value × Value)) :
    matchOperators field v ((operator, bound) :: rest)
      = match matchOperators field v [(operator, bound)] with
        | .ok true => matchOperators field v rest
        | result => result := by
  rw [matchOperators, matchOperators]
  cases Comparison.named? operator with
  | none => rfl
  | some comparison =>
    simp only [matchOperators]
    cases comparison.holds v bound with
    | error m => rfl
    | ok b => cases b <;> rfl

theorem matchOperators_eq_allM (field : Value) (operators doc : Entries) :
    matchOperators field ((doc.get? field).getD .null) operators
      = (conditionsOn field (.dict operators)).allM (Condition.test doc) := by
  induction operators with
  | nil => rfl
  | cons e rest ih =>
    obtain ⟨operator, bound⟩ := e
    have hcons : conditionsOn field (.dict ((operator, bound) :: rest))
        = { field := field, operator := operator, bound := bound }
          :: conditionsOn field (.dict rest) := rfl
    rw [matchOperators_cons, ih, hcons, Except.allM_cons, test_eq]
    cases matchOperators field ((doc.get? field).getD .null) [(operator, bound)] with
    | error fault => rfl
    | ok b => cases b <;> rfl

theorem matchCondition_eq_allM (field condition : Value) (doc : Entries) :
    matchCondition field ((doc.get? field).getD .null) condition
      = (conditionsOn field condition).allM (Condition.test doc) := by
  by_cases hdict : ∃ operators, condition = .dict operators
  · obtain ⟨operators, rfl⟩ := hdict
    exact matchOperators_eq_allM field operators doc
  · have hdict : ∀ operators, condition ≠ .dict operators := fun es h => hdict ⟨es, h⟩
    rw [conditionsOn_of_ne hdict, Except.allM_singleton,
      @test_known _ .equal rfl doc]
    cases condition with
    | dict operators => exact absurd rfl (hdict operators)
    | _ => rfl

/-- A filter tries its conditions one after the other, each as a filter of its own. -/
theorem accepts_eq_allM (fields doc : Entries) :
    accepts (.dict fields) (.dict doc)
      = (conditions fields).allM (Condition.test doc) := by
  show matchFields (.dict doc) fields = _
  induction fields with
  | nil => rfl
  | cons e rest ih =>
    obtain ⟨field, condition⟩ := e
    have hfirst := matchCondition_eq_allM field condition doc
    rw [conditions, List.flatMap_cons, ← conditions]
    by_cases hholds : ∀ c ∈ conditionsOn field condition, c.test doc = .ok true
    · rw [Except.allM_append_of_true hholds, ← ih]
      rw [Except.allM_eq_true_iff.mpr hholds] at hfirst
      simp only [matchFields, Value.entries?, hfirst]
    · rw [Except.allM_append_of_ne hholds, ← hfirst]
      have hne := mt Except.allM_eq_true_iff.mp hholds
      rw [← hfirst] at hne
      simp only [matchFields, Value.entries?]

/-! ## Unknown operators -/

theorem isStore_of_known {c : Condition} (h : c.isKnown = true) {e : Report FilterFault}
    (hfails : c.test doc = .error e) : (Failure.ofReport .ofFilter e).isStore = false := by
  obtain ⟨comparison, hcomparison⟩ := Option.isSome_iff_exists.mp h
  rw [test_known hcomparison] at hfails
  split at hfails
  · cases hfails
  · cases hfails
    rfl

/-- Known conditions fail with no error of the store. -/
theorem isForeign_allM {cs : List Condition} (h : ∀ c ∈ cs, c.isKnown = true) (doc : Entries) :
    IsForeign (Failure.lift (.ofReport .ofFilter) (cs.allM (Condition.test doc))) := by
  intro f hf
  cases hrow : cs.allM (Condition.test doc) with
  | ok b =>
    rw [hrow] at hf
    cases hf
  | error e =>
    obtain ⟨c, hc, hfails⟩ := Except.exists_of_allM_eq_error hrow
    rw [hrow] at hf
    cases hf
    exact isStore_of_known (h c hc) hfails

theorem lift_unknownOperator_iff {operator field : Value} {e : StoreError} :
    Failure.lift (.ofReport .ofFilter)
        (.error (.quoting [operator, field] (.unknownOperator operator field)))
      = (.error (.store e) : Except Failure Bool) ↔
      (operator.isShowable = true ∧ field.isShowable = true) ∧
        e = .unknownOperator operator field := by
  have hboth : operator.isShowable = true ∧ field.isShowable = true ↔
      [operator, field].all Value.isShowable = true := by simp
  rw [hboth, Report.quoting]
  split
  · next h => simp [Failure.lift, Except.mapError, Failure.ofReport, Failure.ofFilter, h, eq_comm]
  · next h => simp [Failure.lift, Except.mapError, Failure.ofReport, h]

/-- A filter with an unknown operator is reported exactly if all conditions that stand before the
first unknown operator hold of the document, and the operator and its field can be shown; and then
it is this operator that is reported, with its field.  Unless those conditions hold, the operator is
never looked at. -/
theorem unknown_operator_reported {fields : Entries} {c : Condition}
    (hfirst : (conditions fields).find? (fun c => !c.isKnown) = some c) (doc : Entries) :
    ((∃ e, Failure.lift (.ofReport .ofFilter) (accepts (.dict fields) (.dict doc))
        = .error (.store e)) ↔
      (∀ b ∈ (conditions fields).takeWhile Condition.isKnown, b.test doc = .ok true) ∧
        c.operator.isShowable = true ∧ c.field.isShowable = true) ∧
    ∀ e, Failure.lift (.ofReport .ofFilter) (accepts (.dict fields) (.dict doc))
        = .error (.store e) →
      e = .unknownOperator c.operator c.field := by
  obtain ⟨hunknown, before, after, hsplit, hbefore⟩ := List.find?_eq_some_iff_append.mp hfirst
  have hunknown : c.isKnown = false := by simpa using hunknown
  have hbefore : ∀ b ∈ before, b.isKnown = true := by simpa using hbefore
  have htake : (conditions fields).takeWhile Condition.isKnown = before := by
    rw [hsplit, List.takeWhile_append_of_pos hbefore,
      List.takeWhile_cons_of_neg (ne_true_of_eq_false hunknown), List.append_nil]
  rw [htake, accepts_eq_allM, hsplit]
  by_cases hholds : ∀ b ∈ before, b.test doc = .ok true
  · have hfails : c.test doc ≠ .ok true := by
      rw [test_unknown hunknown]
      nofun
    rw [Except.allM_append_of_true hholds, Except.allM_cons_of_ne hfails, test_unknown hunknown,
      and_iff_right hholds]
    exact ⟨⟨fun ⟨e, he⟩ => (lift_unknownOperator_iff.mp he).1,
      fun hshown => ⟨_, lift_unknownOperator_iff.mpr ⟨hshown, rfl⟩⟩⟩,
      fun e he => (lift_unknownOperator_iff.mp he).2⟩
  · rw [Except.allM_append_of_ne hholds]
    have hforeign : ∀ e, Failure.lift (.ofReport .ofFilter)
        (before.allM (Condition.test doc)) ≠ .error (.store e) := fun e he =>
      absurd (isForeign_allM hbefore doc _ he) (by simp [Failure.isStore])
    exact ⟨iff_of_false (fun ⟨e, he⟩ => hforeign e he) fun h => hholds h.1,
      fun e he => absurd he (hforeign e)⟩

/-- A filter for ages with an operator that is not known. -/
def excluding : Entries :=
  [(.str "age", .dict [(.str "$lt", .int 5), (.str "$ne", .int 1)])]

def aged (n : Int) : Entries := [(.str "age", .int n)]

theorem find?_excluding : (conditions excluding).find? (fun c => !c.isKnown)
    = some { field := .str "age", operator := .str "$ne", bound := .int 1 } := rfl

theorem test_age (n : Int) :
    Condition.test (aged n) { field := .str "age", operator := .str "$lt", bound := .int 5 }
      = .ok (decide (n < 5)) := by
  have hage : (aged n).get? (.str "age") = some (.int n) := by
    simp [aged, Entries.get?_cons]
  have hholds : (Comparison.ordered .lt).holds (.int n) (.int 5) = .ok (decide (n < 5)) := by
    have hne : Value.int n ≠ .null := nofun
    rw [holds_ordered hne, Value.compare_ints, Value.standingOfInts, Relation.admits_lt_standing]
  rw [@test_known _ (.ordered .lt) rfl, hage, Option.getD_some, hholds]

theorem unknown_operator_reported_three :
    (conditions excluding).find? (fun c => !c.isKnown)
        = some { field := .str "age", operator := .str "$ne", bound := .int 1 } ∧
      Failure.lift (.ofReport .ofFilter) (accepts (.dict excluding) (.dict (aged 3)))
        = .error (.store (.unknownOperator (.str "$ne") (.str "age"))) := by
  obtain ⟨hiff, honly⟩ := unknown_operator_reported find?_excluding (aged 3)
  have hbefore : ∀ b ∈ (conditions excluding).takeWhile Condition.isKnown,
      b.test (aged 3) = .ok true := by
    show ∀ b ∈ [_], _
    rw [List.forall_mem_singleton, test_age]
    rfl
  obtain ⟨e, he⟩ := hiff.mpr ⟨hbefore, rfl, rfl⟩
  exact ⟨find?_excluding, honly e he ▸ he⟩

/-- The same filter says of another document that it does not match. -/
theorem unknown_operator_unreported :
    (∃ c ∈ conditions excluding, c.isKnown = false) ∧
      accepts (.dict excluding) (.dict (aged 9)) = .ok false := by
  refine ⟨⟨_, List.mem_of_find?_eq_some find?_excluding, rfl⟩, ?_⟩
  have hfails := test_age 9
  rw [accepts_eq_allM]
  show List.allM _ (_ :: _) = _
  rw [Except.allM_cons_of_ne, hfails]
  · rfl
  · rw [hfails]
    nofun

/-! ## Known operators -/

theorem compare_ne_undefinedOrder {v bound : Value} (hv : v.AllData) (hbound : bound.AllData)
    (r : Relation) : v.compare r bound ≠ .error .undefinedOrder := by
  have hagrees := Value.agrees_compare r v bound hv hbound
  generalize v.compare r bound = answer at hagrees
  generalize v.order? bound = order at hagrees
  cases hagrees with
  | ordered o => nofun
  | unordered hne => exact fun h => hne (Except.error.inj h)

theorem exists_holds {v bound : Value} (hv : v.AllData) (hbound : bound.AllData)
    (c : Comparison) : ∃ b, c.holds v bound = .ok b := by
  cases c with
  | equal => exact ⟨_, Value.equals_of_allData hv hbound⟩
  | ordered r =>
    by_cases hnull : v = .null
    · rw [hnull]
      exact ⟨false, rfl⟩
    · have hne := compare_ne_undefinedOrder hv hbound r
      rw [holds_ordered hnull]
      split
      · exact ⟨_, rfl⟩
      · next h => exact absurd h hne
      · exact ⟨false, rfl⟩

theorem allData_get? {doc : Entries} (h : (Value.dict doc).AllData) (field : Value) :
    ((doc.get? field).getD .null).AllData := by
  cases hfound : doc.get? field with
  | none => exact (Value.allData_leaf_iff (by simp) (by simp) (by simp)).mpr trivial
  | some v =>
    obtain ⟨k, hin⟩ := Entries.exists_mem_of_get? hfound
    exact (Value.allData_dict_iff.mp h _ hin).2

theorem allData_bound {fields : Entries} (h : (Value.dict fields).AllData) {c : Condition}
    (hc : c ∈ conditions fields) : c.bound.AllData := by
  obtain ⟨⟨field, condition⟩, hin, hc⟩ := List.mem_flatMap.mp hc
  have hcondition := (Value.allData_dict_iff.mp h _ hin).2
  by_cases hdict : ∃ operators, condition = .dict operators
  · obtain ⟨operators, rfl⟩ := hdict
    obtain ⟨e, he, rfl⟩ := List.mem_map.mp hc
    exact (Value.allData_dict_iff.mp hcondition e he).2
  · rw [conditionsOn_of_ne fun es h => hdict ⟨es, h⟩, List.mem_singleton] at hc
    rw [hc]
    exact hcondition

/-- A condition with a known operator is met or not; it does not fail. -/
theorem exists_test {fields : Entries} (hfields : (Value.dict fields).AllData)
    (hdoc : (Value.dict doc).AllData) {c : Condition} (hc : c ∈ conditions fields)
    (hknown : c.isKnown = true) : ∃ b, c.test doc = .ok b := by
  obtain ⟨comparison, hcomparison⟩ := Option.isSome_iff_exists.mp hknown
  obtain ⟨b, hb⟩ := exists_holds (allData_get? hdoc c.field) (allData_bound hfields hc) comparison
  refine ⟨b, ?_⟩
  rw [test_known hcomparison, hb]

theorem accepts_eq_true_iff (fields doc : Entries) :
    accepts (.dict fields) (.dict doc) = .ok true ↔
      ∀ c ∈ conditions fields, accepts c.alone (.dict doc) = .ok true := by
  rw [accepts_eq_allM]
  exact Except.allM_eq_true_iff

/-! ## Filters in another order -/

/-- The same filter, with its fields or the operators on a field in another order. -/
inductive Rearranged : Entries → Entries → Prop where
  | fields {a b : Entries} (h : a.Perm b) : Rearranged a b
  | operators (before : Entries) (field : Value) {a b : Entries} (after : Entries)
      (h : a.Perm b) :
      Rearranged (before ++ (field, .dict a) :: after) (before ++ (field, .dict b) :: after)
  | trans {a b c : Entries} (hab : Rearranged a b) (hbc : Rearranged b c) : Rearranged a c

theorem perm_conditions {a b : Entries} (h : Rearranged a b) :
    (conditions a).Perm (conditions b) := by
  induction h with
  | fields h => exact h.flatMap_right _
  | operators before field after h =>
    rw [conditions, List.flatMap_append, List.flatMap_cons, conditions, List.flatMap_append,
      List.flatMap_cons]
    exact ((h.map _).append_right _).append_left _
  | trans _ _ hab hbc => exact hab.trans hbc

theorem accepts_eq_of_perm {a b : Entries} (h : (conditions a).Perm (conditions b))
    (htests : ∀ c ∈ conditions a, ∃ answer, c.test doc = .ok answer) :
    accepts (.dict b) (.dict doc) = accepts (.dict a) (.dict doc) := by
  obtain ⟨x, hx⟩ := Except.exists_allM htests
  obtain ⟨y, hy⟩ := Except.exists_allM fun c hc => htests c (h.mem_iff.mpr hc)
  have hiff : (conditions b).allM (Condition.test doc) = .ok true ↔
      (conditions a).allM (Condition.test doc) = .ok true := by
    rw [Except.allM_eq_true_iff, Except.allM_eq_true_iff]
    exact ⟨fun hall c hc => hall c (h.mem_iff.mp hc), fun hall c hc => hall c (h.mem_iff.mpr hc)⟩
  rw [accepts_eq_allM, accepts_eq_allM, hx, hy]
  rw [hx, hy] at hiff
  simpa using hiff

/-- One filter with the fields of another added to it. -/
def union (fields others : Entries) : Entries :=
  others.foldl (fun es e => es.insert e.1 e.2) fields

theorem conditions_union {fields others : Entries}
    (h : (fields ++ others).Pairwise fun a b => a.1.standsFor b.1 = false) :
    conditions (union fields others) = conditions fields ++ conditions others := by
  rw [union, Entries.foldl_insert_of_pairwise h, conditions, List.flatMap_append]
  rfl

/-- A filter of known operators over data is the conjunction of its conditions, each taken as a
filter of its own.  It answers every document, with the same answer however its fields and operators
are ordered, and together with a filter on other fields it matches what both match. -/
theorem accepts_conjunction {fields doc : Entries}
    (hknown : ∀ c ∈ conditions fields, c.isKnown = true)
    (hfields : (Value.dict fields).AllData) (hdoc : (Value.dict doc).AllData) :
    (∃ b, accepts (.dict fields) (.dict doc) = .ok b) ∧
    (accepts (.dict fields) (.dict doc) = .ok true ↔
      ∀ c ∈ conditions fields, accepts c.alone (.dict doc) = .ok true) ∧
    (∀ others, Rearranged fields others →
      accepts (.dict others) (.dict doc) = accepts (.dict fields) (.dict doc)) ∧
    ∀ others : Entries,
      (fields ++ others).Pairwise (fun a b => a.1.standsFor b.1 = false) →
      (accepts (.dict (union fields others)) (.dict doc) = .ok true ↔
        accepts (.dict fields) (.dict doc) = .ok true ∧
          accepts (.dict others) (.dict doc) = .ok true) := by
  have htests : ∀ c ∈ conditions fields, ∃ b, c.test doc = .ok b := fun c hc =>
    exists_test hfields hdoc hc (hknown c hc)
  refine ⟨?_, accepts_eq_true_iff fields doc,
    fun others h => accepts_eq_of_perm (perm_conditions h) htests, fun others h => ?_⟩
  · rw [accepts_eq_allM]
    exact Except.exists_allM htests
  · rw [accepts_eq_true_iff, accepts_eq_true_iff, accepts_eq_true_iff, conditions_union h,
      List.forall_mem_append]

/-- A filter whose bounds are of different types, and one for another field. -/
def mixed : Entries := [(.str "age", .dict [(.str "$lt", .int 5), (.str "$gt", .str "a")])]

def unborn : Entries := [(.str "born", .null)]

theorem allData_mixed : (Value.dict mixed).AllData := by
  simp [mixed, Value.allData_dict_iff, Value.allData_leaf_iff, Value.IsData]

theorem allData_aged (n : Int) : (Value.dict (aged n)).AllData := by
  simp [aged, Value.allData_dict_iff, Value.allData_leaf_iff, Value.IsData]

theorem accepts_conjunction_mixed :
    (∀ c ∈ conditions mixed, c.isKnown = true) ∧ (Value.dict mixed).AllData ∧
      (Value.dict (aged 3)).AllData ∧
      accepts (.dict [(.str "age", .dict [(.str "$gt", .str "a"), (.str "$lt", .int 5)])])
          (.dict (aged 3))
        = accepts (.dict mixed) (.dict (aged 3)) ∧
      (accepts (.dict (union mixed unborn)) (.dict (aged 3)) = .ok true ↔
        accepts (.dict mixed) (.dict (aged 3)) = .ok true ∧
          accepts (.dict unborn) (.dict (aged 3)) = .ok true) := by
  have hknown : ∀ c ∈ conditions mixed, c.isKnown = true := by decide
  have hswap : Rearranged mixed
      [(.str "age", .dict [(.str "$gt", .str "a"), (.str "$lt", .int 5)])] :=
    .operators [] (.str "age") [] (.swap _ _ [])
  have hapart : (mixed ++ unborn).Pairwise fun a b => a.1.standsFor b.1 = false := by
    simp [mixed, unborn]
  obtain ⟨-, -, hsame, hunion⟩ := accepts_conjunction hknown allData_mixed (allData_aged 3)
  exact ⟨hknown, allData_mixed, allData_aged 3, hsame _ hswap, hunion _ hapart⟩

end Filter
end SchemaStore
