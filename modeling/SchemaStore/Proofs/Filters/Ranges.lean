import SchemaStore.Proofs.Filters.Conditions

/-!
The operators of a filter against one another.  Each of the four ranges, and equality, only asks
how the value of the field stands to the bound.  What the operators have to do with one another is
then read off the three ways in which one value can stand to another, and a value that stands in no
order to the bound is in no range at all.
-/

namespace SchemaStore.Filter

/-- Whether a document with the value in a field matches a filter that compares the field with the
bound. -/
def Meets (field : Value) (operator : String) (v bound : Value) : Prop :=
  accepts (.dict [(field, .dict [(.str operator, bound)])]) (.dict [(field, v)]) = .ok true

variable {field v bound : Value}

theorem meets_iff {operator : String} {c : Comparison} (hfield : field.standsFor field = true)
    (hc : Comparison.named? (.str operator) = some c) :
    Meets field operator v bound ↔ c.holds v bound = .ok true := by
  have hfound : Entries.get? [(field, v)] field = some v := by
    rw [Entries.get?_cons, if_pos hfield]
  let condition : Condition := { field := field, operator := .str operator, bound := bound }
  have htest := test_known (c := condition) hc [(field, v)]
  rw [hfound, Option.getD_some] at htest
  show condition.test [(field, v)] = .ok true ↔ _
  rw [htest]
  cases c.holds v bound <;> simp

theorem meets_ordered_iff (operator : String) {r : Relation}
    (hr : Comparison.named? (.str operator) = some (.ordered r))
    (hfield : field.standsFor field = true) (hv : v.AllData) (hbound : bound.AllData) :
    Meets field operator v bound ↔ ∃ o, v.order? bound = some o ∧ r.admits o = true := by
  rw [meets_iff hfield hr]
  by_cases hnull : v = .null
  · rw [hnull, Value.order?_null]
    exact iff_of_false nofun nofun
  · have hagrees := Value.agrees_compare r v bound hv hbound
    rw [holds_ordered hnull]
    generalize v.compare r bound = answer at hagrees
    generalize v.order? bound = order at hagrees
    cases hagrees with
    | ordered o => simp
    | unordered hne => simp

theorem meets_equal_iff (hfield : field.standsFor field = true) (hv : v.AllData)
    (hbound : bound.AllData) : Meets field "$eq" v bound ↔ v.same bound = true := by
  rw [meets_iff (c := .equal) hfield rfl, Comparison.holds, Value.equals_of_allData hv hbound,
    Except.ok.injEq]

/-- The ranges agree with one another and with equality on any two values made of absence, truth
values, whole numbers, texts, dates, moments, lists and tuples.  No value is on both sides of a
bound or below it and equal to it; a closed range holds the open one, and of the values equal to the
bound those that are in the closed range on the other side too; and the two sides change places with
the value and the bound.  That a closed range holds nothing else takes steady values: a moment whose
offset depends on its fold is neither before nor behind another moment at its place, and does not
equal it. -/
theorem ranges_consistent (hfield : field.standsFor field = true) (hv : v.IsSequential)
    (hbound : bound.IsSequential) :
    ¬(Meets field "$lt" v bound ∧ Meets field "$gte" v bound) ∧
    ¬(Meets field "$gt" v bound ∧ Meets field "$lte" v bound) ∧
    ¬(Meets field "$lt" v bound ∧ Meets field "$eq" v bound) ∧
    (Meets field "$gt" v bound ∨ Meets field "$eq" v bound ∧ Meets field "$lte" v bound →
      Meets field "$gte" v bound) ∧
    (Meets field "$lt" v bound ∨ Meets field "$eq" v bound ∧ Meets field "$gte" v bound →
      Meets field "$lte" v bound) ∧
    (v.IsSteady ∧ bound.IsSteady →
      (Meets field "$gte" v bound ↔
        Meets field "$gt" v bound ∨ Meets field "$eq" v bound ∧ Meets field "$lte" v bound) ∧
      (Meets field "$lte" v bound ↔
        Meets field "$lt" v bound ∨ Meets field "$eq" v bound ∧ Meets field "$gte" v bound)) ∧
    (Meets field "$lt" v bound ↔ Meets field "$gt" bound v) := by
  have hlt := meets_ordered_iff "$lt" rfl hfield hv.allData hbound.allData
  have hle := meets_ordered_iff "$lte" rfl hfield hv.allData hbound.allData
  have hgt := meets_ordered_iff "$gt" rfl hfield hv.allData hbound.allData
  have hge := meets_ordered_iff "$gte" rfl hfield hv.allData hbound.allData
  have hback := meets_ordered_iff "$gt" rfl hfield hbound.allData hv.allData
  rw [Value.order?_swap v bound hv hbound] at hback
  rw [hlt, hle, hgt, hge, hback, meets_equal_iff hfield hv.allData hbound.allData]
  cases ho : v.order? bound with
  | none => simp
  | some o =>
    have hnull : v ≠ .null := by
      intro h
      rw [h, Value.order?_null] at ho
      cases ho
    obtain ⟨horder, hequal⟩ := Value.beside v bound hv hbound hnull
    rw [ho] at horder hequal
    cases o with
    | eq => simpa [Relation.admits] using fun hv hbound => hequal ⟨hv, hbound⟩ rfl
    | lt | gt =>
      have hne : v.same bound = false := eq_false_of_ne_true fun h => nomatch horder h
      simp [Relation.admits, hne]

def earlier : Value := .tuple [.bool true, .list [.null, .int 2]]

def later : Value := .tuple [.int 1, .list [.null, .int 3]]

theorem ranges_consistent_nested :
    (Value.str "span").standsFor (.str "span") = true ∧ earlier.IsSequential ∧
      later.IsSequential ∧ Meets (.str "span") "$lt" earlier later ∧
      Meets (.str "span") "$gt" later earlier ∧
      ¬Meets (.str "span") "$gte" earlier later ∧ earlier.IsSteady ∧ later.IsSteady ∧
      (Meets (.str "span") "$lte" earlier later ↔ Meets (.str "span") "$lt" earlier later ∨
        Meets (.str "span") "$eq" earlier later ∧ Meets (.str "span") "$gte" earlier later) := by
  have hfield : (Value.str "span").standsFor (.str "span") = true := by simp
  have hearlier : earlier.IsSequential := by
    simp [earlier, Value.isSequential_tuple_iff, Value.isSequential_list_iff,
      Value.isSequential_leaf_iff, Value.IsData]
  have hlater : later.IsSequential := by
    simp [later, Value.isSequential_tuple_iff, Value.isSequential_list_iff,
      Value.isSequential_leaf_iff, Value.IsData]
  have hsteady : earlier.IsSteady ∧ later.IsSteady := by
    constructor <;> intro t ht <;>
      simp [earlier, later, Value.part_tuple_iff, Value.part_list_iff, Value.part_leaf_iff] at ht
  obtain ⟨hapart, -, -, -, -, hclosed, hback⟩ := ranges_consistent hfield hearlier hlater
  have hfirst : (Value.bool true).same (.int 1) = true := by
    rw [Value.same, @Value.sameNumber_eq _ (.int 1) 1 rfl trivial]
    rfl
  have hstands : earlier.order? later = some .lt := by
    simp [earlier, later, Value.order?, Value.orderItems, hfirst, Value.same, Value.sameItems,
      Value.areStoredNaN, Value.integer?, Value.standingOfInts, Relation.standing]
  have hlt : Meets (.str "span") "$lt" earlier later :=
    (meets_ordered_iff "$lt" rfl hfield hearlier.allData hlater.allData).mpr ⟨.lt, hstands, rfl⟩
  exact ⟨hfield, hearlier, hlater, hlt, hback.mp hlt, fun hge => hapart ⟨hlt, hge⟩, hsteady.1,
    hsteady.2, (hclosed hsteady).2⟩

/-- Half past one on a night when the clocks are set back from two to one. -/
def repeated : DateTime where
  date := { year := 2024, month := 11, day := 3 }
  time := { hour := 1, minute := 30, second := 0, micro := 0 }
  offset := some { micros := -14400000000 }

/-- The same reading, of a zone that has it a second time an hour later. -/
def repeatedInZone : DateTime :=
  { repeated with
    offset := some
      { micros := -14400000000
        zone := some { name := "America/New_York", flipped := -18000000000 } } }

/-- Two moments at one place of which one depends on its fold: each closed range holds, but neither
the open one nor equality does. -/
theorem ranges_consistent_repeated :
    (Value.dateTime repeated).IsSequential ∧ (Value.dateTime repeatedInZone).IsSequential ∧
      ¬(Meets (.str "at") "$gte" (.dateTime repeated) (.dateTime repeatedInZone) ↔
        Meets (.str "at") "$gt" (.dateTime repeated) (.dateTime repeatedInZone) ∨
          Meets (.str "at") "$eq" (.dateTime repeated) (.dateTime repeatedInZone) ∧
            Meets (.str "at") "$lte" (.dateTime repeated) (.dateTime repeatedInZone)) ∧
      ¬(Meets (.str "at") "$lte" (.dateTime repeated) (.dateTime repeatedInZone) ↔
        Meets (.str "at") "$lt" (.dateTime repeated) (.dateTime repeatedInZone) ∨
          Meets (.str "at") "$eq" (.dateTime repeated) (.dateTime repeatedInZone) ∧
            Meets (.str "at") "$gte" (.dateTime repeated) (.dateTime repeatedInZone)) := by
  have hfield : (Value.str "at").standsFor (.str "at") = true := by simp
  have hv : (Value.dateTime repeated).IsSequential :=
    (Value.isSequential_leaf_iff (by simp) (by simp) (by simp)).mpr trivial
  have hbound : (Value.dateTime repeatedInZone).IsSequential :=
    (Value.isSequential_leaf_iff (by simp) (by simp) (by simp)).mpr trivial
  have ho : (Value.dateTime repeated).order? (.dateTime repeatedInZone) = some .eq := by
    rw [Value.order?]
    decide
  have hne : (Value.dateTime repeated).same (.dateTime repeatedInZone) = false := by
    rw [Value.same]
    decide
  rw [meets_ordered_iff "$lt" rfl hfield hv.allData hbound.allData,
    meets_ordered_iff "$lte" rfl hfield hv.allData hbound.allData,
    meets_ordered_iff "$gt" rfl hfield hv.allData hbound.allData,
    meets_ordered_iff "$gte" rfl hfield hv.allData hbound.allData,
    meets_equal_iff hfield hv.allData hbound.allData, ho, hne]
  exact ⟨hv, hbound, by simp [Relation.admits], by simp [Relation.admits]⟩

end SchemaStore.Filter
