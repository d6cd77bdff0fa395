import SchemaStore.Proofs.Storage.Sorting
import SchemaStore.Proofs.Value.Parts

/-!
The order of values as one three-way comparison.  Whether a value stands before, beside or behind
another, or in no order to it, decides all four order relations at once; and the comparison the
other way round tells the reverse.  What equals a value stands beside it.  What stands beside it
equals it too, unless a moment in the one or the other has an offset that depends on its fold.
-/

namespace SchemaStore

/-! ## Outcomes of a comparison -/

namespace Relation

/-- Whether the relation holds between two things of which the first stands so to the second. -/
def admits (r : Relation) (o : Ordering) : Bool :=
  match r with
  | lt => o.isLT
  | le => o.isLE
  | gt => o.isGT
  | ge => o.isGE

/-- How a thing stands to another that it is below, or equal to, or neither. -/
def standing (below equal : Bool) : Ordering :=
  if below then .lt else if equal then .eq else .gt

/-- Exactly one of the three is the case, as in a total order. -/
structure IsTotal (below equal above : Bool) : Prop where
  ne : below = true → equal = false
  above_eq : above = (!below && !equal)

variable {below equal above : Bool}

theorem decideBy_eq (r : Relation) (h : IsTotal below equal above) :
    r.decideBy below equal = r.admits (standing below equal) := by
  have hne := h.ne
  cases below with
  | true =>
    rw [hne rfl]
    cases r <;> rfl
  | false => cases equal <;> cases r <;> rfl

theorem admits_lt_standing (below equal : Bool) : lt.admits (standing below equal) = below := by
  cases below <;> cases equal <;> rfl

theorem standing_beq_eq (h : IsTotal below equal above) :
    (standing below equal == .eq) = equal := by
  have hne := h.ne
  cases below with
  | true =>
    rw [hne rfl]
    rfl
  | false => cases equal <;> rfl

theorem swap_standing (h : IsTotal below equal above) :
    (standing below equal).swap = standing above equal := by
  have hne := h.ne
  rw [h.above_eq]
  cases below with
  | true =>
    rw [hne rfl]
    rfl
  | false => cases equal <;> rfl

theorem isTotal_ints (n m : Int) : IsTotal (decide (n < m)) (n == m) (decide (m < n)) where
  ne := by
    rw [decide_eq_true_eq, beq_eq_false_iff_ne]
    exact Int.ne_of_lt
  above_eq := by
    rw [Bool.eq_iff_iff, Bool.and_eq_true, decide_eq_true_eq, Bool.not_eq_true',
      Bool.not_eq_true', decide_eq_false_iff_not, beq_eq_false_iff_ne]
    omega

theorem isTotal_texts (s t : String) : IsTotal (decide (s < t)) (s == t) (decide (t < s)) where
  ne := by
    rw [decide_eq_true_eq, beq_eq_false_iff_ne]
    exact Order.ne_of_lt
  above_eq := by
    rw [Bool.eq_iff_iff, Bool.and_eq_true, decide_eq_true_eq, Bool.not_eq_true',
      Bool.not_eq_true', decide_eq_false_iff_not, beq_eq_false_iff_ne, String.not_lt]
    constructor
    · exact fun h => ⟨Order.le_of_lt h, (Order.ne_of_lt h).symm⟩
    · exact fun ⟨hle, hne⟩ => Order.lt_of_le_of_ne hle (Ne.symm hne)

theorem isTotal_dates (d e : Date) : IsTotal (d.lt e) (d == e) (e.lt d) := by
  have heq : d = e ↔ d.year = e.year ∧ d.month = e.month ∧ d.day = e.day := by
    obtain ⟨_, _, _, _⟩ := d
    obtain ⟨_, _, _, _⟩ := e
    simp only [Date.mk.injEq]
  have hlt : ∀ d e : Date, d.lt e = true ↔ d.year < e.year ∨
      d.year = e.year ∧ (d.month < e.month ∨ d.month = e.month ∧ d.day < e.day) := by
    simp [Date.lt]
  constructor
  · rw [hlt, beq_eq_false_iff_ne, Ne, heq]
    omega
  · rw [Bool.eq_iff_iff, Bool.and_eq_true, Bool.not_eq_true', Bool.not_eq_true', hlt,
      ← Bool.not_eq_true, hlt, beq_eq_false_iff_ne, Ne, heq]
    omega

end Relation

namespace Value

open SchemaStore.Relation (standing)

/-! ## Data -/

/-- Absence, truth values, whole numbers, texts, dates, moments, sequences and dictionaries. -/
def IsData : Value → Prop
  | null | bool _ | int _ | str _ | date _ | dateTime _ | list _ | tuple _ | dict _ => True
  | _ => False

/-- The value is made of data at every depth. -/
def AllData (v : Value) : Prop := ∀ x, Part x v → IsData x

/-- The value is data, with no dictionary at any depth. -/
def IsSequential (v : Value) : Prop := ∀ x, Part x v → IsData x ∧ ∀ es, x ≠ dict es

theorem allData_leaf_iff {v : Value} (hlist : ∀ xs, v ≠ list xs) (htuple : ∀ xs, v ≠ tuple xs)
    (hdict : ∀ es, v ≠ dict es) : AllData v ↔ IsData v :=
  forall_part_leaf_iff hlist htuple hdict

theorem allData_list_iff {xs : List Value} : AllData (list xs) ↔ ∀ x ∈ xs, AllData x :=
  forall_part_list_iff.trans (and_iff_right trivial)

theorem allData_tuple_iff {xs : List Value} : AllData (tuple xs) ↔ ∀ x ∈ xs, AllData x :=
  forall_part_tuple_iff.trans (and_iff_right trivial)

theorem allData_dict_iff {es : Entries} :
    AllData (dict es) ↔ ∀ e ∈ es, AllData e.1 ∧ AllData e.2 :=
  forall_part_dict_iff.trans (and_iff_right trivial)

theorem IsSequential.allData {v : Value} (h : v.IsSequential) : v.AllData := fun x hx => (h x hx).1

theorem isSequential_leaf_iff {v : Value} (hlist : ∀ xs, v ≠ list xs)
    (htuple : ∀ xs, v ≠ tuple xs) (hdict : ∀ es, v ≠ dict es) : IsSequential v ↔ IsData v :=
  (forall_part_leaf_iff hlist htuple hdict).trans (and_iff_left hdict)

theorem isSequential_list_iff {xs : List Value} :
    IsSequential (list xs) ↔ ∀ x ∈ xs, IsSequential x :=
  forall_part_list_iff.trans (and_iff_right ⟨trivial, nofun⟩)

theorem isSequential_tuple_iff {xs : List Value} :
    IsSequential (tuple xs) ↔ ∀ x ∈ xs, IsSequential x :=
  forall_part_tuple_iff.trans (and_iff_right ⟨trivial, nofun⟩)

theorem not_isSequential_dict (es : Entries) : ¬IsSequential (dict es) :=
  fun h => (h _ .self).2 es rfl

/-! ## The three-way comparison -/

/-- The whole number that a value counts as. -/
def integer? : Value → Option Int
  | bool b => some (if b then 1 else 0)
  | int n => some n
  | _ => none

def standingOfInts (n m : Int) : Ordering := standing (decide (n < m)) (n == m)

mutual

/-- How the first value stands to the second, if the two are in an order. -/
def order? : Value → Value → Option Ordering
  | bool x, b => b.integer?.map (standingOfInts (if x then 1 else 0))
  | int n, b => b.integer?.map (standingOfInts n)
  | str s, b => match b with
    | str t => some (standing (decide (s < t)) (s == t))
    | _ => none
  | date d, b => match b with
    | date e => some (standing (d.lt e) (d == e))
    | _ => none
  | dateTime t, b => match b with
    | dateTime u => (t.lt? u).map fun below => standing below (t.coincides u)
    | _ => none
  | list xs, b => match b with
    | list ys => orderItems xs ys
    | _ => none
  | tuple xs, b => match b with
    | tuple ys => orderItems xs ys
    | _ => none
  | _, _ => none

/-- The first place at which two sequences differ decides. -/
def orderItems : List Value → List Value → Option Ordering
  | [], ys => some (if ys.isEmpty then .eq else .lt)
  | x :: xs, ys => match ys with
    | [] => some .gt
    | y :: ys => if same x y then orderItems xs ys else order? x y

end

theorem order?_null (b : Value) : order? null b = none := by
  cases b <;> rfl

/-- The answer to a relation is that of the three-way comparison.  Values in no order are reported
as such, and never as a decimal that is not a number. -/
inductive Agrees (r : Relation) : Except Misuse Bool → Option Ordering → Prop where
  | ordered (o : Ordering) : Agrees r (.ok (r.admits o)) (some o)
  | unordered {m : Misuse} (h : m ≠ .undefinedOrder) : Agrees r (.error m) none

theorem plane?_of_integer? {v : Value} {n : Int} (h : v.integer? = some n) :
    v.plane? = some (.ofInt n, .ofInt 0) ∧ v.quantity? = some (.ofInt n) ∧
      v.isDecimal = false := by
  cases v <;> cases h <;> exact ⟨rfl, rfl, rfl⟩

theorem plane?_of_integer?_none {v : Value} (hv : v.IsData) (h : v.integer? = none) :
    v.plane? = none ∧ v.quantity? = none := by
  cases v <;> first | exact ⟨rfl, rfl⟩ | exact absurd hv id | cases h

theorem between_ofInt (r : Relation) (n m : Int) :
    r.between (.ofInt n) (.ofInt m) = r.decideBy (decide (n < m)) (n == m) := by
  cases r with
  | lt =>
    show Ratio.lt (.ofInt n) (.ofInt m) = (decide (n < m) && !(n == m))
    rw [Ratio.lt_ofInt, Bool.eq_iff_iff]
    simp only [decide_eq_true_eq, Bool.and_eq_true, Bool.not_eq_true', beq_eq_false_iff_ne]
    omega
  | le =>
    show (Ratio.lt (.ofInt n) (.ofInt m) || Ratio.same (.ofInt n) (.ofInt m)) = _
    rw [Ratio.lt_ofInt, Ratio.same_ofInt]
    rfl
  | gt =>
    show Ratio.lt (.ofInt m) (.ofInt n) = (!decide (n < m) && !(n == m))
    rw [Ratio.lt_ofInt, (Relation.isTotal_ints n m).above_eq]
  | ge =>
    show (Ratio.lt (.ofInt m) (.ofInt n) || Ratio.same (.ofInt m) (.ofInt n))
      = (!decide (n < m) || n == m)
    rw [Ratio.lt_ofInt, Ratio.same_ofInt, Bool.eq_iff_iff]
    simp only [Bool.or_eq_true, decide_eq_true_eq, beq_iff_eq, Bool.not_eq_true',
      decide_eq_false_iff_not]
    omega

theorem compare_ints (r : Relation) (n m : Int) :
    compare r (int n) (int m) = .ok (r.admits (standingOfInts n m)) := by
  rw [standingOfInts, ← Relation.decideBy_eq r (Relation.isTotal_ints n m), ← between_ofInt]
  rfl

theorem agrees_compareNumber (r : Relation) {a b : Value} {n : Int} (ha : a.integer? = some n)
    (hb : b.IsData) : Agrees r (compareNumber r a b) (b.integer?.map (standingOfInts n)) := by
  obtain ⟨-, hquantity, hdecimal⟩ := plane?_of_integer? ha
  cases hm : b.integer? with
  | none =>
    obtain ⟨-, hnone⟩ := plane?_of_integer?_none hb hm
    rw [compareNumber, hquantity, hnone]
    exact .unordered (by simp)
  | some m =>
    obtain ⟨-, hother, hplain⟩ := plane?_of_integer? hm
    rw [compareNumber, hquantity, hother, hdecimal, hplain]
    show Agrees r (.ok (r.between (.ofInt n) (.ofInt m))) (some (standingOfInts n m))
    rw [between_ofInt, Relation.decideBy_eq r (Relation.isTotal_ints n m)]
    exact .ordered _

theorem areStoredNaN_of_isData {x : Value} (hx : x.IsData) (y : Value) :
    areStoredNaN x y = false := by
  cases x <;> first | exact absurd hx id | rfl

theorem standsFor_of_isData {x : Value} (hx : x.IsData) (y : Value) :
    x.standsFor y = same x y := by
  rw [standsFor, areStoredNaN_of_isData hx, Bool.false_or]

theorem isSignalling_of_isData {x : Value} (hx : x.IsData) : x.isSignalling = false := by
  cases x <;> first | exact absurd hx id | rfl

theorem reaches_nil : ∀ es fs : Entries, reaches [] es fs = false
  | [], _ => rfl
  | (k, v) :: es, fs => by
    rw [reaches]
    split
    · rfl
    · rw [reaches_nil es fs, Bool.and_false]
      rfl

mutual

/-- Data can be asked for its equality with other data. -/
theorem signals_of_allData (isSwapped : Bool) : ∀ v b : Value, AllData v → AllData b →
    signals isSwapped v b = false
  | list xs, b, hv, hb => by
    cases b with
    | list ys =>
      rw [signals, signalsIn_of_allData isSwapped xs ys (allData_list_iff.mp hv)
        (allData_list_iff.mp hb), Bool.and_false]
    | _ => rfl
  | tuple xs, b, hv, hb => by
    cases b with
    | tuple ys =>
      exact signalsIn_of_allData isSwapped xs ys (allData_tuple_iff.mp hv) (allData_tuple_iff.mp hb)
    | _ => rfl
  | dict es, b, hv, hb => by
    cases b with
    | dict fs =>
      have hkeys (isSwapped : Bool) : signallingKeys isSwapped es fs = [] :=
        signallingKeys_of_allData isSwapped es fs (fun e he => (allData_dict_iff.mp hv e he).2)
          fun f hf => (allData_dict_iff.mp hb f hf).2
      simp only [signals, entries?, hkeys, reaches_nil, Bool.and_false, ite_self]
    | view _ => exact absurd (hb _ .self) id
    | _ => rfl
  | null, b, hv, hb | bool _, b, hv, hb | int _, b, hv, hb | str _, b, hv, hb | date _, b, hv, hb
  | dateTime _, b, hv, hb => by
    rw [signals, isSignalling_of_isData (hv _ .self), isSignalling_of_isData (hb _ .self),
      Bool.or_self, Bool.and_false]
    all_goals exact nofun
  | float _, _, hv, _ | fraction _, _, hv, _ | decimal _, _, hv, _ | complex _ _, _, hv, _
  | bytes _, _, hv, _ | set _, _, hv, _ | view _, _, hv, _ | type _, _, hv, _
  | kind _, _, hv, _ => absurd (hv _ .self) id

theorem signalsIn_of_allData (isSwapped : Bool) : ∀ xs ys : List Value, (∀ x ∈ xs, AllData x) →
    (∀ y ∈ ys, AllData y) → signalsIn isSwapped xs ys = false
  | [], _, _, _ => rfl
  | _ :: _, [], _, _ => rfl
  | x :: xs, y :: ys, hxs, hys => by
    rw [signalsIn, signals_of_allData isSwapped x y (hxs x List.mem_cons_self)
      (hys y List.mem_cons_self), signalsIn_of_allData isSwapped xs ys
      (fun x hx => hxs x (List.mem_cons_of_mem _ hx)) fun y hy => hys y (List.mem_cons_of_mem _ hy),
      Bool.and_false, Bool.or_false]

theorem signallingKeys_of_allData (isSwapped : Bool) : ∀ es fs : Entries,
    (∀ e ∈ es, AllData e.2) → (∀ f ∈ fs, AllData f.2) → signallingKeys isSwapped es fs = []
  | [], _, _, _ => rfl
  | (k, v) :: es, fs, hes, hfs => by
    have hrest := signallingKeys_of_allData isSwapped es fs
      (fun e he => hes e (List.mem_cons_of_mem _ he)) hfs
    rw [signallingKeys, hrest]
    split
    · rfl
    · next f hf =>
      rw [signals_of_allData isSwapped v f.2 (hes (k, v) List.mem_cons_self)
        (hfs f (List.mem_of_find?_eq_some hf)), if_neg Bool.false_ne_true]

end

theorem equals_of_allData {v b : Value} (hv : v.AllData) (hb : b.AllData) :
    v.equals b = .ok (same v b) := by
  rw [equals, signals_of_allData false v b hv hb, if_neg Bool.false_ne_true]

theorem sharesZone_comm (t u : DateTime) : t.sharesZone u = u.sharesZone t := by
  rw [DateTime.sharesZone, DateTime.sharesZone]
  cases t.zone? <;> cases u.zone? <;> first | rfl | exact BEq.comm

theorem coincides_comm (t u : DateTime) : t.coincides u = u.coincides t := by
  rw [DateTime.coincides, DateTime.coincides, @BEq.comm _ _ _ t.offset.isSome,
    @BEq.comm _ _ _ (t.placeNextTo u)]

theorem same_moments_comm (t u : DateTime) : t.same u = u.same t := by
  rw [DateTime.same, DateTime.same, coincides_comm, sharesZone_comm, Bool.or_comm t.dependsOnFold]

/-- Moments with offsets are ordered, and moments without are, by their places in time. -/
theorem isTotal_moments {t u : DateTime} {below : Bool} (h : t.lt? u = some below) :
    ∃ above, u.lt? t = some above ∧ Relation.IsTotal below (t.coincides u) above := by
  rw [DateTime.lt?] at h
  split at h
  · next hkind =>
    have hplace : t.coincides u = (t.placeNextTo u == u.placeNextTo t) := by
      rw [DateTime.coincides, hkind, Bool.true_and]
    refine ⟨decide (u.placeNextTo t < t.placeNextTo u), ?_, ?_⟩
    · rw [DateTime.lt?, BEq.comm, hkind, if_pos rfl]
    · rw [hplace, ← Option.some.inj h]
      exact Relation.isTotal_ints (t.placeNextTo u) (u.placeNextTo t)
  · cases h

theorem coincides_of_lt?_none {t u : DateTime} (h : t.lt? u = none) : t.coincides u = false := by
  rw [DateTime.lt?] at h
  split at h
  · cases h
  · next hkind => rw [DateTime.coincides, eq_false_of_ne_true hkind, Bool.false_and]

theorem lt?_eq_none_comm {t u : DateTime} (h : t.lt? u = none) : u.lt? t = none := by
  cases hlt : u.lt? t with
  | none => rfl
  | some below =>
    obtain ⟨above, habove, -⟩ := isTotal_moments hlt
    rw [h] at habove
    cases habove

mutual

/-- All four relations between two values made of data follow from the three-way comparison. -/
theorem agrees_compare (r : Relation) : ∀ (v b : Value), AllData v → AllData b →
    Agrees r (compare r v b) (order? v b)
  | bool x, b, _, hb => by
    rw [compare, order?]
    exact agrees_compareNumber r rfl (hb _ .self)
  | int n, b, _, hb => by
    rw [compare, order?]
    exact agrees_compareNumber r rfl (hb _ .self)
  | str s, b, _, _ => by
    cases b with
    | str t =>
      rw [compare, order?, Relation.decideBy_eq r (Relation.isTotal_texts s t)]
      exact .ordered _
    | _ => exact .unordered nofun
  | date d, b, _, _ => by
    cases b with
    | date e =>
      rw [compare, order?, Relation.decideBy_eq r (Relation.isTotal_dates d e)]
      exact .ordered _
    | _ => exact .unordered nofun
  | dateTime t, b, _, _ => by
    cases b with
    | dateTime u =>
      rw [compare, order?]
      cases hlt : t.lt? u with
      | none => exact .unordered nofun
      | some below =>
        obtain ⟨above, -, htotal⟩ := isTotal_moments hlt
        rw [Option.map_some]
        show Agrees r (.ok (r.decideBy below (t.coincides u))) _
        rw [Relation.decideBy_eq r htotal]
        exact .ordered _
    | _ => exact .unordered nofun
  | list xs, b, hv, hb => by
    cases b with
    | list ys =>
      rw [compare, order?]
      exact agrees_compareItems r xs ys (allData_list_iff.mp hv) (allData_list_iff.mp hb)
    | _ => exact .unordered nofun
  | tuple xs, b, hv, hb => by
    cases b with
    | tuple ys =>
      rw [compare, order?]
      exact agrees_compareItems r xs ys (allData_tuple_iff.mp hv) (allData_tuple_iff.mp hb)
    | _ => exact .unordered nofun
  | null, _, _, _ => .unordered nofun
  | dict _, _, _, _ => .unordered nofun
  | float _, _, hv, _ | fraction _, _, hv, _ | decimal _, _, hv, _ | complex _ _, _, hv, _
  | bytes _, _, hv, _ | set _, _, hv, _ | view _, _, hv, _ | type _, _, hv, _
  | kind _, _, hv, _ => absurd (hv _ .self) id

theorem agrees_compareItems (r : Relation) : ∀ (xs ys : List Value), (∀ x ∈ xs, AllData x) →
    (∀ y ∈ ys, AllData y) → Agrees r (compareItems r xs ys) (orderItems xs ys)
  | [], [], _, _ => by
    have heq : r.decideBy false true = r.admits .eq := by cases r <;> rfl
    show Agrees r (.ok (r.decideBy false true)) (some .eq)
    rw [heq]
    exact .ordered _
  | [], y :: ys, _, _ => by
    have hlt : r.decideBy true false = r.admits .lt := by cases r <;> rfl
    show Agrees r (.ok (r.decideBy true false)) (some .lt)
    rw [hlt]
    exact .ordered _
  | x :: xs, [], _, _ => by
    have hgt : r.decideBy false false = r.admits .gt := by cases r <;> rfl
    show Agrees r (.ok (r.decideBy false false)) (some .gt)
    rw [hgt]
    exact .ordered _
  | x :: xs, y :: ys, hxs, hys => by
    have hx := hxs x List.mem_cons_self
    have hy := hys y List.mem_cons_self
    rw [compareItems, orderItems, signals_of_allData false x y hx hy,
      if_neg Bool.false_ne_true, standsFor_of_isData (hx _ .self)]
    split
    · exact agrees_compareItems r xs ys (fun x hx => hxs x (List.mem_cons_of_mem _ hx))
        fun y hy => hys y (List.mem_cons_of_mem _ hy)
    · exact agrees_compare r x y hx hy

end

/-! ## Equality and the other way round -/

/-- No moment in the value has an offset that depends on its fold. -/
def IsSteady (v : Value) : Prop := ∀ t, Part (dateTime t) v → t.dependsOnFold = false

theorem IsSteady.of_mem_list {x : Value} {xs : List Value} (h : IsSteady (list xs)) (hx : x ∈ xs) :
    IsSteady x :=
  fun t ht => h t (.item hx ht)

theorem IsSteady.of_mem_tuple {x : Value} {xs : List Value} (h : IsSteady (tuple xs))
    (hx : x ∈ xs) : IsSteady x :=
  fun t ht => h t (.tupleItem hx ht)

theorem sameNumber_comm (a b : Value) : sameNumber a b = sameNumber b a := by
  rw [sameNumber, sameNumber]
  cases a.plane? <;> cases b.plane? <;> first
    | rfl
    | simp only [Quantity.same_comm]

theorem standing_eq_some {below equal above : Bool} (h : Relation.IsTotal below equal above) :
    (some (standing below equal) == some .eq) = equal :=
  Relation.standing_beq_eq h

theorem sameNumber_eq {a b : Value} {n : Int} (ha : a.integer? = some n) (hb : b.IsData) :
    sameNumber a b = (b.integer?.map (standingOfInts n) == some .eq) := by
  obtain ⟨hplane, -, -⟩ := plane?_of_integer? ha
  cases hm : b.integer? with
  | none =>
    obtain ⟨hnone, -⟩ := plane?_of_integer?_none hb hm
    rw [sameNumber, hplane, hnone]
    rfl
  | some m =>
    obtain ⟨hother, -, -⟩ := plane?_of_integer? hm
    rw [sameNumber, hplane, hother, Option.map_some, standingOfInts,
      standing_eq_some (Relation.isTotal_ints n m)]
    show (Ratio.same (.ofInt n) (.ofInt m) && Ratio.same (.ofInt 0) (.ofInt 0)) = (n == m)
    rw [Ratio.same_ofInt, Ratio.same_ofInt, beq_self_eq_true, Bool.and_true]

/-- How the equality of two values has to do with their places: equal values stand side by side,
and values that do are equal as long as they are steady. -/
structure Beside (areSteady : Prop) (equal : Bool) (o : Option Ordering) : Prop where
  order_of_equal : equal = true → o = some .eq
  equal_of_order : areSteady → o = some .eq → equal = true

theorem Beside.of_eq {areSteady : Prop} {equal : Bool} {o : Option Ordering}
    (h : equal = (o == some .eq)) : Beside areSteady equal o where
  order_of_equal hequal := beq_iff_eq.mp (h.symm.trans hequal)
  equal_of_order _ ho := h.trans (beq_iff_eq.mpr ho)

theorem beside_moments (t u : DateTime) :
    Beside (t.dependsOnFold = false ∧ u.dependsOnFold = false) (t.same u)
      ((t.lt? u).map fun below => standing below (t.coincides u)) := by
  rw [DateTime.same]
  cases hlt : t.lt? u with
  | none =>
    rw [coincides_of_lt?_none hlt, Bool.false_and]
    exact .of_eq rfl
  | some below =>
    obtain ⟨above, -, htotal⟩ := isTotal_moments hlt
    have hplace := standing_eq_some htotal
    rw [Option.map_some]
    constructor
    · intro h
      exact beq_iff_eq.mp (hplace.trans (Bool.and_eq_true_iff.mp h).1)
    · rintro ⟨ht, hu⟩ ho
      rw [← hplace, beq_iff_eq.mpr ho, ht, hu, Bool.or_self, Bool.not_false, Bool.or_true]
      rfl

mutual

/-- Absence apart, which is in no order, the equality of values goes with their places. -/
theorem beside : ∀ v b : Value, IsSequential v → IsSequential b → v ≠ null →
    Beside (IsSteady v ∧ IsSteady b) (same v b) (order? v b)
  | bool x, b, _, hb, _ => by
    rw [same, order?]
    exact .of_eq (sameNumber_eq rfl (hb.allData _ .self))
  | int n, b, _, hb, _ => by
    rw [same, order?]
    exact .of_eq (sameNumber_eq rfl (hb.allData _ .self))
  | str s, b, _, _, _ => by
    cases b with
    | str t =>
      rw [same, order?]
      exact .of_eq (standing_eq_some (Relation.isTotal_texts s t)).symm
    | _ => exact .of_eq (by simp [same, order?])
  | date d, b, _, _, _ => by
    cases b with
    | date e =>
      rw [same, order?]
      exact .of_eq (standing_eq_some (Relation.isTotal_dates d e)).symm
    | _ => exact .of_eq (by simp [same, order?])
  | dateTime t, b, _, _, _ => by
    cases b with
    | dateTime u =>
      rw [same, order?]
      have h := beside_moments t u
      exact ⟨h.order_of_equal, fun hsteady =>
        h.equal_of_order ⟨hsteady.1 t .self, hsteady.2 u .self⟩⟩
    | _ => exact .of_eq (by simp [same, order?])
  | list xs, b, hv, hb, _ => by
    cases b with
    | list ys =>
      rw [same, order?]
      have h := besideItems xs ys (isSequential_list_iff.mp hv) (isSequential_list_iff.mp hb)
      exact ⟨h.order_of_equal, fun hsteady =>
        h.equal_of_order ⟨fun _ => hsteady.1.of_mem_list, fun _ => hsteady.2.of_mem_list⟩⟩
    | _ => exact .of_eq (by simp [same, order?])
  | tuple xs, b, hv, hb, _ => by
    cases b with
    | tuple ys =>
      rw [same, order?]
      have h := besideItems xs ys (isSequential_tuple_iff.mp hv) (isSequential_tuple_iff.mp hb)
      exact ⟨h.order_of_equal, fun hsteady =>
        h.equal_of_order ⟨fun _ => hsteady.1.of_mem_tuple, fun _ => hsteady.2.of_mem_tuple⟩⟩
    | _ => exact .of_eq (by simp [same, order?])
  | null, _, _, _, hv => absurd rfl hv
  | dict es, _, hv, _, _ => absurd hv (not_isSequential_dict es)
  | float _, _, hv, _, _ | fraction _, _, hv, _, _ | decimal _, _, hv, _, _
  | complex _ _, _, hv, _, _ | bytes _, _, hv, _, _ | set _, _, hv, _, _ | view _, _, hv, _, _
  | type _, _, hv, _, _ | kind _, _, hv, _, _ => absurd (hv.allData _ .self) id

theorem besideItems : ∀ xs ys : List Value, (∀ x ∈ xs, IsSequential x) →
    (∀ y ∈ ys, IsSequential y) →
    Beside ((∀ x ∈ xs, IsSteady x) ∧ ∀ y ∈ ys, IsSteady y) (sameItems xs ys) (orderItems xs ys)
  | [], [], _, _ => .of_eq (by rw [sameItems, orderItems]; rfl)
  | [], y :: ys, _, _ => .of_eq (by rw [sameItems, orderItems]; rfl)
  | x :: xs, [], _, _ => .of_eq (by rw [sameItems, orderItems]; rfl)
  | x :: xs, y :: ys, hxs, hys => by
    have hx := hxs x List.mem_cons_self
    have hy := hys y List.mem_cons_self
    rw [sameItems, orderItems, areStoredNaN_of_isData (hx.allData _ .self), Bool.false_or]
    cases hsame : same x y with
    | true =>
      have h := besideItems xs ys (fun x hx => hxs x (List.mem_cons_of_mem _ hx))
        fun y hy => hys y (List.mem_cons_of_mem _ hy)
      rw [Bool.true_and, if_pos rfl]
      exact ⟨h.order_of_equal, fun hsteady => h.equal_of_order
        ⟨fun x hx => hsteady.1 x (List.mem_cons_of_mem _ hx),
          fun y hy => hsteady.2 y (List.mem_cons_of_mem _ hy)⟩⟩
    | false =>
      rw [Bool.false_and, if_neg Bool.false_ne_true]
      refine ⟨nofun, fun hsteady ho => ?_⟩
      by_cases hnull : x = null
      · rw [hnull, order?_null] at ho
        cases ho
      · have hequal := (beside x y hx hy hnull).equal_of_order
          ⟨hsteady.1 x List.mem_cons_self, hsteady.2 y List.mem_cons_self⟩ ho
        exact hsame.symm.trans hequal

end

theorem same_eq_sameNumber (v : Value) {b : Value} {n : Int} (hb : b.integer? = some n) :
    same v b = sameNumber v b := by
  cases b <;> cases hb <;> cases v <;> simp [-same_int, same, sameNumber, plane?, entries?]

mutual

/-- Equality goes both ways. -/
theorem same_comm : ∀ v b : Value, IsSequential v → IsSequential b → same v b = same b v
  | bool x, b, _, _ => by rw [same_eq_sameNumber b rfl, same, sameNumber_comm]
  | int n, b, _, _ => by rw [same_eq_sameNumber b rfl, same, sameNumber_comm]
  | str s, b, _, _ => by
    cases b with
    | str t =>
      rw [same, same]
      exact BEq.comm
    | _ => simp [same, sameNumber, plane?, entries?]
  | date d, b, _, _ => by
    cases b with
    | date e =>
      rw [same, same]
      exact BEq.comm
    | _ => simp [same, sameNumber, plane?, entries?]
  | dateTime t, b, _, _ => by
    cases b with
    | dateTime u =>
      rw [same, same]
      exact same_moments_comm t u
    | _ => simp [same, sameNumber, plane?, entries?]
  | list xs, b, hv, hb => by
    cases b with
    | list ys =>
      rw [same, same]
      exact sameItems_comm xs ys (isSequential_list_iff.mp hv) (isSequential_list_iff.mp hb)
    | _ => simp [same, sameNumber, plane?, entries?]
  | tuple xs, b, hv, hb => by
    cases b with
    | tuple ys =>
      rw [same, same]
      exact sameItems_comm xs ys (isSequential_tuple_iff.mp hv) (isSequential_tuple_iff.mp hb)
    | _ => simp [same, sameNumber, plane?, entries?]
  | null, b, _, hb => by
    cases b <;> first
      | exact absurd (hb.allData _ .self) id
      | simp [same, sameNumber, plane?, entries?]
  | dict es, _, hv, _ => absurd hv (not_isSequential_dict es)
  | float _, _, hv, _ | fraction _, _, hv, _ | decimal _, _, hv, _ | complex _ _, _, hv, _
  | bytes _, _, hv, _ | set _, _, hv, _ | view _, _, hv, _ | type _, _, hv, _
  | kind _, _, hv, _ => absurd (hv.allData _ .self) id

theorem sameItems_comm : ∀ xs ys : List Value, (∀ x ∈ xs, IsSequential x) →
    (∀ y ∈ ys, IsSequential y) → sameItems xs ys = sameItems ys xs
  | [], [], _, _ => rfl
  | [], y :: ys, _, _ => by rw [sameItems, sameItems]; rfl
  | x :: xs, [], _, _ => by rw [sameItems, sameItems]; rfl
  | x :: xs, y :: ys, hxs, hys => by
    have hx := hxs x List.mem_cons_self
    have hy := hys y List.mem_cons_self
    rw [sameItems, sameItems, areStoredNaN_of_isData (hx.allData _ .self),
      areStoredNaN_of_isData (hy.allData _ .self), same_comm x y hx hy,
      sameItems_comm xs ys (fun x hx => hxs x (List.mem_cons_of_mem _ hx))
        fun y hy => hys y (List.mem_cons_of_mem _ hy)]

end

theorem swap_standingOfInts (n m : Int) : (standingOfInts n m).swap = standingOfInts m n := by
  have h := Relation.swap_standing (Relation.isTotal_ints n m)
  rw [standingOfInts, standingOfInts, h, BEq.comm]

mutual

/-- The other way round, what is before is behind. -/
theorem order?_swap : ∀ (v b : Value), IsSequential v → IsSequential b →
    order? b v = (order? v b).map Ordering.swap
  | bool x, b, _, hb => by
    cases b <;> first
      | exact absurd (hb.allData _ .self) id
      | simp [order?, integer?, swap_standingOfInts]
  | int n, b, _, hb => by
    cases b <;> first
      | exact absurd (hb.allData _ .self) id
      | simp [order?, integer?, swap_standingOfInts]
  | str s, b, _, _ => by
    cases b with
    | str t =>
      rw [order?, order?, Option.map_some, Relation.swap_standing (Relation.isTotal_texts s t),
        BEq.comm]
    | _ => simp [order?, integer?]
  | date d, b, _, _ => by
    cases b with
    | date e =>
      rw [order?, order?, Option.map_some, Relation.swap_standing (Relation.isTotal_dates d e),
        BEq.comm]
    | _ => simp [order?, integer?]
  | dateTime t, b, _, _ => by
    cases b with
    | dateTime u =>
      rw [order?, order?, coincides_comm u t]
      cases hlt : t.lt? u with
      | none =>
        rw [lt?_eq_none_comm hlt]
        rfl
      | some below =>
        obtain ⟨above, habove, htotal⟩ := isTotal_moments hlt
        rw [habove, Option.map_some, Option.map_some, Option.map_some,
          Relation.swap_standing htotal]
    | _ => simp [order?, integer?]
  | list xs, b, hv, hb => by
    cases b with
    | list ys =>
      rw [order?, order?]
      exact orderItems_swap xs ys (isSequential_list_iff.mp hv) (isSequential_list_iff.mp hb)
    | _ => simp [order?, integer?]
  | tuple xs, b, hv, hb => by
    cases b with
    | tuple ys =>
      rw [order?, order?]
      exact orderItems_swap xs ys (isSequential_tuple_iff.mp hv) (isSequential_tuple_iff.mp hb)
    | _ => simp [order?, integer?]
  | null, b, _, _ => by cases b <;> simp [order?, integer?]
  | dict es, _, hv, _ => absurd hv (not_isSequential_dict es)
  | float _, _, hv, _ | fraction _, _, hv, _ | decimal _, _, hv, _ | complex _ _, _, hv, _
  | bytes _, _, hv, _ | set _, _, hv, _ | view _, _, hv, _ | type _, _, hv, _
  | kind _, _, hv, _ => absurd (hv.allData _ .self) id

theorem orderItems_swap : ∀ (xs ys : List Value), (∀ x ∈ xs, IsSequential x) →
    (∀ y ∈ ys, IsSequential y) → orderItems ys xs = (orderItems xs ys).map Ordering.swap
  | [], [], _, _ => by rw [orderItems]; rfl
  | [], y :: ys, _, _ => by rw [orderItems, orderItems]; rfl
  | x :: xs, [], _, _ => by rw [orderItems, orderItems]; rfl
  | x :: xs, y :: ys, hxs, hys => by
    have hx := hxs x List.mem_cons_self
    have hy := hys y List.mem_cons_self
    have hswap := order?_swap x y hx hy
    rw [orderItems, orderItems, same_comm y x hy hx]
    split
    · exact orderItems_swap xs ys (fun x hx => hxs x (List.mem_cons_of_mem _ hx))
        fun y hy => hys y (List.mem_cons_of_mem _ hy)
    · exact hswap

end

end Value
end SchemaStore
