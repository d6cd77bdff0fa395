import SchemaStore.Proofs.Sequencing
import SchemaStore.Stored

/-!
What can be shown.  Only a whole number that is too long to be written out keeps a value from being
shown, at whatever depth of it the number stands.  JSON has the same limit for whole numbers.  So
what has been written as JSON can be shown, as long as the form that stands in for foreign values
keeps to the limit too.
-/

namespace SchemaStore

theorem Json.isWithinLimit_iff {n : Int} :
    isWithinLimit n = true ↔ n.natAbs < Power.ten digitLimit := by
  rw [isWithinLimit, decide_eq_true_iff]
  exact Power.length_toDigits_le_iff (by decide)

theorem Json.isWithinLimit_ten {n : Nat} (h : digitLimit ≤ n) :
    isWithinLimit (Power.ten n) = false := by
  rw [← Bool.not_eq_true, isWithinLimit_iff, Int.natAbs_natCast, Nat.not_lt]
  exact Power.ten_le_ten h

namespace Value

theorem areShowableEntries_iff {es : Entries} :
    areShowableEntries es = true ↔ ∀ e ∈ es, e.1.isShowable = true ∧ e.2.isShowable = true := by
  induction es with
  | nil => exact iff_of_true rfl (List.forall_mem_nil _)
  | cons e es ih =>
    rw [areShowableEntries, Bool.and_eq_true, Bool.and_eq_true, ih, List.forall_mem_cons]

theorem isShowable_dict_iff {es : Entries} :
    (dict es).isShowable = true ↔ ∀ e ∈ es, e.1.isShowable = true ∧ e.2.isShowable = true := by
  rw [isShowable, areShowableEntries_iff]

theorem shown?_eq_none_iff {v : Value} : v.shown? = none ↔ v.isShowable = false := by
  rw [shown?]
  split <;> simp [*]

theorem shown?_eq_some_iff {v : Value} {s : String} :
    v.shown? = some s ↔ v.isShowable = true ∧ v.display = s := by
  rw [shown?]
  split <;> simp [*]

/-- A fraction that cannot be shown: its numerator is the least number with too many digits. -/
def unshowable : Value := fraction (.ofInt (Power.ten Json.digitLimit))

theorem isShowable_unshowable : unshowable.isShowable = false := by
  show (Json.isWithinLimit (Power.ten Json.digitLimit) && Json.isWithinLimit 1) = false
  rw [Json.isWithinLimit_ten (Nat.le_refl _), Bool.false_and]

end Value

namespace Json

theorem isWithinLimit_of_wholeNumber {n : Int} {text : List Char} (h : wholeNumber n = .ok text) :
    isWithinLimit n = true := by
  rw [wholeNumber] at h
  split at h
  · cases h
  · next hle => exact decide_eq_true (Nat.le_of_not_lt hle)

theorem isShowable_of_key {k : Value} {text : List Char} (h : key k = .ok text) :
    k.isShowable = true := by
  cases k with
  | int n =>
    obtain ⟨digits, hdigits, -⟩ := Except.bind_eq_ok.mp h
    exact isWithinLimit_of_wholeNumber hdigits
  | null | bool _ | float _ | str _ => rfl
  | _ => cases h

/-- Whatever the form for foreign values is found for can be shown. -/
def IsLimited (foreign : Value → Except WriteFault (List Char)) : Prop :=
  ∀ (v : Value) (text : List Char), foreign v = .ok text → v.isShowable = true

variable {foreign : Value → Except WriteFault (List Char)}

mutual

/-- What has been written can be shown. -/
theorem isShowable_of_write (hforeign : IsLimited foreign) :
    ∀ {indent : Option Nat} (v : Value) {text : List Char},
      write foreign indent v = .ok text → v.isShowable = true
  | _, .int _, _, h => isWithinLimit_of_wholeNumber h
  | _, .list xs, _, h => by
    rw [write, Except.bind_eq_ok] at h
    obtain ⟨_, hparts, -⟩ := h
    exact areShowable_of_writeItems hforeign xs hparts
  | _, .tuple xs, _, h => by
    rw [write, Except.bind_eq_ok] at h
    obtain ⟨_, hparts, -⟩ := h
    exact areShowable_of_writeItems hforeign xs hparts
  | _, .dict es, _, h => by
    rw [write, Except.bind_eq_ok] at h
    obtain ⟨_, hparts, -⟩ := h
    exact areShowableEntries_of_writeEntries hforeign es hparts
  | _, .null, _, _ | _, .bool _, _, _ | _, .float _, _, _ | _, .str _, _, _ => rfl
  | _, .fraction _, _, h | _, .decimal _, _, h | _, .complex _ _, _, h | _, .bytes _, _, h
  | _, .date _, _, h | _, .dateTime _, _, h | _, .set _, _, h | _, .view _, _, h
  | _, .type _, _, h | _, .kind _, _, h => hforeign _ _ h

theorem areShowable_of_writeItems (hforeign : IsLimited foreign) :
    ∀ {indent : Option Nat} (xs : List Value) {parts : List (List Char)},
      writeItems foreign indent xs = .ok parts → Value.areShowable xs = true
  | _, [], _, _ => rfl
  | _, x :: xs, _, h => by
    simp only [writeItems, Except.bind_eq_ok] at h
    obtain ⟨_, hpart, _, hparts, -⟩ := h
    rw [Value.areShowable, isShowable_of_write hforeign x hpart,
      areShowable_of_writeItems hforeign xs hparts, Bool.and_self]

theorem areShowableEntries_of_writeEntries (hforeign : IsLimited foreign) :
    ∀ {indent : Option Nat} (es : List (Value × Value)) {parts : List (List Char)},
      writeEntries foreign indent es = .ok parts → Value.areShowableEntries es = true
  | _, [], _, _ => rfl
  | _, (k, v) :: es, _, h => by
    simp only [writeEntries, Except.bind_eq_ok] at h
    obtain ⟨_, hname, _, hpart, _, hparts, -⟩ := h
    rw [Value.areShowableEntries, isShowable_of_key hname, isShowable_of_write hforeign v hpart,
      areShowableEntries_of_writeEntries hforeign es hparts, Bool.and_self, Bool.and_self]

end

end Json

namespace Stored

/-- Of foreign values only dates and moments are stored. -/
theorem isLimited_foreign : Json.IsLimited foreign := by
  intro v text h
  cases v with
  | date _ | dateTime _ => rfl
  | _ => cases h

theorem isShowable_of_encode {v : Value} {text : String} (h : encode v = .ok text) :
    v.isShowable = true := by
  cases hwrite : Json.write foreign none v with
  | error fault =>
    rw [encode, hwrite] at h
    cases h
  | ok text => exact Json.isShowable_of_write isLimited_foreign v hwrite

end Stored

end SchemaStore
