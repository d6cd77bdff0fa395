import SchemaStore.Proofs.Json.Values
import SchemaStore.Proofs.Number.Shortest
import SchemaStore.Proofs.Time.Iso

/-!
Doubles in JSON.  A double is written with the digits of its shortest decimal, with a point among
them or behind the first, and is read as the double again.  Whatever mantissa and exponent it has,
its text is a number or one of the names, and so is read as something.
-/

namespace SchemaStore
namespace Json

open Binary64 (Scientific)

/-! ## Numbers with a point or a power of ten -/

theorem IsWhole.exists_cons {whole : List Char} (h : IsWhole whole) :
    ∃ d ds, whole = d :: ds ∧ d.isDigit = true := by
  rcases h with rfl | ⟨hdigits, hne, -⟩
  · exact ⟨'0', [], rfl, rfl⟩
  · cases whole with
    | nil => exact absurd rfl hne
    | cons d ds => exact ⟨d, ds, rfl, hdigits d List.mem_cons_self⟩

/-- A fraction behind its point. -/
def pointed (fraction : List Char) : List Char :=
  if fraction.isEmpty then [] else '.' :: fraction

theorem length_pointed (fraction : List Char) :
    (pointed fraction).length = if fraction.isEmpty then 0 else fraction.length + 1 := by
  rw [pointed]
  split <;> rfl

/-- Behind these characters neither digits nor a fraction go on. -/
def EndsFraction (rest : List Char) : Prop := ∀ c ∈ rest.head?, c.isDigit = false ∧ c ≠ '.'

theorem EndsNumber.endsFraction {rest : List Char} (h : EndsNumber rest) : EndsFraction rest :=
  fun c hc => ⟨(h c hc).1, (h c hc).2.1⟩

theorem endsDigits_pointed (fraction : List Char) {tail : List Char} (h : EndsFraction tail) :
    EndsDigits (pointed fraction ++ tail) := by
  unfold pointed
  split
  · exact fun c hc => (h c hc).1
  · intro c hc
    cases hc
    rfl

theorem fractionDigits_pointed {fraction tail : List Char}
    (hfraction : ∀ d ∈ fraction, d.isDigit = true) (htail : EndsFraction tail) :
    fractionDigits (pointed fraction ++ tail) = fraction := by
  unfold pointed
  split
  · next hempty =>
    rw [List.isEmpty_iff.mp hempty, List.nil_append]
    unfold fractionDigits
    split
    · exact absurd rfl (htail '.' (by simp)).2
    · rfl
  · exact takeWhile_isDigit_append hfraction fun c hc => (htail c hc).1

/-- A number that has a fraction or a power of ten. -/
theorem number?_decimal {whole fraction tail : List Char} (hwhole : IsWhole whole)
    (hfraction : ∀ d ∈ fraction, d.isDigit = true) (htail : EndsFraction tail) {width : ℕ}
    {exponent : ℤ} (hpower : (power? tail).getD (0, 0) = (width, exponent))
    (hreal : fraction ≠ [] ∨ power? tail ≠ none) (negative : Bool) :
    number? (signed negative (whole ++ (pointed fraction ++ tail)))
      = some (.scalar (.float (.ofDecimal negative (Nat.ofDigitChars 10 (whole ++ fraction) 0)
          (exponent - fraction.length))),
        (signed negative (whole ++ pointed fraction)).length + width) := by
  have hdigits := wholeDigits_append hwhole (endsDigits_pointed fraction htail)
  have hpoint := fractionDigits_pointed hfraction htail
  have hlength := length_pointed fraction
  have hreal' : ¬(fraction.isEmpty = true ∧ power? tail = none) := by
    rintro ⟨hempty, hnone⟩
    rcases hreal with h | h
    · exact h (List.isEmpty_iff.mp hempty)
    · exact h hnone
  have hne : whole.isEmpty = false := by
    obtain ⟨d, ds, rfl, -⟩ := hwhole.exists_cons
    rfl
  have hsplit : (whole ++ (pointed fraction ++ tail)).drop (whole.length + (pointed fraction).length)
      = tail := by
    rw [← List.append_assoc, ← List.length_append, List.drop_left]
  cases negative with
  | true =>
    have hdrop : ('-' :: (whole ++ (pointed fraction ++ tail))).drop
        (1 + whole.length + (pointed fraction).length) = tail := by
      rw [Nat.add_assoc, Nat.add_comm 1, List.drop_succ_cons, hsplit]
    simp only [signed, if_true, number?, List.head?_cons, BEq.rfl, List.drop_succ_cons,
      List.drop_zero, hdigits, hne, Bool.false_eq_true, if_false, List.drop_left, hpoint,
      ← hlength, hdrop, if_neg hreal', hpower]
    rw [List.length_cons, List.length_append]
    congr 2
    omega
  | false =>
    have hminus : ((whole ++ (pointed fraction ++ tail)).head? == some '-') = false := by
      obtain ⟨d, ds, rfl, hd⟩ := hwhole.exists_cons
      simpa using ne_of_isDigit hd rfl
    simp only [signed, Bool.false_eq_true, if_false, number?, hminus, hdigits, hne, List.drop_left,
      hpoint, ← hlength, Nat.zero_add, hsplit, if_neg hreal', hpower]
    rw [List.length_append]

/-! ## Powers of ten -/

/-- A power of ten as it is written, with two digits at least. -/
def powerText (power : ℤ) : List Char :=
  'e' :: (if power < 0 then '-' else '+') :: Text.padded 2 power.natAbs

theorem power?_powerText (power : ℤ) {rest : List Char} (hrest : EndsDigits rest) :
    power? (powerText power ++ rest) = some ((powerText power).length, power) := by
  have hdigits : (Text.padded 2 power.natAbs ++ rest).takeWhile Char.isDigit
      = Text.padded 2 power.natAbs :=
    takeWhile_isDigit_append (fun _ hd => Text.isDigit_of_mem_padded hd) hrest
  have hne : (Text.padded 2 power.natAbs).isEmpty = false := by
    rw [← Bool.not_eq_true, List.isEmpty_iff, Text.padded, List.append_eq_nil_iff]
    exact fun h => Nat.toDigits_ne_nil h.2
  have hvalue := Text.ofDigitChars_padded 2 power.natAbs
  unfold powerText
  by_cases hneg : power < 0
  · have hpower : -(power.natAbs : ℤ) = power := by omega
    simp only [if_pos hneg, List.cons_append, power?, Numeral.readSign, true_or, if_true, hdigits,
      hne, hvalue, hpower, Bool.false_eq_true, if_false, List.length_cons]
    congr 2
    omega
  · have hpower : (power.natAbs : ℤ) = power := by omega
    simp only [if_neg hneg, List.cons_append, power?, Numeral.readSign, true_or, if_true, hdigits,
      hne, hvalue, hpower, Bool.false_eq_true, if_false, List.length_cons]
    congr 2
    omega

/-! ## The digits of a decimal -/

/-- A decimal as it is written: digits before the point, digits behind it, and perhaps a power. -/
structure Written where
  whole : List Char
  fraction : List Char
  power : Option ℤ

namespace Written

variable (w : Written)

def text : List Char :=
  w.whole ++ (pointed w.fraction ++ (w.power.map powerText).getD [])

def decimal : Scientific where
  digits := Nat.ofDigitChars 10 (w.whole ++ w.fraction) 0
  exponent := w.power.getD 0 - w.fraction.length

/-- What is written is a number, and not a whole one. -/
structure IsReal : Prop where
  whole : IsWhole w.whole
  fraction : ∀ d ∈ w.fraction, d.isDigit = true
  real : w.fraction ≠ [] ∨ w.power ≠ none

end Written

theorem signed_append (negative : Bool) (cs rest : List Char) :
    signed negative cs ++ rest = signed negative (cs ++ rest) := by
  cases negative <;> rfl

theorem length_signed (negative : Bool) (cs : List Char) :
    (signed negative cs).length = cs.length + if negative then 1 else 0 := by
  cases negative <;> rfl

theorem Written.number?_text {w : Written} (h : w.IsReal) (negative : Bool) {rest : List Char}
    (hrest : EndsNumber rest) :
    number? (signed negative w.text ++ rest)
      = some (.scalar (.float (.ofDecimal negative w.decimal.digits w.decimal.exponent)),
        (signed negative w.text).length) := by
  obtain ⟨whole, fraction, power⟩ := w
  obtain ⟨hwhole, hfraction, hreal⟩ := h
  simp only [text, decimal] at *
  rw [signed_append, List.append_assoc, List.append_assoc]
  cases power with
  | none =>
    have hpower : power? rest = none := power?_of_endsNumber hrest
    have hread := number?_decimal hwhole hfraction hrest.endsFraction
      (congrArg (fun found => Option.getD found (0, 0)) hpower)
      (.inl (hreal.resolve_right (· rfl))) negative
    rw [Option.map_none, Option.getD_none, List.nil_append, List.append_nil, hread]
    rfl
  | some power =>
    have hpower := power?_powerText power hrest.endsDigits
    have htail : EndsFraction (powerText power ++ rest) := by
      intro c hc
      cases hc
      decide
    have hread := number?_decimal hwhole hfraction htail
      (congrArg (fun found => Option.getD found (0, 0)) hpower)
      (.inr (by rw [hpower]; exact Option.some_ne_none _)) negative
    rw [Option.map_some, Option.getD_some, hread]
    simp only [length_signed, List.length_append]
    congr 2
    omega

theorem Written.exists_text {w : Written} (h : w.IsReal) :
    ∃ d cs, w.text = d :: cs ∧ d.isDigit = true := by
  obtain ⟨d, ds, hwhole, hd⟩ := h.whole.exists_cons
  refine ⟨d, ds ++ (pointed w.fraction ++ (w.power.map powerText).getD []), ?_, hd⟩
  rw [text, hwhole]
  rfl

/-- A character of a number is a digit, a point, or belongs to a power of ten. -/
theorem Written.mem_text {w : Written} (h : w.IsReal) {c : Char} (hc : c ∈ w.text) :
    c.isDigit = true ∨ c ∈ ['.', 'e', '-', '+'] := by
  rw [text, List.mem_append, List.mem_append] at hc
  rcases hc with hc | hc | hc
  · rcases h.whole with hzero | ⟨hdigits, -⟩
    · rw [hzero, List.mem_singleton] at hc
      exact .inl (by rw [hc]; rfl)
    · exact .inl (hdigits c hc)
  · rw [pointed] at hc
    split at hc
    · cases hc
    · rcases List.mem_cons.mp hc with rfl | hc
      · exact .inr (by simp)
      · exact .inl (h.fraction c hc)
  · cases hpower : w.power with
    | none =>
      rw [hpower] at hc
      cases hc
    | some power =>
      rw [hpower] at hc
      rcases List.mem_cons.mp hc with rfl | hc
      · exact .inr (by simp)
      · rcases List.mem_cons.mp hc with rfl | hc
        · exact .inr (by split <;> simp)
        · exact .inl (Text.isDigit_of_mem_padded hc)

/-- What is written denotes the double nearest to it. -/
theorem denotes_written {ε : Type} (revive : Entries → Except ε Value) {w : Written}
    (h : w.IsReal) (negative : Bool) :
    Denotes revive (signed negative w.text)
      (.float (.ofDecimal negative w.decimal.digits w.decimal.exponent)) := by
  obtain ⟨d, cs, htext, hd⟩ := Written.exists_text h
  have hnumber := fun rest hrest => @Written.number?_text w h negative rest hrest
  rw [htext] at hnumber ⊢
  exact ⟨reads_number revive hd hnumber, startsValue_signed negative hd cs⟩

/-! ## Layouts -/

theorem isDigit_zeros (n : ℕ) : ∀ d ∈ List.replicate n '0', d.isDigit = true := by
  intro d hd
  rw [List.eq_of_mem_replicate hd]
  rfl

theorem isDigit_append {cs ds : List Char} (hcs : ∀ d ∈ cs, d.isDigit = true)
    (hds : ∀ d ∈ ds, d.isDigit = true) : ∀ d ∈ cs ++ ds, d.isDigit = true := by
  intro d hd
  rcases List.mem_append.mp hd with hd | hd
  · exact hcs d hd
  · exact hds d hd

theorem IsWhole.take {ds : List Char} (h : IsWhole ds) {n : ℕ} (hn : 0 < n) :
    IsWhole (ds.take n) := by
  rcases h with rfl | ⟨hdigits, hne, hhead⟩
  · exact .inl (List.take_of_length_le hn)
  · refine .inr ⟨fun d hd => hdigits d (List.mem_of_mem_take hd), ?_, ?_⟩
    · rw [ne_eq, List.take_eq_nil_iff]
      exact fun h => h.elim hn.ne' hne
    · rwa [List.head?_take, if_neg hn.ne']

theorem pointed_of_ne_nil {fraction : List Char} (h : fraction ≠ []) :
    pointed fraction = '.' :: fraction := by
  cases fraction with
  | nil => exact absurd rfl h
  | cons d ds => rfl

/-- Zeros at the end of the digits do not matter if the exponent makes up for them. -/
theorem Written.value_decimal {w : Written} {x : Scientific} (zeros : ℕ)
    (hdigits : Nat.ofDigitChars 10 (w.whole ++ w.fraction) 0 = 10 ^ zeros * x.digits)
    (hexponent : w.power.getD 0 - w.fraction.length + zeros = x.exponent) :
    w.decimal.value = x.value := by
  have hten : (10 : ℚ) ≠ 0 := by norm_num
  rw [Scientific.value, Scientific.value, Written.decimal, hdigits, ← hexponent, zpow_add₀ hten,
    zpow_natCast]
  push_cast
  ring

section

variable {x : Scientific}

/-- A number below one, with a zero before the point. -/
theorem exists_written_below
    (hpoint : (Nat.toDigits 10 x.digits).length + x.exponent ≤ 0) :
    ∃ w : Written, w.IsReal ∧ w.text = '0' :: '.' ::
        (List.replicate (-((Nat.toDigits 10 x.digits).length + x.exponent)).toNat '0'
          ++ Nat.toDigits 10 x.digits) ∧
      w.decimal.value = x.value := by
  generalize hzeros : (-((Nat.toDigits 10 x.digits).length + x.exponent)).toNat = zeros
  have hne : List.replicate zeros '0' ++ Nat.toDigits 10 x.digits ≠ [] :=
    fun h => Nat.toDigits_ne_nil (List.append_eq_nil_iff.mp h).2
  refine ⟨{ whole := ['0'], fraction := List.replicate zeros '0' ++ Nat.toDigits 10 x.digits,
            power := none }, ⟨.inl rfl, ?_, .inl hne⟩, ?_, Written.value_decimal 0 ?_ ?_⟩
  · exact isDigit_append (isDigit_zeros _) (isDigit_toDigits _)
  · rw [Written.text, pointed_of_ne_nil hne]
    simp
  · simp [Nat.ofDigitChars_append, Nat.ofDigitChars_cons]
  · show 0 - ((List.replicate zeros '0' ++ Nat.toDigits 10 x.digits).length : ℤ) + (0 : ℕ)
      = x.exponent
    rw [List.length_append, List.length_replicate]
    omega

/-- A whole number, with zeros up to the point and one behind it. -/
theorem exists_written_above (hzero : x.digits = 0 → x.exponent = 0) (hexponent : 0 ≤ x.exponent) :
    ∃ w : Written, w.IsReal ∧ w.text = Nat.toDigits 10 x.digits
        ++ List.replicate x.exponent.toNat '0' ++ ['.', '0'] ∧
      w.decimal.value = x.value := by
  refine ⟨{ whole := Nat.toDigits 10 x.digits ++ List.replicate x.exponent.toNat '0',
            fraction := ['0'], power := none }, ⟨?_, ?_, .inl (List.cons_ne_nil _ _)⟩, ?_,
    Written.value_decimal (x.exponent.toNat + 1) ?_ ?_⟩
  · rcases Nat.eq_zero_or_pos x.digits with hx | hx
    · rw [hzero hx, hx]
      exact .inl rfl
    · refine .inr ⟨isDigit_append (isDigit_toDigits _) (isDigit_zeros _), ?_, ?_⟩
      · exact fun h => Nat.toDigits_ne_nil (List.append_eq_nil_iff.mp h).1
      · rw [List.head?_append_of_ne_nil _ Nat.toDigits_ne_nil]
        exact head?_toDigits_ne_zero _ hx
  · exact isDigit_zeros 1
  · simp [Written.text, pointed]
  · simp [Nat.ofDigitChars_append, Nat.ofDigitChars_cons]
    ring
  · show (0 : ℤ) - (1 : ℕ) + (x.exponent.toNat + 1 : ℕ) = x.exponent
    omega

/-- A number with the point among its digits. -/
theorem exists_written_among (hlow : 0 < (Nat.toDigits 10 x.digits).length + x.exponent)
    (hhigh : x.exponent < 0) :
    ∃ w : Written, w.IsReal ∧
      w.text = (Nat.toDigits 10 x.digits).take
          ((Nat.toDigits 10 x.digits).length + x.exponent).toNat
        ++ '.' :: (Nat.toDigits 10 x.digits).drop
          ((Nat.toDigits 10 x.digits).length + x.exponent).toNat ∧
      w.decimal.value = x.value := by
  generalize hpoint : ((Nat.toDigits 10 x.digits).length + x.exponent).toNat = point
  have hne : (Nat.toDigits 10 x.digits).drop point ≠ [] := by
    rw [ne_eq, List.drop_eq_nil_iff]
    omega
  refine ⟨{ whole := (Nat.toDigits 10 x.digits).take point,
            fraction := (Nat.toDigits 10 x.digits).drop point, power := none },
    ⟨?_, ?_, .inl hne⟩, ?_, Written.value_decimal 0 ?_ ?_⟩
  · exact (isWhole_toDigits _).take (by omega)
  · exact fun d hd => isDigit_toDigits _ d (List.mem_of_mem_drop hd)
  · rw [Written.text, pointed_of_ne_nil hne]
    simp
  · simp
  · show (0 : ℤ) - ((Nat.toDigits 10 x.digits).drop point).length + (0 : ℕ) = x.exponent
    rw [List.length_drop]
    omega

/-- A number with a power of ten, and the point behind the first digit. -/
theorem exists_written_power {d : Char} {ds : List Char}
    (hdigits : Nat.toDigits 10 x.digits = d :: ds) :
    ∃ w : Written, w.IsReal ∧ w.text = d :: (pointed ds ++ powerText (ds.length + x.exponent)) ∧
      w.decimal.value = x.value := by
  have hwhole : IsWhole [d] := by
    have htake := (isWhole_toDigits x.digits).take one_pos
    rwa [hdigits] at htake
  refine ⟨{ whole := [d], fraction := ds, power := some (ds.length + x.exponent) },
    ⟨hwhole, ?_, .inr (Option.some_ne_none _)⟩, rfl, Written.value_decimal 0 ?_ ?_⟩
  · exact fun c hc => isDigit_toDigits x.digits c (hdigits ▸ List.mem_cons_of_mem d hc)
  · show Nat.ofDigitChars 10 (d :: ds) 0 = 10 ^ 0 * x.digits
    rw [← hdigits, Nat.ofDigitChars_ten_toDigits, pow_zero, one_mul]
  · show (ds.length : ℤ) + x.exponent - ds.length + (0 : ℕ) = x.exponent
    omega

/-- The layout writes a decimal as a number that denotes it. -/
theorem exists_written (x : Scientific) (hzero : x.digits = 0 → x.exponent = 0) :
    ∃ w : Written, w.IsReal ∧ w.text = numberLayout.decimal x ∧ w.decimal.value = x.value := by
  have hpoint : (if x.digits = 0 then 1 else (Nat.toDigits 10 x.digits).length + x.exponent : ℤ)
      = (Nat.toDigits 10 x.digits).length + x.exponent := by
    split
    · next hx =>
      rw [hzero hx, hx]
      rfl
    · rfl
  have hlength : 0 < (Nat.toDigits 10 x.digits).length := Nat.length_toDigits_pos
  simp only [Binary64.Layout.decimal, hpoint]
  split
  · split
    · next hbelow => exact exists_written_below hbelow
    · next hbelow =>
      split
      · next habove =>
        obtain ⟨w, hw, htext, hvalue⟩ := exists_written_above hzero (by omega)
        refine ⟨w, hw, htext.trans ?_, hvalue⟩
        have hzeros : ((Nat.toDigits 10 x.digits).length + x.exponent).toNat
            - (Nat.toDigits 10 x.digits).length = x.exponent.toNat := by omega
        rw [hzeros]
        rfl
      · next habove =>
        exact exists_written_among (by omega) (by omega)
  · obtain ⟨d, ds, hdigits, -⟩ := toDigits_eq_cons x.digits
    obtain ⟨w, hw, htext, hvalue⟩ := exists_written_power hdigits
    refine ⟨w, hw, htext.trans ?_, hvalue⟩
    have hpower : ((Nat.toDigits 10 x.digits).length : ℤ) + x.exponent - 1
        = ds.length + x.exponent := by
      rw [hdigits, List.length_cons]
      omega
    rw [hpower, hdigits]
    cases ds <;> rfl

end

/-! ## Doubles -/

section

variable {ε : Type} (revive : Entries → Except ε Value)

theorem denotes_decimal (negative : Bool) (x : Scientific) (hzero : x.digits = 0 → x.exponent = 0)
    {y : Binary64}
    (hread : ∀ z : Scientific, z.value = x.value →
      Binary64.ofDecimal negative z.digits z.exponent = y) :
    Denotes revive (signed negative (numberLayout.decimal x)) (.float y) := by
  obtain ⟨w, hw, htext, hvalue⟩ := exists_written x hzero
  rw [← htext, ← hread w.decimal hvalue]
  exact denotes_written revive hw negative

/-- The text of a double denotes the double. -/
theorem denotes_float {x : Binary64} (h : x.IsNumber) :
    Denotes revive (x.text numberLayout) (.float x) := by
  cases x with
  | nan stored => exact absurd h id
  | infinite negative =>
    cases negative with
    | true =>
      have hname : ("-Infinity".toList, Value.float (.infinite true)) ∈ names := by simp [names]
      exact ⟨reads_name revive hname, startsValue_name hname⟩
    | false =>
      have hname : ("Infinity".toList, Value.float (.infinite false)) ∈ names := by simp [names]
      exact ⟨reads_name revive hname, startsValue_name hname⟩
  | finite negative m e =>
    have hform : Binary64.IsForm m e := h
    show Denotes revive (signed negative (numberLayout.decimal
      (if m = 0 then { digits := 0, exponent := 0 } else Binary64.shortest m e))) _
    rcases Nat.eq_zero_or_pos m with rfl | hm
    · have he : e = -1074 := hform.normal.resolve_left (by decide)
      rw [if_pos rfl, he]
      apply denotes_decimal revive negative _ fun _ => rfl
      intro z hz
      apply Binary64.ofDecimal_zero
      rw [hz, Scientific.value, Nat.cast_zero, zero_mul]
    · rw [if_neg hm.ne']
      apply denotes_decimal revive negative
      · exact fun hzero => absurd hzero (Binary64.digits_shortest_ne_zero hform hm)
      · exact fun z hz => Binary64.ofDecimal_shortest hform hm hz negative

end

/-! ## Doubles of every form -/

/-- Every decimal is written as a number; without digits there is no exponent to be seen. -/
theorem exists_isReal (x : Scientific) :
    ∃ w : Written, w.IsReal ∧ w.text = numberLayout.decimal x := by
  rcases Nat.eq_zero_or_pos x.digits with hx | hx
  · obtain ⟨w, hw, htext, -⟩ := exists_written { digits := 0, exponent := 0 } fun _ => rfl
    refine ⟨w, hw, htext.trans ?_⟩
    simp [Binary64.Layout.decimal, hx]
  · obtain ⟨w, hw, htext, -⟩ := exists_written x fun h => absurd h hx.ne'
    exact ⟨w, hw, htext⟩

/-- A double is written by a name or as a number, whatever its mantissa and exponent are. -/
theorem text_float (x : Binary64) :
    (∃ v, (x.text numberLayout, v) ∈ names) ∨
      ∃ negative w, Written.IsReal w ∧ x.text numberLayout = signed negative w.text := by
  cases x with
  | nan stored => exact .inl ⟨.float (.nan true), by simp [names, Binary64.text, numberLayout]⟩
  | infinite negative =>
    refine .inl ⟨.float (.infinite negative), ?_⟩
    cases negative <;> simp [names, Binary64.text, numberLayout]
  | finite negative m e =>
    obtain ⟨w, hw, htext⟩ :=
      exists_isReal (if m = 0 then { digits := 0, exponent := 0 } else Binary64.shortest m e)
    refine .inr ⟨negative, w, hw, ?_⟩
    rw [htext]
    rfl

theorem exists_denotes_float {ε : Type} (revive : Entries → Except ε Value) (x : Binary64) :
    ∃ v, Denotes revive (x.text numberLayout) v := by
  rcases text_float x with ⟨v, hname⟩ | ⟨negative, w, hw, htext⟩
  · exact ⟨v, reads_name revive hname, startsValue_name hname⟩
  · rw [htext]
    exact ⟨_, denotes_written revive hw negative⟩

/-- The text of a double starts with a digit, a sign or the letter of a name. -/
theorem head_text_float {x : Binary64} {c : Char} (h : (x.text numberLayout).head? = some c) :
    c.isDigit = true ∨ c ∈ ['-', 'n', 't', 'f', 'N', 'I'] := by
  rcases text_float x with ⟨v, hname⟩ | ⟨negative, w, hw, htext⟩
  · have hletters : ∀ p ∈ names, ∀ d ∈ p.1.head?, d ∈ ['-', 'n', 't', 'f', 'N', 'I'] := by
      simp [names]
    exact .inr (hletters _ hname c h)
  · obtain ⟨d, cs, hdigits, hd⟩ := Written.exists_text hw
    rw [htext, hdigits] at h
    cases negative with
    | true => exact .inr (by rw [← Option.some.inj h]; simp)
    | false => exact .inl (by rw [← Option.some.inj h]; exact hd)

/-- A double as a key is a string, none of whose characters needs an escape. -/
theorem quote_float (x : Binary64) :
    quote (String.ofList (x.text numberLayout)) = '"' :: (x.text numberLayout ++ ['"']) := by
  apply quote_of_plain
  intro c hc
  rcases text_float x with ⟨v, hname⟩ | ⟨negative, w, hw, htext⟩
  · have hplain : ∀ p ∈ names, ∀ c ∈ p.1, Text.isVisible c = true ∧ c ≠ '"' ∧ c ≠ '\\' := by
      simp [names, Text.isVisible]
    exact hplain _ hname c hc
  · have hmark : ∀ c ∈ ['.', 'e', '-', '+'], Text.isVisible c = true ∧ c ≠ '"' ∧ c ≠ '\\' := by
      simp [Text.isVisible]
    rw [htext, signed] at hc
    have hcases : c = '-' ∨ c ∈ w.text := by
      split at hc
      · exact List.mem_cons.mp hc
      · exact .inr hc
    rcases hcases with rfl | hc
    · exact hmark '-' (by simp)
    · rcases w.mem_text hw hc with hdigit | hother
      · exact ⟨Text.isVisible_of_isDigit hdigit, ne_of_isDigit hdigit rfl, ne_of_isDigit hdigit rfl⟩
      · exact hmark c hother

end Json
end SchemaStore
