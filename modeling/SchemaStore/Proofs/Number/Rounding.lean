import Mathlib
import SchemaStore.Number.Shortest

/-!
Rounding to doubles.  A ratio that lies in the rounding interval of a double is rounded to that
double, however the ratio is written.
-/

namespace SchemaStore

/-! ## Powers as rational numbers -/

namespace Power

theorem cast_two (k : ℕ) : (two k : ℚ) = 2 ^ k := by
  rw [two, Nat.pow_eq, Nat.cast_pow]
  rfl

theorem cast_ten (k : ℕ) : (ten k : ℚ) = 10 ^ k := by
  rw [ten, Nat.pow_eq, Nat.cast_pow]
  rfl

/-- A power with an integer exponent is a whole power over a whole power. -/
theorem zpow_eq_div {b : ℚ} (hb : b ≠ 0) (k : ℤ) : b ^ k = b ^ k.toNat / b ^ (-k).toNat := by
  rw [← zpow_natCast, ← zpow_natCast, ← zpow_sub₀ hb]
  congr 1
  omega

theorem zpow_two (k : ℤ) : (2 : ℚ) ^ k = two k.toNat / two (-k).toNat := by
  rw [cast_two, cast_two, zpow_eq_div two_ne_zero]

theorem zpow_ten (k : ℤ) : (10 : ℚ) ^ k = ten k.toNat / ten (-k).toNat := by
  rw [cast_ten, cast_ten, zpow_eq_div (by norm_num)]

end Power

namespace Binary64

/-! ## Halves -/

section

variable (a m : ℕ) {b : ℕ} (hb : 0 < b)
include hb

theorem sub_half_iff :
    ((m : ℚ) - 1 / 2 ≤ a / b ↔ 2 * (b * m) ≤ 2 * a + b) ∧
      ((m : ℚ) - 1 / 2 < a / b ↔ 2 * (b * m) < 2 * a + b) := by
  have hbq : (0 : ℚ) < b := Nat.cast_pos.mpr hb
  rw [le_div_iff₀ hbq, lt_div_iff₀ hbq, ← @Nat.cast_le ℚ, ← @Nat.cast_lt ℚ]
  push_cast
  constructor <;> constructor <;> intro h <;> linarith

theorem add_half_iff :
    ((a : ℚ) / b ≤ m + 1 / 2 ↔ 2 * a ≤ 2 * (b * m) + b) ∧
      ((a : ℚ) / b < m + 1 / 2 ↔ 2 * a < 2 * (b * m) + b) := by
  have hbq : (0 : ℚ) < b := Nat.cast_pos.mpr hb
  rw [div_le_iff₀ hbq, div_lt_iff₀ hbq, ← @Nat.cast_le ℚ, ← @Nat.cast_lt ℚ]
  push_cast
  constructor <;> constructor <;> intro h <;> linarith

end

/-- A ratio at most a half away from a whole number is rounded to it, unless both neighbours are as
near and it is odd. -/
theorem roundHalfEven_eq {a b m : ℕ} (hb : 0 < b) (hlow : (m : ℚ) - 1 / 2 ≤ a / b)
    (hhigh : (a : ℚ) / b ≤ m + 1 / 2)
    (hodd : m % 2 = 1 → (m : ℚ) - 1 / 2 < a / b ∧ (a : ℚ) / b < m + 1 / 2) :
    roundHalfEven a b = m := by
  rw [(sub_half_iff a m hb).1] at hlow
  rw [(add_half_iff a m hb).1] at hhigh
  rw [(sub_half_iff a m hb).2, (add_half_iff a m hb).2] at hodd
  have hdiv := Nat.div_add_mod a b
  have hmod := Nat.mod_lt a hb
  unfold roundHalfEven
  generalize a / b = q at *
  generalize a % b = r at *
  -- The whole number is the quotient or the next one.
  have hcases : m = q ∨ m = q + 1 := by
    rcases Nat.lt_trichotomy m q with h | h | h
    · have hmul := Nat.mul_le_mul_left b h
      rw [Nat.mul_succ] at hmul
      omega
    · exact .inl h
    · have hmul := Nat.mul_le_mul_left b h
      rw [Nat.mul_succ] at hmul
      by_cases hnext : m = q + 1
      · exact .inr hnext
      · have hmul' := Nat.mul_le_mul_left b (show q + 2 ≤ m by omega)
        rw [Nat.mul_add] at hmul'
        omega
  rcases hcases with rfl | rfl
  · rw [if_neg]
    simp only [Bool.or_eq_true, Bool.and_eq_true, decide_eq_true_eq, beq_iff_eq]
    omega
  · rw [Nat.mul_add] at hlow hhigh hodd
    rw [if_pos]
    simp only [Bool.or_eq_true, Bool.and_eq_true, decide_eq_true_eq, beq_iff_eq]
    omega

/-! ## Binades -/

theorem unscale_pos {n d : ℕ} (hd : 0 < d) (e : ℤ) : 0 < (unscale n d e).2 := by
  unfold unscale
  split
  · exact Nat.mul_pos hd (Power.two_pos _)
  · exact hd

theorem unscale_div (n d : ℕ) (e : ℤ) :
    ((unscale n d e).1 : ℚ) / (unscale n d e).2 = n / d / 2 ^ e := by
  rw [Power.zpow_two]
  unfold unscale
  split
  · next he =>
    have hzero : (-e).toNat = 0 := by omega
    rw [hzero, show Power.two 0 = 1 from rfl, Nat.cast_one, div_one, Nat.cast_mul, div_div]
  · next he =>
    have hzero : e.toNat = 0 := by omega
    rw [hzero, show Power.two 0 = 1 from rfl, Nat.cast_one, one_div, div_inv_eq_mul, Nat.cast_mul,
      mul_div_right_comm]

/-- The exponent for which a ratio has a whole part of 53 bits. -/
def normalExponent (n d : ℕ) : ℤ :=
  let guess : ℤ := (Nat.log2 n : ℤ) - (Nat.log2 d : ℤ) - 52
  let start := unscale n d guess
  if start.1 / start.2 < Power.two 52 then guess - 1 else guess

theorem ofRatio_eq {n : ℕ} (hn : n ≠ 0) (negative : Bool) (d : ℕ) :
    ofRatio negative n d =
      let e := max (normalExponent n d) (-1074)
      let parts := unscale n d e
      let m := roundHalfEven parts.1 parts.2
      let result := if m = Power.two 53 then (Power.two 52, e + 1) else (m, e)
      if 971 < result.2 then infinite negative else finite negative result.1 result.2 := by
  rw [ofRatio, if_neg hn]
  rfl

/-- The sizes in bits give the binade but for one place. -/
theorem log2_bounds {n d : ℕ} (hn : 0 < n) (hd : 0 < d) :
    (2 : ℚ) ^ 51 * 2 ^ ((Nat.log2 n : ℤ) - Nat.log2 d - 52) < n / d ∧
      (n / d : ℚ) < 2 ^ 53 * 2 ^ ((Nat.log2 n : ℤ) - Nat.log2 d - 52) := by
  have hdq : (0 : ℚ) < d := Nat.cast_pos.mpr hd
  have hnlow : (2 : ℚ) ^ Nat.log2 n ≤ n := by exact_mod_cast Nat.log2_self_le hn.ne'
  have hnhigh : (n : ℚ) < 2 ^ Nat.log2 n * 2 := by
    rw [← pow_succ]
    exact_mod_cast Nat.lt_log2_self
  have hdlow : (2 : ℚ) ^ Nat.log2 d ≤ d := by exact_mod_cast Nat.log2_self_le hd.ne'
  have hdhigh : (d : ℚ) < 2 ^ Nat.log2 d * 2 := by
    rw [← pow_succ]
    exact_mod_cast Nat.lt_log2_self
  have hunit : (2 : ℚ) ^ ((Nat.log2 n : ℤ) - Nat.log2 d - 52)
      = 2 ^ Nat.log2 n / (2 ^ Nat.log2 d * 2 ^ 52) := by
    rw [zpow_sub₀ two_ne_zero, zpow_sub₀ two_ne_zero, zpow_natCast, zpow_natCast, div_div]
    norm_num
  have hpos : (0 : ℚ) < 2 ^ Nat.log2 d := by positivity
  have hpos' : (0 : ℚ) < 2 ^ Nat.log2 n := by positivity
  rw [hunit]
  generalize (2 : ℚ) ^ Nat.log2 n = a at *
  generalize (2 : ℚ) ^ Nat.log2 d = b at *
  constructor
  · rw [lt_div_iff₀ hdq, mul_div_assoc', div_mul_eq_mul_div, div_lt_iff₀ (by positivity)]
    nlinarith
  · rw [div_lt_iff₀ hdq, mul_div_assoc', div_mul_eq_mul_div, lt_div_iff₀ (by positivity)]
    nlinarith

theorem normalExponent_spec {n d : ℕ} (hn : 0 < n) (hd : 0 < d) :
    2 ^ 52 * 2 ^ normalExponent n d ≤ (n / d : ℚ) ∧
      (n / d : ℚ) < 2 ^ 53 * 2 ^ normalExponent n d := by
  obtain ⟨hlow, hhigh⟩ := log2_bounds hn hd
  have hpos := unscale_pos (n := n) hd ((Nat.log2 n : ℤ) - Nat.log2 d - 52)
  have hdiv := unscale_div n d ((Nat.log2 n : ℤ) - Nat.log2 d - 52)
  unfold normalExponent
  generalize (Nat.log2 n : ℤ) - Nat.log2 d - 52 = guess at *
  have hunit : (0 : ℚ) < 2 ^ guess := by positivity
  -- To compare whole parts with a whole number is to compare the ratio with it.
  have hfloor : (unscale n d guess).1 / (unscale n d guess).2 < Power.two 52 ↔
      (n / d : ℚ) < 2 ^ 52 * 2 ^ guess := by
    rw [Nat.div_lt_iff_lt_mul hpos, ← div_lt_iff₀ hunit, ← hdiv, div_lt_iff₀ (by exact_mod_cast hpos),
      ← Power.cast_two]
    exact_mod_cast Iff.rfl
  show 2 ^ 52 * 2 ^ (if _ then guess - 1 else guess) ≤ (n / d : ℚ) ∧
    (n / d : ℚ) < 2 ^ 53 * 2 ^ (if _ then guess - 1 else guess)
  split
  · next h =>
    rw [hfloor] at h
    rw [zpow_sub_one₀ two_ne_zero]
    constructor <;> linarith
  · next h =>
    rw [hfloor, not_lt] at h
    exact ⟨h, hhigh⟩

theorem normalExponent_eq {n d : ℕ} (hn : 0 < n) (hd : 0 < d) {e : ℤ}
    (hlow : 2 ^ 52 * 2 ^ e ≤ (n / d : ℚ)) (hhigh : (n / d : ℚ) < 2 ^ 53 * 2 ^ e) :
    normalExponent n d = e := by
  obtain ⟨hlow', hhigh'⟩ := normalExponent_spec hn hd
  have hle : (2 : ℚ) ^ e < 2 ^ (normalExponent n d + 1) := by
    rw [zpow_add_one₀ two_ne_zero]
    linarith
  have hge : (2 : ℚ) ^ normalExponent n d < 2 ^ (e + 1) := by
    rw [zpow_add_one₀ two_ne_zero]
    linarith
  rw [zpow_lt_zpow_iff_right₀ one_lt_two] at hle hge
  omega

theorem normalExponent_lt {n d : ℕ} (hn : 0 < n) (hd : 0 < d) {e : ℤ}
    (h : (n / d : ℚ) < 2 ^ 52 * 2 ^ e) : normalExponent n d < e := by
  obtain ⟨hlow, -⟩ := normalExponent_spec hn hd
  have hlt : (2 : ℚ) ^ normalExponent n d < 2 ^ e := by linarith
  rwa [zpow_lt_zpow_iff_right₀ one_lt_two] at hlt

/-! ## Rounding intervals -/

/-- The mantissa and the exponent are those of a double. -/
structure IsForm (m : ℕ) (e : ℤ) : Prop where
  mantissa : m < Power.two 53
  least : -1074 ≤ e
  greatest : e ≤ 971
  normal : Power.two 52 ≤ m ∨ e = -1074

/-- A double that denotes a place, of the form in which doubles are kept. -/
def IsNumber : Binary64 → Prop
  | finite _ m e => IsForm m e
  | infinite _ => True
  | nan _ => False

/-- The place `x` lies in the interval, whose unit is `2 ^ q`. -/
structure Interval.Contains (i : Interval) (q : ℤ) (x : ℚ) : Prop where
  low : i.low * 2 ^ q ≤ x
  high : x ≤ i.high * 2 ^ q
  inside : i.closed = false → i.low * 2 ^ q < x ∧ x < i.high * 2 ^ q

theorem low_whole {m : ℕ} (hm : 0 < m) {e : ℤ} (h : ¬(m = Power.two 52 ∧ -1074 < e)) :
    ((interval m e).low * 2 ^ (e - 2) : ℚ) = (m - 1 / 2) * 2 ^ e := by
  have hlow : (interval m e).low = 4 * m - 2 := if_neg h
  rw [hlow, zpow_sub₀ two_ne_zero, Nat.cast_sub (by omega)]
  push_cast
  ring

/-- Below a power of two the interval is narrower. -/
theorem low_quarter {m : ℕ} (hm : m = Power.two 52) {e : ℤ} (he : -1074 < e) :
    ((interval m e).low * 2 ^ (e - 2) : ℚ) = (2 ^ 52 - 1 / 4) * 2 ^ e := by
  have hlow : (interval m e).low = 4 * Power.two 52 - 1 := by
    rw [interval, if_pos ⟨hm, he⟩, hm]
  rw [hlow, zpow_sub₀ two_ne_zero]
  norm_num [Power.two]
  ring

theorem low_half {m : ℕ} (hm : 0 < m) (e : ℤ) :
    ((m : ℚ) - 1 / 2) * 2 ^ e ≤ (interval m e).low * 2 ^ (e - 2) := by
  have hunit : (0 : ℚ) < 2 ^ e := by positivity
  by_cases h : m = Power.two 52 ∧ -1074 < e
  · rw [low_quarter h.1 h.2, h.1, Power.cast_two]
    linarith
  · rw [low_whole hm h]

theorem high_half (m : ℕ) (e : ℤ) :
    ((interval m e).high * 2 ^ (e - 2) : ℚ) = (m + 1 / 2) * 2 ^ e := by
  show ((4 * m + 2 : ℕ) * 2 ^ (e - 2) : ℚ) = _
  rw [zpow_sub₀ two_ne_zero]
  push_cast
  ring

section

variable {m : ℕ} {e : ℤ} {n d : ℕ}

/-- The ratio is rounded to the mantissa where its exponent is the one that is chosen. -/
theorem ofRatio_of_exponent (h : IsForm m e) (hm : 0 < m) (hn : 0 < n) (hd : 0 < d)
    (hx : (interval m e).Contains (e - 2) (n / d)) (he : max (normalExponent n d) (-1074) = e)
    (negative : Bool) : ofRatio negative n d = finite negative m e := by
  have hunit : (0 : ℚ) < 2 ^ e := by positivity
  have hround : roundHalfEven (unscale n d e).1 (unscale n d e).2 = m := by
    apply roundHalfEven_eq (unscale_pos hd e)
    · rw [unscale_div, le_div_iff₀ hunit]
      exact (low_half hm e).trans hx.low
    · rw [unscale_div, div_le_iff₀ hunit, ← high_half]
      exact hx.high
    · intro hodd
      have hclosed : (interval m e).closed = false := by
        show (m % 2 == 0) = false
        rw [hodd]
        rfl
      rw [unscale_div, lt_div_iff₀ hunit, div_lt_iff₀ hunit, ← high_half]
      exact ⟨(low_half hm e).trans_lt (hx.inside hclosed).1, (hx.inside hclosed).2⟩
  rw [ofRatio_eq hn.ne', he]
  simp only [hround]
  rw [if_neg (Nat.ne_of_lt h.mantissa), if_neg (not_lt.mpr h.greatest)]

/-- A ratio just below a power of two is rounded up to it. -/
theorem ofRatio_of_quarter (h : IsForm m e) (hm : m = Power.two 52) (he : -1074 < e) (hn : 0 < n)
    (hd : 0 < d) (hlow : ((2 : ℚ) ^ 52 - 1 / 4) * 2 ^ e ≤ n / d)
    (hhigh : (n / d : ℚ) < 2 ^ 52 * 2 ^ e) (negative : Bool) :
    ofRatio negative n d = finite negative m e := by
  have hunit : (0 : ℚ) < 2 ^ (e - 1) := by positivity
  have hhalf : (2 : ℚ) ^ e = 2 ^ (e - 1) * 2 := by
    rw [← zpow_add_one₀ two_ne_zero, sub_add_cancel]
  rw [hhalf] at hlow hhigh
  have hnormal : normalExponent n d = e - 1 := normalExponent_eq hn hd (by linarith) (by linarith)
  have hround : roundHalfEven (unscale n d (e - 1)).1 (unscale n d (e - 1)).2 = Power.two 53 := by
    apply roundHalfEven_eq (unscale_pos hd (e - 1))
    · rw [unscale_div, le_div_iff₀ hunit, Power.cast_two]
      linarith
    · rw [unscale_div, div_le_iff₀ hunit, Power.cast_two]
      linarith
    · exact fun hodd => absurd hodd (by decide)
  have hmax : max (e - 1) (-1074) = e - 1 := by omega
  rw [ofRatio_eq hn.ne', hnormal, hmax]
  simp only [hround, if_true, sub_add_cancel]
  rw [if_neg (not_lt.mpr h.greatest), hm]

/-- A ratio in the rounding interval of a double is rounded to that double. -/
theorem ofRatio_of_contains (h : IsForm m e) (hm : 0 < m) (hd : 0 < d)
    (hx : (interval m e).Contains (e - 2) (n / d)) (negative : Bool) :
    ofRatio negative n d = finite negative m e := by
  have hunit : (0 : ℚ) < 2 ^ e := by positivity
  have hlow := (low_half hm e).trans hx.low
  have hhigh := hx.high
  rw [high_half] at hhigh
  have hmq : (1 : ℚ) ≤ m := by exact_mod_cast hm
  have hn : 0 < n := by
    rcases Nat.eq_zero_or_pos n with rfl | hn
    · rw [Nat.cast_zero, zero_div] at hlow
      nlinarith
    · exact hn
  have hmhigh : (m : ℚ) ≤ 2 ^ 53 - 1 := by
    have hcast : ((m + 1 : ℕ) : ℚ) ≤ (Power.two 53 : ℕ) := Nat.cast_le.mpr h.mantissa
    rw [Power.cast_two] at hcast
    push_cast at hcast
    linarith
  have hbelow : (n / d : ℚ) < 2 ^ 53 * 2 ^ e := by nlinarith
  rcases lt_or_ge (n / d : ℚ) (2 ^ 52 * 2 ^ e) with hsmall | hlarge
  · have hexponent := normalExponent_lt hn hd hsmall
    by_cases he : e = -1074
    · exact ofRatio_of_exponent h hm hn hd hx (by omega) negative
    · -- Only the least double of its binade has places below the binade in its interval.
      have hmlow : Power.two 52 ≤ m := h.normal.resolve_right he
      have hmax : m ≤ Power.two 52 := by
        by_contra hgt
        have hcast : ((Power.two 52 + 1 : ℕ) : ℚ) ≤ m := Nat.cast_le.mpr (by omega)
        rw [Nat.cast_add, Power.cast_two] at hcast
        push_cast at hcast
        nlinarith
      have heq : m = Power.two 52 := le_antisymm hmax hmlow
      have hleast : -1074 < e := by
        have := h.least
        omega
      refine ofRatio_of_quarter h heq hleast hn hd ?_ hsmall negative
      rw [← low_quarter heq hleast]
      exact hx.low
  · have hexponent := normalExponent_eq hn hd hlarge hbelow
    have hleast := h.least
    exact ofRatio_of_exponent h hm hn hd hx (by omega) negative

end

/-! ## What is read is a double -/

theorem isNumber_zero (negative : Bool) : (zero negative).IsNumber :=
  ⟨by decide, by decide, by decide, .inr rfl⟩

theorem roundHalfEven_cases (n d : ℕ) :
    roundHalfEven n d = n / d ∨ roundHalfEven n d = n / d + 1 := by
  simp only [roundHalfEven]
  split
  · exact .inr rfl
  · exact .inl rfl

/-- The whole part of a ratio under the exponent that is chosen has at most 53 bits, and all of them
unless the exponent is the least. -/
theorem unscale_normal {n d : ℕ} (hn : 0 < n) (hd : 0 < d) {e : ℤ}
    (he : e = max (normalExponent n d) (-1074)) :
    (unscale n d e).1 / (unscale n d e).2 < Power.two 53 ∧
      (e = -1074 ∨ Power.two 52 ≤ (unscale n d e).1 / (unscale n d e).2) := by
  obtain ⟨hlow, hhigh⟩ := normalExponent_spec hn hd
  have hpos := unscale_pos (n := n) hd e
  have hposq : (0 : ℚ) < (unscale n d e).2 := Nat.cast_pos.mpr hpos
  have hunit : (0 : ℚ) < 2 ^ e := by positivity
  have hdiv := unscale_div n d e
  constructor
  · have hle : (2 : ℚ) ^ normalExponent n d ≤ 2 ^ e := zpow_le_zpow_right₀ one_le_two (by omega)
    have hbelow : ((unscale n d e).1 : ℚ) / (unscale n d e).2 < (Power.two 53 : ℕ) := by
      rw [hdiv, div_lt_iff₀ hunit, Power.cast_two]
      linarith
    rw [Nat.div_lt_iff_lt_mul hpos]
    rw [div_lt_iff₀ hposq] at hbelow
    exact_mod_cast hbelow
  · by_cases hleast : e = -1074
    · exact .inl hleast
    · right
      have hnormal : normalExponent n d = e := by omega
      rw [hnormal] at hlow
      have habove : ((Power.two 52 : ℕ) : ℚ) ≤ (unscale n d e).1 / (unscale n d e).2 := by
        rw [hdiv, le_div_iff₀ hunit, Power.cast_two]
        exact hlow
      rw [Nat.le_div_iff_mul_le hpos]
      rw [le_div_iff₀ hposq] at habove
      exact_mod_cast habove

theorem isNumber_ofRatio (negative : Bool) (n : ℕ) {d : ℕ} (hd : 0 < d) :
    (ofRatio negative n d).IsNumber := by
  rcases Nat.eq_zero_or_pos n with rfl | hn
  · exact isNumber_zero negative
  · rw [ofRatio_eq hn.ne']
    generalize he : max (normalExponent n d) (-1074) = e
    obtain ⟨hbelow, hfull⟩ := unscale_normal hn hd he.symm
    have hrounded := roundHalfEven_cases (unscale n d e).1 (unscale n d e).2
    have hleast : -1074 ≤ e := by omega
    have hpowers : Power.two 52 < Power.two 53 := by decide
    dsimp only
    generalize roundHalfEven (unscale n d e).1 (unscale n d e).2 = m at *
    generalize (unscale n d e).1 / (unscale n d e).2 = q at *
    by_cases hm : m = Power.two 53
    · rw [if_pos hm]
      split
      · trivial
      · next hgreatest => exact ⟨hpowers, by omega, not_lt.mp hgreatest, .inl le_rfl⟩
    · rw [if_neg hm]
      split
      · trivial
      · next hgreatest => exact ⟨by omega, hleast, not_lt.mp hgreatest, by omega⟩

theorem isNumber_ofDecimal (negative : Bool) (digits : ℕ) (exponent : ℤ) :
    (ofDecimal negative digits exponent).IsNumber := by
  simp only [ofDecimal]
  split
  · exact isNumber_zero negative
  · split
    · trivial
    · split
      · exact isNumber_zero negative
      · split
        · exact isNumber_ofRatio negative _ one_pos
        · exact isNumber_ofRatio negative _ (Power.ten_pos _)

/-! ## Decimals -/

/-- The place of a decimal. -/
def Scientific.value (x : Scientific) : ℚ := x.digits * 10 ^ x.exponent

theorem length_toDigits_bounds {n : ℕ} (hn : n ≠ 0) :
    (10 : ℚ) ^ ((Nat.toDigits 10 n).length - 1 : ℤ) ≤ n ∧
      (n : ℚ) < 10 ^ ((Nat.toDigits 10 n).length : ℤ) := by
  have hpos : 0 < (Nat.toDigits 10 n).length := Nat.length_toDigits_pos
  constructor
  · rcases Nat.lt_or_ge 1 (Nat.toDigits 10 n).length with hmany | hone
    · have hle : Power.ten ((Nat.toDigits 10 n).length - 1) ≤ n := by
        rw [← not_lt]
        intro hlt
        have hlength := (Power.length_toDigits_le_iff (by omega)).mpr hlt
        omega
      rw [← Int.ofNat_one, ← Int.ofNat_sub hpos, zpow_natCast, ← Power.cast_ten]
      exact_mod_cast hle
    · have hlength : (Nat.toDigits 10 n).length = 1 := by omega
      rw [hlength]
      norm_num
      omega
  · have hlt : n < Power.ten (Nat.toDigits 10 n).length :=
      (Power.length_toDigits_le_iff hpos).mp le_rfl
    rw [zpow_natCast, ← Power.cast_ten]
    exact_mod_cast hlt

/-- The number of digits and the exponent tell the size of a decimal. -/
theorem Scientific.value_bounds {x : Scientific} (hdigits : x.digits ≠ 0) :
    10 ^ ((Nat.toDigits 10 x.digits).length + x.exponent - 1) ≤ x.value ∧
      x.value < 10 ^ ((Nat.toDigits 10 x.digits).length + x.exponent) := by
  obtain ⟨hlow, hhigh⟩ := length_toDigits_bounds hdigits
  have hunit : (0 : ℚ) < 10 ^ x.exponent := by positivity
  have hten : (10 : ℚ) ≠ 0 := by norm_num
  rw [add_sub_right_comm, zpow_add₀ hten, zpow_add₀ hten, value]
  exact ⟨mul_le_mul_of_nonneg_right hlow hunit.le, mul_lt_mul_of_pos_right hhigh hunit⟩

section

variable {m : ℕ} {e : ℤ}

/-- The doubles are far away from the sizes at which no ratio is formed. -/
theorem contains_bounds (h : IsForm m e) (hm : 0 < m) {x : ℚ}
    (hx : (interval m e).Contains (e - 2) x) : 10 ^ (-324 : ℤ) ≤ x ∧ x < 10 ^ (309 : ℤ) := by
  have hmq : (1 : ℚ) ≤ m := by exact_mod_cast hm
  have hmhigh : (m : ℚ) + 1 ≤ 2 ^ 53 := by
    rw [← Power.cast_two]
    exact_mod_cast h.mantissa
  have hleast : (2 : ℚ) ^ (-1074 : ℤ) ≤ 2 ^ e := zpow_le_zpow_right₀ one_le_two h.least
  have hgreatest : (2 : ℚ) ^ e ≤ 2 ^ (971 : ℤ) := zpow_le_zpow_right₀ one_le_two h.greatest
  have hunit : (0 : ℚ) < 2 ^ e := by positivity
  have hlow := (low_half hm e).trans hx.low
  have hhigh := hx.high
  rw [high_half] at hhigh
  have hsmall : (10 : ℚ) ^ (-324 : ℤ) ≤ 1 / 2 * 2 ^ (-1074 : ℤ) := by
    have hpowers : ((Power.two 1075 : ℕ) : ℚ) ≤ Power.ten 324 :=
      Nat.cast_le.mpr (by decide +kernel)
    rw [Power.cast_two, Power.cast_ten] at hpowers
    rw [zpow_neg, zpow_neg, zpow_ofNat, zpow_ofNat, one_div, ← mul_inv, ← pow_succ']
    exact inv_anti₀ (by positivity) hpowers
  have hbig : (2 : ℚ) ^ 53 * 2 ^ (971 : ℤ) < 10 ^ (309 : ℤ) := by
    have hpowers : ((Power.two (53 + 971) : ℕ) : ℚ) < Power.ten 309 :=
      Nat.cast_lt.mpr (by decide +kernel)
    rwa [Power.cast_two, Power.cast_ten, pow_add] at hpowers
  constructor
  · calc (10 : ℚ) ^ (-324 : ℤ) ≤ 1 / 2 * 2 ^ (-1074 : ℤ) := hsmall
      _ ≤ (m - 1 / 2) * 2 ^ e :=
        mul_le_mul (by linarith) hleast (by positivity) (by linarith)
      _ ≤ x := hlow
  · calc x ≤ (m + 1 / 2) * 2 ^ e := hhigh
      _ ≤ 2 ^ 53 * 2 ^ e := mul_le_mul_of_nonneg_right (by linarith) hunit.le
      _ ≤ 2 ^ 53 * 2 ^ (971 : ℤ) := mul_le_mul_of_nonneg_left hgreatest (by positivity)
      _ < 10 ^ (309 : ℤ) := hbig

/-- A decimal in the rounding interval of a double is read as that double. -/
theorem ofDecimal_of_contains (h : IsForm m e) (hm : 0 < m) {x : Scientific}
    (hx : (interval m e).Contains (e - 2) x.value) (negative : Bool) :
    ofDecimal negative x.digits x.exponent = finite negative m e := by
  obtain ⟨hleast, hgreatest⟩ := contains_bounds h hm hx
  have hdigits : x.digits ≠ 0 := by
    intro hzero
    rw [Scientific.value, hzero, Nat.cast_zero, zero_mul] at hleast
    exact absurd hleast (not_le.mpr (by positivity))
  obtain ⟨hlow, hhigh⟩ := Scientific.value_bounds hdigits
  have hten : (1 : ℚ) < 10 := by norm_num
  have hbelow := (zpow_lt_zpow_iff_right₀ hten).mp (hlow.trans_lt hgreatest)
  have habove := (zpow_lt_zpow_iff_right₀ hten).mp (hleast.trans_lt hhigh)
  rw [ofDecimal, if_neg hdigits]
  dsimp only
  rw [if_neg (by omega), if_neg (by omega)]
  split
  · next hexponent =>
    have hvalue : x.value = (x.digits * Power.ten x.exponent.toNat : ℕ) / (1 : ℕ) := by
      rw [Scientific.value, Power.zpow_ten]
      have hzero : (-x.exponent).toNat = 0 := by omega
      rw [hzero, show Power.ten 0 = 1 from rfl, Nat.cast_one, div_one, div_one, Nat.cast_mul]
    rw [hvalue] at hx
    exact ofRatio_of_contains h hm one_pos hx negative
  · next hexponent =>
    have hvalue : x.value = x.digits / Power.ten (-x.exponent).toNat := by
      rw [Scientific.value, Power.zpow_ten]
      have hzero : x.exponent.toNat = 0 := by omega
      rw [hzero, show Power.ten 0 = 1 from rfl, Nat.cast_one, mul_one_div]
    rw [hvalue] at hx
    exact ofRatio_of_contains h hm (Power.ten_pos _) hx negative

end

end Binary64
end SchemaStore
