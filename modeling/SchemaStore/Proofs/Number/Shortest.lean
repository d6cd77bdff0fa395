import SchemaStore.Proofs.Number.Rounding

/-!
The decimal text of a double reads back as the double.  The decimal that is chosen lies in the
rounding interval, and seventeen digits are enough to find one.
-/

namespace SchemaStore
namespace Binary64

/-! ## Exact comparisons -/

section

variable (a c : ℕ) (q p : ℤ)

/-- The whole numbers that stand for two places, brought to one denominator. -/
theorem scaled_eq :
    (((a * (Power.ten (-p).toNat * Power.two q.toNat) : ℕ) : ℚ)
        = a * 2 ^ q * (Power.ten (-p).toNat * Power.two (-q).toNat)) ∧
      (((c * Power.ten p.toNat * Power.two (-q).toNat : ℕ) : ℚ)
        = c * 10 ^ p * (Power.ten (-p).toNat * Power.two (-q).toNat)) := by
  have htwo : (Power.two (-q).toNat : ℚ) ≠ 0 := Nat.cast_ne_zero.mpr (Power.two_pos _).ne'
  have hten : (Power.ten (-p).toNat : ℚ) ≠ 0 := Nat.cast_ne_zero.mpr (Power.ten_pos _).ne'
  rw [Power.zpow_two, Power.zpow_ten]
  constructor
  · push_cast
    field_simp
  · push_cast
    field_simp

theorem scaled_le_iff :
    a * (Power.ten (-p).toNat * Power.two q.toNat) ≤ c * Power.ten p.toNat * Power.two (-q).toNat ↔
      (a * 2 ^ q : ℚ) ≤ c * 10 ^ p := by
  have hpos : (0 : ℚ) < Power.ten (-p).toNat * Power.two (-q).toNat :=
    mul_pos (Nat.cast_pos.mpr (Power.ten_pos _)) (Nat.cast_pos.mpr (Power.two_pos _))
  obtain ⟨hleft, hright⟩ := scaled_eq a c q p
  rw [← @Nat.cast_le ℚ, hleft, hright, mul_le_mul_iff_of_pos_right hpos]

theorem le_scaled_iff :
    c * Power.ten p.toNat * Power.two (-q).toNat ≤ a * (Power.ten (-p).toNat * Power.two q.toNat) ↔
      (c * 10 ^ p : ℚ) ≤ a * 2 ^ q := by
  have hpos : (0 : ℚ) < Power.ten (-p).toNat * Power.two (-q).toNat :=
    mul_pos (Nat.cast_pos.mpr (Power.ten_pos _)) (Nat.cast_pos.mpr (Power.two_pos _))
  obtain ⟨hleft, hright⟩ := scaled_eq a c q p
  rw [← @Nat.cast_le ℚ, hleft, hright, mul_le_mul_iff_of_pos_right hpos]

end

variable {i : Interval} {q p : ℤ}

theorem Interval.holds_iff (c : ℕ) : i.holds q c p = true ↔ i.Contains q (c * 10 ^ p) := by
  unfold holds
  cases hclosed : i.closed with
  | true =>
    rw [if_pos rfl, decide_eq_true_eq, scaled_le_iff, le_scaled_iff]
    constructor
    · rintro ⟨hlow, hhigh⟩
      exact ⟨hlow, hhigh, fun hopen => absurd (hclosed.symm.trans hopen) (by decide)⟩
    · exact fun h => ⟨h.low, h.high⟩
  | false =>
    rw [if_neg Bool.false_ne_true, decide_eq_true_eq, ← not_le, le_scaled_iff, ← not_le,
      scaled_le_iff, not_le, not_le]
    constructor
    · rintro ⟨hlow, hhigh⟩
      exact ⟨hlow.le, hhigh.le, fun _ => ⟨hlow, hhigh⟩⟩
    · exact fun h => h.inside hclosed

/-! ## Decimals on a grid -/

theorem Interval.contains_of_onGrid? {c : ℕ} (h : i.onGrid? q p = some c) :
    i.Contains q (c * 10 ^ p) := by
  rw [← holds_iff]
  simp only [onGrid?] at h
  split at h
  · next hbelow habove =>
    rw [← Option.some.inj h]
    rcases roundHalfEven_cases (i.value * Power.ten (-p).toNat * Power.two q.toNat)
      (Power.ten p.toNat * Power.two (-q).toNat) with heq | heq
    · rwa [heq]
    · rwa [heq]
  · next hbelow _ => rwa [← Option.some.inj h]
  · next _ habove => rwa [← Option.some.inj h]
  · cases h

/-- The neighbours on the grid of a place. -/
theorem floor_bounds (v : ℕ) (q p : ℤ) :
    ∃ below : ℕ, v * Power.ten (-p).toNat * Power.two q.toNat
        / (Power.ten p.toNat * Power.two (-q).toNat) = below ∧
      (below * 10 ^ p : ℚ) ≤ v * 2 ^ q ∧ (v * 2 ^ q : ℚ) < (below + 1 : ℕ) * 10 ^ p := by
  refine ⟨_, rfl, ?_, ?_⟩
  · rw [← le_scaled_iff, mul_assoc, ← mul_assoc v]
    exact Nat.div_mul_le_self _ _
  · have hpos : 0 < Power.ten p.toNat * Power.two (-q).toNat :=
      Nat.mul_pos (Power.ten_pos _) (Power.two_pos _)
    rw [← not_le, ← le_scaled_iff, mul_assoc (_ + 1), ← mul_assoc v, not_le]
    exact (Nat.div_lt_iff_lt_mul hpos).mp (Nat.lt_succ_self _)

/-- On a grid that is finer than the interval is wide something is found. -/
theorem Interval.exists_onGrid? (hlow : (i.low * 2 ^ q : ℚ) < i.value * 2 ^ q)
    (hhigh : (i.value * 2 ^ q : ℚ) < i.high * 2 ^ q)
    (hwide : (10 : ℚ) ^ p < i.high * 2 ^ q - i.low * 2 ^ q) : ∃ c, i.onGrid? q p = some c := by
  obtain ⟨below, hbelow, hle, hlt⟩ := floor_bounds i.value q p
  simp only [onGrid?, hbelow]
  cases hholds : i.holds q below p with
  | true => cases i.holds q (below + 1) p <;> exact ⟨_, rfl⟩
  | false =>
    cases hholds' : i.holds q (below + 1) p with
    | true => exact ⟨_, rfl⟩
    | false =>
      exfalso
      -- Both neighbours of the value lie outside, so the grid is too coarse.
      have hout : (below * 10 ^ p : ℚ) ≤ i.low * 2 ^ q := by
        rw [← Bool.not_eq_true, holds_iff] at hholds
        by_contra hin
        rw [not_le] at hin
        exact hholds ⟨hin.le, (hle.trans_lt hhigh).le, fun _ => ⟨hin, hle.trans_lt hhigh⟩⟩
      have hout' : (i.high * 2 ^ q : ℚ) ≤ (below + 1 : ℕ) * 10 ^ p := by
        rw [← Bool.not_eq_true, holds_iff] at hholds'
        by_contra hin
        rw [not_le] at hin
        exact hholds' ⟨(hlow.trans hlt).le, hin.le, fun _ => ⟨hlow.trans hlt, hin⟩⟩
      push_cast at hout'
      linarith

/-! ## The size of a decimal -/

theorem ten_estimate_le : ∀ k < 1100, Power.ten (k * 30103 / 100000) ≤ 5 * Power.two k := by
  decide +kernel

theorem two_le_estimate :
    ∀ k < 1101, Power.two k ≤ 5 * Power.ten ((k * 30103 + 99999) / 100000) := by
  decide +kernel

/-- The decimal logarithm that is estimated from a binary one is at most a place too large. -/
theorem zpow_estimate_le {size : ℤ} (hlow : -1100 ≤ size) (hhigh : size < 1100) :
    (10 : ℚ) ^ (size * 30103 / 100000) ≤ 5 * 2 ^ size := by
  rcases le_or_gt 0 size with hsign | hsign
  · obtain ⟨k, rfl⟩ := Int.eq_ofNat_of_zero_le hsign
    have hle := @Nat.cast_le ℚ |>.mpr (ten_estimate_le k (by omega))
    rw [Nat.cast_mul, Power.cast_ten, Power.cast_two] at hle
    have hguess : (k : ℤ) * 30103 / 100000 = (k * 30103 / 100000 : ℕ) := by omega
    rw [hguess, zpow_natCast, zpow_natCast]
    exact hle
  · obtain ⟨k, hk⟩ := Int.eq_ofNat_of_zero_le (show 0 ≤ -size by omega)
    have hle := @Nat.cast_le ℚ |>.mpr (two_le_estimate k (by omega))
    rw [Nat.cast_mul, Power.cast_ten, Power.cast_two] at hle
    have hguess : size * 30103 / 100000 = -((k * 30103 + 99999) / 100000 : ℕ) := by omega
    have hsize : size = -(k : ℤ) := by omega
    rw [hguess, hsize, zpow_neg, zpow_neg, zpow_natCast, zpow_natCast, ← div_eq_mul_inv,
      inv_le_comm₀ (by positivity) (by positivity), inv_div, div_le_iff₀ (by norm_num), mul_comm]
    exact hle

theorem atLeast_iff {n d : ℕ} (hd : 0 < d) (k : ℤ) :
    Power.ten k.toNat * d ≤ n * Power.ten (-k).toNat ↔ (10 : ℚ) ^ k ≤ n / d := by
  have hten : (0 : ℚ) < Power.ten (-k).toNat := Nat.cast_pos.mpr (Power.ten_pos _)
  rw [Power.zpow_ten, div_le_div_iff₀ hten (Nat.cast_pos.mpr hd)]
  exact_mod_cast Iff.rfl

theorem decimalSize_spec {n d : ℕ} (hn : 0 < n) (hd : 0 < d)
    (hlow : -1100 ≤ (Nat.log2 n : ℤ) - Nat.log2 d) (hhigh : (Nat.log2 n : ℤ) - Nat.log2 d < 1100) :
    (10 : ℚ) ^ (decimalSize n d - 1) ≤ n / d := by
  have hestimate := zpow_estimate_le hlow hhigh
  obtain ⟨hbits, -⟩ := log2_bounds hn hd
  have hunit : (2 : ℚ) ^ ((Nat.log2 n : ℤ) - Nat.log2 d - 52)
      = 2 ^ ((Nat.log2 n : ℤ) - Nat.log2 d) / 2 ^ 52 := by
    rw [zpow_sub₀ two_ne_zero]
    norm_num
  rw [hunit] at hbits
  simp only [decimalSize, decide_eq_true_eq, atLeast_iff hd]
  generalize ((Nat.log2 n : ℤ) - Nat.log2 d) * 30103 / 100000 = guess at *
  split
  · next h => rwa [show guess + 2 - 1 = guess + 1 by ring]
  · split
    · next h => rwa [add_sub_cancel_right]
    · rw [zpow_sub_one₀ (by norm_num)]
      linarith

/-! ## The shortest decimal -/

theorem Scientific.value_trim (fuel : ℕ) (x : Scientific) : (x.trim fuel).value = x.value := by
  induction fuel generalizing x with
  | zero => rfl
  | succ fuel ih =>
    rw [trim]
    split
    · next h =>
      have hten : (x.digits : ℚ) = (x.digits / 10 : ℕ) * 10 := by
        exact_mod_cast (Nat.div_mul_cancel (Nat.dvd_of_mod_eq_zero h.2)).symm
      rw [ih, value, value, zpow_add_one₀ (by norm_num), hten]
      ring
    · rfl

section

variable {m : ℕ} {e : ℤ}

/-- The ratio whose size is taken. -/
def ratio (m : ℕ) (e : ℤ) : ℕ × ℕ :=
  if 0 ≤ e then (m * Power.two e.toNat, 1) else (m, Power.two (-e).toNat)

theorem ratio_spec (hm : 0 < m) (e : ℤ) :
    0 < (ratio m e).1 ∧ 0 < (ratio m e).2 ∧
      ((ratio m e).1 : ℚ) / (ratio m e).2 = m * 2 ^ e := by
  rw [Power.zpow_two]
  unfold ratio
  split
  · next he =>
    have hzero : (-e).toNat = 0 := by omega
    refine ⟨Nat.mul_pos hm (Power.two_pos _), one_pos, ?_⟩
    rw [hzero, show Power.two 0 = 1 from rfl, Nat.cast_one, div_one, div_one, Nat.cast_mul]
  · next he =>
    have hzero : e.toNat = 0 := by omega
    refine ⟨hm, Power.two_pos _, ?_⟩
    rw [hzero, show Power.two 0 = 1 from rfl, Nat.cast_one, mul_one_div]

/-- The sizes of doubles in bits. -/
theorem ratio_size (h : IsForm m e) (hm : 0 < m) :
    -1100 ≤ (Nat.log2 (ratio m e).1 : ℤ) - Nat.log2 (ratio m e).2 ∧
      (Nat.log2 (ratio m e).1 : ℤ) - Nat.log2 (ratio m e).2 < 1100 := by
  have hleast := h.least
  have hgreatest := h.greatest
  unfold ratio
  split
  · next he =>
    have hbits : Nat.log2 (m * Power.two e.toNat) < 53 + e.toNat := by
      rw [Nat.log2_lt (Nat.mul_pos hm (Power.two_pos _)).ne', pow_add]
      exact Nat.mul_lt_mul_of_pos_right h.mantissa (Power.two_pos _)
    show -1100 ≤ (Nat.log2 (m * Power.two e.toNat) : ℤ) - (0 : ℕ) ∧
      (Nat.log2 (m * Power.two e.toNat) : ℤ) - (0 : ℕ) < 1100
    omega
  · next he =>
    have hbits : Nat.log2 m < 53 := (Nat.log2_lt hm.ne').mpr h.mantissa
    have hpower : Nat.log2 (Power.two (-e).toNat) = (-e).toNat := Nat.log2_two_pow
    show -1100 ≤ (Nat.log2 m : ℤ) - Nat.log2 (Power.two (-e).toNat) ∧
      (Nat.log2 m : ℤ) - Nat.log2 (Power.two (-e).toNat) < 1100
    omega

/-- A double lies inside its interval, which is wider than the grid of seventeen digits. -/
theorem interval_wide (h : IsForm m e) (hm : 0 < m) {unit : ℚ} (hunit : 10 ^ 16 * unit ≤ m * 2 ^ e) :
    ((interval m e).low * 2 ^ (e - 2) : ℚ) < (interval m e).value * 2 ^ (e - 2) ∧
      ((interval m e).value * 2 ^ (e - 2) : ℚ) < (interval m e).high * 2 ^ (e - 2) ∧
      unit < (interval m e).high * 2 ^ (e - 2) - (interval m e).low * 2 ^ (e - 2) := by
  have hpos : (0 : ℚ) < 2 ^ e := by positivity
  have hvalue : ((interval m e).value * 2 ^ (e - 2) : ℚ) = m * 2 ^ e := by
    show ((4 * m : ℕ) * 2 ^ (e - 2) : ℚ) = _
    rw [zpow_sub₀ two_ne_zero]
    push_cast
    ring
  have hmhigh : (m : ℚ) + 1 ≤ 2 ^ 53 := by
    rw [← Power.cast_two]
    exact_mod_cast h.mantissa
  rw [hvalue, high_half]
  by_cases hpower : m = Power.two 52 ∧ -1074 < e
  · have hmq : (m : ℚ) = 2 ^ 52 := by rw [hpower.1, Power.cast_two]
    rw [low_quarter hpower.1 hpower.2]
    rw [hmq] at hunit ⊢
    refine ⟨?_, ?_, ?_⟩ <;> linarith
  · rw [low_whole hm hpower]
    refine ⟨?_, ?_, ?_⟩ <;> nlinarith

theorem exists_onGrid?_seventeen (h : IsForm m e) (hm : 0 < m) :
    ∃ c, (interval m e).onGrid? (e - 2)
      (decimalSize (ratio m e).1 (ratio m e).2 - (16 + 1 : ℕ)) = some c := by
  obtain ⟨hn, hd, hratio⟩ := ratio_spec hm e
  obtain ⟨hlow, hhigh⟩ := ratio_size h hm
  have hsize := decimalSize_spec hn hd hlow hhigh
  rw [hratio] at hsize
  generalize decimalSize (ratio m e).1 (ratio m e).2 = size at *
  have hunit : 10 ^ 16 * (10 : ℚ) ^ (size - (16 + 1 : ℕ)) ≤ m * 2 ^ e := by
    refine le_trans (le_of_eq ?_) hsize
    rw [← zpow_natCast, ← zpow_add₀ (by norm_num)]
    congr 1
    push_cast
    ring
  obtain ⟨hbelow, habove, hwide⟩ := interval_wide h hm hunit
  exact Interval.exists_onGrid? hbelow habove hwide

/-- The shortest decimal lies in the rounding interval. -/
theorem contains_shortest (h : IsForm m e) (hm : 0 < m) :
    (interval m e).Contains (e - 2) (shortest m e).value := by
  let find : ℕ → Option Scientific := fun k =>
    ((interval m e).onGrid? (e - 2) (decimalSize (ratio m e).1 (ratio m e).2 - (k + 1 : ℕ))).map
      fun c => { digits := c, exponent := decimalSize (ratio m e).1 (ratio m e).2 - (k + 1 : ℕ) }
  have hshortest : shortest m e
      = (((List.range 17).findSome? find).getD { digits := 0, exponent := 0 }).trim 20 := rfl
  -- The search ends at seventeen digits at the latest.
  have hfound : ((List.range 17).findSome? find).isSome = true := by
    rw [List.findSome?_isSome_iff]
    obtain ⟨c, hc⟩ := exists_onGrid?_seventeen h hm
    refine ⟨16, by simp, ?_⟩
    simp only [find, hc, Option.map_some, Option.isSome_some]
  obtain ⟨x, hx⟩ := Option.isSome_iff_exists.mp hfound
  obtain ⟨k, -, hk⟩ := List.exists_of_findSome?_eq_some hx
  obtain ⟨c, hc, rfl⟩ := Option.map_eq_some_iff.mp hk
  rw [hshortest, hx, Option.getD_some, Scientific.value_trim]
  exact Interval.contains_of_onGrid? hc

theorem digits_shortest_ne_zero (h : IsForm m e) (hm : 0 < m) : (shortest m e).digits ≠ 0 := by
  intro hzero
  obtain ⟨hleast, -⟩ := contains_bounds h hm (contains_shortest h hm)
  rw [Scientific.value, hzero, Nat.cast_zero, zero_mul] at hleast
  exact absurd hleast (not_le.mpr (by positivity))

/-- The shortest decimal is read as the double, in whatever form it is written. -/
theorem ofDecimal_shortest (h : IsForm m e) (hm : 0 < m) {x : Scientific}
    (hx : x.value = (shortest m e).value) (negative : Bool) :
    ofDecimal negative x.digits x.exponent = finite negative m e :=
  ofDecimal_of_contains h hm (hx ▸ contains_shortest h hm) negative

theorem ofDecimal_zero {x : Scientific} (hx : x.value = 0) (negative : Bool) :
    ofDecimal negative x.digits x.exponent = zero negative := by
  have hdigits : x.digits = 0 := by
    have hunit : (10 : ℚ) ^ x.exponent ≠ 0 := by positivity
    exact_mod_cast (mul_eq_zero.mp hx).resolve_right hunit
  rw [ofDecimal, if_pos hdigits]

end

end Binary64
end SchemaStore
