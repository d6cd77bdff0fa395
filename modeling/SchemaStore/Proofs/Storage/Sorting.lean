import SchemaStore.Proofs.Storage.Pairs
import SchemaStore.Storage.Order

/-!
Sorting and searching where keys are texts.  Texts are totally ordered, so sorting gives the one
ordered arrangement of its input, and halving finds the place of a key.
-/

namespace SchemaStore

/-! ## The order of texts -/

namespace Order

theorem notAbove_iff {a b : String} : (!decide (b < a)) = true ↔ a ≤ b := by
  rw [Bool.not_eq_true', decide_eq_false_iff_not, String.not_lt]

theorem notAbove_trans (a b c : String) (hab : (!decide (b < a)) = true)
    (hbc : (!decide (c < b)) = true) : (!decide (c < a)) = true :=
  notAbove_iff.mpr (String.le_trans (notAbove_iff.mp hab) (notAbove_iff.mp hbc))

theorem notAbove_total (a b : String) : (!decide (b < a) || !decide (a < b)) = true := by
  rw [Bool.or_eq_true, notAbove_iff, notAbove_iff]
  exact String.le_total a b

theorem lt_of_le_of_ne {a b : String} (h : a ≤ b) (hne : a ≠ b) : a < b := by
  rcases Decidable.em (a < b) with hlt | hge
  · exact hlt
  · exact absurd (String.le_antisymm h (String.not_lt.mp hge)) hne

theorem ne_of_lt {a b : String} (h : a < b) : a ≠ b := by
  rintro rfl
  exact String.lt_irrefl a h

theorem le_of_lt {a b : String} (h : a < b) : a ≤ b := String.not_lt.mp (String.lt_asymm h)

def sortTexts (names : List String) : List String := names.mergeSort fun a b => !decide (b < a)

theorem perm_sortTexts (names : List String) : (sortTexts names).Perm names :=
  List.mergeSort_perm names _

theorem pairwise_sortTexts (names : List String) : (sortTexts names).Pairwise (· ≤ ·) :=
  (List.pairwise_mergeSort notAbove_trans notAbove_total names).imp notAbove_iff.mp

/-- Sorting depends only on which texts there are. -/
theorem sortTexts_eq_of_perm {a b : List String} (h : a.Perm b) : sortTexts a = sortTexts b := by
  have hperm : (sortTexts a).Perm (sortTexts b) :=
    ((perm_sortTexts a).trans h).trans (perm_sortTexts b).symm
  have hantisymm : ∀ x y : String, x ∈ sortTexts a → y ∈ sortTexts b → x ≤ y → y ≤ x → x = y :=
    fun _ _ _ _ hxy hyx => String.le_antisymm hxy hyx
  exact List.Perm.eq_of_pairwise hantisymm (pairwise_sortTexts a) (pairwise_sortTexts b) hperm

end Order

namespace Pairs

def sorted (m : Pairs) : Pairs := m.mergeSort fun a b => !decide (b.1 < a.1)

def Ascending (m : Pairs) : Prop := m.Pairwise fun a b => a.1 < b.1

theorem perm_sorted (m : Pairs) : m.sorted.Perm m := List.mergeSort_perm m _

theorem ascending_sorted {m : Pairs} (hm : m.keys.Nodup) : m.sorted.Ascending := by
  have hsorted : m.sorted.Pairwise fun a b => (!decide (b.1 < a.1)) = true := by
    apply List.pairwise_mergeSort
    · exact fun a b c hab hbc => Order.notAbove_trans a.1 b.1 c.1 hab hbc
    · exact fun a b => Order.notAbove_total a.1 b.1
  have hle : m.sorted.Pairwise fun a b => a.1 ≤ b.1 :=
    hsorted.imp fun h => Order.notAbove_iff.mp h
  have hne : m.sorted.Pairwise fun a b => a.1 ≠ b.1 :=
    List.pairwise_map.mp ((m.perm_sorted.map _).nodup_iff.mpr hm)
  exact hle.imp₂ (fun _ _ h h' => Order.lt_of_le_of_ne h h') hne

theorem nodup_keys_of_ascending {m : Pairs} (h : m.Ascending) : m.keys.Nodup :=
  List.pairwise_map.mpr (h.imp Order.ne_of_lt)

end Pairs

namespace Order

theorem sortBy_entries (m : Pairs) :
    sortBy (·.1) m.entries = .ok m.sorted.entries := by
  have htexts : m.entries.all (fun x => x.1.asText?.isSome) = true := by
    rw [List.all_eq_true]
    intro x hx
    obtain ⟨p, -, rfl⟩ := List.mem_map.mp hx
    rfl
  rw [sortBy, if_pos htexts, Pairs.sorted, Pairs.entries, Pairs.entries]
  exact congrArg Except.ok (List.map_mergeSort (f := fun p : String × String =>
    (Value.str p.1, Value.str p.2)) fun a _ b _ => rfl).symm

theorem sortBy_texts {ks : List String} (h : ks.Pairwise (· < ·)) :
    sortBy id (ks.map Value.str) = .ok (ks.map Value.str) := by
  have htexts : (ks.map Value.str).all (fun x => (id x).asText?.isSome) = true := by
    rw [List.all_eq_true]
    intro x hx
    obtain ⟨k, -, rfl⟩ := List.mem_map.mp hx
    rfl
  have hordered : (ks.map Value.str).Pairwise fun a b =>
      (!decide ((id b).asText?.getD "" < (id a).asText?.getD "")) = true := by
    rw [List.pairwise_map]
    exact h.imp fun hlt => notAbove_iff.mpr (le_of_lt hlt)
  rw [sortBy, if_pos htexts, List.mergeSort_of_pairwise hordered]

end Order

/-! ## Halving -/

namespace Search

/-- Halving finds the boundary of a test that holds up to some position and not from there on. -/
theorem narrow_spec {isBefore : Test} {p : Nat → Bool} {fuel low high : Nat}
    (htest : ∀ i, low ≤ i → i < high → isBefore i = .ok (p i))
    (hdown : ∀ i j, low ≤ i → i ≤ j → j < high → p j = true → p i = true)
    (hle : low ≤ high) (hfuel : high - low ≤ fuel) :
    ∃ n, narrow isBefore fuel low high = .ok n ∧ low ≤ n ∧ n ≤ high ∧
      (∀ i, low ≤ i → i < n → p i = true) ∧ (∀ i, n ≤ i → i < high → p i = false) := by
  induction fuel generalizing low high with
  | zero =>
    rw [narrow]
    exact ⟨low, rfl, Nat.le_refl low, hle, fun i h1 h2 => by omega, fun i h1 h2 => by omega⟩
  | succ fuel ih =>
    by_cases hlt : low < high
    · have hmid : low ≤ (low + high) / 2 ∧ (low + high) / 2 < high := by omega
      have hstep : narrow isBefore (fuel + 1) low high = (do
          if ← isBefore ((low + high) / 2) then narrow isBefore fuel ((low + high) / 2 + 1) high
          else narrow isBefore fuel low ((low + high) / 2)) := by
        rw [narrow, if_pos hlt]
      rw [htest _ hmid.1 hmid.2] at hstep
      -- The boundary is behind the middle if the test holds there, and else it is not.
      cases hp : p ((low + high) / 2) with
      | true =>
        rw [hp] at hstep
        obtain ⟨n, hn, h1, h2, h3, h4⟩ := @ih ((low + high) / 2 + 1) high
          (fun i h1 h2 => htest i (by omega) h2) (fun i j h1 h2 h3 => hdown i j (by omega) h2 h3)
          (by omega) (by omega)
        refine ⟨n, hstep.trans hn, by omega, h2, fun i hi hin => ?_, h4⟩
        by_cases hi' : i ≤ (low + high) / 2
        · exact hdown i _ hi hi' hmid.2 hp
        · exact h3 i (by omega) hin
      | false =>
        rw [hp] at hstep
        obtain ⟨n, hn, h1, h2, h3, h4⟩ := @ih low ((low + high) / 2)
          (fun i h1 h2 => htest i h1 (by omega)) (fun i j h1 h2 h3 => hdown i j h1 h2 (by omega))
          (by omega) (by omega)
        refine ⟨n, hstep.trans hn, h1, by omega, h3, fun i hi hih => ?_⟩
        by_cases hi' : i < (low + high) / 2
        · exact h4 i hi hi'
        · cases hpi : p i with
          | false => rfl
          | true =>
            rw [hdown _ i hmid.1 (by omega) hih hpi] at hp
            exact absurd hp (by decide)
    · rw [narrow, if_neg hlt]
      exact ⟨low, rfl, Nat.le_refl low, hle, fun i h1 h2 => by omega, fun i h1 h2 => by omega⟩

end Search

namespace Order

theorem less_texts (a b : String) : less (.str a) (.str b) = .ok (decide (a < b)) := by
  rw [less, Value.compare]
  by_cases h : a < b
  · simp [Relation.decideBy, h, ne_of_lt h]
  · simp [Relation.decideBy, h]

theorem greater_texts (a b : String) :
    (Value.str a).compare .gt (.str b) = .ok (decide (b < a)) := by
  rw [Value.compare]
  by_cases h : b < a
  · simp [Relation.decideBy, h, String.lt_asymm h, (ne_of_lt h).symm]
  · by_cases heq : a = b
    · simp [Relation.decideBy, heq]
    · have hlt : a < b := lt_of_le_of_ne (String.not_lt.mp h) heq
      simp [Relation.decideBy, hlt, h]

theorem compare_ints (a b : Int) :
    (Value.int a).compare .lt (.int b) = .ok (decide (a < b)) := by
  simp [Value.compare, Value.compareNumber, Value.quantity?, Value.plane?, Value.isDecimal,
    Relation.between, Quantity.lt, Quantity.ofInt, Ratio.lt_ofInt]

/-- The place of a key among ordered texts: those before it are not above the key, and those
behind it are. -/
theorem insertionPoint_texts {ks : List String} (hks : ks.Pairwise (· < ·)) (key : String) :
    ∃ n, insertionPoint (ks.map Value.str) (.str key) = .ok n ∧ n ≤ ks.length ∧
      (∀ k ∈ ks.take n, k ≤ key) ∧ (∀ k ∈ ks.drop n, key < k) := by
  have htest : ∀ i, 0 ≤ i → i < (ks.map Value.str).length →
      (do return !(← less (.str key) ((ks.map Value.str).getD i .null)) : Except Misuse Bool)
        = .ok (!decide (key < ks.getD i "")) := by
    intro i _ hi
    have hi' : i < ks.length := by simpa using hi
    have hget : (ks.map Value.str).getD i .null = .str (ks.getD i "") := by
      simp [List.getD, hi']
    rw [hget, less_texts]
    rfl
  have hitem : ∀ i (hi : i < ks.length), ks.getD i "" = ks[i] := by
    intro i hi
    simp [List.getD, hi]
  have hsorted : ∀ i j, i < j → j < ks.length → ks.getD i "" < ks.getD j "" := by
    intro i j hij hj
    have hi : i < ks.length := Nat.lt_trans hij hj
    rw [hitem i hi, hitem j hj]
    exact List.pairwise_iff_getElem.mp hks i j hi hj hij
  -- What stands before a text that is not above the key is not above it either.
  have hdown : ∀ i j, 0 ≤ i → i ≤ j → j < (ks.map Value.str).length →
      (!decide (key < ks.getD j "")) = true → (!decide (key < ks.getD i "")) = true := by
    intro i j _ hij hj hp
    rw [List.length_map] at hj
    rw [notAbove_iff] at hp ⊢
    rcases Nat.lt_or_eq_of_le hij with hlt | rfl
    · exact String.le_trans (le_of_lt (hsorted i j hlt hj)) hp
    · exact hp
  obtain ⟨n, hn, -, hle, hbefore, hbehind⟩ := Search.narrow_spec htest hdown (Nat.zero_le _)
    (Nat.sub_le _ 0)
  rw [List.length_map] at hle hbehind
  rw [insertionPoint]
  refine ⟨n, hn, hle, fun k hk => ?_, fun k hk => ?_⟩
  · obtain ⟨i, hi, rfl⟩ := List.mem_iff_getElem.mp hk
    rw [List.length_take] at hi
    have hp := hbefore i (Nat.zero_le i) (by omega)
    rw [notAbove_iff, hitem i (by omega)] at hp
    rw [List.getElem_take]
    exact hp
  · obtain ⟨i, hi, rfl⟩ := List.mem_iff_getElem.mp hk
    rw [List.length_drop] at hi
    have hp := hbehind (n + i) (by omega) (by omega)
    rw [hitem (n + i) (by omega), Bool.not_eq_false', decide_eq_true_eq] at hp
    rw [List.getElem_drop]
    exact hp

end Order

end SchemaStore
