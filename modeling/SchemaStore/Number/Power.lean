/-!
Powers of the two bases in which numbers are written: two, in which a double is kept, and ten, in
which it is read and shown.
-/

namespace SchemaStore
namespace Power

def two (k : Nat) : Nat := Nat.pow 2 k

def ten (k : Nat) : Nat := Nat.pow 10 k

theorem two_pos (k : Nat) : 0 < two k := Nat.pow_pos (by decide)

theorem ten_pos (k : Nat) : 0 < ten k := Nat.pow_pos (by decide)

theorem ten_le_ten {j k : Nat} (h : j ≤ k) : ten j ≤ ten k := Nat.pow_le_pow_right (by decide) h

/-- The numbers with no more than so many digits are those below that power of ten. -/
theorem length_toDigits_le_iff {n k : Nat} (hk : 0 < k) :
    (Nat.toDigits 10 n).length ≤ k ↔ n < ten k :=
  Nat.length_toDigits_le_iff (by decide) hk

end Power
end SchemaStore
