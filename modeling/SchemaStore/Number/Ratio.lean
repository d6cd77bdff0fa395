import SchemaStore.Number.Power

/-!
Exact fractions, and the line on which numbers of every kind are compared.  Comparison never
rounds: a double, an integer and a fraction are each placed on the line as they are, and two
places are compared by cross multiplication.
-/

namespace SchemaStore

/-- A fraction with a positive denominator.  It need not be in lowest terms. -/
structure Ratio where
  num : Int
  den : Nat
  den_pos : 0 < den := by decide
deriving DecidableEq

namespace Ratio

def ofInt (n : Int) : Ratio := { num := n, den := 1 }

/-- The fraction `num / den`, in lowest terms when `den` is positive.  A zero denominator
counts as one, so that the function is total. -/
def reduced (num : Int) (den : Nat) : Ratio :=
  let g := Nat.gcd num.natAbs den
  let d := den / g
  if h : 0 < d then { num := num / g, den := d, den_pos := h } else ofInt num

/-- `numerator · 2 ^ exponent` as a fraction. -/
def scaled (numerator : Int) (exponent : Int) : Ratio :=
  if 0 ≤ exponent then ofInt (numerator * Power.two exponent.toNat)
  else
    { num := numerator, den := Power.two (-exponent).toNat,
      den_pos := Power.two_pos _ }

/-- `numerator · 10 ^ exponent` as a fraction. -/
def shifted (numerator : Int) (exponent : Int) : Ratio :=
  if 0 ≤ exponent then ofInt (numerator * Power.ten exponent.toNat)
  else
    { num := numerator, den := Power.ten (-exponent).toNat,
      den_pos := Power.ten_pos _ }

/-- Two fractions denote one number. -/
def same (a b : Ratio) : Bool := a.num * b.den == b.num * a.den

def lt (a b : Ratio) : Bool := decide (a.num * b.den < b.num * a.den)

/-- Whether `b` divides the whole number `n`: `n / b` is a whole number. -/
def divides (b : Ratio) (n : Nat) : Bool := (n * b.den : Int) % b.num == 0

theorem same_comm (a b : Ratio) : a.same b = b.same a := BEq.comm

theorem same_ofInt (a b : Int) : same (ofInt a) (ofInt b) = (a == b) := by
  simp [same, ofInt]

theorem lt_ofInt (a b : Int) : lt (ofInt a) (ofInt b) = decide (a < b) := by
  simp [lt, ofInt]

end Ratio

/-- A place on the extended number line, or no place at all. -/
inductive Quantity where
  | exact (value : Ratio)
  | infinite (negative : Bool)
  | undefined
deriving DecidableEq

namespace Quantity

def ofInt (n : Int) : Quantity := exact (Ratio.ofInt n)

def isUndefined : Quantity → Bool
  | undefined => true
  | _ => false

/-- Equality of places.  What has no place equals nothing, itself included. -/
def same : Quantity → Quantity → Bool
  | exact a, exact b => a.same b
  | infinite a, infinite b => a == b
  | _, _ => false

theorem same_comm (a b : Quantity) : a.same b = b.same a := by
  cases a <;> cases b <;> first | rfl | exact Ratio.same_comm _ _ | exact BEq.comm

/-- Strict order of places.  What has no place is neither below nor above anything. -/
def lt : Quantity → Quantity → Bool
  | exact a, exact b => a.lt b
  | exact _, infinite negative => !negative
  | infinite negative, exact _ => negative
  | infinite a, infinite b => a && !b
  | _, _ => false

def le (a b : Quantity) : Bool := a.lt b || a.same b

end Quantity

end SchemaStore
