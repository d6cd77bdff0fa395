import SchemaStore.Number.Ratio

/-!
Double precision numbers as exact data: a sign, a whole mantissa and a power of two.  Nothing
here calculates with machine floats, so every statement about a double is a statement about
integers.  The main operation is `Binary64.ofDecimal`, which takes a decimal to the nearest
double.
-/

namespace SchemaStore

/-- A double.  A finite one stands for `± mantissa · 2 ^ exponent`; the functions below build
only the form in which the mantissa has 53 bits, or the exponent is the least one, -1074.  What is
no number equals nothing, but it can still be the same thing twice: whatever stored text calls
`NaN` is one and the same, and every other one is on its own. -/
inductive Binary64 where
  | finite (negative : Bool) (mantissa : Nat) (exponent : Int)
  | infinite (negative : Bool)
  | nan (stored : Bool)
deriving DecidableEq, Repr

namespace Binary64

def zero (negative : Bool) : Binary64 := finite negative 0 (-1074)

/-- The whole number nearest to `n / d`; a half goes to the even neighbour. -/
def roundHalfEven (n d : Nat) : Nat :=
  let q := n / d
  let r := n % d
  if d < 2 * r || (2 * r == d && q % 2 == 1) then q + 1 else q

/-- The numerator and denominator of `n / d / 2 ^ e`. -/
def unscale (n d : Nat) (e : Int) : Nat × Nat :=
  if 0 ≤ e then (n, d * Power.two e.toNat) else (n * Power.two (-e).toNat, d)

/-- The double nearest to `± n / d`. -/
def ofRatio (negative : Bool) (n d : Nat) : Binary64 :=
  if n = 0 then zero negative
  else
    -- The sizes in bits tell the exponent for a mantissa of 53 bits, or the one above it.
    let guess : Int := (Nat.log2 n : Int) - (Nat.log2 d : Int) - 52
    let start := unscale n d guess
    let normal := if start.1 / start.2 < Power.two 52 then guess - 1 else guess
    let e := max normal (-1074)
    let parts := unscale n d e
    let m := roundHalfEven parts.1 parts.2
    -- Rounding up may give a bit too many, and then the exponent goes up with it.
    let result := if m = Power.two 53 then (Power.two 52, e + 1) else (m, e)
    if 971 < result.2 then infinite negative else finite negative result.1 result.2

/-- The double nearest to `± digits · 10 ^ exponent`.  A decimal far outside the range of
doubles is settled by its size, so that no huge power of ten is ever formed. -/
def ofDecimal (negative : Bool) (digits : Nat) (exponent : Int) : Binary64 :=
  if digits = 0 then zero negative
  else
    let magnitude : Int := ((Nat.toDigits 10 digits).length : Int) + exponent
    if 310 < magnitude then infinite negative
    else if magnitude < -330 then zero negative
    else if 0 ≤ exponent then ofRatio negative (digits * Power.ten exponent.toNat) 1
    else ofRatio negative digits (Power.ten (-exponent).toNat)

/-- Where a double lies on the number line.  Both zeros lie at zero. -/
def quantity : Binary64 → Quantity
  | finite negative m e => .exact (Ratio.scaled (if negative then -(m : Int) else m) e)
  | infinite negative => .infinite negative
  | nan _ => .undefined

def isZero : Binary64 → Bool
  | finite _ m _ => m == 0
  | _ => false

/-- The whole part, towards zero, of a finite double. -/
def truncate? : Binary64 → Option Int
  | finite negative m e =>
    let size := if 0 ≤ e then m * Power.two e.toNat else m / Power.two (-e).toNat
    some (if negative then -(size : Int) else size)
  | _ => none

end Binary64

end SchemaStore
