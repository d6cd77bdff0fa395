import SchemaStore.Number.Ratio

/-!
Decimal numbers that keep the digits they were written with: `1.50` and `1.5` are two decimals
at one place on the number line.
-/

namespace SchemaStore

inductive Decimal where
  /-- The number `± coefficient · 10 ^ exponent`. -/
  | finite (negative : Bool) (coefficient : Nat) (exponent : Int)
  | infinite (negative : Bool)
  /-- Not a number, under one of its names.  One that has an `s` before `NaN` signals: it must not
  be compared with a number at all. -/
  | nan (name : String)
deriving DecidableEq

namespace Decimal

def quantity : Decimal → Quantity
  | finite negative c e => .exact (Ratio.shifted (if negative then -(c : Int) else c) e)
  | infinite negative => .infinite negative
  | nan _ => .undefined

def isZero : Decimal → Bool
  | finite _ c _ => c == 0
  | _ => false

def isSignalling : Decimal → Bool
  | nan name => name.toList.contains 's'
  | _ => false

/-- The text of a decimal.  An exponent is used when the number is a multiple of a power of ten
above one, or has more than five zeros after the point before its first digit. -/
def text : Decimal → String
  | finite negative c e =>
    let ds := Nat.toDigits 10 c
    let size : Int := ds.length + e
    let point : Int := if e ≤ 0 ∧ -6 < size then size else 1
    let body :=
      if point ≤ 0 then '0' :: '.' :: (List.replicate (-point).toNat '0' ++ ds)
      else if (ds.length : Int) ≤ point then
        ds ++ List.replicate (point.toNat - ds.length) '0'
      else ds.take point.toNat ++ '.' :: ds.drop point.toNat
    let power := size - point
    let scale :=
      if power = 0 then []
      else 'E' :: (if power < 0 then '-' else '+') :: Nat.toDigits 10 power.natAbs
    String.ofList ((if negative then ['-'] else []) ++ body ++ scale)
  | infinite negative => if negative then "-Infinity" else "Infinity"
  | nan name => name

end Decimal

end SchemaStore
