import SchemaStore.Number.Binary64

/-!
The decimal text of a double: the fewest digits that read back as the same double, and of those
the decimal nearest to it.  `Binary64.shortest` finds the digits with whole-number arithmetic;
`Layout` says how they are written.
-/

namespace SchemaStore

namespace Binary64

/-- A decimal, `digits · 10 ^ exponent`. -/
structure Scientific where
  digits : Nat
  exponent : Int
deriving DecidableEq, Repr

/-- Twice a mantissa lies strictly between the doubled borders of its rounding interval, in
units of a quarter of the last place.  Below a power of two the lower gap is half as wide. -/
structure Interval where
  low : Nat
  value : Nat
  high : Nat
  /-- Both ends round to the value itself, because its mantissa is even. -/
  closed : Bool

def interval (m : Nat) (e : Int) : Interval :=
  { low := if m = Power.two 52 ∧ -1074 < e then 4 * m - 1 else 4 * m - 2
    value := 4 * m
    high := 4 * m + 2
    closed := m % 2 == 0 }

/-- Whether the decimal `c · 10 ^ p` reads back as the double that `i` surrounds, whose unit is
`2 ^ q`.  Both sides are brought to whole numbers before they are compared. -/
def Interval.holds (i : Interval) (q : Int) (c : Nat) (p : Int) : Bool :=
  let left := c * Power.ten p.toNat * Power.two (-q).toNat
  let unit := Power.ten (-p).toNat * Power.two q.toNat
  if i.closed then decide (i.low * unit ≤ left ∧ left ≤ i.high * unit)
  else decide (i.low * unit < left ∧ left < i.high * unit)

/-- The best decimal for the interval on the grid of multiples of `10 ^ p`: one of the two
neighbours of the value.  Of two that read back the nearer is taken, and the even one when they
are equally near. -/
def Interval.onGrid? (i : Interval) (q p : Int) : Option Nat :=
  let n := i.value * Power.ten (-p).toNat * Power.two q.toNat
  let d := Power.ten p.toNat * Power.two (-q).toNat
  let below := n / d
  let above := below + 1
  match i.holds q below p, i.holds q above p with
  | true, true => some (roundHalfEven n d)
  | true, false => some below
  | false, true => some above
  | false, false => none

/-- The least power of ten above `n / d`, found from the sizes in bits and mended by one
comparison either way. -/
def decimalSize (n d : Nat) : Int :=
  let atLeast (k : Int) : Bool := decide (Power.ten k.toNat * d ≤ n * Power.ten (-k).toNat)
  let guess := (((Nat.log2 n : Int) - (Nat.log2 d : Int)) * 30103) / 100000
  if atLeast (guess + 1) then guess + 2 else if atLeast guess then guess + 1 else guess

/-- Drops the zeros at the end of a run of digits, counting them in the exponent. -/
def Scientific.trim (fuel : Nat) (x : Scientific) : Scientific :=
  match fuel with
  | 0 => x
  | fuel + 1 =>
    if x.digits ≠ 0 ∧ x.digits % 10 = 0 then
      Scientific.trim fuel { digits := x.digits / 10, exponent := x.exponent + 1 }
    else x

/-- The shortest decimal that reads back as `m · 2 ^ e`, for a positive mantissa.  Seventeen
digits always suffice. -/
def shortest (m : Nat) (e : Int) : Scientific :=
  let i := interval m e
  let q := e - 2
  let parts := if 0 ≤ e then (m * Power.two e.toNat, 1) else (m, Power.two (-e).toNat)
  let size := decimalSize parts.1 parts.2
  let found := (List.range 17).findSome? fun k =>
    let p := size - (k + 1 : Nat)
    (i.onGrid? q p).map fun c => ({ digits := c, exponent := p } : Scientific)
  let best := found.getD { digits := 0, exponent := 0 }
  best.trim 20

structure Layout where
  /-- A decimal point position in this range is written without an exponent. -/
  leastPoint : Int
  greatestPoint : Int
  /-- A whole number keeps the fraction `.0`. -/
  wholeFraction : Bool
  nan : String
  infinity : String

/-- Numbers in documents are written positionally from `1e-4` up to, not including, `1e16`. -/
def Layout.plain : Layout :=
  { leastPoint := -3, greatestPoint := 16, wholeFraction := true,
    nan := "nan", infinity := "inf" }

def Layout.decimal (l : Layout) (x : Scientific) : List Char :=
  let ds := Nat.toDigits 10 x.digits
  let point : Int := if x.digits = 0 then 1 else ds.length + x.exponent
  if l.leastPoint ≤ point ∧ point ≤ l.greatestPoint then
    if point ≤ 0 then '0' :: '.' :: (List.replicate (-point).toNat '0' ++ ds)
    else if (ds.length : Int) ≤ point then
      ds ++ List.replicate (point.toNat - ds.length) '0'
        ++ (if l.wholeFraction then ['.', '0'] else [])
    else ds.take point.toNat ++ '.' :: ds.drop point.toNat
  else
    let mantissa :=
      match ds with
      | [d] => [d]
      | d :: rest => d :: '.' :: rest
      | [] => []
    let power := point - 1
    let powerDigits := Nat.toDigits 10 power.natAbs
    mantissa ++ 'e' :: (if power < 0 then '-' else '+')
      :: (List.replicate (2 - powerDigits.length) '0' ++ powerDigits)

def text (l : Layout) : Binary64 → List Char
  | finite negative m e =>
    let body := l.decimal (if m = 0 then { digits := 0, exponent := 0 } else shortest m e)
    if negative then '-' :: body else body
  | infinite negative => if negative then '-' :: l.infinity.toList else l.infinity.toList
  | nan _ => l.nan.toList

end Binary64

end SchemaStore
