import SchemaStore.Number.Decimal
import SchemaStore.Number.Shortest

/-!
Reading numbers from their text.  One form serves doubles, decimals and the numbers of JSON: a
sign, digits with perhaps a point among them, and perhaps a power of ten.
-/

namespace SchemaStore

/-- A number as it is written: `± digits · 10 ^ exponent`. -/
structure Numeral where
  negative : Bool
  digits : Nat
  exponent : Int
deriving DecidableEq

namespace Numeral

def readSign : List Char → Bool × List Char
  | '-' :: rest => (true, rest)
  | '+' :: rest => (false, rest)
  | cs => (false, cs)

/-- A whole number made of digits alone, and at least one of them. -/
def readNat? (cs : List Char) : Option Nat :=
  if !cs.isEmpty && cs.all Char.isDigit then some (Nat.ofDigitChars 10 cs 0) else none

def readInt? (cs : List Char) : Option Int := do
  let (negative, ds) := readSign cs
  let n ← readNat? ds
  some (if negative then -(n : Int) else n)

/-- A number with a point and a power of ten, both of which may be missing. -/
def read? (cs : List Char) : Option Numeral := do
  let (negative, cs) := readSign cs
  let isPower (c : Char) : Bool := c = 'e' || c = 'E'
  let mantissa := cs.takeWhile fun c => !isPower c
  let power ← match cs.dropWhile fun c => !isPower c with
    | [] => some 0
    | _ :: rest => readInt? rest
  let whole := mantissa.takeWhile (· ≠ '.')
  let fraction := (mantissa.dropWhile (· ≠ '.')).drop 1
  let digits ← readNat? (whole ++ fraction)
  some { negative := negative, digits := digits, exponent := power - fraction.length }

end Numeral

def Binary64.ofText? (cs : List Char) : Option Binary64 :=
  let (negative, rest) := Numeral.readSign cs
  if rest = "inf".toList then some (.infinite negative)
  else if rest = "nan".toList then some (.nan false)
  else (Numeral.read? cs).map fun n => .ofDecimal n.negative n.digits n.exponent

def Decimal.ofText? (cs : List Char) : Option Decimal :=
  let (negative, rest) := Numeral.readSign cs
  if rest = "Infinity".toList then some (.infinite negative)
  else if rest = "NaN".toList ∨ rest = "sNaN".toList then some (.nan (String.ofList cs))
  else (Numeral.read? cs).map fun n => .finite n.negative n.digits n.exponent

def Numeral.toRatio (n : Numeral) : Ratio :=
  let q := Ratio.shifted (if n.negative then -(n.digits : Int) else n.digits) n.exponent
  .reduced q.num q.den

/-- The fraction written `n/d`, or as a number with perhaps a point and a power of ten. -/
def Ratio.ofText? (cs : List Char) : Option Ratio :=
  match cs.dropWhile (· ≠ '/') with
  | [] => (Numeral.read? cs).map Numeral.toRatio
  | _ :: rest => do
    let num ← Numeral.readInt? (cs.takeWhile (· ≠ '/'))
    let den ← Numeral.readNat? rest
    if den = 0 then none else some (Ratio.reduced num den)

/-- Doubles inside a complex number are written without the fraction of a whole number. -/
def Binary64.Layout.bare : Binary64.Layout := { Binary64.Layout.plain with wholeFraction := false }

/-- The text of a complex number: the imaginary part alone when the real part is a positive
zero, otherwise both parts in parentheses. -/
def complexText (re im : Binary64) : String :=
  let imaginary := Binary64.text .bare im ++ ['j']
  if re = Binary64.zero false then String.ofList imaginary
  else
    let sign := if imaginary.head? = some '-' then [] else ['+']
    String.ofList ('(' :: (Binary64.text .bare re ++ sign ++ imaginary ++ [')']))

/-- The parts of a complex number in the notation of `complexText`.  The sign that starts the
imaginary part is the last one that does not belong to a power of ten. -/
def complexOfText? (cs : List Char) : Option (Binary64 × Binary64) := do
  let inner := cs.filter fun c => c ≠ '(' && c ≠ ')'
  if inner.getLast? ≠ some 'j' then none
  else
    let body := inner.dropLast
    let cut := (List.range body.length).reverse.find? fun i =>
      0 < i && (body.getD i ' ' = '+' || body.getD i ' ' = '-')
        && body.getD (i - 1) ' ' ≠ 'e'
    match cut with
    | none => do
      let im ← Binary64.ofText? body
      some (Binary64.zero false, im)
    | some i => do
      let re ← Binary64.ofText? (body.take i)
      let im ← Binary64.ofText? (body.drop i)
      some (re, im)

example : Decimal.ofText? "1.50".toList = some (.finite false 150 (-2)) := by decide
example : (Decimal.finite false 150 (-2)).text = "1.50" := by decide

end SchemaStore
