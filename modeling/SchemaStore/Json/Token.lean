import SchemaStore.Number.Binary64
import SchemaStore.Number.Reading
import SchemaStore.Value

/-!
The tokens of a JSON text.  `Json.tokens` cuts a text into tokens and notes where each starts.
A text that is not well formed still has tokens: a character that starts none is a token of its
own, and so is a string that is broken off.  Whether such a token is an error, and which one,
depends on what was expected in its place.
-/

namespace SchemaStore
namespace Json

inductive Cause where
  | byteOrderMark
  | expectingValue
  | expectingName
  | expectingColon
  | expectingComma
  | extraData
  | unterminatedString
  | controlCharacter
  | badEscape
  | badUnicodeEscape
deriving DecidableEq, Repr

def Cause.text : Cause → String
  | byteOrderMark => "Unexpected UTF-8 BOM (decode using utf-8-sig)"
  | expectingValue => "Expecting value"
  | expectingName => "Expecting property name enclosed in double quotes"
  | expectingColon => "Expecting ':' delimiter"
  | expectingComma => "Expecting ',' delimiter"
  | extraData => "Extra data"
  | unterminatedString => "Unterminated string starting at"
  | controlCharacter => "Invalid control character at"
  | badEscape => "Invalid \\escape"
  | badUnicodeEscape => "Invalid \\uXXXX escape"

inductive Token where
  | beginList
  | endList
  | beginObject
  | endObject
  | colon
  | comma
  /-- A number or one of the literal names. -/
  | scalar (v : Value)
  | string (s : String)
  /-- A string that breaks off, with the place of the fault. -/
  | brokenString (cause : Cause) (position : Nat)
  | longInteger (digits : Nat)
  /-- A character that starts no token. -/
  | stray

/-- A token and the place of its first character. -/
structure Placed where
  token : Token
  start : Nat

/-- JSON has only four blank characters. -/
def isBlank (c : Char) : Bool := c == ' ' || c == '\t' || c == '\n' || c == '\r'

/-- Whole numbers of more digits than this are neither read nor written. -/
def digitLimit : Nat := 4300

/-- A whole number that can be written out. -/
def isWithinLimit (n : Int) : Bool := (Nat.toDigits 10 n.natAbs).length ≤ digitLimit

/-! ## Numbers -/

/-- The digits of a fraction at the front, when a point and at least one digit stand there. -/
def fractionDigits : List Char → List Char
  | '.' :: rest => rest.takeWhile Char.isDigit
  | _ => []

/-- The length and value of a power of ten at the front.  Without a digit there is none. -/
def power? : List Char → Option (Nat × Int)
  | e :: rest =>
    if e = 'e' ∨ e = 'E' then
      let (negative, digits) := Numeral.readSign rest
      let signs := rest.length - digits.length
      let ds := digits.takeWhile Char.isDigit
      if ds.isEmpty then none
      else
        let n : Int := Nat.ofDigitChars 10 ds 0
        some (1 + signs + ds.length, if negative then -n else n)
    else none
  | [] => none

/-- The digits before the point: a lone zero, or digits of which the first is not zero. -/
def wholeDigits : List Char → List Char
  | '0' :: _ => ['0']
  | cs => cs.takeWhile Char.isDigit

def number? (cs : List Char) : Option (Token × Nat) :=
  let negative := cs.head? == some '-'
  let body := if negative then cs.drop 1 else cs
  let whole := wholeDigits body
  if whole.isEmpty then none
  else
    let fraction := fractionDigits (body.drop whole.length)
    let fractionLength := if fraction.isEmpty then 0 else fraction.length + 1
    let signs := if negative then 1 else 0
    let before := signs + whole.length + fractionLength
    let power := power? (cs.drop before)
    -- Only digits before a point count towards the limit, and only where nothing follows them.
    if fraction.isEmpty ∧ power = none then
      if digitLimit < whole.length then some (.longInteger whole.length, before)
      else
        let n : Int := Nat.ofDigitChars 10 whole 0
        some (.scalar (.int (if negative then -n else n)), before)
    else
      let (length, exponent) := power.getD (0, 0)
      let x := Binary64.ofDecimal negative (Nat.ofDigitChars 10 (whole ++ fraction) 0)
        (exponent - fraction.length)
      some (.scalar (.float x), before + length)

/-! ## Strings -/

def hex4? (a b c d : Char) : Option Nat := do
  let digit (x : Char) : Option Nat :=
    if x.isDigit then some (x.toNat - 48)
    else if 'a' ≤ x ∧ x ≤ 'f' then some (x.toNat - 87)
    else if 'A' ≤ x ∧ x ≤ 'F' then some (x.toNat - 55)
    else none
  let a ← digit a
  let b ← digit b
  let c ← digit c
  let d ← digit d
  some (((a * 16 + b) * 16 + c) * 16 + d)

/-- The character that a backslash and a letter stand for. -/
def shortEscape? : Char → Option Char
  | '"' => some '"'
  | '\\' => some '\\'
  | '/' => some '/'
  | 'b' => some '\x08'
  | 'f' => some '\x0c'
  | 'n' => some '\n'
  | 'r' => some '\r'
  | 't' => some '\t'
  | _ => none

/-- The code units of a string up to its closing mark, and the number of characters read with
the mark.  `start` is the place of the opening mark and `position` that of the first character
given. -/
def stringUnits (start position : Nat) : List Char → Except (Cause × Nat) (List Nat × Nat)
  | [] => .error (.unterminatedString, start)
  | c :: rest =>
    if c = '"' then .ok ([], 1)
    else if c = '\\' then
      match rest with
      | [] => .error (.unterminatedString, start)
      | 'u' :: rest =>
        match rest with
        | a :: b :: c :: d :: rest =>
          -- Four digits are not enough: something has to follow them.
          if rest.isEmpty then .error (.badUnicodeEscape, position + 1)
          else
            match hex4? a b c d with
            | none => .error (.badUnicodeEscape, position + 1)
            | some unit => do
              let (units, width) ← stringUnits start (position + 6) rest
              .ok (unit :: units, width + 6)
        | _ => .error (.badUnicodeEscape, position + 1)
      | e :: rest =>
        match shortEscape? e with
        | none => .error (.badEscape, position)
        | some c => do
          let (units, width) ← stringUnits start (position + 2) rest
          .ok (c.toNat :: units, width + 2)
    else if c.toNat ≤ 0x1f then .error (.controlCharacter, position)
    else do
      let (units, width) ← stringUnits start (position + 1) rest
      .ok (c.toNat :: units, width + 1)

/-- The characters that code units stand for.  A high and a low surrogate together are one
character.  A surrogate without its partner is no character, so that no text has it; the zero
character takes its place. -/
def ofUnits : List Nat → List Char
  | [] => []
  | [u] => [Char.ofNat u]
  | u :: v :: rest =>
    if 0xd800 ≤ u ∧ u < 0xdc00 ∧ 0xdc00 ≤ v ∧ v < 0xe000 then
      Char.ofNat (0x10000 + (u - 0xd800) * 0x400 + (v - 0xdc00)) :: ofUnits rest
    else Char.ofNat u :: ofUnits (v :: rest)

/-! ## The text as tokens -/

def names : List (List Char × Value) :=
  [("null".toList, .null), ("true".toList, .bool true), ("false".toList, .bool false),
   ("NaN".toList, .float (.nan true)), ("Infinity".toList, .float (.infinite false)),
   ("-Infinity".toList, .float (.infinite true))]

/-- The token at the front of a text that does not start with a blank, and its length. -/
def tokenAt (position : Nat) (cs : List Char) : Token × Nat :=
  match cs with
  | '[' :: _ => (.beginList, 1)
  | ']' :: _ => (.endList, 1)
  | '\x7b' :: _ => (.beginObject, 1)
  | '\x7d' :: _ => (.endObject, 1)
  | ':' :: _ => (.colon, 1)
  | ',' :: _ => (.comma, 1)
  | '"' :: rest =>
    match stringUnits position (position + 1) rest with
    | .ok (units, width) => (.string (String.ofList (ofUnits units)), width + 1)
    | .error (cause, place) => (.brokenString cause place, 1)
  | cs =>
    match names.find? fun n => n.1.isPrefixOf cs with
    | some (name, v) => (.scalar v, name.length)
    | none => (number? cs).getD (.stray, 1)

/-- The tokens of the text that starts at `position`, after `skip` characters that belong to a
token already taken.  Nothing is read behind a broken string. -/
def tokensFrom (position skip : Nat) : List Char → List Placed
  | [] => []
  | c :: rest =>
    match skip with
    | skip + 1 => tokensFrom (position + 1) skip rest
    | 0 =>
      if isBlank c then tokensFrom (position + 1) 0 rest
      else
        match tokenAt position (c :: rest) with
        | (.brokenString cause place, _) => [⟨.brokenString cause place, position⟩]
        | (token, width) => ⟨token, position⟩ :: tokensFrom (position + 1) (width - 1) rest

def tokens (cs : List Char) : List Placed := tokensFrom 0 0 cs

end Json
end SchemaStore
