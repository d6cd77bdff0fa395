import SchemaStore.Json.Token
import SchemaStore.Number.Shortest
import SchemaStore.Text.Quoted
import SchemaStore.Value

/-!
Writing values as JSON.  The text is plain ASCII: every other character is escaped by its UTF-16
code units.  Tuples are written as lists, and the keys of a dictionary as text.  What to do with
a value that JSON has no form for is up to the caller, who passes a function for it.
-/

namespace SchemaStore
namespace Json

inductive WriteFault where
  /-- A key of a type that has no text form. -/
  | badKey (type : String)
  | notSerializable (type : String)
  /-- A value that neither JSON nor the caller has a form for. -/
  | notStorable (type : String)
  | longInteger
deriving DecidableEq, Repr

def WriteFault.message : WriteFault → String
  | badKey type => s!"keys must be str, int, float, bool or None, not {type}"
  | notSerializable type => s!"Object of type {type} is not JSON serializable"
  | notStorable type => s!"Object of type {type} is not storable"
  | longInteger =>
    s!"Exceeds the limit ({digitLimit} digits) for integer string conversion; "
      ++ "use sys.set_int_max_str_digits() to increase the limit"

/-- Numbers are laid out as in documents, but the values that are no numbers have names. -/
def numberLayout : Binary64.Layout :=
  { Binary64.Layout.plain with nan := "NaN", infinity := "Infinity" }

/-- The UTF-16 code units of a character. -/
def units (c : Char) : List Nat :=
  let n := c.toNat
  if n < 0x10000 then [n] else [0xd800 + (n - 0x10000) / 0x400, 0xdc00 + (n - 0x10000) % 0x400]

def escape (c : Char) : List Char :=
  if c = '"' ∨ c = '\\' then ['\\', c]
  else if c = '\n' then ['\\', 'n']
  else if c = '\r' then ['\\', 'r']
  else if c = '\t' then ['\\', 't']
  else if c = '\x0c' then ['\\', 'f']
  else if c = '\x08' then ['\\', 'b']
  else if ' ' ≤ c ∧ c ≤ '~' then [c]
  else (units c).flatMap fun u => '\\' :: 'u' :: Text.hex 4 u

def quote (s : String) : List Char := '"' :: (s.toList.flatMap escape ++ ['"'])

def integer (n : Int) : List Char :=
  if n < 0 then '-' :: Nat.toDigits 10 n.natAbs else Nat.toDigits 10 n.natAbs

def wholeNumber (n : Int) : Except WriteFault (List Char) :=
  if digitLimit < (Nat.toDigits 10 n.natAbs).length then .error .longInteger
  else .ok (integer n)

def boolean (b : Bool) : List Char := if b then "true".toList else "false".toList

/-- The text under which a key is written. -/
def key : Value → Except WriteFault (List Char)
  | .str s => .ok (quote s)
  | .null => .ok (quote "null")
  | .bool b => .ok ('"' :: (boolean b ++ ['"']))
  | .int n => do
    let digits ← wholeNumber n
    .ok ('"' :: (digits ++ ['"']))
  | .float x => .ok ('"' :: (x.text numberLayout ++ ['"']))
  | v => .error (.badKey v.typeName)

/-- Parts between brackets.  On one line they are separated by a comma and a space; with an
indentation each part has a line of its own, two spaces deeper than the brackets. -/
def enclose (indent : Option Nat) (left right : Char) (parts : List (List Char)) : List Char :=
  match parts, indent with
  | [], _ => [left, right]
  | parts, none => left :: ([',', ' '].intercalate parts ++ [right])
  | parts, some depth =>
    let line (n : Nat) : List Char := '\n' :: List.replicate (2 * n) ' '
    left :: (line (depth + 1) ++ (',' :: line (depth + 1)).intercalate parts ++ line depth
      ++ [right])

/-- The depth of the parts of what is written at a depth. -/
def deeper (indent : Option Nat) : Option Nat := indent.map (· + 1)

mutual

/-- The text of a value, with `foreign` for what JSON has no form for. -/
def write (foreign : Value → Except WriteFault (List Char)) (indent : Option Nat) :
    Value → Except WriteFault (List Char)
  | .null => .ok "null".toList
  | .bool b => .ok (boolean b)
  | .int n => wholeNumber n
  | .float x => .ok (x.text numberLayout)
  | .str s => .ok (quote s)
  | .list xs => do
    let parts ← writeItems foreign (deeper indent) xs
    .ok (enclose indent '[' ']' parts)
  | .tuple xs => do
    let parts ← writeItems foreign (deeper indent) xs
    .ok (enclose indent '[' ']' parts)
  | .dict es => do
    let parts ← writeEntries foreign (deeper indent) es
    .ok (enclose indent '\x7b' '\x7d' parts)
  | v => foreign v

def writeItems (foreign : Value → Except WriteFault (List Char)) (indent : Option Nat) :
    List Value → Except WriteFault (List (List Char))
  | [] => .ok []
  | x :: xs => do
    let part ← write foreign indent x
    let parts ← writeItems foreign indent xs
    .ok (part :: parts)

def writeEntries (foreign : Value → Except WriteFault (List Char)) (indent : Option Nat) :
    List (Value × Value) → Except WriteFault (List (List Char))
  | [] => .ok []
  | (k, v) :: es => do
    let name ← key k
    let part ← write foreign indent v
    let parts ← writeEntries foreign indent es
    .ok ((name ++ ':' :: ' ' :: part) :: parts)

end

/-- The text of a value on one line, for values that JSON has a form for. -/
def text (v : Value) : Except WriteFault (List Char) :=
  write (fun v => .error (.notSerializable v.className)) none v

end Json
end SchemaStore
