import SchemaStore.Json.Token
import SchemaStore.Text.Quoted

/-!
The two texts of a value.  `Value.display` shows it unambiguously, as error messages do;
`Value.text` is its plain text, in which a string stands for itself.  Both write all digits of a
whole number, while nothing may be written out that has more of them than `Json.digitLimit`: whoever
asks for a text of a value has to ask `Value.isShowable` first.
-/

namespace SchemaStore
namespace Value

/-- Items between brackets, with commas. -/
def between (opening : String) (items : List String) (closing : String) : String :=
  opening ++ ", ".intercalate items ++ closing

mutual

/-- Whether a value can be shown: no whole number in it is too long to be written out. -/
def isShowable : Value → Bool
  | int n => Json.isWithinLimit n
  | fraction q => Json.isWithinLimit q.num && Json.isWithinLimit q.den
  | list xs => areShowable xs
  | tuple xs => areShowable xs
  | set xs => areShowable xs
  | dict es => areShowableEntries es
  | view es => areShowableEntries es
  | _ => true

def areShowable : List Value → Bool
  | [] => true
  | x :: xs => isShowable x && areShowable xs

def areShowableEntries : List (Value × Value) → Bool
  | [] => true
  | (k, v) :: es => isShowable k && isShowable v && areShowableEntries es

end

mutual

/-- A value as messages show it, with all digits of whole numbers. -/
def display : Value → String
  | null => "None"
  | bool b => if b then "True" else "False"
  | int n => toString n
  | float x => String.ofList (x.text .plain)
  | fraction q => s!"Fraction({q.num}, {q.den})"
  | decimal x => "Decimal('" ++ x.text ++ "')"
  | complex re im => complexText re im
  | str s => Text.quoted s
  | bytes b => Text.quotedBytes b
  | date d => d.display
  | dateTime t => t.display
  | list xs => between "[" (displayItems xs) "]"
  | tuple xs =>
    match displayItems xs with
    | [x] => "(" ++ x ++ ",)"
    | items => between "(" items ")"
  | set xs =>
    match displayItems xs with
    | [] => "set()"
    | items => between "\x7b" items "\x7d"
  | dict es => between "\x7b" (displayEntries es) "\x7d"
  | view es => between "mappingproxy(\x7b" (displayEntries es) "\x7d)"
  | type t => t.display
  | kind k => "<PrimitiveKind." ++ k.constantName ++ ": '" ++ k.label ++ "'>"

def displayItems : List Value → List String
  | [] => []
  | x :: xs => display x :: displayItems xs

def displayEntries : List (Value × Value) → List String
  | [] => []
  | (k, v) :: es => (display k ++ ": " ++ display v) :: displayEntries es

end

/-- The plain text of a value. -/
def text : Value → String
  | str s => s
  | fraction q => if q.den = 1 then toString q.num else s!"{q.num}/{q.den}"
  | decimal x => x.text
  | date d => String.ofList d.iso
  | dateTime t => String.ofList (t.isoWith ' ')
  | kind k => "PrimitiveKind." ++ k.constantName
  | v => v.display

/-- A value as messages show it, if it can be shown. -/
def shown? (v : Value) : Option String := if v.isShowable then some v.display else none

end Value
end SchemaStore
