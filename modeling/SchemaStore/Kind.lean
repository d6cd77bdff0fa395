/-!
The primitive kinds that a description can ask for, and the names of types.  A name of a type
can stand in a description; some of the names mark a primitive kind.
-/

namespace SchemaStore

inductive Kind where
  | boolean
  | date
  | number
  | text
deriving DecidableEq, Repr

namespace Kind

/-- Every kind once, in the order in which rules are seeded. -/
def all : List Kind := [boolean, date, number, text]

def label : Kind → String
  | boolean => "Boolean"
  | date => "Date"
  | number => "Number"
  | text => "String"

def constantName : Kind → String
  | boolean => "BOOLEAN"
  | date => "DATE"
  | number => "NUMBER"
  | text => "TEXT"

def ofLabel? (s : String) : Option Kind := all.find? fun k => k.label == s

theorem mem_all (k : Kind) : k ∈ all := by cases k <;> decide

theorem ofLabel?_label (k : Kind) : ofLabel? k.label = some k := by cases k <;> decide

end Kind

/-- A type that a value can name. -/
inductive NamedType where
  | bool | int | float | str | date | dateTime
  | bytes | list | tuple | dict | set | object | complex | type | time
  | decimal | fraction | intEnum | noneType
deriving DecidableEq, Repr

namespace NamedType

def all : List NamedType :=
  [bool, int, float, str, date, dateTime, bytes, list, tuple, dict, set, object, complex, type,
   time, decimal, fraction, intEnum, noneType]

def label : NamedType → String
  | bool => "bool"
  | int => "int"
  | float => "float"
  | str => "str"
  | date => "date"
  | dateTime => "datetime"
  | bytes => "bytes"
  | list => "list"
  | tuple => "tuple"
  | dict => "dict"
  | set => "set"
  | object => "object"
  | complex => "complex"
  | type => "type"
  | time => "time"
  | decimal => "Decimal"
  | fraction => "Fraction"
  | intEnum => "IntEnum"
  | noneType => "NoneType"

/-- How the type itself is shown: with the module that it belongs to. -/
def display : NamedType → String
  | intEnum => "<enum 'IntEnum'>"
  | t =>
    let home := match t with
      | date | dateTime | time => "datetime."
      | decimal => "decimal."
      | fraction => "fractions."
      | _ => ""
    "<class '" ++ home ++ t.label ++ "'>"

/-- The name under which the type itself is missed when it lacks something: built-in types keep
their module. -/
def fullName : NamedType → String
  | date => "datetime.date"
  | dateTime => "datetime.datetime"
  | time => "datetime.time"
  | decimal => "decimal.Decimal"
  | t => t.label

/-- The name of the type that the type itself belongs to. -/
def metaLabel : NamedType → String
  | fraction => "ABCMeta"
  | intEnum => "EnumType"
  | _ => "type"

def ofLabel? (s : String) : Option NamedType := all.find? fun t => t.label == s

/-- The kind that the type marks in a description, for the six types that mark one. -/
def kind? : NamedType → Option Kind
  | bool => some .boolean
  | date | dateTime => some .date
  | int | float => some .number
  | str => some .text
  | _ => none

theorem mem_all (t : NamedType) : t ∈ all := by cases t <;> decide

end NamedType

end SchemaStore
