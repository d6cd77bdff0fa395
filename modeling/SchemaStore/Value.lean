import SchemaStore.Kind
import SchemaStore.Misuse
import SchemaStore.Number.Reading
import SchemaStore.Time.DateTime

/-!
Values: what documents, filters and descriptions are made of.  The job of the library is to
check and to keep data whose types are known only at run time, so there is one dynamic type.
-/

namespace SchemaStore

/-- A dynamically typed value.  The pairs of a dictionary stand in insertion order.  The texts,
those of names and messages included, are made of Unicode scalar values: a surrogate by itself is in
no text. -/
inductive Value where
  | null
  | bool (b : Bool)
  | int (n : Int)
  | float (x : Binary64)
  | fraction (q : Ratio)
  | decimal (x : Decimal)
  | complex (re im : Binary64)
  | str (s : String)
  | bytes (b : List UInt8)
  | date (d : Date)
  | dateTime (t : DateTime)
  | list (items : List Value)
  | tuple (items : List Value)
  | set (items : List Value)
  | dict (entries : List (Value × Value))
  /-- A read-only view of a dictionary: a mapping that is not itself a dictionary. -/
  | view (entries : List (Value × Value))
  | type (t : NamedType)
  | kind (k : Kind)

/-- The pairs of a dictionary, in insertion order and without repeated keys. -/
abbrev Entries := List (Value × Value)

namespace Value

instance : Inhabited Value := ⟨null⟩

/-- The name of a value's type, with its module where messages give it. -/
def typeName : Value → String
  | null => "NoneType"
  | bool _ => "bool"
  | int _ => "int"
  | float _ => "float"
  | fraction _ => "Fraction"
  | decimal _ => "decimal.Decimal"
  | complex _ _ => "complex"
  | str _ => "str"
  | bytes _ => "bytes"
  | date _ => "datetime.date"
  | dateTime _ => "datetime.datetime"
  | list _ => "list"
  | tuple _ => "tuple"
  | set _ => "set"
  | dict _ => "dict"
  | view _ => "mappingproxy"
  | type t => t.metaLabel
  | kind _ => "PrimitiveKind"

def className : Value → String
  | decimal _ => "Decimal"
  | date _ => "date"
  | dateTime _ => "datetime"
  | v => v.typeName

/-- The pairs of a dictionary or of a view of one. -/
def entries? : Value → Option Entries
  | dict es => some es
  | view es => some es
  | _ => none

/-- The items of a list or tuple. -/
def items? : Value → Option (List Value)
  | list xs => some xs
  | tuple xs => some xs
  | _ => none

def asText? : Value → Option String
  | str s => some s
  | _ => none

/-- Whether a value counts as true: everything does but absence, zero and emptiness. -/
def truthy : Value → Bool
  | null => false
  | bool b => b
  | int n => n != 0
  | float x => !x.isZero
  | fraction q => q.num != 0
  | decimal x => !x.isZero
  | complex re im => !(re.isZero && im.isZero)
  | str s => !s.isEmpty
  | bytes b => !b.isEmpty
  | list xs | tuple xs | set xs => !xs.isEmpty
  | dict es | view es => !es.isEmpty
  | date _ | dateTime _ | type _ | kind _ => true

/-- What keeps a value from being the key of a dictionary, if anything does. -/
def unhashable? : Value → Option Misuse
  | v@(list _) | v@(set _) | v@(dict _) | v@(view _) => some (.unhashable v.typeName)
  | decimal x => if x.isSignalling then some .unhashableNaN else none
  | tuple xs => unhashableItem? xs
  | _ => none
where
  /-- The first item of a tuple that keeps it from being a key. -/
  unhashableItem? : List Value → Option Misuse
    | [] => none
    | x :: xs => (unhashable? x).or (unhashableItem? xs)

end Value

end SchemaStore
