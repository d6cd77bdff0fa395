import SchemaStore.Value.Compare

/-!
Dictionaries as lists of pairs in insertion order.  A key that is written again keeps its first
place and its first spelling, and takes the new value.
-/

namespace SchemaStore

namespace Entries

def get? (es : Entries) (key : Value) : Option Value :=
  match es with
  | [] => none
  | (k, v) :: rest => if k.standsFor key then some v else get? rest key

def contains (es : Entries) (key : Value) : Bool := (es.get? key).isSome

def insert (es : Entries) (key value : Value) : Entries :=
  match es with
  | [] => [(key, value)]
  | (k, v) :: rest => if k.standsFor key then (k, value) :: rest else (k, v) :: insert rest key value

/-- The dictionary that pairs build when they are written one after the other. -/
def ofList (pairs : List (Value × Value)) : Entries :=
  pairs.foldl (fun es p => es.insert p.1 p.2) []

def field? (es : Entries) (name : String) : Option Value := es.get? (.str name)

@[simp]
theorem get?_nil (key : Value) : get? [] key = none := rfl

theorem get?_cons (k v : Value) (rest : Entries) (key : Value) :
    get? ((k, v) :: rest) key = if k.standsFor key then some v else get? rest key := rfl

end Entries

/-- The value of a mapping at a text key, and null where there is none or no mapping. -/
def Value.field (v : Value) (name : String) : Value :=
  (v.entries?.bind fun es => es.field? name).getD .null

namespace Value

/-- The parts of a value that can be gone through one by one: the items of a sequence or set, the
keys of a dictionary, the characters of a text, the bytes of a run of bytes, the members of an
enumeration. -/
def elements (v : Value) : Except Misuse (List Value) :=
  match v with
  | list xs | tuple xs | set xs => .ok xs
  | dict es | view es => .ok (es.map (·.1))
  | str s => .ok (s.toList.map fun c => str (String.singleton c))
  | bytes b => .ok (b.map fun x => int x.toNat)
  | type .intEnum => .ok []
  | v => .error (.notIterable v.typeName)

/-- Whether a value that holds others holds a text.  A text holds its parts. -/
def holdsText (v : Value) (wanted : Char) : Except Misuse Bool :=
  match v with
  | str s => .ok (s.toList.contains wanted)
  | bytes _ => .error .bytesContainer
  | type .intEnum => .error (.notMember "str" v.typeName)
  | v =>
    match v.elements with
    | .ok xs => .ok (xs.any fun x => x.same (str (String.singleton wanted)))
    | .error _ => .error (.notContainer v.typeName)

end Value

end SchemaStore
