import SchemaStore.Node
import SchemaStore.Registry

/-!
Schemas.  A node is compiled, with a registry of rules, into a validator: a tree in which every
check knows its path and what it expects.  Validating a document walks the tree and stops at the
first check that fails.
-/

namespace SchemaStore

/-- A document does not match its schema. -/
inductive ValidationError where
  /-- A value is not of the expected form. -/
  | expected (path form : String)
  /-- An exclusive object has keys that are not declared. -/
  | extraKeys (path : String) (keys : List Value)

namespace ValidationError

def path : ValidationError → String
  | expected path _ => path
  | extraKeys path _ => path

def form? : ValidationError → Option String
  | expected _ form => some form
  | extraKeys _ _ => none

def extra : ValidationError → List Value
  | expected _ _ => []
  | extraKeys _ keys => keys

def message : ValidationError → String
  | expected path form => s!"ValidationError for {path}: Expected {form}"
  | extraKeys path keys =>
    let names := ",".intercalate (keys.map Value.text)
    s!"ValidationError for {path}: Found extra keys [{names}]. "
      ++ "Reason: Exclusive flag set to true in schema options."

end ValidationError

inductive Validator where
  | primitive (path form : String) (predicate : Predicate)
  | arrayOf (path form : String) (element : Validator)
  | objectOf (path : String) (exclusive : Bool) (fields : List (String × Validator))

namespace Validator

open Description (fieldPath)

mutual

/-- The validator of a node.  It exists when there is a rule for every primitive in the node. -/
def ofNode (rules : Registry) (path : String) : Node → Except (Report SchemaError) Validator
  | .primitive k =>
    match rules.lookup k with
    | some p => .ok (primitive path k.label p)
    | none => .error (.fault (.noRule path k))
  | .arrayOf element => do
    let v ← ofNode rules path element
    .ok (arrayOf path (Node.arrayOf element).form v)
  | .objectOf exclusive fields => do
    let vs ← ofFields rules path fields
    .ok (objectOf path exclusive vs)
  | .foreign v => .error (.ofText v.shown? (.notDescription path))

def ofFields (rules : Registry) (path : String) :
    List (String × Node) → Except (Report SchemaError) (List (String × Validator))
  | [] => .ok []
  | (name, node) :: rest => do
    let v ← ofNode rules (fieldPath path name) node
    let vs ← ofFields rules path rest
    .ok ((name, v) :: vs)

end

/-- The keys of a document that no field declares, in the document's order. -/
def undeclared (fields : List (String × Validator)) (es : Entries) : List Value :=
  (es.map (·.1)).filter fun k => !(fields.any fun f => k.same (.str f.1))

mutual

/-- Checks a value.  An absent field counts as null. -/
def check : Validator → Value → Except (Report ValidationError) Unit
  | primitive path form p, v =>
    if p.holds v then .ok () else .error (.fault (.expected path form))
  | arrayOf path form element, v =>
    match v.items? with
    | none => .error (.fault (.expected path form))
    | some xs => xs.forM (check element)
  | objectOf path exclusive fields, v =>
    match v.entries? with
    | none => .error (.fault (.expected path "object"))
    | some es =>
      -- Keys that are not declared are an error before any field is looked at.
      let extra := if exclusive then undeclared fields es else []
      if extra.isEmpty then checkFields fields es
      else .error (.quoting extra (.extraKeys path extra))

def checkFields : List (String × Validator) → Entries → Except (Report ValidationError) Unit
  | [], _ => .ok ()
  | (name, validator) :: rest, es => do
    check validator ((es.field? name).getD .null)
    checkFields rest es

end

end Validator

/-- A named description together with its validator. -/
structure Schema where
  name : String
  description : Value
  validator : Validator

namespace Schema

def compile (rules : Registry) (name : String) (description : Value) :
    Except (Report SchemaError) Schema := do
  let node ← Node.ofDescription name description
  let validator ← Validator.ofNode rules name node
  .ok { name := name, description := description, validator := validator }

def validate (s : Schema) (doc : Value) : Except (Report ValidationError) Unit :=
  s.validator.check doc

def display (s : Schema) : String := s!"<Schema {s.name}>"

end Schema

end SchemaStore
