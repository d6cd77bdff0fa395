import SchemaStore.Json.Writer
import SchemaStore.Report
import SchemaStore.Value.Entries

/-!
Descriptions of documents.  A description is given as a value: a kind or the name of a type for
a primitive, a list or tuple of one description for an array, and a dictionary of descriptions
for an object.  `Node.ofValue` turns it into a node or reports where the first fault is.
-/

namespace SchemaStore

/-- A description that has been understood.  `foreign` stands for an object that never was one;
it can be handed to the compiler, which refuses it. -/
inductive Node where
  | primitive (kind : Kind)
  | arrayOf (element : Node)
  | objectOf (exclusive : Bool) (fields : List (String × Node))
  | foreign (v : Value)

/-- A fault in a description, found before any document is looked at. -/
inductive SchemaError where
  | elementCount (path rendered : String)
  | notDescription (path rendered : String)
  | fieldName (path rendered : String)
  | notDictionary (path type rendered : String)
  | noRule (path : String) (kind : Kind)
  | alreadyDefined (name : String)
deriving DecidableEq, Repr

namespace SchemaError

def path : SchemaError → String
  | elementCount path _ | notDescription path _ | fieldName path _ => path
  | notDictionary path _ _ => path
  | noRule path _ => path
  | alreadyDefined name => name

/-- The text of the offending part of the description. -/
def node : SchemaError → Option String
  | elementCount _ rendered | notDescription _ rendered | fieldName _ rendered => some rendered
  | notDictionary _ _ rendered => some rendered
  | noRule _ kind => some kind.label
  | alreadyDefined _ => none

def message (e : SchemaError) : String :=
  s!"SchemaError for {e.path}: " ++
    match e with
    | elementCount _ rendered => s!"Array schema to have exactly one element, got {rendered}"
    | notDescription _ rendered => s!"Schema {rendered} is not a valid description."
    | fieldName _ rendered => s!"Field name {rendered} must be a string."
    | notDictionary _ type _ => s!"Top-level schema must be a dict, got {type}."
    | noRule _ kind => s!"No primitive rule registered for {kind.label}."
    | alreadyDefined _ => "Model is already defined."

end SchemaError

namespace Description

def fieldPath (path field : String) : String := path ++ "." ++ field

/-- A part of a description that JSON has no form for: kinds and types go by their names. -/
def marker : Value → Except Json.WriteFault (List Char)
  | .kind k => .ok (Json.quote k.label)
  | .type t => .ok (Json.quote t.label)
  | v =>
    match v.shown? with
    | some s => .ok (Json.quote s)
    | none => .error .longInteger

/-- A description as error messages show it: as indented JSON where that is possible. -/
def render (v : Value) : Option String :=
  match Json.write marker (some 0) v with
  | .ok cs => some (String.ofList cs)
  | .error _ => v.shown?

def kind? : Value → Option Kind
  | .kind k => some k
  | .type t => t.kind?
  | _ => none

/-- Fields whose names start with this are options of the object and describe nothing. -/
def optionMark : String := "_"

def isOption (name : String) : Bool := optionMark.toList.isPrefixOf name.toList

/-- The option that closes an object to undeclared keys. -/
def exclusiveOption : String := optionMark ++ "exclusive"

def isExclusive (es : Entries) : Bool := ((es.field? exclusiveOption).getD (.bool false)).truthy

end Description

namespace Node

open Description

/-- The text of a node in the messages of failed checks.  An object that is no node is refused
before it is asked for one. -/
def form : Node → String
  | primitive k => k.label
  | arrayOf element => s!"array of [{element.form}]"
  | objectOf _ _ => "object"
  | foreign v => v.typeName

mutual

/-- The node that a value describes, or the report of the first fault in it.  `path` names the place
of the value in messages. -/
def ofValue (path : String) : Value → Except (Report SchemaError) Node
  | .list xs => do
    let element ← ofElement path xs
    .ok (arrayOf element)
  | .tuple xs => do
    let element ← ofElement path xs
    .ok (arrayOf element)
  | .dict es => do
    let fields ← ofFields path es
    .ok (objectOf (isExclusive es) fields)
  | .kind k => .ok (primitive k)
  | .type t =>
    match t.kind? with
    | some k => .ok (primitive k)
    | none => .error (.ofText (render (.type t)) (.notDescription path))
  | v => .error (.ofText (render v) (.notDescription path))

/-- The node of the one element of an array description. -/
def ofElement (path : String) : List Value → Except (Report SchemaError) Node
  | [x] => ofValue path x
  | xs => .error (.ofText (render (.list xs)) (.elementCount path))

/-- The declared fields of an object description, in their order. -/
def ofFields (path : String) :
    List (Value × Value) → Except (Report SchemaError) (List (String × Node))
  | [] => .ok []
  | (k, v) :: es =>
    match k with
    | .str name =>
      if isOption name then ofFields path es
      else do
        let node ← ofValue (fieldPath path name) v
        let fields ← ofFields path es
        .ok ((name, node) :: fields)
    | k => .error (.ofText k.shown? (.fieldName path))

end

/-- The node of an object description that is given by its pairs. -/
def ofEntries (path : String) (es : Entries) : Except (Report SchemaError) Node := do
  let fields ← ofFields path es
  .ok (objectOf (isExclusive es) fields)

/-- The node of a whole description, which must be a dictionary. -/
def ofDescription (name : String) (v : Value) : Except (Report SchemaError) Node :=
  match v with
  | .dict es => ofEntries name es
  | v => .error (.ofText v.shown? (.notDictionary name v.className))

end Node

end SchemaStore
