import SchemaStore.Collection
import SchemaStore.Recorder

/-!
Models and clients.  A model is a compiled schema, perhaps bound to a collection; documents are
validated on their way into the collection and on their way out.  A client is a set of named
models, which are bound when it connects to a store.
-/

namespace SchemaStore

/-- The node of an object description that is given as any mapping. -/
def Node.ofMapping (path : String) (v : Value) : Except Failure Node :=
  match v.entries? with
  | some es => Failure.lift (.ofReport .schema) (Node.ofEntries path es)
  | none => .error (.noOperation v "items")

/-- What a model is bound to. -/
inductive Binding where
  | collection (c : Collection)
  | recorder (number : Nat)

structure Model where
  schema : Schema
  binding : Option Binding

namespace Model

def name (m : Model) : String := m.schema.name

def define (rules : Registry) (name : String) (description : Value) (binding : Option Binding) :
    Except (Report SchemaError) Model := do
  let schema ← Schema.compile rules name description
  .ok { schema := schema, binding := binding }

def bind (m : Model) (b : Binding) : Model := { m with binding := some b }

def display (m : Model) : String :=
  let state := if m.binding.isSome then "bound" else "unbound"
  s!"<Model {m.name} ({state})>"

def validate (m : Model) (doc : Value) : Except Failure Unit :=
  Failure.lift (.ofReport .validation) (m.schema.validate doc)

/-- What the model is bound to; a model that is bound to nothing cannot be queried. -/
def bound (m : Model) : Except Failure Binding :=
  match m.binding with
  | some b => .ok b
  | none => .error (.unboundModel m.name)

def validateAll (m : Model) (docs : List Value) : Except Failure Unit := docs.forM m.validate

end Model

/-- Named models, in the order in which they were added, and the rules they are compiled with. -/
structure Client where
  rules : Registry
  models : List (String × Model)

namespace Client

def ofRules (rules : Registry) : Client := { rules := rules, models := [] }

def model? (c : Client) (name : String) : Option Model := c.models.lookup name

/-- Puts a model under a name, in place of the one that is there. -/
def setModel (c : Client) (name : String) (m : Model) : Client :=
  if (c.model? name).isSome then
    { c with models := c.models.map fun e => if e.1 = name then (name, m) else e }
  else { c with models := c.models ++ [(name, m)] }

/-- Compiles a description under a name that is not taken. -/
def define (c : Client) (name : String) (description : Value) :
    Except (Report SchemaError) (Model × Client) :=
  if (c.model? name).isSome then .error (.fault (.alreadyDefined name))
  else do
    let m ← Model.define c.rules name description none
    .ok (m, c.setModel name m)

end Client

end SchemaStore
