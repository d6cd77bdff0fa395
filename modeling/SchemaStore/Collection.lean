import SchemaStore.Storage.Engine

/-!
Collections of documents.  A collection is a range of keys of the engine: the name, a colon and
the text of a document's id.  Documents are kept in their stored form, and are written once.
-/

namespace SchemaStore

/-- A collection, by its name.  Names are texts, or at least showable values that hold no colon. -/
structure Collection where
  name : Value

namespace Collection

/-- What separates the name of a collection from the text of an id. -/
def separator : Char := ':'

def idField : String := "_id"

def keyStart (c : Collection) : String := c.name.text ++ String.singleton separator

def keyOf (c : Collection) (id : String) : String := c.keyStart ++ id

def checkName (name : Value) : Except Failure Unit := do
  if !name.truthy then throw (.quoting [name] (.badValue (.collectionName name)))
  if ← Failure.lift .misuse (name.holdsText separator) then
    throw (.quoting [name] (.badValue (.collectionName name)))
  Record.checkHashable name

/-- The pair that an element of a sequence of pairs stands for. -/
def pairOf (position : Nat) (element : Value) : Except Failure (Value × Value) :=
  match element.elements with
  | .error _ => .error (.misuse (.notPair position))
  | .ok [key, value] => do
    Record.checkHashable key
    .ok (key, value)
  | .ok parts => .error (.badValue (.notTwo position parts.length))

/-- Adds the pairs that elements stand for, the first of them at a position. -/
def addPairs (position : Nat) (es : Entries) : List Value → Except Failure Entries
  | [] => .ok es
  | element :: rest => do
    let (key, value) ← pairOf position element
    addPairs (position + 1) (es.insert key value) rest

/-- The document that a value stands for: a mapping, or a sequence of pairs. -/
def documentOf (v : Value) : Except Failure Entries :=
  match v with
  | .dict es | .view es => .ok es
  | .type .dict => .error (.misuse (.noReceiver "keys"))
  | v => do
    let elements ← Failure.lift .misuse v.elements
    addPairs 0 [] elements

/-- The document as it will be stored: with a fresh id unless it has one. -/
def withId (es : Entries) (fresh : String) : Entries :=
  if (es.field? idField).isSome then es else es.insert (.str idField) (.str fresh)

def idOf (es : Entries) : Value := (es.field? idField).getD .null

/-- Stores a document that has an id.  An id whose text is taken is refused, and one that has no
text before anything else. -/
def insert (c : Collection) (clock : Int) (es : Entries) : Action Unit := do
  let id := idOf es
  if !id.isShowable then throw (.badValue .unshowable)
  let text ← Engine.ofResult
    (Failure.lift .ofEncode (Stored.encode (.dict es)))
  let isNew ← Engine.putNew clock (.str (c.keyOf id.text)) (.str text)
  if !isNew then throw (.store (.duplicateId id c.name.text))

/-- The documents in stored form that match a filter, decoded. -/
def select (filter : Value) : List (String × Value) → Except Failure (List Value)
  | [] => .ok []
  | (_, stored) :: rest => do
    let doc ← Failure.lift .ofDecode (Stored.decode stored)
    let matched ← Failure.lift (.ofReport .ofFilter) (Filter.accepts filter doc)
    let docs ← select filter rest
    .ok (if matched then doc :: docs else docs)

/-- The documents that match a filter, in the order of the engine's scan. -/
def find (c : Collection) (filter : Value) : Action (List Value) := do
  let records ← Engine.scan c.keyStart
  Engine.ofResult (select filter records)

/-- The document of an id, null where there is none. -/
def get (c : Collection) (id : Value) : Action Value := do
  match id with
  | .str id =>
    match ← Engine.get (.str (c.keyOf id)) with
    | .null => pure .null
    | stored => Engine.ofResult (Failure.lift .ofDecode (Stored.decode stored))
  | id => throw (.misuse (.notConcatenable id.typeName))

end Collection

end SchemaStore
