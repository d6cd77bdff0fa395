import SchemaStore.Filter
import SchemaStore.Path
import SchemaStore.Stored
import SchemaStore.Text.Bookmark
import SchemaStore.Validator

/-!
Everything that can go wrong, in one type.  Each cause keeps the data that its message names;
`Failure.message` is the only place where a failure of the store is worded.
-/

namespace SchemaStore

inductive StoreError where
  | closed (directory : Path)
  | corruptLog (file : Path) (line : Nat)
  | corruptTable (file : Path)
  | duplicateId (id : Value) (collection : String)
  | unencodable (fault : Json.WriteFault)
  | undecodable (fault : Json.ReadFault Stored.TagFault)
  | unknownOperator (operator field : Value)

def StoreError.message : StoreError → String
  | closed directory => s!"Store at {directory.text} is closed"
  | corruptLog file line => s!"Corrupt WAL record at {file.text}:{line}"
  | corruptTable file => s!"Corrupt SSTable record in {file.text}"
  | duplicateId id collection => s!"Duplicate _id {id.display} in {collection}"
  | unencodable fault => s!"Cannot encode document: {fault.message}"
  | undecodable fault =>
    "Cannot decode stored document: " ++ fault.message Stored.TagFault.message
  | unknownOperator operator field =>
    s!"Unknown filter operator {operator.display} on {field.text}"

/-- A value of the right type that is out of bounds. -/
inductive BadValue where
  | belowOne (setting : String) (given : Value)
  | noDataDirectory
  | notInteger (text : String)
  | longInteger (digits : Nat)
  | collectionName (name : Value)
  /-- What should be the pair of a key and a value has another length. -/
  | notTwo (position length : Nat)
  | negativeOffset (offset : Value)
  | negativeLength
  | undefinedOffset
  | logIsClosed
  | zeroCharacter
  /-- A text was asked for of a value that holds too long a whole number. -/
  | unshowable

def dataDirectoryVariable : String := "PY_DOCMODEL_DATA_DIR"

def BadValue.message : BadValue → String
  | belowOne setting given => s!"{setting} must be >= 1, got {given.text}"
  | noDataDirectory => s!"{dataDirectoryVariable} is not set and no default was given"
  | notInteger text =>
    "invalid literal for int() with base 10: "
      ++ String.ofList ((Text.quoted text).toList.take 200)
  | longInteger digits => Json.longIntegerMessage digits
  | collectionName name => s!"Invalid collection name {name.display}"
  | notTwo position length =>
    s!"dictionary update sequence element #{position} has length {length}; 2 is required"
  | negativeOffset offset => s!"negative seek position {offset.display}"
  | negativeLength => "read length must be non-negative or -1"
  | undefinedOffset => "cannot convert float NaN to integer"
  | logIsClosed => "I/O operation on closed file."
  | zeroCharacter => "embedded null byte"
  | unshowable => Json.WriteFault.longInteger.message

inductive DiskError where
  | exists (path : Path)
  | missing (path : Path)
  | notDirectory (path : Path)
  /-- A place at which no file has a byte. -/
  | outOfReach
  | lostPlace

def DiskError.message : DiskError → String
  | .exists path => "[Errno 17] File exists: " ++ Text.quoted path.text
  | missing path => "[Errno 2] No such file or directory: " ++ Text.quoted path.text
  | notDirectory path => "[Errno 20] Not a directory: " ++ Text.quoted path.text
  | outOfReach => "[Errno 22] Invalid argument"
  | lostPlace => "can't restore logical file position"

inductive Failure where
  | misuse (m : Misuse)
  /-- A value lacks the operation of the name. -/
  | noOperation (owner : Value) (name : String)
  | missingKey (key : Value)
  | positionOutOfRange
  /-- A position that no sequence could ever have. -/
  | positionTooGreat
  | schema (e : SchemaError)
  | validation (e : ValidationError)
  | store (e : StoreError)
  | rules (e : RegistryError)
  | unboundModel (name : String)
  | badValue (e : BadValue)
  | unwritable (fault : Json.WriteFault)
  | unreadableIndex (fault : Json.ReadFault Empty)
  | encoding (fault : Utf8.Fault)
  | zeroModulus
  | zeroFloatModulus
  | infiniteOffset
  | greatOffset
  | disk (e : DiskError)
  | notOpen

namespace Failure

def message : Failure → String
  | misuse m => m.message
  | noOperation (.type .intEnum) name => name
  | noOperation (.type t) name => s!"type object '{t.fullName}' has no attribute '{name}'"
  | noOperation owner name => s!"'{owner.typeName}' object has no attribute '{name}'"
  | missingKey key => key.display
  | positionOutOfRange => "list index out of range"
  | positionTooGreat => "cannot fit 'int' into an index-sized integer"
  | schema e => e.message
  | validation e => e.message
  | store e => e.message
  | rules e => e.message
  | unboundModel name => s!"Model {name} is not bound to a collection"
  | badValue e => e.message
  | unwritable fault => fault.message
  | unreadableIndex fault => fault.message Empty.elim
  | encoding fault => fault.message
  | zeroModulus => "integer modulo by zero"
  | zeroFloatModulus => "float modulo"
  | infiniteOffset => "cannot convert float infinity to integer"
  | greatOffset => "int too big to convert"
  | disk e => e.message
  | notOpen => ""

/-- The failure that a report ends with. -/
def ofReport {ε : Type} (wrap : ε → Failure) : Report ε → Failure
  | .fault e => wrap e
  | .unshowable => badValue .unshowable

/-- A failure whose message quotes the values. -/
def quoting (values : List Value) (e : Failure) : Failure := ofReport id (.quoting values e)

/-- A text that was asked for, or the failure that there is none. -/
def ofText : Option String → Except Failure String
  | some s => .ok s
  | none => .error (badValue .unshowable)

def ofEncode (fault : Json.WriteFault) : Failure := store (.unencodable fault)

def ofDecode : Stored.DecodeFault → Failure
  | .unreadable fault => store (.undecodable fault)
  | .misuse m => misuse m

def ofFilter : FilterFault → Failure
  | .unknownOperator operator field => store (.unknownOperator operator field)
  | .noOperation owner name => noOperation owner name
  | .misuse m => misuse m

def ofBookmark : BookmarkFault → Failure
  | .tooGreat => greatOffset
  | .outOfReach => disk .outOfReach
  | .negativeLength => badValue .negativeLength
  | .malformed fault => encoding fault
  | .tooFewCharacters => disk .lostPlace

/-- Passes a result on, with its fault as a failure. -/
def lift {ε α : Type} (wrap : ε → Failure) (result : Except ε α) : Except Failure α :=
  result.mapError wrap

end Failure

end SchemaStore
