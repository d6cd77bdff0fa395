import SchemaStore.Relation

/-!
Misuse: an operation applied to a value of a type that does not support it.  Values carry their
types at run time, so such a mistake shows only when the operation is tried.  The causes hold the
names of the types involved, and `Misuse.message` words them.
-/

namespace SchemaStore

/-- An operation that the types of its operands do not support. -/
inductive Misuse where
  | unordered (relation : Relation) (left right : String)
  | mixedOffsets
  | mixedDates
  /-- A decimal that is not a number was to be ordered, or something else by one; or a number was
  to be compared at all with a decimal that signals. -/
  | undefinedOrder
  | unhashable (type : String)
  /-- A decimal that signals was to be a key. -/
  | unhashableNaN
  | notIterable (type : String)
  | notContainer (type : String)
  | bytesContainer
  /-- Only members can be looked for in an enumeration. -/
  | notMember (type enumeration : String)
  /-- An operation of dictionaries was applied to the type itself, without a dictionary. -/
  | noReceiver (operation : String)
  /-- An operation of dictionaries was applied to something else. -/
  | otherReceiver (operation type : String)
  | notSubscriptable (type : String)
  | listPosition (type : String)
  | textPosition (type : String)
  | notConcatenable (type : String)
  | noModulus (type : String)
  | notPair (position : Nat)
  | notPath (type : String)
  | bytesPath
  | notJsonInput (type : String)
  | isoFromOther
deriving DecidableEq, Repr

def Misuse.message : Misuse → String
  | unordered r left right =>
    s!"'{r.symbol}' not supported between instances of '{left}' and '{right}'"
  | mixedOffsets => "can't compare offset-naive and offset-aware datetimes"
  | mixedDates => "can't compare datetime.datetime to datetime.date"
  | undefinedOrder => "[<class 'decimal.InvalidOperation'>]"
  | unhashable type => s!"unhashable type: '{type}'"
  | unhashableNaN => "Cannot hash a signaling NaN value"
  | notIterable type => s!"'{type}' object is not iterable"
  | notContainer type => s!"argument of type '{type}' is not iterable"
  | bytesContainer => "a bytes-like object is required, not 'str'"
  | notMember type enumeration =>
    s!"unsupported operand type(s) for 'in': '{type}' and '{enumeration}'"
  | noReceiver operation => s!"unbound method dict.{operation}() needs an argument"
  | otherReceiver operation type =>
    s!"descriptor '{operation}' for 'dict' objects doesn't apply to a '{type}' object"
  | notSubscriptable type => s!"'{type}' object is not subscriptable"
  | listPosition type => s!"list indices must be integers or slices, not {type}"
  | textPosition type => s!"string indices must be integers, not '{type}'"
  | notConcatenable type => s!"can only concatenate str (not \"{type}\") to str"
  | noModulus type => s!"unsupported operand type(s) for %: 'int' and '{type}'"
  | notPair position =>
    s!"cannot convert dictionary update sequence element #{position} to a sequence"
  | notPath type => s!"expected str, bytes or os.PathLike object, not {type}"
  | bytesPath =>
    "argument should be a str object or an os.PathLike object returning str, "
      ++ "not <class 'bytes'>"
  | notJsonInput type => s!"the JSON object must be str, bytes or bytearray, not {type}"
  | isoFromOther => "fromisoformat: argument must be str"

end SchemaStore
