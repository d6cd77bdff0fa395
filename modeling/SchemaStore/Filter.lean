import SchemaStore.Report
import SchemaStore.Value.Entries

/-!
Filters.  A filter maps fields to conditions.  A condition is a value that the field must equal,
or a dictionary of operators and bounds.  Conditions are tried in order, and the first that does
not hold decides.
-/

namespace SchemaStore

inductive Comparison where
  | equal
  | ordered (relation : Relation)
deriving DecidableEq, Repr

namespace Comparison

def named? : Value → Option Comparison
  | .str "$eq" => some equal
  | .str "$gt" => some (ordered .gt)
  | .str "$gte" => some (ordered .ge)
  | .str "$lt" => some (ordered .lt)
  | .str "$lte" => some (ordered .le)
  | _ => none

/-- Whether the operator holds between a field's value and a bound.  Values whose types do not
belong together are in no order, and an absent value is in none.  To ask for the order of a
decimal that is not a number is a mistake, and so is to compare a number with one that signals. -/
def holds (c : Comparison) (v bound : Value) : Except Misuse Bool :=
  match c with
  | equal => v.equals bound
  | ordered r =>
    match v with
    | .null => .ok false
    | v =>
      match v.compare r bound with
      | .ok b => .ok b
      | .error .undefinedOrder => .error .undefinedOrder
      | .error _ => .ok false

end Comparison

inductive FilterFault where
  | unknownOperator (operator field : Value)
  /-- The filter or the document is no mapping and lacks the operation named. -/
  | noOperation (owner : Value) (name : String)
  | misuse (m : Misuse)

namespace Filter

def matchOperators (field v : Value) : List (Value × Value) → Except (Report FilterFault) Bool
  | [] => .ok true
  | (operator, bound) :: rest =>
    match Comparison.named? operator with
    | none => .error (.quoting [operator, field] (.unknownOperator operator field))
    | some c =>
      match c.holds v bound with
      | .ok true => matchOperators field v rest
      | .ok false => .ok false
      | .error m => .error (.fault (.misuse m))

def matchCondition (field v : Value) : Value → Except (Report FilterFault) Bool
  | .dict operators => matchOperators field v operators
  | wanted =>
    match v.equals wanted with
    | .ok b => .ok b
    | .error m => .error (.fault (.misuse m))

/-- What is wrong with taking a field of something that is no mapping. -/
def fieldFault (doc field : Value) : FilterFault :=
  match doc with
  | .type .dict => .misuse (.otherReceiver "get" field.typeName)
  | doc => .noOperation doc "get"

/-- What is wrong with a filter that is no mapping. -/
def filterFault (filter : Value) : FilterFault :=
  match filter with
  | .type .dict => .misuse (.noReceiver "items")
  | filter => .noOperation filter "items"

def matchFields (doc : Value) : List (Value × Value) → Except (Report FilterFault) Bool
  | [] => .ok true
  | (field, condition) :: rest =>
    match doc.entries? with
    | none => .error (.fault (fieldFault doc field))
    | some es =>
      match matchCondition field ((es.get? field).getD .null) condition with
      | .ok true => matchFields doc rest
      | result => result

/-- Whether a document matches a filter.  No filter matches everything. -/
def accepts (filter doc : Value) : Except (Report FilterFault) Bool :=
  match filter with
  | .null => .ok true
  | filter =>
    match filter.entries? with
    | none => .error (.fault (filterFault filter))
    | some es => matchFields doc es

end Filter

end SchemaStore
