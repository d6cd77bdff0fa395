import SchemaStore.Failure

/-!
Records as they stand in stored lines.  A line holds any JSON value, since files may have been
damaged or written by hand; the members of a record are taken out of it one after the other.
-/

namespace SchemaStore
namespace Record

def operationName : String := "op"
def keyName : String := "key"
def valueName : String := "value"
def putOperation : String := "put"

/-- The part of a value at a key or position. -/
def subscript (container key : Value) : Except Failure Value :=
  match container with
  | .dict es | .view es =>
    match key.unhashable? with
    | some m => .error (.misuse m)
    | none =>
      match Entries.get? es key with
      | some v => .ok v
      | none => .error (.missingKey key)
  | .list xs | .tuple xs =>
    match position? key with
    | none => .error (.misuse (.listPosition key.typeName))
    | some n => pick xs n
  | .str s =>
    match position? key with
    | none => .error (.misuse (.textPosition key.typeName))
    | some n => pick (s.toList.map fun c => .str (String.singleton c)) n
  | v => .error (.misuse (.notSubscriptable v.typeName))
where
  position? : Value → Option Int
    | .int n => some n
    | .bool b => some (if b then 1 else 0)
    | _ => none
  /-- An item by its position, which counts from the end when it is negative. -/
  pick (xs : List Value) (n : Int) : Except Failure Value :=
    let i := if n < 0 then n + xs.length else n
    if n < -Power.two 63 ∨ Power.two 63 ≤ n then .error .positionTooGreat
    else if i < 0 then .error .positionOutOfRange
    else
      match xs[i.toNat]? with
      | some v => .ok v
      | none => .error .positionOutOfRange

def member (record : Value) (name : String) : Except Failure Value := subscript record (.str name)

def checkHashable (key : Value) : Except Failure Unit :=
  match key.unhashable? with
  | some m => .error (.misuse m)
  | none => .ok ()

end Record
end SchemaStore
