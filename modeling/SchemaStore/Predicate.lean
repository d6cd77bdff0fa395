import SchemaStore.Value

/-!
Tests on values.  Each primitive kind has the test that it is meant for; a few more serve where a
kind is to be checked in another way.
-/

namespace SchemaStore

structure Predicate where
  name : String
  holds : Value → Bool

namespace Predicate

def isBoolean : Value → Bool
  | .bool _ => true
  | _ => false

/-- A moment is a date too. -/
def isDate : Value → Bool
  | .date _ | .dateTime _ => true
  | _ => false

/-- Real numbers.  Truth values do not count, and neither do decimals, which keep more than a
number. -/
def isNumber : Value → Bool
  | .int _ | .float _ | .fraction _ => true
  | _ => false

def isText : Value → Bool
  | .str _ => true
  | _ => false

/-- The test that a kind is meant for. -/
def ofKind : Kind → Value → Bool
  | .boolean => isBoolean
  | .date => isDate
  | .number => isNumber
  | .text => isText

def natural (k : Kind) : Predicate := { name := "natural", holds := ofKind k }

def always : Predicate := { name := "always", holds := fun _ => true }

def never : Predicate := { name := "never", holds := fun _ => false }

def nonempty : Predicate where
  name := "nonempty"
  holds
    | .str s => !s.isEmpty
    | _ => false

/-- Whole numbers above zero.  Truth values count as whole numbers here. -/
def positive : Predicate where
  name := "positive"
  holds
    | .int n => decide (0 < n)
    | .bool b => b
    | _ => false

def named? (k : Kind) : String → Option Predicate
  | "natural" => some (natural k)
  | "always" => some always
  | "never" => some never
  | "nonempty" => some nonempty
  | "positive" => some positive
  | _ => none

end Predicate

end SchemaStore
