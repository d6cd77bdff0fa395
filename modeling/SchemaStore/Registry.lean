import SchemaStore.Predicate

/-!
Rules for primitive kinds.  A registry holds at most one predicate for each kind.  Predicates
are registered while the registry is being set up; once it is sealed it is only read.
-/

namespace SchemaStore

inductive RegistryError where
  | isSealed (kind : Kind)
  | alreadyRegistered (kind : Kind)
deriving DecidableEq, Repr

def RegistryError.message : RegistryError → String
  | isSealed k => s!"Cannot register {k.label}: primitive rules are sealed"
  | alreadyRegistered k => s!"Primitive rule for {k.label} is already registered"

structure Registry where
  entries : List (Kind × Predicate)
  isSealed : Bool

namespace Registry

def empty : Registry := { entries := [], isSealed := false }

def lookup (r : Registry) (k : Kind) : Option Predicate := r.entries.lookup k

/-- Adds a predicate for a kind that has none. -/
def register (r : Registry) (k : Kind) (p : Predicate) : Except RegistryError Registry :=
  if r.isSealed then .error (.isSealed k)
  else if (r.lookup k).isSome then .error (.alreadyRegistered k)
  else .ok { r with entries := r.entries ++ [(k, p)] }

def sealed (r : Registry) : Registry := { r with isSealed := true }

/-- The registry that several registrations build, sealed; or the first that is refused. -/
def build (pairs : List (Kind × Predicate)) : Except RegistryError Registry := do
  let r ← pairs.foldlM (fun r p => r.register p.1 p.2) empty
  .ok r.sealed

/-- Every kind with the test it is meant for. -/
def standard : Registry :=
  { entries := Kind.all.map fun k => (k, Predicate.natural k), isSealed := true }

/-- The standard registry is what registering the natural predicates in order builds. -/
theorem build_natural : build (Kind.all.map fun k => (k, Predicate.natural k)) = .ok standard :=
  rfl

end Registry

end SchemaStore
