import SchemaStore.Number.Ratio

/-!
The four order relations, as data: a filter names one, and a failed comparison reports one.
-/

namespace SchemaStore

inductive Relation where
  | lt | le | gt | ge
deriving DecidableEq, Repr

namespace Relation

def symbol : Relation → String
  | lt => "<"
  | le => "<="
  | gt => ">"
  | ge => ">="

/-- Whether the relation holds between two places on the number line. -/
def between (r : Relation) (a b : Quantity) : Bool :=
  match r with
  | lt => a.lt b
  | le => a.le b
  | gt => b.lt a
  | ge => b.le a

/-- Whether the relation holds in a total order, given that the left side is below the right, or
that the two are equal. -/
def decideBy (r : Relation) (below equal : Bool) : Bool :=
  match r with
  | lt => below && !equal
  | le => below || equal
  | gt => !below && !equal
  | ge => !below || equal

end Relation

end SchemaStore
