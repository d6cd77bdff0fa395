import SchemaStore.Misuse

/-!
Searching for a place in a row of items.  A test says of each position whether the wanted place
lies behind it.  `Search.narrow` halves a range; `Search.gallop` starts from a guess and looks
ever farther away from it until the place is between two positions, and only then halves.  The
test can fail, and then so does the search, so it matters which positions are tested and in which
order.
-/

namespace SchemaStore
namespace Search

/-- Whether the wanted place lies behind a position. -/
abbrev Test := Nat → Except Misuse Bool

/-- Halves the range from `low` to `high` until it is empty; at most `fuel` times. -/
def narrow (isBefore : Test) (fuel low high : Nat) : Except Misuse Nat :=
  match fuel with
  | 0 => .ok low
  | fuel + 1 =>
    if low < high then do
      let middle := (low + high) / 2
      if ← isBefore middle then narrow isBefore fuel (middle + 1) high
      else narrow isBefore fuel low middle
    else .ok low

/-- Distances from a guess, as far as `limit`, each about twice the one before: the last that the
test holds for, and the first that it does not hold for. -/
def stride (test : Test) (limit fuel last distance : Nat) : Except Misuse (Nat × Nat) :=
  match fuel with
  | 0 => .ok (last, min distance limit)
  | fuel + 1 =>
    if distance < limit then do
      if ← test distance then stride test limit fuel distance (2 * distance + 1)
      else .ok (last, distance)
    else .ok (last, limit)

/-- The place among `count` items, searched for from a guess. -/
def gallop (isBefore : Test) (count guess : Nat) : Except Misuse Nat := do
  if ← isBefore guess then
    let (last, distance) ← stride (fun k => isBefore (guess + k)) (count - guess) count 0 1
    narrow isBefore count (guess + last + 1) (guess + distance)
  else
    let isBehind (k : Nat) : Except Misuse Bool := do return !(← isBefore (guess - k))
    let (last, distance) ← stride isBehind (guess + 1) count 0 1
    narrow isBefore count (guess + 1 - distance) (guess - last)

end Search
end SchemaStore
