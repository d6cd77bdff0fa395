import SchemaStore.Storage.Search

/-!
Merging two ordered runs that stand side by side into one.  The shorter run is taken out and the
two are merged from the end at which that leaves room: from the front if it is the left one, from
the back if it is the right one.  As long as neither run wins often in a row, items are compared
one by one; after that whole stretches are looked for by galloping.

Where items are totally ordered all of this only saves comparisons.  Where they are not, it says
what comes out, and which two items are the first that turn out to have no order.
-/

namespace SchemaStore

/-- Two runs being merged.  `first` is the run that was taken out. -/
structure Merging (α : Type) where
  /-- What has been merged, the latest item first. -/
  merged : List α
  first : List α
  second : List α

namespace Merging

/-- Where a merge stands. -/
inductive Progress (α : Type) where
  | done (items : List α)
  | more (m : Merging α)

/-- How a merge goes on. -/
inductive Mode where
  /-- Item by item; each run has won this often in a row. -/
  | stepping (firstWins secondWins : Nat)
  | galloping

section

variable {α : Type}

def takeFirst (m : Merging α) (count : Nat) : Merging α :=
  { m with merged := (m.first.take count).reverse ++ m.merged, first := m.first.drop count }

def takeSecond (m : Merging α) (count : Nat) : Merging α :=
  { m with merged := (m.second.take count).reverse ++ m.merged, second := m.second.drop count }

/-- What is left, the last item of the first run behind all others. -/
def rest (m : Merging α) : List α := m.merged.reverse ++ m.second ++ m.first

/-- A merge ends when a run is used up, and also when one item is left of the first run, which
belongs behind all that is left of the second. -/
def settle (m : Merging α) : Progress α :=
  match m.first, m.second with
  | [], _ | [_], _ | _, [] => .done m.rest
  | _, _ => .more m

/-- A stretch this long makes galloping worth while. -/
def longStretch : Nat := 7

variable (less : α → α → Except Misuse Bool) (isBackward : Bool)

/-- Whether an item of the second run goes before one of the first. -/
def secondGoes (x y : α) : Except Misuse Bool := if isBackward then less x y else less y x

/-- How many items at the front pass a test.  Backwards, the item at the front is the last. -/
def stretch (test : α → Except Misuse Bool) (xs : List α) : Except Misuse Nat := do
  let items := xs.toArray
  let passes (i : Nat) : Except Misuse Bool :=
    match items[i]? with
    | some x => test x
    | none => .ok false
  let count := items.size
  if isBackward then
    let isBefore (i : Nat) : Except Misuse Bool := do return !(← passes (count - 1 - i))
    let place ← Search.gallop isBefore count (count - 1)
    return count - place
  else Search.gallop passes count 0

/-- Takes the stretch of the first run that goes before the second, then one item of the second.
The number is the length of the stretch. -/
def gallopFirst (m : Merging α) : Except Misuse (Nat × Progress α) :=
  match m.second with
  | [] => .ok (0, m.settle)
  | y :: _ => do
    let count ← stretch isBackward
      (fun x => do return !(← secondGoes less isBackward x y)) m.first
    match (m.takeFirst count).settle with
    | .done items => .ok (count, .done items)
    | .more m => .ok (count, (m.takeSecond 1).settle)

/-- Takes the stretch of the second run that goes before the first, then one item of the first. -/
def gallopSecond (m : Merging α) : Except Misuse (Nat × Progress α) :=
  match m.first with
  | [] => .ok (0, m.settle)
  | x :: _ => do
    let count ← stretch isBackward (fun y => secondGoes less isBackward x y) m.second
    match (m.takeSecond count).settle with
    | .done items => .ok (count, .done items)
    | .more m => .ok (count, (m.takeFirst 1).settle)

/-- One round of galloping through both runs, the left one first. -/
def gallopBoth (m : Merging α) : Except Misuse (Bool × Progress α) := do
  let one := if isBackward then gallopSecond less isBackward else gallopFirst less isBackward
  let other := if isBackward then gallopFirst less isBackward else gallopSecond less isBackward
  match ← one m with
  | (_, .done items) => .ok (false, .done items)
  | (count, .more m) =>
    let (otherCount, progress) ← other m
    .ok (decide (longStretch ≤ count) || decide (longStretch ≤ otherCount), progress)

/-- Goes on with a merge.  `patience` is how often a run has to win in a row before galloping
starts; it shrinks while galloping pays and grows when it stops to.  The answer holds the patience
that is left. -/
def run (fuel : Nat) (mode : Mode) (patience : Nat) (m : Merging α) :
    Except Misuse (List α × Nat) :=
  match fuel, mode, m.first, m.second with
  | fuel + 1, .stepping firstWins secondWins, x :: _, y :: _ => do
    if ← secondGoes less isBackward x y then
      match (m.takeSecond 1).settle with
      | .done items => .ok (items, patience)
      | .more m =>
        if patience ≤ secondWins + 1 then run fuel .galloping (patience + 1) m
        else run fuel (.stepping 0 (secondWins + 1)) patience m
    else
      match (m.takeFirst 1).settle with
      | .done items => .ok (items, patience)
      | .more m =>
        if patience ≤ firstWins + 1 then run fuel .galloping (patience + 1) m
        else run fuel (.stepping (firstWins + 1) 0) patience m
  | fuel + 1, .galloping, _, _ => do
    let patience := if 1 < patience then patience - 1 else patience
    match ← gallopBoth less isBackward m with
    | (_, .done items) => .ok (items, patience)
    | (true, .more m) => run fuel .galloping patience m
    | (false, .more m) => run fuel (.stepping 0 0) (patience + 1) m
  | _, _, _, _ => .ok (m.rest, patience)

/-- Merges two runs, of which the second is known to go first. -/
def ofRuns (patience : Nat) (first second : List α) : Except Misuse (List α × Nat) :=
  let start : Merging α := { merged := [], first := first, second := second }
  match (start.takeSecond 1).settle with
  | .done items => .ok (items, patience)
  | .more m =>
    run less isBackward (first.length + second.length) (.stepping 0 0) patience m

end

end Merging

/-- Merges two ordered runs.  Items of the left run that stand before all of the right one stay
where they are, and so do those of the right run that stand behind all of the left one. -/
def mergeRuns {α : Type} (less : α → α → Except Misuse Bool) (patience : Nat)
    (left right : List α) : Except Misuse (List α × Nat) :=
  match right.head?, left.getLast? with
  | some head, some last => do
    let lefts := left.toArray
    let rights := right.toArray
    let kept ← Search.gallop
      (fun i => match lefts[i]? with
        | some x => do return !(← less head x)
        | none => .ok false) lefts.size 0
    if kept = lefts.size then .ok (left ++ right, patience)
    else
      let moved ← Search.gallop
        (fun i => match rights[i]? with
          | some y => less y last
          | none => .ok false) rights.size (rights.size - 1)
      let first := left.drop kept
      let second := right.take moved
      if moved = 0 then .ok (left ++ right, patience)
      else if first.length ≤ second.length then do
        let (items, patience) ← Merging.ofRuns less false patience first second
        .ok (left.take kept ++ items ++ right.drop moved, patience)
      else do
        let (items, patience) ← Merging.ofRuns less true patience second.reverse first.reverse
        .ok (left.take kept ++ items.reverse ++ right.drop moved, patience)
  | _, _ => .ok (left ++ right, patience)

end SchemaStore
