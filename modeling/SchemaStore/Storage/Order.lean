import SchemaStore.Storage.Merge
import SchemaStore.Value.Compare

/-!
Sorting and searching by keys that may not all be comparable.  Text keys, the ordinary case, are
totally ordered, so that every stable sort gives the same list.  Other keys need not be: two of
them may have no order, and what is no number is neither below nor above anything.  They are
sorted run by run.  A run that is in order already is taken as it is, a short one is filled up by
inserting the next items, and runs are merged, the shorter ones before the longer ones.
-/

namespace SchemaStore
namespace Order

def less (a b : Value) : Except Misuse Bool := a.compare .lt b

/-- How many keys of an ordered list stand before the place where `key` would be inserted, behind
its equals. -/
def insertionPoint (keys : List Value) (key : Value) : Except Misuse Nat :=
  Search.narrow (fun i => do return !(← less key (keys.getD i .null))) keys.length 0 keys.length

/-! ## Runs -/

/-- An ordered run of the items that are being sorted. -/
structure Run (α : Type) where
  items : List α
  /-- The position of its first item. -/
  start : Nat
  /-- How deep in the tree of merges the run is joined to the one behind it. -/
  depth : Nat

/-- Runs shorter than this are filled up: at least 32 items, or all of them, and so many that the
number of runs is a power of two or a little less. -/
def leastRun (count odd : Nat) : Nat :=
  if count < 64 then count + odd else leastRun (count / 2) (max odd (count % 2))
termination_by count
decreasing_by omega

/-- How often the row of items must be halved until the middles of two neighbouring runs are in
different parts.  `a` and `b` are twice the middles, and `count` is the length of the row. -/
def splitDepth (count fuel a b : Nat) : Nat :=
  match fuel with
  | 0 => 1
  | fuel + 1 =>
    if count ≤ a then 1 + splitDepth count fuel (2 * (a - count)) (2 * (b - count))
    else if count ≤ b then 1
    else 1 + splitDepth count fuel (2 * a) (2 * b)

section

variable {α : Type} (below : α → α → Except Misuse Bool)

/-- Takes the run at the front, which goes down strictly or does not go down.  The run comes back
with its last item first. -/
def takeRun (isDescending : Bool) : List α → List α → Except Misuse (List α × List α)
  | run, [] => .ok (run, [])
  | [], x :: rest => takeRun isDescending [x] rest
  | last :: run, x :: rest => do
    let goesDown ← below x last
    if goesDown == isDescending then takeRun isDescending (x :: last :: run) rest
    else .ok (last :: run, x :: rest)

/-- The run at the front, in order, and the items behind it. -/
def firstRun : List α → Except Misuse (List α × List α)
  | x :: y :: rest => do
    let isDescending ← below y x
    let (run, rest) ← takeRun below isDescending [x] (y :: rest)
    .ok (if isDescending then run else run.reverse, rest)
  | xs => .ok (xs, [])

/-- Inserts items one by one into an ordered run, each behind its equals. -/
def insertAll : List α → List α → Except Misuse (List α)
  | done, [] => .ok done
  | done, x :: rest => do
    let items := done.toArray
    let isBefore (i : Nat) : Except Misuse Bool :=
      match items[i]? with
      | some y => do return !(← below x y)
      | none => .ok false
    let n ← Search.narrow isBefore items.size 0 items.size
    insertAll (done.take n ++ x :: done.drop n) rest

/-- The run that two neighbours make. -/
def joinRuns (patience : Nat) (left right : Run α) : Except Misuse (Run α × Nat) := do
  let (items, patience) ← mergeRuns below patience left.items right.items
  .ok ({ left with items := items }, patience)

/-- Merges the runs that are joined deeper than `depth`, the last run first. -/
def mergeDeeper (depth patience : Nat) (last : Run α) :
    List (Run α) → Except Misuse (List (Run α) × Nat)
  | [] => .ok ([{ last with depth := depth }], patience)
  | run :: runs => do
    if depth < run.depth then
      let (joined, patience) ← joinRuns below patience run last
      mergeDeeper depth patience joined runs
    else .ok ({ last with depth := depth } :: run :: runs, patience)

/-- Adds a run behind the others, the last of which come first, out of `count` items in all. -/
def addRun (count patience : Nat) (items : List α) :
    List (Run α) → Except Misuse (List (Run α) × Nat)
  | [] => .ok ([{ items := items, start := 0, depth := 0 }], patience)
  | last :: runs => do
    let a := 2 * last.start + last.items.length
    let b := a + last.items.length + items.length
    let start := last.start + last.items.length
    let (runs, patience) ← mergeDeeper below (splitDepth count count a b) patience last runs
    .ok ({ items := items, start := start, depth := 0 } :: runs, patience)

/-- Merges what is left, always the last two runs unless the third last is shorter than the last;
at most `fuel` times. -/
def mergeAll (fuel patience : Nat) (runs : List (Run α)) : Except Misuse (List α) :=
  match fuel, runs with
  | _, [] => .ok []
  | _, [run] => .ok run.items
  | 0, run :: _ => .ok run.items
  | fuel + 1, last :: run :: third :: runs => do
    if third.items.length < last.items.length then
      let (joined, patience) ← joinRuns below patience third run
      mergeAll fuel patience (last :: joined :: runs)
    else
      let (joined, patience) ← joinRuns below patience run last
      mergeAll fuel patience (joined :: third :: runs)
  | fuel + 1, [last, run] => do
    let (joined, patience) ← joinRuns below patience run last
    mergeAll fuel patience [joined]

/-- Finds the runs of the items that are left, out of `count` in all, and merges them; at most
`fuel` runs. -/
def sortRuns (count fuel patience : Nat) (runs : List (Run α)) (rest : List α) :
    Except Misuse (List α) :=
  match fuel, rest with
  | fuel + 1, x :: rest => do
    let (run, rest) ← firstRun below (x :: rest)
    let missing := leastRun count 0 - run.length
    let run ← insertAll below run (rest.take missing)
    let (runs, patience) ← addRun below count patience run runs
    sortRuns count fuel patience runs (rest.drop missing)
  | _, _ => mergeAll below runs.length patience runs

end

/-- The items in the order of their keys; items with equal keys keep their order. -/
def sortBy {α : Type} (keyOf : α → Value) (xs : List α) : Except Misuse (List α) :=
  if xs.all fun x => (keyOf x).asText?.isSome then
    .ok (xs.mergeSort fun a b =>
      !decide ((keyOf b).asText?.getD "" < (keyOf a).asText?.getD ""))
  else
    sortRuns (fun a b => less (keyOf a) (keyOf b)) xs.length xs.length Merging.longStretch [] xs

end Order
end SchemaStore
