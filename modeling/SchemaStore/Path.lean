import SchemaStore.Misuse
import SchemaStore.Value

/-!
Paths of directories and files.  A path is kept as its steps: empty steps and steps that stay
where they are do not count, so two spellings of a path that differ only in them are one path.
-/

namespace SchemaStore

/-- The root of an absolute path.  Exactly two slashes at the front are a root of their own. -/
inductive PathRoot where
  | relative
  | absolute
  | doubled
deriving DecidableEq, Repr

def PathRoot.text : PathRoot → String
  | relative => ""
  | absolute => "/"
  | doubled => "//"

structure Path where
  root : PathRoot
  steps : List String
deriving DecidableEq, Repr

namespace Path

def pieces : List Char → List (List Char)
  | [] => [[]]
  | c :: rest =>
    if c = '/' then [] :: pieces rest
    else
      match pieces rest with
      | [] => [[c]]
      | p :: ps => (c :: p) :: ps

def rootOf : List Char → PathRoot
  | '/' :: '/' :: '/' :: _ => .absolute
  | '/' :: '/' :: _ => .doubled
  | '/' :: _ => .absolute
  | _ => .relative

def ofString (s : String) : Path :=
  { root := rootOf s.toList
    steps := ((pieces s.toList).filter fun p => !p.isEmpty && p != ['.']).map String.ofList }

def text (p : Path) : String :=
  if p.root = .relative ∧ p.steps.isEmpty then "."
  else p.root.text ++ "/".intercalate p.steps

def child (p : Path) (name : String) : Path := { p with steps := p.steps ++ [name] }

def parent (p : Path) : Path := { p with steps := p.steps.dropLast }

def back : String := ".."

/-- The directory and the last step of a name that is looked up from a directory on. -/
def split (p : Path) (name : String) : Path × String :=
  let steps := (ofString name).steps
  match steps.getLast? with
  | none => (p, name)
  | some last => ({ p with steps := p.steps ++ steps.dropLast }, last)

/-- Takes one step from a place that is given by its steps.  Above the root there is nothing. -/
def walk (root : PathRoot) (place : List String) (step : String) : List String :=
  if step = back then
    match place.getLast? with
    | none => if root = .relative then [back] else []
    | some last => if last = back then place ++ [back] else place.dropLast
  else place ++ [step]

/-- The place that a path leads to, as a path without detours. -/
def resolved (p : Path) : Path where
  root := if p.root = .doubled then .absolute else p.root
  steps := p.steps.foldl (walk p.root) []

def ofValue : Value → Except Misuse Path
  | .str s => .ok (ofString s)
  | .bytes _ => .error .bytesPath
  | v => .error (.notPath v.className)

example : (ofString "./x//y/").text = "x/y" := by decide
example : (ofString "").text = "." := by decide
example : (ofString "a/../b").resolved.text = "b" := by decide
example : (ofString "../a/b/../..").resolved.text = ".." := by decide

end Path

end SchemaStore
