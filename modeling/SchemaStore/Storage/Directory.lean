import SchemaStore.Failure

/-!
The files of a directory, and the directories below the working directory.  A directory is a
finite map from names to contents; everything that the storage engine does to its files is a
function on it.
-/

namespace SchemaStore

open Utf8 (Bytes)

/-- The files of one directory, by name. -/
abbrev Directory := List (String × Bytes)

namespace Directory

def read? (d : Directory) (name : String) : Option Bytes :=
  match d with
  | [] => none
  | (n, content) :: rest => if n = name then some content else read? rest name

/-- Gives a file a content, creating it where it is missing. -/
def write (d : Directory) (name : String) (content : Bytes) : Directory :=
  match d with
  | [] => [(name, content)]
  | (n, old) :: rest =>
    if n = name then (n, content) :: rest else (n, old) :: write rest name content

def remove (d : Directory) (name : String) : Directory := d.filter fun f => f.1 ≠ name

def names (d : Directory) : List String := d.map (·.1)

def sorted (d : Directory) : Directory := d.mergeSort fun a b => !decide (b.1 < a.1)

/-- Creates a file where it is missing, and leaves it alone otherwise. -/
def touch (d : Directory) (name : String) : Directory :=
  if (d.read? name).isSome then d else d.write name []

@[simp]
theorem read?_nil (name : String) : read? [] name = none := rfl

theorem read?_write_self (d : Directory) (name : String) (content : Bytes) :
    (d.write name content).read? name = some content := by
  induction d with
  | nil => simp [write, read?]
  | cons f rest ih =>
    obtain ⟨n, old⟩ := f
    by_cases h : n = name <;> simp [write, read?, h, ih]

theorem read?_write_of_ne (d : Directory) {name other : String} (content : Bytes)
    (h : other ≠ name) : (d.write name content).read? other = d.read? other := by
  induction d with
  | nil => simp [write, read?, Ne.symm h]
  | cons f rest ih =>
    obtain ⟨n, old⟩ := f
    by_cases hn : n = name
    · subst hn
      simp [write, read?, Ne.symm h]
    · simp [write, read?, hn, ih]

end Directory

/-- The directories that exist, by the places that their paths lead to.  The working directory is
always there. -/
structure Disk where
  directories : List (Path × Directory)

namespace Disk

def workingPath : Path := { root := .relative, steps := [] }

def empty : Disk := { directories := [(workingPath, [])] }

def directory? (d : Disk) (p : Path) : Option Directory := d.directories.lookup p.resolved

/-- The files of a directory, none where there is no such directory. -/
def directory (d : Disk) (p : Path) : Directory := (d.directory? p).getD []

def setDirectory (d : Disk) (p : Path) (files : Directory) : Disk :=
  if (d.directory? p).isSome then
    { directories := d.directories.map fun e =>
        if e.1 = p.resolved then (p.resolved, files) else e }
  else { directories := d.directories ++ [(p.resolved, files)] }

def isFile (d : Disk) (p : Path) : Bool :=
  match p.resolved.steps.getLast? with
  | none => false
  | some name => ((d.directory p.resolved.parent).read? name).isSome

/-- The directories on the way to a path, the path itself last. -/
def ancestors (p : Path) : List Path :=
  (List.range (p.steps.length + 1)).map fun n => { p with steps := p.steps.take n }

/-- Refuses a directory that a file is to be created in, unless it is there. -/
def checkDirectory (d : Disk) (p : Path) (name : String) : Except Failure Unit :=
  if (ancestors p).any d.isFile then .error (.disk (.notDirectory (p.child name)))
  else if (d.directory? p).isNone then .error (.disk (.missing (p.child name)))
  else .ok ()

def makeDirectory (d : Disk) (p : Path) : Except Failure Disk :=
  if p.steps.any fun s => s.toList.contains '\x00' then .error (.badValue .zeroCharacter)
  else if d.isFile p then .error (.disk (.exists p))
  else if (ancestors p).any d.isFile then .error (.disk (.notDirectory p))
  else .ok ((ancestors p).foldl (fun d p => d.setDirectory p (d.directory p)) d)

end Disk

end SchemaStore
