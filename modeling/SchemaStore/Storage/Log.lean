import SchemaStore.Storage.Directory
import SchemaStore.Storage.Record
import SchemaStore.Text.Blank
import SchemaStore.Text.Lines

/-!
The write-ahead log.  Every change is appended to it as one line before it is made in memory, and
replaying the lines in order makes the changes again.
-/

namespace SchemaStore

open Utf8 (Bytes)

/-- An open log.  A log whose file has been deleted keeps what it held, out of everybody's
sight. -/
structure Log where
  directory : Path
  name : String
  isClosed : Bool
  orphan : Option Bytes

namespace Log

/-- The path under which messages name the log. -/
def path (l : Log) : Path := l.directory.child l.name

def content (l : Log) (files : Directory) : Bytes :=
  match l.orphan with
  | some held => held
  | none => (files.read? l.name).getD []

def setContent (l : Log) (files : Directory) (held : Bytes) : Log × Directory :=
  match l.orphan with
  | some _ => ({ l with orphan := some held }, files)
  | none => (l, files.write l.name held)

/-- Opens the log of a name, with an empty file where there is none. -/
def openAt (directory : Path) (name : String) (files : Directory) : Log × Directory :=
  ({ directory := directory, name := name, isClosed := false, orphan := none },
   files.touch name)

def checkOpen (l : Log) : Except Failure Unit :=
  if l.isClosed then .error (.badValue .logIsClosed) else .ok ()

def line (key value : Value) : Except Json.WriteFault (List Char) := do
  let text ← Json.text (.dict
    [(.str Record.operationName, .str Record.putOperation), (.str Record.keyName, key),
     (.str Record.valueName, value)])
  .ok (text ++ ['\n'])

def append (l : Log) (files : Directory) (key value : Value) :
    Except Failure (Log × Directory) := do
  let text ← Failure.lift .unwritable (line key value)
  l.checkOpen
  .ok (l.setContent files (l.content files ++ Utf8.encode text))

/-- Makes the change that a line records.  Blank lines and records of other operations change
nothing. -/
def replayLine (l : Log) (number : Nat) (memory : Entries) (text : List Char) :
    Except Failure Entries :=
  if text.all Text.isBlank then .ok memory
  else
    match Json.readPlain text with
    | .error _ => .error (.store (.corruptLog l.path number))
    | .ok record =>
      match record.entries? with
      | none => .error (.noOperation record "get")
      | some es =>
        if ((es.field? Record.operationName).getD .null).same (.str Record.putOperation) then do
          -- A record that lacks both parts is said to lack the value.
          let value ← Record.member record Record.valueName
          let key ← Record.member record Record.keyName
          Record.checkHashable key
          .ok (memory.insert key value)
        else .ok memory

/-- Makes the changes of numbered lines in order. -/
def replayLines (l : Log) (number : Nat) (memory : Entries) :
    List (List Char) → Except Failure Entries
  | [] => .ok memory
  | text :: rest => do
    let memory ← l.replayLine number memory text
    replayLines l (number + 1) memory rest

/-- The keys and values that the log leaves in memory. -/
def replay (l : Log) (files : Directory) : Except Failure Entries := do
  l.checkOpen
  let (texts, fault) := Text.storedLines [] (l.content files)
  let memory ← l.replayLines 1 [] texts
  match fault with
  | none => .ok memory
  | some fault => .error (.encoding fault)

def reset (l : Log) (files : Directory) : Except Failure (Log × Directory) := do
  l.checkOpen
  .ok (l.setContent files [])

def close (l : Log) : Log := { l with isClosed := true }

/-- What becomes of the log when its file is deleted. -/
def detach (l : Log) (files : Directory) : Log := { l with orphan := some (l.content files) }

end Log

end SchemaStore
