import SchemaStore.Session

/-!
A demonstration of the whole library: two models, two documents, one query.  It is what the
command line runs.
-/

namespace SchemaStore
namespace Demo

def record (fields : List (String × Value)) : Value :=
  .dict (fields.map fun f => (.str f.1, f.2))

/-- People, of whom more may be known than is declared. -/
def usersDescription : Value :=
  record [("name", .type .str), ("age", .type .int), ("roles", .list [.type .str])]

/-- Files, about which nothing else may be said. -/
def filesDescription : Value :=
  record [("_exclusive", .bool true), ("filename", .type .str), ("size", .type .int),
    ("uploaded_at", .type .dateTime),
    ("meta", record [("public", .type .bool), ("tags", .list [.type .str])])]

def bob : Value :=
  record [("name", .str "Bob"), ("age", .int 30), ("roles", .list [.str "member"])]

/-- The file of a user, uploaded at a moment. -/
def resume (owner : Value) (uploaded : DateTime) : Value :=
  record [("filename", .str "resume.pdf"), ("size", .int 12345),
    ("uploaded_at", .dateTime uploaded),
    ("meta", record [("public", .bool false), ("tags", .list [owner])])]

def adults : Value := record [("age", record [("$gte", .int 18)])]

/-- Where the store is unless the environment says otherwise. -/
def defaultDirectory : Value := .str "./db"

/-- Connects, inserts the two documents and shows the adults among the users. -/
def showAdults (env : Settings.Environment) (now : DateTime) : Step String := do
  Session.setClient Registry.standard
  let _ ← Session.addModel "users" usersDescription
  let _ ← Session.addModel "files" filesDescription
  let _ ← Session.connectStore (Settings.ofEnvironment env defaultDirectory)
  let users ← Session.model "users" false
  let files ← Session.model "files" false
  let stored ← Session.insertThrough users bob
  let file := resume (stored.field "_id") now
  Session.ofResult (files.validate file)
  let _ ← Session.insertThrough files file
  let found ← Session.findThrough users adults
  let line ← Session.ofResult (Failure.ofText (Value.list found).shown?)
  pure (line ++ "\n")

/-- What a run leaves: its output, the failure it ended with if there was one, and the session. -/
structure Outcome where
  output : String
  failure : Option Failure
  session : Session

/-- Runs the demonstration as a program of its own: nothing is open before it.  A run that fails
leaves its store as a crash would. -/
def run (env : Settings.Environment) (now : DateTime) (before : Session) : Outcome :=
  let fresh :=
    { Session.start before.clock with disk := before.disk, issued := before.issued }
  match (showAdults env now).run fresh with
  | .error e s => { output := "", failure := some e, session := s }
  | .ok output s =>
    match Session.closeConnection.run s with
    | .ok _ s => { output := output, failure := none, session := s }
    | .error e s => { output := output, failure := some e, session := s }

end Demo
end SchemaStore
