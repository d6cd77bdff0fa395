import SchemaStore.Storage.Log
import SchemaStore.Storage.Table

/-!
The storage engine: a log-structured map from keys to values.  Changes go to the log and to a
memtable; a full memtable is flushed into a new table, and compaction merges all tables into one.
A look-up asks the memtable first and then the tables from the newest to the oldest.
-/

namespace SchemaStore

/-- An engine.  `tables` lists the newest table last. -/
structure Engine where
  settings : Settings
  log : Log
  memtable : Entries
  tables : List Table
  isClosed : Bool

/-- An engine together with the files of its directory. -/
structure Site where
  engine : Engine
  files : Directory

/-- An operation on an engine and its files.  When it fails, what it changed before stays
changed. -/
abbrev Action (α : Type) := EStateM Failure Site α

/-! ## The names of tables -/

namespace TableName

def opening : String := "sst_"
def ending : String := ".jsonl"
def compactedSuffix : String := "_compacted"

/-- Whether a name consists of a given opening, anything, and the ending of tables. -/
def startsWith (start : String) (name : String) : Bool :=
  start.toList.isPrefixOf name.toList && ending.toList.isSuffixOf name.toList
    && start.length + ending.length ≤ name.length

def isTable (name : String) : Bool := startsWith opening name

def stampText (stamp : Int) : String := opening ++ toString stamp

/-- No table has a name that starts with the stamp. -/
def isFree (names : List String) (stamp : Int) : Bool :=
  !names.any (startsWith (stampText stamp))

/-- As many stamps as a directory's names can block: each name blocks no more stamps than it has
characters. -/
def bound (names : List String) : Nat := (names.map String.length).foldr (· + ·) 1

/-- The least free stamp from the clock's reading on. -/
def freeStamp (names : List String) (clock : Int) : Int :=
  (((List.range (bound names)).map fun n : Nat => clock + n).find? (isFree names)).getD clock

def next (names : List String) (clock : Int) (suffix : String) : String :=
  stampText (freeStamp names clock) ++ suffix ++ ending

end TableName

namespace Engine

def logName : String := "wal.log"

def directory (e : Engine) : Path := e.settings.dataDir

def openTables (directory : Path) (files : Directory) : Except Failure (List Table) :=
  ((files.names.filter TableName.isTable).mergeSort fun a b => !decide (b < a)).mapM
    fun name => Table.load directory name files

/-- Opens an engine on a directory: the memtable is recovered from the log. -/
def openAt (settings : Settings) (files : Directory) : Except Failure Engine × Directory :=
  let (log, files) := Log.openAt settings.dataDir logName files
  let engine : Except Failure Engine := do
    let memtable ← log.replay files
    let tables ← openTables settings.dataDir files
    .ok { settings := settings, log := log, memtable := memtable, tables := tables,
          isClosed := false }
  (engine, files)

/-! ## Small steps -/

def checkOpen : Action Unit := do
  let site ← get
  if site.engine.isClosed then throw (.store (.closed site.engine.directory))

/-- Passes on a result that was computed without changing anything. -/
def ofResult {α : Type} (result : Except Failure α) : Action α :=
  match result with
  | .ok a => pure a
  | .error e => throw e

def writeTable (clock : Int) (suffix : String) (items : List (Value × Value)) : Action Table := do
  let site ← get
  let name := TableName.next site.files.names clock suffix
  let (result, files) :=
    Table.write site.engine.directory name items site.engine.settings.indexSample site.files
  set { site with files := files }
  ofResult result

/-- Puts in place a log and the files that go with it. -/
def setLog (changed : Log × Directory) : Action Unit :=
  modify fun site =>
    { engine := { site.engine with log := changed.1 }, files := changed.2 }

def modifyEngine (f : Engine → Engine) : Action Unit :=
  modify fun site => { site with engine := f site.engine }

/-! ## Operations -/

/-- Moves the memtable into a new table and empties the log. -/
def flush (clock : Int) : Action Unit := do
  let site ← get
  if !site.engine.memtable.isEmpty then
    let table ← writeTable clock "" site.engine.memtable
    modifyEngine fun e => { e with tables := e.tables ++ [table] }
    -- The records may leave the log only now that a table has them.
    let site ← get
    let emptied ← ofResult (site.engine.log.reset site.files)
    setLog emptied
    modifyEngine fun e => { e with memtable := [] }

/-- Writes a value: first to the log, then to the memtable. -/
def put (clock : Int) (key value : Value) : Action Unit := do
  checkOpen
  let site ← get
  let appended ← ofResult (site.engine.log.append site.files key value)
  setLog appended
  -- A key that is refused here has its record in the log already.
  ofResult (Record.checkHashable key)
  modifyEngine fun e => { e with memtable := e.memtable.insert key value }
  let site ← get
  if site.engine.settings.isFull site.engine.memtable.length then flush clock

/-- The first value other than null that the tables hold for a key. -/
def findIn (files : Directory) (key : Value) : List Table → Except Failure Value
  | [] => .ok .null
  | t :: rest => do
    match ← t.get files key with
    | .null => findIn files key rest
    | v => .ok v

/-- The value of a key in an engine that is open, and null where there is none. -/
def lookup (e : Engine) (files : Directory) (key : Value) : Except Failure Value := do
  Record.checkHashable key
  match e.memtable.get? key with
  | some v => .ok v
  | none => findIn files key e.tables.reverse

def get (key : Value) : Action Value := do
  checkOpen
  let site ← EStateM.get
  ofResult (site.engine.lookup site.files key)

/-- Writes a value unless the key has one, and tells whether it did. -/
def putNew (clock : Int) (key value : Value) : Action Bool := do
  match ← get key with
  | .null =>
    put clock key value
    pure true
  | _ => pure false

/-- Adds the records whose keys start with a text and are not there yet.  `ending` is the failure
that the records end with, if they do. -/
def scanRecords (start : String) (found : List (String × Value)) (ending : Option Failure) :
    List (Value × Value) → Except Failure (List (String × Value))
  | [] =>
    match ending with
    | none => .ok found
    | some e => .error e
  | (k, v) :: rest =>
    match k with
    | .str key =>
      if start.toList.isPrefixOf key.toList && !(found.any fun f => f.1 == key) then
        scanRecords start (found ++ [(key, v)]) ending rest
      else scanRecords start found ending rest
    | k => .error (.noOperation k "startswith")

/-- Goes on scanning through tables, the first of them the newest. -/
def scanTables (files : Directory) (start : String) (found : List (String × Value)) :
    List Table → Except Failure (List (String × Value))
  | [] => .ok found
  | t :: rest => do
    let (records, ending) := t.records files
    let found ← scanRecords start found ending records
    scanTables files start found rest

/-- The newest value of every key that starts with a text, the memtable's keys first. -/
def scan (start : String) : Action (List (String × Value)) := do
  checkOpen
  let site ← EStateM.get
  ofResult do
    let found ← scanRecords start [] none site.engine.memtable
    scanTables site.files start found site.engine.tables.reverse

/-- Adds the records whose keys are not there yet. -/
def mergeRecords (merged : Entries) (ending : Option Failure) :
    List (Value × Value) → Except Failure Entries
  | [] =>
    match ending with
    | none => .ok merged
    | some e => .error e
  | (k, v) :: rest => do
    Record.checkHashable k
    mergeRecords (if merged.contains k then merged else merged.insert k v) ending rest

/-- The newest value of every key in the tables, of which the first is the newest. -/
def mergeTables (files : Directory) (merged : Entries) : List Table → Except Failure Entries
  | [] => .ok merged
  | t :: rest => do
    let (records, ending) := t.records files
    let merged ← mergeRecords merged ending records
    mergeTables files merged rest

/-- Merges all tables into one, unless there are fewer than two. -/
def compact (clock : Int) : Action Unit := do
  checkOpen
  let site ← EStateM.get
  if 2 ≤ site.engine.tables.length then
    let merged ← ofResult (mergeTables site.files [] site.engine.tables.reverse)
    let table ← writeTable clock TableName.compactedSuffix merged
    -- The merged table is complete before the old ones go.
    modify fun s =>
      { engine := { s.engine with tables := [table] }
        files := s.engine.tables.foldl (fun files t => t.remove files) s.files }

/-- Flushes and closes.  A closed engine stays closed. -/
def close (clock : Int) : Action Unit := do
  let site ← EStateM.get
  if !site.engine.isClosed then
    flush clock
    modifyEngine fun e => { e with log := e.log.close, isClosed := true }

end Engine

end SchemaStore
