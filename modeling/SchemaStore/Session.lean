import SchemaStore.Binding

/-!
A session: everything that one process sees.  It holds the directories on the disk, the clock,
the ids given out so far, and what is open.  Every operation of the library that touches more
than one engine is a step of a session.
-/

namespace SchemaStore

/-- What is open on a data directory: an engine, and a store on it unless the engine was opened
by itself.  A store remembers the names of the collections it was asked for. -/
structure Opened where
  engine : Engine
  collections : Option (List Value)

/-- A connected client: the models bound to their collections.  `isStored` tells an embedded
store from recorders. -/
structure Connection where
  models : List (String × Model)
  isStored : Bool

structure Session where
  disk : Disk
  /-- The directory on which files, tables and logs are opened by name. -/
  dataDir : Path
  /-- The reading of the clock, in milliseconds. -/
  clock : Int
  /-- How many ids have been given out. -/
  issued : Nat
  opened : Option Opened
  client : Option Client
  connection : Option Connection
  recorders : List Recorder
  /-- Tables that were opened by themselves. -/
  tables : List (String × Table)
  /-- A log that was opened by itself. -/
  log : Option Log

/-- A step of a session.  What a failed step changed before it failed stays changed. -/
abbrev Step (α : Type) := EStateM Failure Session α

namespace Session

def defaultDirectory : String := "db"

/-- A fresh session in an empty working directory. -/
def start (clock : Int) : Session where
  disk := Disk.empty
  dataDir := Path.ofString defaultDirectory
  clock := clock
  issued := 0
  opened := none
  client := none
  connection := none
  recorders := []
  tables := []
  log := none

def ofResult {α : Type} (result : Except Failure α) : Step α :=
  match result with
  | .ok a => pure a
  | .error e => throw e

/-- What is there, or the failure that nothing is open. -/
def require {α : Type} (found : Option α) : Step α :=
  match found with
  | some a => pure a
  | none => throw .notOpen

def setClock (ms : Int) : Step Unit := modify fun s => { s with clock := ms }

/-- The next id: 32 hexadecimal digits that count the ids. -/
def nextId : Step String := do
  let s ← get
  let n := s.issued + 1
  set { s with issued := n }
  pure (String.ofList (Text.hex 32 n))

/-! ## The engine that is open -/

/-- Takes over the engine and files that an operation leaves. -/
def settle (s : Session) (site : Site) : Session :=
  { s with
    opened := s.opened.map fun o => { o with engine := site.engine }
    disk := s.disk.setDirectory site.engine.directory site.files }

def onEngine {α : Type} (action : Action α) : Step α := do
  let s ← get
  let o ← require s.opened
  match action.run { engine := o.engine, files := s.disk.directory o.engine.directory } with
  | .ok a site => do
    set (s.settle site)
    pure a
  | .error e site => do
    set (s.settle site)
    throw e

/-- Forgets what is open, without a flush. -/
def crash : Step Unit := modify fun s => { s with opened := none, connection := none }

/-- Creates a directory where it is missing. -/
def makeDirectory (p : Path) : Step Unit := do
  let s ← get
  let disk ← ofResult (s.disk.makeDirectory p)
  set { s with disk := disk }

/-- Opens an engine, with a store on it or without. -/
def openEngine (settings : Settings) (withStore : Bool) : Step Unit := do
  makeDirectory settings.dataDir
  let s ← get
  let (engine, files) := Engine.openAt settings (s.disk.directory settings.dataDir)
  set { s with disk := s.disk.setDirectory settings.dataDir files }
  let engine ← ofResult engine
  let collections := if withStore then some [] else none
  modify fun s => { s with opened := some { engine := engine, collections := collections } }

def put (key value : Value) : Step Unit := do
  let s ← get
  onEngine (Engine.put s.clock key value)

def putNew (key value : Value) : Step Bool := do
  let s ← get
  onEngine (Engine.putNew s.clock key value)

def lookup (key : Value) : Step Value := onEngine (Engine.get key)

def scan (start : String) : Step (List (String × Value)) := onEngine (Engine.scan start)

def flush : Step Unit := do
  let s ← get
  onEngine (Engine.flush s.clock)

def compact : Step Unit := do
  let s ← get
  onEngine (Engine.compact s.clock)

def close : Step Unit := do
  let s ← get
  onEngine (Engine.close s.clock)

/-! ## Collections -/

/-- The collection of a name in the store that is open.  A name that equals an earlier one stands
for the collection that was made then. -/
def collection (name : Value) : Step Collection := do
  let s ← get
  let o ← require s.opened
  let names ← require o.collections
  ofResult (Collection.checkName name)
  match names.find? fun n => n.standsFor name with
  | some known => pure { name := known }
  | none =>
    -- A new collection needs the text of its name for its keys.
    if !name.isShowable then throw (.badValue .unshowable)
    set { s with opened := some { o with collections := some (names ++ [name]) } }
    pure { name := name }

/-- Inserts a document into a collection; the answer is the document as it was stored. -/
def insertInto (c : Collection) (doc : Value) : Step Value := do
  let es ← ofResult (Collection.documentOf doc)
  -- A document that brings its id uses one up all the same.
  let id ← nextId
  let s ← get
  let stored := Collection.withId es id
  onEngine (c.insert s.clock stored)
  pure (.dict stored)

def findIn (c : Collection) (filter : Value) : Step (List Value) := onEngine (c.find filter)

def insert (name doc : Value) : Step Value := do
  let c ← collection name
  insertInto c doc

def find (name filter : Value) : Step (List Value) := do
  let c ← collection name
  findIn c filter

def documentOfId (name id : Value) : Step Value := do
  let c ← collection name
  onEngine (c.get id)

/-! ## Models and clients -/

def setClient (rules : Registry) : Step Unit :=
  modify fun s => { s with client := some (Client.ofRules rules) }

def addModel (name : String) (description : Value) : Step Model := do
  let s ← get
  let c ← require s.client
  let (m, c) ← ofResult (Failure.lift (.ofReport .schema) (c.define name description))
  set { s with client := some c }
  pure m

def addRecorder (docs : List Value) : Step Nat := do
  let s ← get
  set { s with recorders := s.recorders ++ [Recorder.ofDocs docs] }
  pure s.recorders.length

/-- Puts a model that is compiled by itself into the client, on a recorder if documents are
given.  A client is made where there is none. -/
def placeModel (rules : Registry) (name : String) (description : Value)
    (docs : Option (List Value)) : Step Model := do
  let s ← get
  if s.client.isNone then setClient Registry.standard
  let binding ← match docs with
    | none => pure none
    | some docs => do
      let number ← addRecorder docs
      pure (some (Binding.recorder number))
  let m ← ofResult (Failure.lift (.ofReport .schema) (Model.define rules name description binding))
  modify fun s => { s with client := s.client.map fun c => c.setModel name m }
  pure m

def bindModels (bind : String → Step Binding) :
    List (String × Model) → Step (List (String × Model))
  | [] => pure []
  | (name, m) :: rest => do
    let b ← bind name
    let bound ← bindModels bind rest
    pure ((name, m.bind b) :: bound)

/-- Makes the connection of a client whose models are bound by `bind`. -/
def connectBy (isStored : Bool) (bind : String → Step Binding) : Step Connection := do
  let s ← get
  let c ← require s.client
  let models ← bindModels bind c.models
  let connection := { models := models, isStored := isStored }
  modify fun s => { s with connection := some connection }
  pure connection

/-- Connects the client to a store of its own.  A store on which a model cannot be bound is
dropped again. -/
def connectStore (settings : Except Failure Settings) : Step Connection := do
  crash
  let s ← get
  let _ ← require s.client
  let settings ← ofResult settings
  openEngine settings true
  let connection ← tryCatch
    (connectBy true fun name => do
      let c ← collection (.str name)
      pure (.collection c))
    fun e => do
      crash
      throw e
  modify fun s => { s with dataDir := settings.dataDir }
  pure connection

/-- Connects the client to recorders, with the documents that each starts with. -/
def connectRecorders (docs : List (String × List Value)) : Step Connection := do
  crash
  connectBy false fun name => do
    let number ← addRecorder ((docs.lookup name).getD [])
    pure (.recorder number)

/-- Closes the connection and tells whether its store is closed now. -/
def closeConnection : Step Bool := do
  let s ← get
  let c ← require s.connection
  if c.isStored then
    close
    let s ← get
    pure ((s.opened.map fun o => o.engine.isClosed).getD true)
  else pure true

/-- A model of the connection, or one of the client's own. -/
def model (name : String) (isOwn : Bool) : Step Model := do
  let s ← get
  let models ←
    if isOwn then do
      let c ← require s.client
      pure c.models
    else do
      let c ← require s.connection
      pure c.models
  match models.lookup name with
  | some m => pure m
  | none => throw (.missingKey (.str name))

def recorder (number : Nat) : Step Recorder := do
  let s ← get
  require s.recorders[number]?

def setRecorder (number : Nat) (r : Recorder) : Step Unit :=
  modify fun s => { s with recorders := s.recorders.set number r }

def insertThrough (m : Model) (doc : Value) : Step Value := do
  ofResult (m.validate doc)
  match ← ofResult m.bound with
  | .collection c => insertInto c doc
  | .recorder number => do
    let r ← recorder number
    let (stored, r) := r.insert doc
    setRecorder number r
    pure stored

/-- Queries the collection of a model and validates what it answers. -/
def findThrough (m : Model) (filter : Value) : Step (List Value) := do
  let docs ← match ← ofResult m.bound with
    | .collection c => findIn c filter
    | .recorder number => do
      let r ← recorder number
      let (docs, r) := r.find filter
      setRecorder number r
      pure docs
  ofResult (m.validateAll docs)
  pure docs

def recorderOf (m : Model) : Step Recorder :=
  match m.binding with
  | some (.recorder number) => recorder number
  | _ => throw .notOpen

/-! ## Files, tables and logs by name -/

def files (p : Path) : Step Directory := do
  let s ← get
  pure (s.disk.directory p)

def setFiles (p : Path) (files : Directory) : Step Unit :=
  modify fun s => { s with disk := s.disk.setDirectory p files }

/-- The directory and name of a file that is about to be created in a directory. -/
def locate (p : Path) (name : String) : Step (Path × String) := do
  let s ← get
  let (p, name) := p.split name
  ofResult (s.disk.checkDirectory p name)
  pure (p, name)

/-- Writes a file, or appends to it, in a directory that is made where it is missing. -/
def writeFile (p : Path) (name : String) (content : Utf8.Bytes) (isAppended : Bool) :
    Step Unit := do
  makeDirectory p
  let (p, name) ← locate p name
  let d ← files p
  let before := if isAppended then (d.read? name).getD [] else []
  setFiles p (d.write name (before ++ content))

/-- Takes the file of a log out of everybody's sight when it is about to be deleted. -/
def detachLog (p : Path) (name : String) (d : Directory) (l : Log) : Log :=
  if l.directory.resolved = p.resolved ∧ l.name = name ∧ l.orphan = none then l.detach d else l

/-- Lets go of the file of that name wherever it is open as a log. -/
def detach (p : Path) (name : String) : Step Unit := do
  let d ← files p
  modify fun s =>
    { s with
      log := s.log.map (detachLog p name d)
      opened := s.opened.map fun o =>
        { o with engine := { o.engine with log := detachLog p name d o.engine.log } } }

def deleteFile (name : String) : Step Unit := do
  let s ← get
  let (p, name) ← locate s.dataDir name
  let d ← files p
  if (d.read? name).isNone then throw (.disk (.missing (p.child name)))
  detach p name
  setFiles p (d.remove name)

def keepTable (name : String) (t : Table) : Step Unit :=
  modify fun s => { s with tables := (name, t) :: s.tables.filter fun e => e.1 ≠ name }

def writeTable (name : String) (items : List (Value × Value)) (sample : Value) : Step Table := do
  let s ← get
  makeDirectory s.dataDir
  let (p, last) ← locate s.dataDir name
  let d ← files p
  let (result, d) := Table.write p last items sample d
  setFiles p d
  let t ← ofResult result
  keepTable name t
  pure t

def openTable (name : String) : Step Table := do
  let s ← get
  makeDirectory s.dataDir
  let (p, last) := s.dataDir.split name
  let d ← files p
  let t ← ofResult (Table.load p last d)
  keepTable name t
  pure t

def table (name : String) : Step Table := do
  let s ← get
  require (s.tables.lookup name)

def tableGet (name : String) (key : Value) : Step Value := do
  let t ← table name
  let d ← files t.directory
  ofResult (t.get d key)

def tableRecords (name : String) : Step (List (Value × Value)) := do
  let t ← table name
  let d ← files t.directory
  match t.records d with
  | (records, none) => pure records
  | (_, some e) => throw e

def removeTable (name : String) : Step Unit := do
  let t ← table name
  detach t.directory t.name
  detach t.directory (Table.indexName t.name)
  let d ← files t.directory
  setFiles t.directory (t.remove d)

def openLog (name : String) : Step Unit := do
  let s ← get
  makeDirectory s.dataDir
  let (p, last) ← locate s.dataDir name
  let d ← files p
  let (l, d) := Log.openAt p last d
  setFiles p d
  modify fun s => { s with log := some l }

/-- Takes over a log and the files that go with it. -/
def settleLog (changed : Log × Directory) : Step Unit := do
  modify fun s => { s with log := some changed.1 }
  setFiles changed.1.directory changed.2

def appendToLog (key value : Value) : Step Unit := do
  let s ← get
  let l ← require s.log
  let d ← files l.directory
  settleLog (← ofResult (l.append d key value))

def resetLog : Step Unit := do
  let s ← get
  let l ← require s.log
  let d ← files l.directory
  settleLog (← ofResult (l.reset d))

def replayLog : Step Entries := do
  let s ← get
  let l ← require s.log
  let d ← files l.directory
  ofResult (l.replay d)

def closeLog : Step Unit := do
  let s ← get
  let l ← require s.log
  modify fun s => { s with log := some l.close }

end Session

end SchemaStore
