import SchemaStore.Settings
import SchemaStore.Storage.Directory
import SchemaStore.Storage.Order
import SchemaStore.Storage.Record
import SchemaStore.Text.Bookmark

/-!
Tables: files of records sorted by key, one record a line, with a sparse index that maps some of
the keys to the byte offsets of their lines.  A look-up starts at the last indexed key that is
not above the wanted one, and reads on until the key is found or passed.
-/

namespace SchemaStore

/-- A table as it was opened.  The index is whatever value its file held. -/
structure Table where
  directory : Path
  name : String
  index : Value
  indexKeys : List Value

namespace Table

def indexName (name : String) : String := name ++ ".idx"

/-- The path under which messages name the table. -/
def path (t : Table) : Path := t.directory.child t.name

def readIndex (content : Utf8.Bytes) : Except Failure Value := do
  let text ← Failure.lift .encoding (Utf8.decode content)
  Failure.lift .unreadableIndex (Json.readPlain (Text.unifyBreaks text))

/-- Opens a table.  Without an index file its index is empty. -/
def load (directory : Path) (name : String) (files : Directory) : Except Failure Table := do
  let index ← match files.read? (indexName name) with
    | none => .ok (.dict [])
    | some content => readIndex content
  let keys ← Failure.lift .misuse index.elements
  let sorted ← Failure.lift .misuse (Order.sortBy id keys)
  .ok { directory := directory, name := name, index := index, indexKeys := sorted }

/-! ## Reading -/

/-- The number that an offset in an index stands for. -/
def offsetNumber (offset : Value) : Except Failure Nat := do
  let negative ← Failure.lift .misuse (offset.compare .lt (.int 0))
  if negative then throw (.quoting [offset] (.badValue (.negativeOffset offset)))
  match offset with
  | .int n => .ok n.toNat
  | .bool b => .ok (if b then 1 else 0)
  | .float x =>
    match x, x.truncate? with
    | _, some n => .ok n.toNat
    | .nan _, none => .error (.badValue .undefinedOffset)
    | _, none => .error .infiniteOffset
  | _ => .ok 0

/-- What a file holds from an offset on. -/
def openAt (content : Utf8.Bytes) (offset : Value) : Except Failure Bookmark.Remainder := do
  let n ← offsetNumber offset
  Failure.lift .ofBookmark (Bookmark.openAt n content)

/-- The key and value of the record in a line. -/
def readRecord (t : Table) (text : List Char) : Except Failure (Value × Value) :=
  match Json.readPlain text with
  | .error _ => .error (.store (.corruptTable t.path))
  | .ok record => do
    let key ← Record.member record Record.keyName
    let value ← Record.member record Record.valueName
    .ok (key, value)

/-- The records in lines, up to the first that cannot be read.  Blank lines hold none. -/
def readRecords (t : Table) : List (List Char) → List (Value × Value) × Option Failure
  | [] => ([], none)
  | text :: rest =>
    if text.all Text.isBlank then readRecords t rest
    else
      match t.readRecord text with
      | .error e => ([], some e)
      | .ok record =>
        let (records, fault) := readRecords t rest
        (record :: records, fault)

/-- The records from an offset on that can be read, and the failure that reading ends with if
there is one.  A reader that stops early never meets the failure. -/
def recordsFrom (t : Table) (files : Directory) (offset : Value) :
    List (Value × Value) × Option Failure :=
  match files.read? t.name with
  | none => ([], some (.disk (.missing t.path)))
  | some content =>
    match openAt content offset with
    | .error e => ([], some e)
    | .ok remainder =>
      let (texts, fault) := Text.storedLines remainder.characters remainder.bytes
      match t.readRecords texts with
      | (records, some e) => (records, some e)
      | (records, none) => (records, fault.map .encoding)

/-- All records of the table. -/
def records (t : Table) (files : Directory) : List (Value × Value) × Option Failure :=
  t.recordsFrom files (.int 0)

/-- Where a look-up of a key starts. -/
def offsetFor (t : Table) (key : Value) : Except Failure Value := do
  let n ← Failure.lift .misuse (Order.insertionPoint t.indexKeys key)
  if n = 0 then .ok (.int 0)
  else Record.subscript t.index (t.indexKeys.getD (n - 1) .null)

/-- The value of the first record with a key, among records that end with a failure or not.  A
record with a greater key ends the search; null says that nothing was found. -/
def find (key : Value) (ending : Option Failure) : List (Value × Value) → Except Failure Value
  | [] =>
    match ending with
    | none => .ok .null
    | some e => .error e
  | (k, v) :: rest => do
    if ← Failure.lift .misuse (k.equals key) then .ok v
    else if ← Failure.lift .misuse (k.compare .gt key) then .ok .null
    else find key ending rest

/-- The value of a key, null where the table has none. -/
def get (t : Table) (files : Directory) (key : Value) : Except Failure Value := do
  let offset ← t.offsetFor key
  let (records, ending) := t.recordsFrom files offset
  find key ending records

/-! ## Writing -/

/-- Whether the record at a position goes into the index. -/
def isSampled (sample : Value) (position : Nat) : Except Failure Bool :=
  match sample.quantity? with
  | none => .error (.misuse (.noModulus sample.typeName))
  | some (.exact q) =>
    if q.num = 0 then
      match sample with
      | .float _ => .error .zeroFloatModulus
      | _ => .error .zeroModulus
    else .ok (q.divides position)
  | some (.infinite _) => .ok (position == 0)
  | some .undefined => .ok false

def line (key value : Value) : Except Json.WriteFault (List Char) := do
  let text ← Json.text (.dict [(.str Record.keyName, key), (.str Record.valueName, value)])
  .ok (text ++ ['\n'])

/-- A table being written: its text so far and the entries of its index. -/
structure Draft where
  text : List Char
  index : Entries

/-- Writes records, the first of them at a position, until one fails.  What was written before
the failure stays. -/
def writeRecords (sample : Value) (position : Nat) (draft : Draft) :
    List (Value × Value) → Draft × Option Failure
  | [] => (draft, none)
  | (key, value) :: rest =>
    match line key value with
    | .error fault => (draft, some (.unwritable fault))
    | .ok text =>
      let written := { draft with text := draft.text ++ text }
      match isSampled sample position with
      | .error e => (written, some e)
      | .ok false => writeRecords sample (position + 1) written rest
      | .ok true =>
        match Record.checkHashable key with
        | .error e => (written, some e)
        | .ok () =>
          -- The text is ASCII, so it has as many bytes as characters.
          let offset : Value := .int draft.text.length
          writeRecords sample (position + 1)
            { written with index := draft.index.insert key offset } rest

/-- The text of an index.  It is written entry by entry, so that a key without a text form
leaves the entries before it. -/
def indexText (index : Entries) : List Char × Option Json.WriteFault :=
  let isGood (e : Value × Value) : Bool := (Json.key e.1).isOk
  match Json.text (.dict index) with
  | .ok text => (text, none)
  | .error fault =>
    let good := (Json.text (.dict (index.takeWhile isGood))).toOption.getD []
    (good.dropLast, some fault)

/-- Writes a table of the records, sorted by key, and opens it.  A failure while writing leaves
files that are written in part. -/
def write (directory : Path) (name : String) (items : List (Value × Value)) (sample : Value)
    (files : Directory) : Except Failure Table × Directory :=
  match Order.sortBy (·.1) items with
  | .error m => (.error (.misuse m), files)
  | .ok sorted =>
    let (draft, failure) := writeRecords sample 0 { text := [], index := [] } sorted
    let files := files.write name (Utf8.encode draft.text)
    match failure with
    | some e => (.error e, files)
    | none =>
      let (text, fault) := indexText draft.index
      let files := files.write (indexName name) (Utf8.encode text)
      match fault with
      | some fault => (.error (.unwritable fault), files)
      | none => (load directory name files, files)

/-- Deletes the files of a table, those that are there. -/
def remove (t : Table) (files : Directory) : Directory :=
  (files.remove t.name).remove (indexName t.name)

end Table

end SchemaStore
