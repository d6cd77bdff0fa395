import SchemaStore.Failure
import SchemaStore.Text.Blank
import SchemaStore.Text.Digit

/-!
The settings of a store: where its files are, how many keys are held in memory before they are
written to a table, how many records share one entry of a table's index, and whether writes are
forced to the disk.  A setting is a value, since it may come from anywhere; a limit must be
comparable with one, and not below it.
-/

namespace SchemaStore

structure Settings where
  dataDir : Path
  memtableLimit : Value
  indexSample : Value
  forced : Value

namespace Settings

def defaultMemtableLimit : Value := .int 2000
def defaultIndexSample : Value := .int 16
def defaultForced : Value := .bool true

def checkLimit (setting : String) (v : Value) : Except Failure Unit := do
  let below ← Failure.lift .misuse (v.compare .lt (.int 1))
  if below then throw (.quoting [v] (.badValue (.belowOne setting v)))

/-- The settings with these values, once both limits are checked. -/
def make (dataDir : Path) (memtableLimit indexSample forced : Value) : Except Failure Settings := do
  checkLimit "memtable_limit" memtableLimit
  checkLimit "index_sample" indexSample
  .ok { dataDir := dataDir, memtableLimit := memtableLimit, indexSample := indexSample,
        forced := forced }

/-- The settings for a directory, every other one at its default. -/
def atPath (dataDir : Path) : Except Failure Settings :=
  make dataDir defaultMemtableLimit defaultIndexSample defaultForced

def isFull (c : Settings) (count : Nat) : Bool :=
  match c.memtableLimit.quantity? with
  | some limit => limit.le (Quantity.ofInt count)
  | none => false

/-! ## Whole numbers in settings

A whole number may be written with the digits of any script, with single underscores between
digits, with a sign, and with blanks around it. -/

/-- The blanks that may surround a number in plain ASCII. -/
def isAsciiBlank (c : Char) : Bool := c == ' ' || (0x09 ≤ c.toNat && c.toNat ≤ 0x0d)

/-- A text with the digits and blanks of other scripts replaced by ASCII ones.  A text that is
already ASCII stays as it is. -/
def toAscii (cs : List Char) : List Char :=
  if cs.all fun c => c.toNat < 0x80 then cs
  else cs.map fun c =>
    if c.toNat < 127 then c
    else if Text.isBlank c then ' '
    else match Text.digitValue? c with
      | some d => Char.ofNat (48 + d)
      | none => '?'

/-- Whether digits and underscores alternate properly: no underscore at either end, and no two
in a row. -/
def wellSpaced (run : List Char) : Bool :=
  !run.isEmpty && run.head? != some '_' && run.getLast? != some '_'
    && !(run.zip (run.drop 1)).any fun p => p.1 == '_' && p.2 == '_'

/-- The whole number that a setting denotes. -/
def readInteger (text : String) : Except Failure Int :=
  let (negative, body) := Numeral.readSign ((toAscii text.toList).dropWhile isAsciiBlank)
  let run := body.takeWhile fun c => c.isDigit || c == '_'
  let rest := body.dropWhile fun c => c.isDigit || c == '_'
  let digits := run.filter Char.isDigit
  if !wellSpaced run then .error (.badValue (.notInteger text))
  else if Json.digitLimit < digits.length then .error (.badValue (.longInteger digits.length))
  else if !rest.all isAsciiBlank then .error (.badValue (.notInteger text))
  else
    let n : Int := Nat.ofDigitChars 10 digits 0
    .ok (if negative then -n else n)

/-! ## Settings from the environment -/

abbrev Environment := List (String × String)

/-- A variable that is set, and not to the empty text. -/
def Environment.value? (env : Environment) (name : String) : Option String :=
  match env.lookup name with
  | some "" => none
  | found => found

def memtableLimitVariable : String := "PY_DOCMODEL_MEMTABLE_LIMIT"
def indexSampleVariable : String := "PY_DOCMODEL_INDEX_SAMPLE"
def forcedVariable : String := "PY_DOCMODEL_FSYNC"

/-- The words that turn a setting off, in any case and with blanks around them. -/
def offWords : List String := ["0", "false", "no", "off"]

def isOff (text : String) : Bool :=
  offWords.contains (String.ofList ((Text.strip text.toList).map Char.toLower))

/-- A whole number from a variable, or a default. -/
def integerSetting (env : Environment) (name : String) (default : Value) :
    Except Failure Value :=
  match env.value? name with
  | none => .ok default
  | some text => (readInteger text).map .int

/-- The settings that the environment asks for.  `default` names the directory when the
environment does not. -/
def ofEnvironment (env : Environment) (default : Value) : Except Failure Settings := do
  let dataDir := ((env.value? dataDirectoryVariable).map Value.str).getD default
  if !dataDir.truthy then throw (.badValue .noDataDirectory)
  let memtableLimit ← integerSetting env memtableLimitVariable defaultMemtableLimit
  let indexSample ← integerSetting env indexSampleVariable defaultIndexSample
  let forced := match env.value? forcedVariable with
    | none => defaultForced
    | some text => .bool (!isOff text)
  let path ← Failure.lift .misuse (Path.ofValue dataDir)
  make path memtableLimit indexSample forced

end Settings

end SchemaStore
