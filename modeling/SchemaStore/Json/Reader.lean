import SchemaStore.Json.Token
import SchemaStore.Value.Entries

/-!
Reading values from JSON.  The reader takes one token after the other; its state says what may
come next and which lists and objects are open.  An object is handed to `revive` as soon as it
closes, so that an inner object is revived before the outer one, and before anything that
follows it is looked at.
-/

namespace SchemaStore
namespace Json

/-- Why a text cannot be read.  `revived` is an error of the function that revives objects. -/
inductive ReadFault (ε : Type) where
  | malformed (cause : Cause) (line column position : Nat)
  | longInteger (digits : Nat)
  | revived (e : ε)

def longIntegerMessage (digits : Nat) : String :=
  s!"Exceeds the limit ({digitLimit} digits) for integer string conversion: value has "
    ++ s!"{digits} digits; use sys.set_int_max_str_digits() to increase the limit"

def ReadFault.message {ε : Type} (revived : ε → String) : ReadFault ε → String
  | malformed cause line column position =>
    s!"{cause.text}: line {line} column {column} (char {position})"
  | longInteger digits => longIntegerMessage digits
  | .revived e => revived e

/-- A list or object that is open around what is being read. -/
inductive Frame where
  /-- A list with the items read so far, the last one first. -/
  | list (done : List Value)
  /-- An object with the members read so far and the name of the one being read. -/
  | member (done : Entries) (name : String)

/-- What may come next. -/
inductive State where
  | value (stack : List Frame)
  /-- After an opening bracket: an item or the end. -/
  | firstItem (stack : List Frame)
  /-- After an item, the last of `done`: a comma or the end. -/
  | afterItem (done : List Value) (stack : List Frame)
  /-- After an opening brace: a name or the end. -/
  | firstName (stack : List Frame)
  | name (done : Entries) (stack : List Frame)
  | colon (done : Entries) (name : String) (stack : List Frame)
  | afterMember (done : Entries) (stack : List Frame)
  | finished (v : Value)

/-- The state after a whole value has been read. -/
def deliver (v : Value) : List Frame → State
  | [] => .finished v
  | .list done :: stack => .afterItem (v :: done) stack
  | .member done name :: stack => .afterMember (done.insert (.str name) v) stack

/-- A fault before its place is expressed in lines and columns. -/
inductive Stop (ε : Type) where
  | malformed (cause : Cause) (position : Nat)
  | longInteger (digits : Nat)
  | revived (e : ε)

section

variable {ε : Type} (revive : Entries → Except ε Value)

def close (done : Entries) (stack : List Frame) : Except (Stop ε) State :=
  match revive done with
  | .ok v => .ok (deliver v stack)
  | .error e => .error (.revived e)

/-- A token where a value is due. -/
def beginValue (stack : List Frame) (t : Placed) : Except (Stop ε) State :=
  match t.token with
  | .beginList => .ok (.firstItem stack)
  | .beginObject => .ok (.firstName stack)
  | .scalar v => .ok (deliver v stack)
  | .string s => .ok (deliver (.str s) stack)
  | .brokenString cause position => .error (.malformed cause position)
  | .longInteger digits => .error (.longInteger digits)
  | _ => .error (.malformed .expectingValue t.start)

/-- A token where the name of a member is due. -/
def beginName (done : Entries) (stack : List Frame) (t : Placed) : Except (Stop ε) State :=
  match t.token with
  | .string s => .ok (.colon done s stack)
  | .brokenString cause position => .error (.malformed cause position)
  | _ => .error (.malformed .expectingName t.start)

def step (s : State) (t : Placed) : Except (Stop ε) State :=
  match s with
  | .value stack => beginValue stack t
  | .firstItem stack =>
    match t.token with
    | .endList => .ok (deliver (.list []) stack)
    | _ => beginValue (.list [] :: stack) t
  | .afterItem done stack =>
    match t.token with
    | .endList => .ok (deliver (.list done.reverse) stack)
    | .comma => .ok (.value (.list done :: stack))
    | _ => .error (.malformed .expectingComma t.start)
  | .firstName stack =>
    match t.token with
    | .endObject => close revive [] stack
    | _ => beginName [] stack t
  | .name done stack => beginName done stack t
  | .colon done name stack =>
    match t.token with
    | .colon => .ok (.value (.member done name :: stack))
    | _ => .error (.malformed .expectingColon t.start)
  | .afterMember done stack =>
    match t.token with
    | .endObject => close revive done stack
    | .comma => .ok (.name done stack)
    | _ => .error (.malformed .expectingComma t.start)
  | .finished _ => .error (.malformed .extraData t.start)

/-- The value that has been read when the text ends at `position`. -/
def finish (position : Nat) : State → Except (Stop ε) Value
  | .finished v => .ok v
  | .value _ | .firstItem _ => .error (.malformed .expectingValue position)
  | .firstName _ | .name _ _ => .error (.malformed .expectingName position)
  | .colon _ _ _ => .error (.malformed .expectingColon position)
  | .afterItem _ _ | .afterMember _ _ => .error (.malformed .expectingComma position)

/-- The line and the column of a place in a text, both counted from 1. -/
def lineAndColumn (cs : List Char) (position : Nat) : Nat × Nat :=
  let before := cs.take position
  (before.count '\n' + 1, (before.reverse.takeWhile (· ≠ '\n')).length + 1)

def read (cs : List Char) : Except (ReadFault ε) Value :=
  let result : Except (Stop ε) Value := do
    if cs.head? = some '\ufeff' then throw (.malformed .byteOrderMark 0)
    let s ← (tokens cs).foldlM (step revive) (.value [])
    finish cs.length s
  match result with
  | .ok v => .ok v
  | .error (.malformed cause position) =>
    let (line, column) := lineAndColumn cs position
    .error (.malformed cause line column position)
  | .error (.longInteger digits) => .error (.longInteger digits)
  | .error (.revived e) => .error (.revived e)

end

/-- Reading without reviving: objects are dictionaries. -/
def readPlain (cs : List Char) : Except (ReadFault Empty) Value :=
  read (fun es => .ok (.dict es)) cs

end Json
end SchemaStore
