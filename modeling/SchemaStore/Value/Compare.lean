import SchemaStore.Misuse
import SchemaStore.Value

/-!
Equality and order of values.  Numbers of all kinds are compared by their exact place in the
complex plane, truth values counting as zero and one.  `Value.same` says of any two values whether
they are equal.  Only a decimal that signals must not be compared with a number: `Value.signals`
tells when that would happen, and `Value.equals` is the question that fails then.  Order is defined
between values of types that belong together, and `Value.compare` says which types do not.
-/

namespace SchemaStore
namespace Value

/-- The real and imaginary part of a value that counts as a number. -/
def plane? : Value → Option (Quantity × Quantity)
  | bool b => some (.ofInt (if b then 1 else 0), .ofInt 0)
  | int n => some (.ofInt n, .ofInt 0)
  | float x => some (x.quantity, .ofInt 0)
  | fraction q => some (.exact q, .ofInt 0)
  | decimal x => some (x.quantity, .ofInt 0)
  | complex re im => some (re.quantity, im.quantity)
  | _ => none

/-- The place on the number line of a value that counts as a real number. -/
def quantity? : Value → Option Quantity
  | complex _ _ => none
  | v => v.plane?.map (·.1)

/-- Equality of numbers; false unless both values are numbers. -/
def sameNumber (a b : Value) : Bool :=
  match a.plane?, b.plane? with
  | some p, some q => p.1.same q.1 && p.2.same q.2
  | _, _ => false

/-- Whether both values are the `NaN` of stored text.  It equals nothing, itself included, yet
wherever something is looked for it is found, because it is the very thing that was looked for. -/
def areStoredNaN : Value → Value → Bool
  | float (.nan true), float (.nan true) => true
  | _, _ => false

mutual

/-- Equality of values.  Lists equal lists and tuples equal tuples, item by item; two sets, and
two dictionaries or views of them, are equal whatever their order. -/
def same : Value → Value → Bool
  | null, b => match b with
    | null => true
    | _ => false
  | bool x, b => sameNumber (bool x) b
  | int n, b => sameNumber (int n) b
  | float x, b => sameNumber (float x) b
  | fraction q, b => sameNumber (fraction q) b
  | decimal x, b => sameNumber (decimal x) b
  | complex re im, b => sameNumber (complex re im) b
  | str s, b => match b with
    | str t => s == t
    | _ => false
  | bytes s, b => match b with
    | bytes t => s == t
    | _ => false
  | date d, b => match b with
    | date e => d == e
    | _ => false
  | dateTime t, b => match b with
    | dateTime u => t.same u
    | _ => false
  | list xs, b => match b with
    | list ys => sameItems xs ys
    | _ => false
  | tuple xs, b => match b with
    | tuple ys => sameItems xs ys
    | _ => false
  | set xs, b => match b with
    | set ys => xs.length == ys.length && subset xs ys
    | _ => false
  | dict es, b => match b.entries? with
    | some fs => es.length == fs.length && subEntries es fs
    | none => false
  | view es, b => match b.entries? with
    | some fs => es.length == fs.length && subEntries es fs
    | none => false
  | type t, b => match b with
    | type u => t == u
    | _ => false
  | kind k, b => match b with
    | kind l => k == l
    | _ => false

def sameItems : List Value → List Value → Bool
  | [], ys => ys.isEmpty
  | x :: xs, ys => match ys with
    | [] => false
    | y :: ys => (areStoredNaN x y || same x y) && sameItems xs ys

/-- Every item of the first sequence equals one of the second. -/
def subset : List Value → List Value → Bool
  | [], _ => true
  | x :: xs, ys => ys.any (fun y => areStoredNaN x y || same x y) && subset xs ys

/-- Every pair of the first dictionary has a key in the second, with an equal value. -/
def subEntries : List (Value × Value) → List (Value × Value) → Bool
  | [], _ => true
  | (k, v) :: es, fs =>
    (match fs.find? (fun f => areStoredNaN k f.1 || same k f.1) with
      | some f => areStoredNaN v f.2 || same v f.2
      | none => false)
    && subEntries es fs

end

/-- Whether a key stands for another: they are equal, or they are one and the same. -/
def standsFor (a b : Value) : Bool := areStoredNaN a b || same a b

def isView : Value → Bool
  | view _ => true
  | _ => false

/-- A number without an imaginary part. -/
def isOnLine (v : Value) : Bool :=
  match v.plane? with
  | some (_, im) => im.same (.ofInt 0)
  | none => false

def isSignalling : Value → Bool
  | decimal x => x.isSignalling
  | _ => false

/-- Whether one of the keys is met when the pairs of a dictionary are compared with those of
another, in order and up to the first difference. -/
def reaches (keys : List Value) : List (Value × Value) → List (Value × Value) → Bool
  | [], _ => false
  | (k, v) :: es, fs =>
    match fs.find? fun f => k.standsFor f.1 with
    | none => false
    | some f => keys.any (·.standsFor k) || (v.standsFor f.2 && reaches keys es fs)

mutual

/-- Whether a decimal that signals meets a number when two values are compared for equality: the
first with the second, or the second with the first if `isSwapped`.  Parts are compared in order, up
to the first difference.  Two lists have none in common unless they are of one length, and neither
have two dictionaries; tuples are compared all the same. -/
def signals (isSwapped : Bool) : Value → Value → Bool
  | list xs, b => match b with
    | list ys => xs.length == ys.length && signalsIn isSwapped xs ys
    | _ => false
  | tuple xs, b => match b with
    | tuple ys => signalsIn isSwapped xs ys
    | _ => false
  -- The dictionary on the left leads, unless it is compared with a view, which turns the sides.
  | dict es, b => match b.entries? with
    | some fs =>
      if isSwapped || b.isView then
        es.length == fs.length && reaches (signallingKeys true es fs) fs es
      else es.length == fs.length && reaches (signallingKeys false es fs) es fs
    | none => false
  | view es, b => match b.entries? with
    | some fs =>
      if !isSwapped && b.isView then
        es.length == fs.length && reaches (signallingKeys true es fs) fs es
      else es.length == fs.length && reaches (signallingKeys false es fs) es fs
    | none => false
  | a, b => a.isOnLine && b.isOnLine && (a.isSignalling || b.isSignalling)

def signalsIn (isSwapped : Bool) : List Value → List Value → Bool
  | [], _ => false
  | x :: xs, ys => match ys with
    | [] => false
    | y :: ys => signals isSwapped x y || (x.standsFor y && signalsIn isSwapped xs ys)

/-- The keys of a dictionary under which a decimal that signals meets a number of another. -/
def signallingKeys (isSwapped : Bool) :
    List (Value × Value) → List (Value × Value) → List Value
  | [], _ => []
  | (k, v) :: es, fs =>
    let keys := signallingKeys isSwapped es fs
    match fs.find? fun f => k.standsFor f.1 with
    | none => keys
    | some f => if signals isSwapped v f.2 then k :: keys else keys

end

/-- Whether two values are equal, where that can be asked. -/
def equals (a b : Value) : Except Misuse Bool :=
  if signals false a b then .error .undefinedOrder else .ok (same a b)

/-- The relation between two sets, where below means being a part of. -/
def compareSets (r : Relation) (xs ys : List Value) : Bool :=
  match r with
  | .lt => subset xs ys && xs.length < ys.length
  | .le => subset xs ys
  | .gt => subset ys xs && ys.length < xs.length
  | .ge => subset ys xs

/-- A view is ordered, or rather refuses to be, as the dictionary behind it. -/
def orderName : Value → String
  | view _ => "dict"
  | v => v.typeName

def unordered (r : Relation) (a b : Value) : Except Misuse Bool :=
  .error (.unordered r a.orderName b.orderName)

def isDecimal : Value → Bool
  | decimal _ => true
  | _ => false

/-- Order of two values of which the first is a real number.  What is not a number stands in no
relation to anything, and next to a decimal it may not even be asked for one. -/
def compareNumber (r : Relation) (a b : Value) : Except Misuse Bool :=
  match a.quantity?, b.quantity? with
  | some p, some q =>
    if (a.isDecimal || b.isDecimal) && (p.isUndefined || q.isUndefined) then
      .error .undefinedOrder
    else .ok (r.between p q)
  | _, _ => unordered r a b

mutual

/-- Whether the relation holds between two values.  Sequences of one type are ordered by the
first place at which they differ, and a sequence stands before every longer one that it starts. -/
def compare (r : Relation) : Value → Value → Except Misuse Bool
  | null, b => unordered r null b
  | bool x, b => compareNumber r (bool x) b
  | int n, b => compareNumber r (int n) b
  | float x, b => compareNumber r (float x) b
  | fraction q, b => compareNumber r (fraction q) b
  | decimal x, b => compareNumber r (decimal x) b
  | complex re im, b => unordered r (complex re im) b
  | str s, b => match b with
    | str t => .ok (r.decideBy (decide (s < t)) (s == t))
    | _ => unordered r (str s) b
  | bytes s, b => match b with
    | bytes t => .ok (r.decideBy (decide (s < t)) (s == t))
    | _ => unordered r (bytes s) b
  | date d, b => match b with
    | date e => .ok (r.decideBy (d.lt e) (d == e))
    | dateTime _ => .error .mixedDates
    | _ => unordered r (date d) b
  | dateTime t, b => match b with
    | dateTime u => match t.lt? u with
      | some below => .ok (r.decideBy below (t.coincides u))
      | none => .error .mixedOffsets
    | date _ => .error .mixedDates
    | _ => unordered r (dateTime t) b
  | list xs, b => match b with
    | list ys => compareItems r xs ys
    | _ => unordered r (list xs) b
  | tuple xs, b => match b with
    | tuple ys => compareItems r xs ys
    | _ => unordered r (tuple xs) b
  | set xs, b => match b with
    | set ys => .ok (compareSets r xs ys)
    | _ => unordered r (set xs) b
  | dict es, b => unordered r (dict es) b
  | view es, b => unordered r (view es) b
  | type t, b => unordered r (type t) b
  | kind k, b => unordered r (kind k) b

def compareItems (r : Relation) : List Value → List Value → Except Misuse Bool
  | [], ys => .ok (r.decideBy (!ys.isEmpty) ys.isEmpty)
  | x :: xs, ys => match ys with
    | [] => .ok (r.decideBy false false)
    | y :: ys =>
      if signals false x y then .error .undefinedOrder
      else if standsFor x y then compareItems r xs ys
      else compare r x y

end

/-! ## Basic laws -/

@[simp]
theorem same_str (s t : String) : same (str s) (str t) = (s == t) := by
  simp [same]

@[simp]
theorem same_int (a b : Int) : same (int a) (int b) = (a == b) := by
  simp [same, sameNumber, plane?, Quantity.same, Quantity.ofInt, Ratio.same_ofInt]

@[simp]
theorem standsFor_str (s t : String) : Value.standsFor (str s) (str t) = (s == t) := by
  simp [Value.standsFor, areStoredNaN]

/-- Next to a text nothing signals. -/
@[simp]
theorem equals_str (v : Value) (s : String) : v.equals (str s) = .ok (v.same (str s)) := by
  cases v <;> simp [equals, signals, isOnLine, plane?, entries?]

end Value
end SchemaStore
