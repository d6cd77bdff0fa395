import SchemaStore.Text.Quoted
import SchemaStore.Time.Date

/-!
Moments of a day, with or without an offset from universal time, and the ISO text of dates and
moments.  An offset is given as such, or it is what a time zone says of the moment.  Where a zone
sets its clocks back the same reading comes twice, and where it sets them forward some readings
never come; the fold of a moment tells on which side of such a change it is meant to be.
-/

namespace SchemaStore

/-- A clock reading to the microsecond. -/
structure TimeOfDay where
  hour : Nat
  minute : Nat
  second : Nat
  micro : Nat
  inDay : hour < 24 ∧ minute < 60 ∧ second < 60 ∧ micro < 1000000 := by decide
deriving DecidableEq

/-- The time zone that an offset was looked up in. -/
structure Zone where
  name : String
  /-- What the offset would be, in microseconds, if the moment had the other fold. -/
  flipped : Int
deriving DecidableEq

/-- An offset from universal time, in microseconds and shorter than a day either way. -/
structure Offset where
  micros : Int
  shorterThanDay : -86400000000 < micros ∧ micros < 86400000000 := by decide
  /-- The zone that the offset is due to, unless it is a fixed one. -/
  zone : Option Zone := none
deriving DecidableEq

/-- A moment: a day, a clock reading and perhaps an offset.  Without an offset it is naive. -/
structure DateTime where
  date : Date
  time : TimeOfDay
  offset : Option Offset
  /-- The reading is meant to come after a change of the clocks, not before it. -/
  fold : Bool := false
deriving DecidableEq

def Offset.utc : Offset := { micros := 0 }

/-- The zone gives the clock reading two offsets, one for each fold. -/
def Offset.dependsOnFold (o : Offset) : Bool :=
  match o.zone with
  | some zone => zone.flipped != o.micros
  | none => false

/-- The text `YYYY-MM-DD`. -/
def Date.iso (d : Date) : List Char :=
  Text.padded 4 d.year ++ '-' :: (Text.padded 2 d.month ++ '-' :: Text.padded 2 d.day)

/-- The text `HH:MM:SS`, and six digits of a second unless they are zero. -/
def TimeOfDay.iso (t : TimeOfDay) : List Char :=
  Text.padded 2 t.hour ++ ':' :: (Text.padded 2 t.minute ++ ':' :: (Text.padded 2 t.second
    ++ (if t.micro = 0 then [] else '.' :: Text.padded 6 t.micro)))

/-- The text `±HH:MM`, with seconds and microseconds where they are not zero. -/
def Offset.iso (o : Offset) : List Char :=
  let size := o.micros.natAbs
  let seconds := size / 1000000
  let micro := size % 1000000
  (if o.micros < 0 then '-' else '+')
    :: (Text.padded 2 (seconds / 3600) ++ ':' :: (Text.padded 2 (seconds / 60 % 60)
      ++ (if seconds % 60 = 0 ∧ micro = 0 then []
          else ':' :: (Text.padded 2 (seconds % 60)
            ++ (if micro = 0 then [] else '.' :: Text.padded 6 micro)))))

namespace DateTime

/-- The ISO text, with `separator` between the day and the clock reading. -/
def isoWith (separator : Char) (t : DateTime) : List Char :=
  t.date.iso ++ separator :: (t.time.iso ++ (t.offset.map Offset.iso).getD [])

def iso (t : DateTime) : List Char := t.isoWith 'T'

/-- Microseconds since the start of the calendar, as the clock on the wall counts them. -/
def wallMicros (t : DateTime) : Int :=
  ((t.date.dayNumber * 86400 + t.time.hour * 3600 + t.time.minute * 60 + t.time.second : Nat) : Int)
    * 1000000 + t.time.micro

/-- The same for universal time, where the offset is known. -/
def instant (t : DateTime) : Int := t.wallMicros - (t.offset.map Offset.micros).getD 0

def zone? (t : DateTime) : Option Zone := t.offset.bind Offset.zone

/-- Both moments are due to one zone. -/
def sharesZone (a b : DateTime) : Bool :=
  match a.zone?, b.zone? with
  | some x, some y => x.name == y.name
  | _, _ => false

/-- The place of a moment in time, as it is compared with another: in one zone the clock on the
wall counts, with no regard to the fold. -/
def placeNextTo (a b : DateTime) : Int := if a.sharesZone b then a.wallMicros else a.instant

/-- Order in time, defined between moments that both have an offset or both have none. -/
def lt? (a b : DateTime) : Option Bool :=
  if a.offset.isSome == b.offset.isSome then
    some (decide (a.placeNextTo b < b.placeNextTo a))
  else none

/-- Two moments are at one place in time.  A naive moment never is where one with an offset is. -/
def coincides (a b : DateTime) : Bool :=
  a.offset.isSome == b.offset.isSome && a.placeNextTo b == b.placeNextTo a

def dependsOnFold (t : DateTime) : Bool := t.offset.any Offset.dependsOnFold

/-- Two moments are one.  A moment whose offset depends on its fold equals none but those of its own
zone, not even one at its very place. -/
def same (a b : DateTime) : Bool :=
  a.coincides b && (a.sharesZone b || !(a.dependsOnFold || b.dependsOnFold))

theorem dependsOnFold_of_zone?_none {t : DateTime} (h : t.zone? = none) :
    t.dependsOnFold = false := by
  obtain ⟨_, _, _ | o, _⟩ := t
  · rfl
  · have hzone : o.zone = none := h
    simp [dependsOnFold, Offset.dependsOnFold, hzone]

theorem same_self (t : DateTime) : t.same t = true := by
  have hzone : (t.sharesZone t || !(t.dependsOnFold || t.dependsOnFold)) = true := by
    cases h : t.zone? with
    | none => rw [dependsOnFold_of_zone?_none h, Bool.or_self, Bool.not_false, Bool.or_true]
    | some zone => simp [sharesZone, h]
  rw [same, coincides, beq_self_eq_true, beq_self_eq_true, hzone]
  rfl

end DateTime

/-- The parts of a span of time: whole days towards the past, then seconds and microseconds
from there on. -/
def spanParts (micros : Int) : Int × Int × Int :=
  let day : Int := 86400000000
  (micros.fdiv day, (micros.fmod day).fdiv 1000000, micros.fmod 1000000)

/-- A span of time as error messages and the display of an offset show it. -/
def spanDisplay (micros : Int) : String :=
  let (days, seconds, micro) := spanParts micros
  let part (name : String) (n : Int) : List String := if n = 0 then [] else [s!"{name}={n}"]
  let parts := part "days" days ++ part "seconds" seconds ++ part "microseconds" micro
  let inner := if parts.isEmpty then "0" else ", ".intercalate parts
  s!"datetime.timedelta({inner})"

def Date.display (d : Date) : String := s!"datetime.date({d.year}, {d.month}, {d.day})"

def Offset.display (o : Offset) : String :=
  match o.zone with
  | some zone => "zoneinfo.ZoneInfo(key=" ++ Text.quoted zone.name ++ ")"
  | none =>
    if o.micros = 0 then "datetime.timezone.utc"
    else
      let span := spanDisplay o.micros
      s!"datetime.timezone({span})"

def DateTime.display (t : DateTime) : String :=
  let clock :=
    [t.date.year, t.date.month, t.date.day, t.time.hour, t.time.minute]
      ++ (if t.time.second = 0 ∧ t.time.micro = 0 then [] else [t.time.second])
      ++ (if t.time.micro = 0 then [] else [t.time.micro])
  let fields := clock.map toString
    ++ (if t.fold then ["fold=1"] else [])
    ++ (match t.offset with
        | none => []
        | some o => ["tzinfo=" ++ o.display])
  let inner := ", ".intercalate fields
  s!"datetime.datetime({inner})"

end SchemaStore
