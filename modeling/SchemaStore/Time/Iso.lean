import SchemaStore.Number.Power
import SchemaStore.Text.Utf8
import SchemaStore.Time.DateTime

/-!
Reading ISO dates and moments.  A day may be written as year, month and day or as year, week and
weekday, with dashes or without.  A clock reading may stop after the hour or the minute, may have
colons or none, and may carry a fraction.  The text is read as bytes, because the places of the
parts are counted in bytes; past the end, and at a zero byte, there is nothing more to read.
-/

namespace SchemaStore
namespace Iso

open Utf8 (Bytes)

inductive Fault where
  | unreadable
  | yearOutOfRange (year : Nat)
  | monthOutOfRange
  | dayOutOfRange
  | hourOutOfRange
  | minuteOutOfRange
  | secondOutOfRange
  | offsetTooLong (micros : Int)
deriving DecidableEq

def Fault.message (text : String) : Fault → String
  | unreadable => "Invalid isoformat string: " ++ Text.quoted text
  | yearOutOfRange year => s!"year {year} is out of range"
  | monthOutOfRange => "month must be in 1..12"
  | dayOutOfRange => "day is out of range for month"
  | hourOutOfRange => "hour must be in 0..23"
  | minuteOutOfRange => "minute must be in 0..59"
  | secondOutOfRange => "second must be in 0..59"
  | offsetTooLong micros =>
    "offset must be a timedelta strictly between -timedelta(hours=24) and timedelta(hours=24), "
      ++ "not " ++ spanDisplay micros ++ "."

def isDigit (b : UInt8) : Bool := 0x30 ≤ b && b ≤ 0x39

/-- The byte at the front, or zero where there is none. -/
def peek (s : Bytes) : UInt8 := s.headD 0

def byte (c : Char) : UInt8 := c.toNat.toUInt8

/-- The number written in the next `count` bytes, all of them digits, and the rest. -/
def readDigits (count : Nat) (s : Bytes) (value : Nat) : Option (Nat × Bytes) :=
  match count, s with
  | 0, s => some (value, s)
  | _ + 1, [] => none
  | count + 1, b :: rest =>
    if isDigit b then readDigits count rest (value * 10 + (b.toNat - 0x30)) else none

/-- The rest after a dash, where dashes are used. -/
def skipDash (dashed : Bool) (s : Bytes) : Option Bytes :=
  if dashed then (if peek s = byte '-' then some (s.drop 1) else none) else some s

/-- Year, month and day as written at the front of `s`, not yet checked against the calendar.
A numbered week may leave out its weekday when the day's text, `length` bytes long, ends with
the week; it then means the Monday. -/
def readDay (length : Nat) (s : Bytes) : Option (Nat × Nat × Nat) := do
  let (year, s) ← readDigits 4 s 0
  let dashed := peek s = byte '-'
  let s := if dashed then s.drop 1 else s
  if peek s = byte 'W' then
    let (week, s) ← readDigits 2 (s.drop 1) 0
    if (if dashed then 8 else 7) < length then
      let s ← skipDash dashed s
      let (weekday, _) ← readDigits 1 s 0
      Calendar.ofWeek? year week weekday
    else Calendar.ofWeek? year week 1
  else
    let (month, s) ← readDigits 2 s 0
    let s ← skipDash dashed s
    let (day, _) ← readDigits 2 s 0
    some (year, month, day)

/-- The date with these fields, or the first field that is out of range. -/
def dateOf (fields : Nat × Nat × Nat) : Except Fault Date :=
  let (y, m, d) := fields
  if h : Calendar.IsDay y m d then .ok { year := y, month := m, day := d, isDay := h }
  else if y < 1 ∨ 9999 < y then .error (.yearOutOfRange y)
  else if m < 1 ∨ 12 < m then .error .monthOutOfRange
  else .error .dayOutOfRange

/-- A day: seven, eight or ten bytes. -/
def readDate (text : String) : Except Fault Date :=
  let s := Utf8.ofString text
  if s.length = 7 ∨ s.length = 8 ∨ s.length = 10 then
    match readDay s.length s with
    | some fields => dateOf fields
    | none => .error .unreadable
  else .error .unreadable

/-- The fields of a clock reading as written: the hour, and perhaps the minute and second. -/
structure Clock where
  fields : List Nat
  micro : Nat
  /-- Something was left over after the last field. -/
  leftOver : Bool

def Clock.field (c : Clock) (i : Nat) : Nat := c.fields.getD i 0

/-- A fraction of a second in the next `length` bytes: up to six digits count, and more digits
may follow. -/
def readFraction (fields : List Nat) (length : Nat) (s : Bytes) : Option Clock := do
  let count := min length 6
  let (value, s) ← readDigits count s 0
  some { fields := fields, micro := value * Power.ten (6 - count),
         leftOver := peek (s.dropWhile isDigit) ≠ 0 }

/-- The remaining fields of a clock reading, at most `slots` of them, in the next `length` bytes.
The byte after the hour decides whether colons are used.  A reading may break off after a field,
and then at most one more byte is tolerated and counts as left over. -/
def readFields (slots : Nat) (colons : Bool) (fields : List Nat) (length : Nat) (s : Bytes) :
    Option Clock :=
  match slots with
  | 0 => readFraction fields length s
  | slots + 1 => do
    let (value, s) ← readDigits 2 s 0
    let next := peek s
    let colons := if fields.isEmpty then next = byte ':' else colons
    let fields := fields ++ [value]
    if length ≤ 3 then some { fields := fields, micro := 0, leftOver := next ≠ 0 }
    else if colons ∧ next = byte ':' then readFields slots colons fields (length - 3) (s.drop 1)
    else if next = byte '.' ∨ next = byte ',' then readFraction fields (length - 3) (s.drop 1)
    else if !colons then readFields slots colons fields (length - 2) s
    else none

/-- A clock reading in the next `length` bytes. -/
def readClock (length : Nat) (s : Bytes) : Option Clock := readFields 3 false [] length s

def isZoneMark (b : UInt8) : Bool := b = byte '+' || b = byte '-' || b = byte 'Z'

/-- The signed seconds and microseconds of an offset, and zeros for universal time. -/
def readZone (s : Bytes) : Option (Int × Int) :=
  if peek s = byte 'Z' then
    if peek (s.drop 1) = 0 then some (0, 0) else none
  else do
    let sign : Int := if peek s = byte '-' then -1 else 1
    let rest := s.drop 1
    let c ← readClock rest.length rest
    if c.leftOver then none
    else
      let seconds := c.field 0 * 3600 + c.field 1 * 60 + c.field 2
      some (sign * seconds, sign * c.micro)

/-- A clock reading and, after the first sign or `Z`, an offset. -/
def readTime (s : Bytes) : Option (Clock × Option (Int × Int)) := do
  let length := (s.takeWhile fun b => !isZoneMark b).length
  let c ← readClock length s
  if length = s.length then
    if c.leftOver then none else some (c, none)
  else
    let zone ← readZone (s.drop length)
    some (c, some zone)

/-- Where the day ends and the separator stands.  After a week without a weekday the digits
that follow tell whether the first of them is the weekday: an odd number of digits leaves whole
pairs for the clock only when the week is followed by a weekday. -/
def dayLength (s : Bytes) : Option Nat :=
  let byteAt (i : Nat) := peek (s.drop i)
  if s.length = 7 then some 7
  else if byteAt 4 = byte '-' then
    if byteAt 5 = byte 'W' then
      if 8 < s.length ∧ byteAt 8 = byte '-' then
        if s.length = 9 then none
        else if 10 < s.length ∧ isDigit (byteAt 10) then some 8
        else some 10
      else some 8
    else some 10
  else if byteAt 4 = byte 'W' then
    let stop := 7 + ((s.drop 7).takeWhile isDigit).length
    if stop < 9 then some stop else if stop % 2 = 0 then some 7 else some 8
  else some 8

/-- The number of bytes of the character that starts with this byte. -/
def widthOf (b : UInt8) : Nat :=
  if b < 0x80 then 1 else if b < 0xe0 then 2 else if b < 0xf0 then 3 else 4

/-- The offset of a zone.  Microseconds alone do not count. -/
def offsetOf (zone : Int × Int) : Except Fault Offset :=
  let micros := if zone.1 = 0 then 0 else zone.1 * 1000000 + zone.2
  if h : -86400000000 < micros ∧ micros < 86400000000 then
    .ok { micros := micros, shorterThanDay := h }
  else .error (.offsetTooLong micros)

/-- The time of day with these fields, or the first that is out of range. -/
def timeOf (c : Clock) : Except Fault TimeOfDay :=
  let h := c.field 0
  let m := c.field 1
  let s := c.field 2
  if p : h < 24 ∧ m < 60 ∧ s < 60 ∧ c.micro < 1000000 then
    .ok { hour := h, minute := m, second := s, micro := c.micro, inDay := p }
  else if 24 ≤ h then .error .hourOutOfRange
  else if 60 ≤ m then .error .minuteOutOfRange
  else .error .secondOutOfRange

/-- A moment: a day alone, or a day, any one character and a clock reading. -/
def readDateTime (text : String) : Except Fault DateTime :=
  let s := Utf8.ofString text
  let read : Option ((Nat × Nat × Nat) × Clock × Option (Int × Int)) := do
    if text.length < 7 then none
    let length ← dayLength s
    let day ← readDay length s
    if s.length ≤ length then
      some (day, { fields := [], micro := 0, leftOver := false }, none)
    else
      let rest := s.drop length
      let (c, zone) ← readTime (rest.drop (widthOf (peek rest)))
      some (day, c, zone)
  match read with
  | none => .error .unreadable
  | some (day, c, zone) => do
    let offset ← zone.mapM offsetOf
    let date ← dateOf day
    let time ← timeOf c
    .ok { date := date, time := time, offset := offset }

end Iso
end SchemaStore
