import SchemaStore.Proofs.Text.Ascii
import SchemaStore.Time.Iso

/-!
Reading back ISO texts.  A date comes back from its text as it was.  A moment comes back with its
day, its clock reading and its offset, which is a fixed one now: the text does not name the zone.
Only an offset of less than a second comes back as none at all: the reader decides by the whole
seconds whether there is an offset.

Numbers are written with a fixed number of digits, so the place of each part is known, and the
reader takes the parts one after the other from the front.
-/

namespace SchemaStore

/-- The same offset, whatever zone it is due to. -/
def Offset.fixed (o : Offset) : Offset := { o with zone := none }

/-- The moment with its offset, but with no zone and no fold. -/
def DateTime.fixed (t : DateTime) : DateTime :=
  { t with offset := t.offset.map Offset.fixed, fold := false }

/-- The offset as it is read back: less than a second either way is lost. -/
def Offset.readBack (o : Offset) : Offset := if o.micros.natAbs < 1000000 then .utc else o.fixed

def DateTime.readBack (t : DateTime) : DateTime :=
  { t with offset := t.offset.map Offset.readBack, fold := false }

/-! ## Digits -/

namespace Text

theorem isDigit_of_mem_padded {width n : Nat} {c : Char} (hc : c ∈ padded width n) :
    c.isDigit = true := by
  rcases List.mem_append.mp hc with hzero | hdigit
  · rw [(List.mem_replicate.mp hzero).2]
    rfl
  · exact Nat.isDigit_of_mem_toDigits (by decide) (by decide) hdigit

theorem length_padded {width n : Nat} (hwidth : 0 < width) (h : n < Power.ten width) :
    (padded width n).length = width := by
  have hle := (Power.length_toDigits_le_iff hwidth).mpr h
  simp only [padded, List.length_append, List.length_replicate]
  omega

theorem ofDigitChars_padded (width n : Nat) : Nat.ofDigitChars 10 (padded width n) 0 = n := by
  simp [padded, Nat.ofDigitChars_append]

theorem isVisible_of_isDigit {c : Char} (h : c.isDigit = true) : isVisible c = true := by
  have hlow : 48 ≤ c.toNat ∧ c.toNat ≤ 57 := by
    simpa [Char.isDigit, UInt32.le_iff_toNat_le] using h
  simp only [isVisible, Bool.and_eq_true, decide_eq_true_eq]
  omega

theorem isVisible_padded (width n : Nat) : IsVisible (padded width n) :=
  fun _ hc => isVisible_of_isDigit (isDigit_of_mem_padded hc)

end Text

namespace Iso

open Utf8 (Bytes encode)
open Text (padded)

@[simp]
theorem peek_cons (b : UInt8) (s : Bytes) : peek (b :: s) = b := rfl

theorem toUInt8_of_isDigit {c : Char} (h : c.isDigit = true) :
    isDigit c.toUInt8 = true ∧ c.toUInt8.toNat = c.toNat := by
  have hlow : 48 ≤ c.toNat ∧ c.toNat ≤ 57 := by
    simpa [Char.isDigit, UInt32.le_iff_toNat_le] using h
  have hnat : c.toUInt8.toNat = c.toNat := by
    show c.toNat % 256 = c.toNat
    omega
  refine ⟨?_, hnat⟩
  simp only [isDigit, Bool.and_eq_true, decide_eq_true_eq, UInt8.le_iff_toNat_le, hnat]
  exact hlow

theorem encode_cons_of_isDigit {c : Char} (h : c.isDigit = true) (cs : List Char) :
    encode (c :: cs) = c.toUInt8 :: encode cs := by
  have hvisible := Text.toNat_of_isVisible (Text.isVisible_of_isDigit h)
  exact Utf8.encode_cons_of_lt (by omega) cs

theorem readDigits_encode {ds : List Char} (h : ∀ d ∈ ds, d.isDigit = true) (rest : Bytes)
    (value : Nat) :
    readDigits ds.length (encode ds ++ rest) value
      = some (Nat.ofDigitChars 10 ds value, rest) := by
  induction ds generalizing value with
  | nil => simp [readDigits, encode]
  | cons d ds ih =>
    have hd := h d List.mem_cons_self
    obtain ⟨hdigit, hnat⟩ := toUInt8_of_isDigit hd
    rw [encode_cons_of_isDigit hd, List.cons_append, List.length_cons, readDigits, if_pos hdigit,
      ih (fun d' hd' => h d' (List.mem_cons_of_mem d hd')), Nat.ofDigitChars_cons, hnat,
      Nat.mul_comm]
    rfl

theorem readDigits_padded {width n : Nat} (hwidth : 0 < width) (h : n < Power.ten width)
    (rest : Bytes) :
    readDigits width (encode (padded width n) ++ rest) 0 = some (n, rest) := by
  have hdigits : ∀ d ∈ padded width n, d.isDigit = true := fun _ hd => Text.isDigit_of_mem_padded hd
  have hread := readDigits_encode hdigits rest 0
  rwa [Text.length_padded hwidth h, Text.ofDigitChars_padded] at hread

theorem length_encode_padded {width n : Nat} (hwidth : 0 < width) (h : n < Power.ten width) :
    (encode (padded width n)).length = width := by
  rw [Utf8.length_encode (Text.isAscii_of_isVisible (Text.isVisible_padded _ _)),
    Text.length_padded hwidth h]

theorem isDigit_of_mem_encode {ds : List Char} (h : ∀ d ∈ ds, d.isDigit = true) {b : UInt8}
    (hb : b ∈ encode ds) : isDigit b = true := by
  induction ds with
  | nil => exact absurd hb List.not_mem_nil
  | cons d ds ih =>
    have hd := h d List.mem_cons_self
    rw [encode_cons_of_isDigit hd] at hb
    rcases List.mem_cons.mp hb with rfl | hb
    · exact (toUInt8_of_isDigit hd).1
    · exact ih (fun d' hd' => h d' (List.mem_cons_of_mem d hd')) hb

theorem isDigit_peek_padded {width n : Nat} (hwidth : 0 < width) (h : n < Power.ten width)
    (rest : Bytes) : isDigit (peek (encode (padded width n) ++ rest)) = true := by
  have hlength := length_encode_padded hwidth h
  have hmem : ∀ b ∈ encode (padded width n), isDigit b = true :=
    fun b hb => isDigit_of_mem_encode (fun _ hc => Text.isDigit_of_mem_padded hc) hb
  cases hbytes : encode (padded width n) with
  | nil =>
    rw [hbytes] at hlength
    exact absurd hlength (Nat.ne_of_lt hwidth)
  | cons b bs =>
    rw [hbytes] at hmem
    exact hmem b List.mem_cons_self

/-! ## Days -/

theorem encode_iso (d : Date) :
    encode d.iso = encode (padded 4 d.year) ++ byte '-' ::
      (encode (padded 2 d.month) ++ byte '-' :: encode (padded 2 d.day)) := by
  have hdash : ∀ cs, encode ('-' :: cs) = byte '-' :: encode cs :=
    fun cs => Utf8.encode_cons_of_lt (by decide) cs
  rw [Date.iso, Utf8.encode_append, hdash, Utf8.encode_append, hdash]

theorem daysInMonth_le (y m : Nat) : Calendar.daysInMonth y m ≤ 31 := by
  unfold Calendar.daysInMonth
  split
  · split <;> omega
  · split <;> omega

theorem date_lt (d : Date) :
    d.year < Power.ten 4 ∧ d.month < Power.ten 2 ∧ d.day < Power.ten 2 := by
  obtain ⟨⟨_, hyear⟩, ⟨_, hmonth⟩, _, hday⟩ := d.isDay
  have hdays := daysInMonth_le d.year d.month
  show d.year < 10000 ∧ d.month < 100 ∧ d.day < 100
  refine ⟨?_, ?_, ?_⟩ <;> omega

theorem isVisible_date (d : Date) : Text.IsVisible d.iso := by
  unfold Date.iso
  simp only [Text.isVisible_append, Text.isVisible_cons, Text.isVisible_padded, true_and, and_true]
  exact ⟨rfl, rfl⟩

theorem length_encode_date (d : Date) : (encode d.iso).length = 10 := by
  obtain ⟨hyear, hmonth, hday⟩ := date_lt d
  rw [encode_iso]
  simp only [List.length_append, List.length_cons, length_encode_padded (by decide) hyear,
    length_encode_padded (by decide) hmonth, length_encode_padded (by decide) hday]

theorem readDay_date (d : Date) (length : Nat) (rest : Bytes) :
    readDay length (encode d.iso ++ rest) = some (d.year, d.month, d.day) := by
  obtain ⟨hyear, hmonth, hday⟩ := date_lt d
  have hweek : ∀ behind, peek (encode (padded 2 d.month) ++ behind) ≠ byte 'W' := by
    intro behind h
    have hdigit := isDigit_peek_padded (by decide) hmonth behind
    rw [h] at hdigit
    exact absurd hdigit (by decide)
  rw [encode_iso]
  simp only [List.append_assoc, List.cons_append]
  rw [readDay, readDigits_padded (by decide) hyear]
  simp only [Option.bind_eq_bind, Option.bind_some, peek_cons, decide_true, if_true,
    List.drop_succ_cons, List.drop_zero]
  rw [if_neg (hweek _), readDigits_padded (by decide) hmonth]
  simp only [Option.bind_some, skipDash, if_true, peek_cons, List.drop_succ_cons, List.drop_zero]
  rw [readDigits_padded (by decide) hday]
  rfl

theorem dateOf_date (d : Date) : dateOf (d.year, d.month, d.day) = .ok d := by
  rw [dateOf, dif_pos d.isDay]

theorem ofString_ofList (cs : List Char) : Utf8.ofString (String.ofList cs) = encode cs := by
  rw [Utf8.ofString, String.toList_ofList]

/-- A date comes back from its ISO text. -/
theorem readDate_iso (d : Date) : readDate (String.ofList d.iso) = .ok d := by
  have hread := readDay_date d 10 []
  rw [List.append_nil] at hread
  rw [readDate, ofString_ofList]
  simp only [length_encode_date, hread, dateOf_date]
  rfl

/-! ## Clock readings -/

/-- What may follow a clock reading without becoming part of it. -/
def EndsClock (rest : Bytes) : Prop := isDigit (peek rest) = false

theorem dropWhile_of_endsClock {rest : Bytes} (h : EndsClock rest) :
    rest.dropWhile isDigit = rest := by
  cases rest with
  | nil => rfl
  | cons b rest => exact List.dropWhile_cons_of_neg (Bool.not_eq_true _ ▸ h)

/-- Seconds as clock readings and offsets have them, with a fraction unless it is zero. -/
def secondText (second micro : Nat) : List Char :=
  padded 2 second ++ (if micro = 0 then [] else '.' :: padded 6 micro)

theorem encode_cons_mark {c : Char} (h : c.toNat < 0x80) (cs : List Char) :
    encode (c :: cs) = byte c :: encode cs :=
  Utf8.encode_cons_of_lt h cs

theorem readFields_colon {slots n length : Nat} {colons : Bool} {fields : List Nat}
    (hn : n < Power.ten 2) (hcolons : fields = [] ∨ colons = true) (hlength : 3 < length)
    (rest : Bytes) :
    readFields (slots + 1) colons fields length (encode (padded 2 n) ++ byte ':' :: rest)
      = readFields slots true (fields ++ [n]) (length - 3) rest := by
  have hlong : ¬length ≤ 3 := Nat.not_le.mpr hlength
  rw [readFields, readDigits_padded (by decide) hn]
  rcases hcolons with rfl | rfl
  · simp [hlong]
  · simp [hlong]

theorem readFields_last {slots n : Nat} {colons : Bool} {fields : List Nat} (hn : n < Power.ten 2)
    (rest : Bytes) :
    readFields (slots + 1) colons fields 2 (encode (padded 2 n) ++ rest)
      = some { fields := fields ++ [n], micro := 0, leftOver := peek rest ≠ 0 } := by
  rw [readFields, readDigits_padded (by decide) hn]
  rfl

theorem readFraction_padded {micro : Nat} (hmicro : micro < Power.ten 6) (fields : List Nat)
    {rest : Bytes} (hrest : EndsClock rest) :
    readFraction fields 6 (encode (padded 6 micro) ++ rest)
      = some { fields := fields, micro := micro, leftOver := peek rest ≠ 0 } := by
  rw [readFraction]
  simp only [Nat.min_self, readDigits_padded (by decide) hmicro, Option.bind_eq_bind,
    Option.bind_some, dropWhile_of_endsClock hrest, Nat.sub_self]
  rw [show Power.ten 0 = 1 from rfl, Nat.mul_one]

theorem length_secondText {second micro : Nat} (hsecond : second < Power.ten 2)
    (hmicro : micro < Power.ten 6) :
    (secondText second micro).length = if micro = 0 then 2 else 9 := by
  unfold secondText
  have htwo : (padded 2 second).length = 2 := Text.length_padded (by decide) hsecond
  have hsix : (padded 6 micro).length = 6 := Text.length_padded (by decide) hmicro
  split <;> simp [htwo, hsix]

theorem readFields_second {slots second micro : Nat} {fields : List Nat} (hfields : fields ≠ [])
    (hsecond : second < Power.ten 2) (hmicro : micro < Power.ten 6) {rest : Bytes}
    (hrest : EndsClock rest) :
    readFields (slots + 1) true fields (secondText second micro).length
        (encode (secondText second micro) ++ rest)
      = some { fields := fields ++ [second], micro := micro, leftOver := peek rest ≠ 0 } := by
  rw [length_secondText hsecond hmicro, secondText]
  by_cases hzero : micro = 0
  · simp only [if_pos hzero, List.append_nil]
    rw [readFields_last hsecond, hzero]
  · simp only [if_neg hzero]
    rw [Utf8.encode_append, encode_cons_mark (by decide), List.append_assoc, List.cons_append,
      readFields, readDigits_padded (by decide) hsecond]
    have hempty : fields.isEmpty = false := by simpa using hfields
    simp only [Option.bind_eq_bind, Option.bind_some, peek_cons, hempty, Bool.false_eq_true,
      if_false, List.drop_succ_cons, List.drop_zero]
    rw [if_neg (by decide), if_neg (by decide), if_pos (by decide),
      readFraction_padded hmicro _ hrest]

/-- A reading to the second, or to the minute where the seconds are left out. -/
theorem readClock_full {h m s micro : Nat} (hh : h < Power.ten 2) (hm : m < Power.ten 2)
    (hs : s < Power.ten 2) (hmicro : micro < Power.ten 6) {rest : Bytes} (hrest : EndsClock rest) :
    readClock (6 + (secondText s micro).length)
        (encode (padded 2 h ++ ':' :: (padded 2 m ++ ':' :: secondText s micro)) ++ rest)
      = some { fields := [h, m, s], micro := micro, leftOver := peek rest ≠ 0 } := by
  have hlength : 2 ≤ (secondText s micro).length := by
    rw [length_secondText hs hmicro]
    split <;> omega
  rw [Utf8.encode_append, encode_cons_mark (by decide), Utf8.encode_append,
    encode_cons_mark (by decide)]
  simp only [List.append_assoc, List.cons_append]
  rw [readClock, readFields_colon hh (.inl rfl) (by omega),
    readFields_colon hm (.inr rfl) (by omega),
    show 6 + (secondText s micro).length - 3 - 3 = (secondText s micro).length by omega]
  exact readFields_second (List.cons_ne_nil _ _) hs hmicro hrest

theorem readClock_minute {h m : Nat} (hh : h < Power.ten 2) (hm : m < Power.ten 2) (rest : Bytes) :
    readClock 5 (encode (padded 2 h ++ ':' :: padded 2 m) ++ rest)
      = some { fields := [h, m], micro := 0, leftOver := peek rest ≠ 0 } := by
  rw [Utf8.encode_append, encode_cons_mark (by decide), List.append_assoc, List.cons_append,
    readClock, readFields_colon hh (.inl rfl) (by decide)]
  exact readFields_last hm rest

theorem time_lt (t : TimeOfDay) :
    t.hour < Power.ten 2 ∧ t.minute < Power.ten 2 ∧ t.second < Power.ten 2 ∧
      t.micro < Power.ten 6 := by
  obtain ⟨hhour, hminute, hsecond, hmicro⟩ := t.inDay
  show t.hour < 100 ∧ t.minute < 100 ∧ t.second < 100 ∧ t.micro < 1000000
  refine ⟨?_, ?_, ?_, ?_⟩ <;> omega

theorem iso_time (t : TimeOfDay) :
    t.iso = padded 2 t.hour ++ ':' :: (padded 2 t.minute ++ ':' :: secondText t.second t.micro) :=
  rfl

theorem isVisible_secondText (second micro : Nat) :
    Text.IsVisible (secondText second micro) := by
  refine Text.isVisible_append.mpr ⟨Text.isVisible_padded _ _, ?_⟩
  split
  · exact Text.isVisible_nil
  · exact Text.isVisible_cons.mpr ⟨rfl, Text.isVisible_padded _ _⟩

theorem isVisible_time (t : TimeOfDay) : Text.IsVisible t.iso := by
  rw [iso_time]
  simp only [Text.isVisible_append, Text.isVisible_cons, Text.isVisible_padded,
    isVisible_secondText, true_and, and_true]
  exact ⟨rfl, rfl⟩

theorem length_encode_time (t : TimeOfDay) :
    (encode t.iso).length = 6 + (secondText t.second t.micro).length := by
  obtain ⟨hhour, hminute, -, -⟩ := time_lt t
  rw [Utf8.length_encode (Text.isAscii_of_isVisible (isVisible_time t)), iso_time]
  simp only [List.length_append, List.length_cons, Text.length_padded (by decide) hhour,
    Text.length_padded (by decide) hminute]
  omega

theorem readClock_time (t : TimeOfDay) {rest : Bytes} (hrest : EndsClock rest) :
    readClock (encode t.iso).length (encode t.iso ++ rest)
      = some { fields := [t.hour, t.minute, t.second], micro := t.micro,
               leftOver := peek rest ≠ 0 } := by
  obtain ⟨hhour, hminute, hsecond, hmicro⟩ := time_lt t
  rw [length_encode_time, iso_time]
  exact readClock_full hhour hminute hsecond hmicro hrest

theorem timeOf_time (t : TimeOfDay) (leftOver : Bool) :
    timeOf { fields := [t.hour, t.minute, t.second], micro := t.micro, leftOver := leftOver }
      = .ok t := by
  rw [timeOf]
  exact dif_pos t.inDay

/-! ## Offsets -/

/-- The digits of an offset, behind its sign. -/
def zoneText (seconds micro : Nat) : List Char :=
  padded 2 (seconds / 3600) ++ ':' :: (padded 2 (seconds / 60 % 60)
    ++ (if seconds % 60 = 0 ∧ micro = 0 then [] else ':' :: secondText (seconds % 60) micro))

def signOf (micros : Int) : Int := if micros < 0 then -1 else 1

theorem iso_offset (o : Offset) :
    o.iso = (if o.micros < 0 then '-' else '+')
      :: zoneText (o.micros.natAbs / 1000000) (o.micros.natAbs % 1000000) := rfl

theorem isVisible_zoneText (seconds micro : Nat) : Text.IsVisible (zoneText seconds micro) := by
  refine Text.isVisible_append.mpr ⟨Text.isVisible_padded _ _, Text.isVisible_cons.mpr ⟨rfl, ?_⟩⟩
  refine Text.isVisible_append.mpr ⟨Text.isVisible_padded _ _, ?_⟩
  split
  · exact Text.isVisible_nil
  · exact Text.isVisible_cons.mpr ⟨rfl, isVisible_secondText _ _⟩

/-- The clock reading of an offset adds up to its seconds, and nothing is left over. -/
theorem readClock_zone {seconds micro : Nat} (hseconds : seconds < 86400)
    (hmicro : micro < Power.ten 6) :
    ∃ c, readClock (encode (zoneText seconds micro)).length (encode (zoneText seconds micro))
        = some c ∧
      c.leftOver = false ∧ c.field 0 * 3600 + c.field 1 * 60 + c.field 2 = seconds ∧
      c.micro = micro := by
  have hhundred : Power.ten 2 = 100 := rfl
  have hhour : seconds / 3600 < Power.ten 2 := by omega
  have hminute : seconds / 60 % 60 < Power.ten 2 := by omega
  have hsecond : seconds % 60 < Power.ten 2 := by omega
  have hlength := Utf8.length_encode (Text.isAscii_of_isVisible (isVisible_zoneText seconds micro))
  rw [hlength]
  unfold zoneText
  by_cases hshort : seconds % 60 = 0 ∧ micro = 0
  · simp only [if_pos hshort, List.append_nil]
    have hread := readClock_minute hhour hminute []
    rw [List.append_nil] at hread
    refine ⟨{ fields := [seconds / 3600, seconds / 60 % 60], micro := 0, leftOver := false }, ?_,
      rfl, ?_, hshort.2.symm⟩
    · have hfive : (padded 2 (seconds / 3600) ++ ':' :: padded 2 (seconds / 60 % 60)).length = 5 := by
        rw [List.length_append, List.length_cons, Text.length_padded (by decide) hhour,
          Text.length_padded (by decide) hminute]
      rw [hfive]
      exact hread
    · show seconds / 3600 * 3600 + seconds / 60 % 60 * 60 + 0 = seconds
      omega
  · simp only [if_neg hshort]
    have hread := @readClock_full _ _ _ _ hhour hminute hsecond hmicro [] rfl
    rw [List.append_nil] at hread
    refine ⟨{ fields := [seconds / 3600, seconds / 60 % 60, seconds % 60], micro := micro,
              leftOver := false }, ?_, rfl, ?_, rfl⟩
    · refine Eq.trans ?_ hread
      congr 1
      simp only [List.length_append, List.length_cons, Text.length_padded (by decide) hhour,
        Text.length_padded (by decide) hminute]
      omega
    · show seconds / 3600 * 3600 + seconds / 60 % 60 * 60 + seconds % 60 = seconds
      omega

theorem readZone_offset (o : Offset) :
    readZone (encode o.iso)
      = some (signOf o.micros * (o.micros.natAbs / 1000000 : Nat),
          signOf o.micros * (o.micros.natAbs % 1000000 : Nat)) := by
  have hbound := o.shorterThanDay
  have hday : o.micros.natAbs / 1000000 < 86400 := by omega
  have hmicros : o.micros.natAbs % 1000000 < Power.ten 6 := Nat.mod_lt _ (by decide)
  obtain ⟨c, hread, hleft, hseconds, hmicro⟩ := readClock_zone hday hmicros
  have hsign : ((if o.micros < 0 then '-' else '+') : Char).toNat < 0x80 := by
    split <;> decide
  rw [iso_offset, encode_cons_mark hsign, readZone]
  simp only [peek_cons, List.drop_succ_cons, List.drop_zero, hread, Option.bind_eq_bind,
    Option.bind_some, hleft, Bool.false_eq_true, if_false, hseconds, hmicro]
  unfold signOf
  by_cases hneg : o.micros < 0
  · simp only [if_pos hneg]
    rw [if_neg (by decide)]
    rfl
  · simp only [if_neg hneg]
    rw [if_neg (by decide), if_neg (by decide)]

theorem offsetOf_eq {zone : Int × Int} {o : Offset}
    (h : (if zone.1 = 0 then 0 else zone.1 * 1000000 + zone.2) = o.micros) :
    offsetOf zone = .ok o.fixed := by
  rw [offsetOf]
  simp only [h]
  exact dif_pos o.shorterThanDay

theorem offsetOf_zone (o : Offset) :
    offsetOf (signOf o.micros * (o.micros.natAbs / 1000000 : Nat),
      signOf o.micros * (o.micros.natAbs % 1000000 : Nat)) = .ok o.readBack := by
  unfold Offset.readBack
  by_cases hsmall : o.micros.natAbs < 1000000
  · have hzero : o.micros.natAbs / 1000000 = 0 := by omega
    rw [if_pos hsmall, hzero]
    exact @offsetOf_eq _ .utc (by simp [Offset.utc])
  · rw [if_neg hsmall]
    apply offsetOf_eq
    unfold signOf
    by_cases hneg : o.micros < 0
    · simp only [if_pos hneg]
      rw [if_neg (by omega)]
      omega
    · simp only [if_neg hneg]
      rw [if_neg (by omega)]
      omega

/-! ## Moments -/

theorem not_isZoneMark_of_isDigit {b : UInt8} (h : isDigit b = true) : isZoneMark b = false := by
  have hne : ∀ mark : UInt8, isDigit mark = false → b ≠ mark := by
    intro mark hmark heq
    rw [heq, hmark] at h
    exact absurd h (by decide)
  simp only [isZoneMark, Bool.or_eq_false_iff, decide_eq_false_iff_not]
  exact ⟨⟨hne _ (by decide), hne _ (by decide)⟩, hne _ (by decide)⟩

theorem not_isZoneMark_padded {width n : Nat} {b : UInt8} (hb : b ∈ encode (padded width n)) :
    isZoneMark b = false :=
  not_isZoneMark_of_isDigit
    (isDigit_of_mem_encode (fun _ hc => Text.isDigit_of_mem_padded hc) hb)

/-- A clock reading without an offset holds no sign. -/
theorem not_isZoneMark_time (t : TimeOfDay) {b : UInt8} (hb : b ∈ encode t.iso) :
    isZoneMark b = false := by
  rw [iso_time, secondText, Utf8.encode_append, encode_cons_mark (by decide), Utf8.encode_append,
    encode_cons_mark (by decide), Utf8.encode_append] at hb
  simp only [List.mem_append, List.mem_cons] at hb
  rcases hb with hb | rfl | hb | rfl | hb | hb
  · exact not_isZoneMark_padded hb
  · decide
  · exact not_isZoneMark_padded hb
  · decide
  · exact not_isZoneMark_padded hb
  · split at hb
    · exact absurd hb List.not_mem_nil
    · rw [encode_cons_mark (by decide)] at hb
      rcases List.mem_cons.mp hb with rfl | hb
      · decide
      · exact not_isZoneMark_padded hb

theorem readTime_naive (t : TimeOfDay) :
    readTime (encode t.iso)
      = some ({ fields := [t.hour, t.minute, t.second], micro := t.micro, leftOver := false },
          none) := by
  have hall : (encode t.iso).takeWhile (fun b => !isZoneMark b) = encode t.iso := by
    have hclock : ∀ b ∈ encode t.iso, (!isZoneMark b) = true := by
      intro b hb
      rw [not_isZoneMark_time t hb]
      rfl
    have happend := @List.takeWhile_append_of_pos _ (fun b => !isZoneMark b) _ [] hclock
    simpa using happend
  have hread := @readClock_time t [] rfl
  rw [List.append_nil] at hread
  rw [readTime, hall]
  simp only [hread, Option.bind_eq_bind, Option.bind_some, if_true]
  rfl

theorem readTime_offset (t : TimeOfDay) (o : Offset) :
    readTime (encode t.iso ++ encode o.iso)
      = some ({ fields := [t.hour, t.minute, t.second], micro := t.micro, leftOver := true },
          some (signOf o.micros * (o.micros.natAbs / 1000000 : Nat),
            signOf o.micros * (o.micros.natAbs % 1000000 : Nat))) := by
  obtain ⟨mark, tail, hbytes, hmark, hends, hzero⟩ : ∃ mark tail, encode o.iso = mark :: tail ∧
      isZoneMark mark = true ∧ isDigit mark = false ∧ mark ≠ 0 := by
    rw [iso_offset]
    split
    · exact ⟨_, _, encode_cons_mark (by decide) _, by decide, by decide, by decide⟩
    · exact ⟨_, _, encode_cons_mark (by decide) _, by decide, by decide, by decide⟩
  have hlength : ((encode t.iso ++ encode o.iso).takeWhile fun b => !isZoneMark b).length
      = (encode t.iso).length := by
    rw [List.takeWhile_append_of_pos, hbytes, List.takeWhile_cons_of_neg, List.append_nil]
    · rw [hmark]
      decide
    · intro b hb
      rw [not_isZoneMark_time t hb]
      rfl
  have hends : EndsClock (encode o.iso) := by
    rw [EndsClock, hbytes]
    exact hends
  have hleft : peek (encode o.iso) ≠ 0 := by
    rw [hbytes]
    exact hzero
  rw [readTime, hlength]
  simp only [readClock_time t hends, Option.bind_eq_bind, Option.bind_some]
  rw [if_neg (by rw [List.length_append, hbytes, List.length_cons]; omega), List.drop_left,
    readZone_offset, decide_eq_true hleft]
  rfl

theorem dayLength_date (d : Date) (rest : Bytes) :
    dayLength (encode d.iso ++ rest) = some 10 := by
  obtain ⟨hyear, hmonth, -⟩ := date_lt d
  have hlength : (encode d.iso ++ rest).length ≠ 7 := by
    rw [List.length_append, length_encode_date]
    omega
  have hfour : (encode d.iso ++ rest).drop 4
      = byte '-' :: (encode (padded 2 d.month) ++ byte '-' :: (encode (padded 2 d.day) ++ rest)) := by
    rw [encode_iso]
    simp only [List.append_assoc, List.cons_append]
    exact List.drop_left' (length_encode_padded (by decide) hyear)
  have hfive : peek ((encode d.iso ++ rest).drop 5) ≠ byte 'W' := by
    have hdigit := isDigit_peek_padded (by decide) hmonth
      (byte '-' :: (encode (padded 2 d.day) ++ rest))
    rw [show (5 : Nat) = 4 + 1 from rfl, ← List.drop_drop, hfour, List.drop_succ_cons,
      List.drop_zero]
    intro heq
    rw [heq] at hdigit
    exact absurd hdigit (by decide)
  rw [dayLength]
  simp only [if_neg hlength, hfour, peek_cons, if_true, if_neg hfive]

/-- A moment comes back from its ISO text, with its offset unless that is less than a second. -/
theorem readDateTime_iso (t : DateTime) :
    readDateTime (String.ofList t.iso) = .ok t.readBack := by
  obtain ⟨d, time, offset, fold⟩ := t
  have htext : encode (DateTime.iso ⟨d, time, offset, fold⟩)
      = encode d.iso ++ byte 'T' :: (encode time.iso
          ++ encode ((offset.map Offset.iso).getD [])) := by
    show encode (d.iso ++ 'T' :: (time.iso ++ _)) = _
    rw [Utf8.encode_append, encode_cons_mark (by decide), Utf8.encode_append]
  have hlong : ¬(String.ofList (DateTime.iso ⟨d, time, offset, fold⟩)).length < 7 := by
    have hdate := length_encode_date d
    rw [Utf8.length_encode (Text.isAscii_of_isVisible (isVisible_date d))] at hdate
    rw [String.length_ofList]
    show ¬(d.iso ++ 'T' :: _).length < 7
    rw [List.length_append]
    omega
  have hbehind : ¬(encode d.iso ++ byte 'T' :: (encode time.iso
      ++ encode ((offset.map Offset.iso).getD []))).length ≤ 10 := by
    rw [List.length_append, length_encode_date, List.length_cons]
    omega
  rw [readDateTime, ofString_ofList, htext]
  simp only [if_neg hlong, dayLength_date d, readDay_date, if_neg hbehind,
    Option.bind_eq_bind, Option.bind_some, List.drop_left' (length_encode_date d), peek_cons]
  rw [show widthOf (byte 'T') = 1 from by decide, List.drop_succ_cons, List.drop_zero]
  cases offset with
  | none =>
    rw [Option.map_none, Option.getD_none, show encode [] = [] from rfl, List.append_nil,
      readTime_naive]
    simp only [Option.bind_some, dateOf_date, timeOf_time]
    rfl
  | some o =>
    rw [Option.map_some, Option.getD_some, readTime_offset]
    simp only [Option.bind_some, Option.mapM_some, offsetOf_zone, dateOf_date, timeOf_time]
    rfl

end Iso
end SchemaStore
