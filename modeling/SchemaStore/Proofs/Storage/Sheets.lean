import SchemaStore.Proofs.Sequencing
import SchemaStore.Proofs.Storage.Files
import SchemaStore.Proofs.Storage.Lines
import SchemaStore.Proofs.Storage.Sorting

/-!
Tables as data.  A sheet is a table that holds texts: its records in the order of their keys, and
the positions that its index lists.  Writing a table leaves the files of a sheet, opening these
files gives the table of the sheet, and the table answers as the list of records does.
-/

namespace SchemaStore

/-- What a table holds. -/
structure Sheet where
  name : String
  records : Pairs
  ascending : records.Ascending
  /-- Whether the index lists the record at a position. -/
  isMarked : Nat → Bool

namespace Sheet

/-- How long the text of a table may be.  A place behind it has a number of more digits than are
read back. -/
def capacity : Nat := Power.ten Json.digitLimit

theorem lt_capacity {n : Nat} (h : n < Power.ten 4) : n < capacity :=
  Nat.lt_of_lt_of_le h (Power.ten_le_ten (by decide))

def textOf (m : Pairs) : List Char := Text.joined (m.map Table.recordText)

def text (s : Sheet) : List Char := textOf s.records

/-- The keys that are marked, with the places at which their lines start.  The first record stands
at the given position and place. -/
def marksFrom (isMarked : Nat → Bool) (position place : Nat) : Pairs → List (String × Nat)
  | [] => []
  | p :: rest =>
    (if isMarked position then [(p.1, place)] else [])
      ++ marksFrom isMarked (position + 1) (place + (Table.recordText p).length + 1) rest

def marks (s : Sheet) : List (String × Nat) := marksFrom s.isMarked 0 0 s.records

def indexOf (marks : List (String × Nat)) : Entries :=
  marks.map fun m => (.str m.1, .int m.2)

def indexMembers (marks : List (String × Nat)) : List Json.Member :=
  marks.map fun m => { name := m.1, text := Json.integer m.2, value := .int m.2 }

def indexText (s : Sheet) : List Char :=
  Json.enclose none '\x7b' '\x7d' ((indexMembers s.marks).map Json.Member.part)

def table (s : Sheet) (directory : Path) : Table where
  directory := directory
  name := s.name
  index := .dict (indexOf s.marks)
  indexKeys := s.marks.map fun m => .str m.1

/-- The files of a sheet are in a directory. -/
structure IsIn (s : Sheet) (files : Directory) : Prop where
  data : files.read? s.name = some (Utf8.encode s.text)
  index : files.read? (Table.indexName s.name) = some (Utf8.encode s.indexText)

/-! ## Marks -/

theorem textOf_cons (p : String × String) (m : Pairs) :
    textOf (p :: m) = Table.recordText p ++ '\n' :: textOf m := by
  rw [textOf, List.map_cons, Text.joined_cons, ← textOf]

theorem length_textOf_cons (p : String × String) (m : Pairs) :
    (textOf (p :: m)).length = (Table.recordText p).length + 1 + (textOf m).length := by
  rw [textOf_cons, List.length_append, List.length_cons]
  omega

theorem textOf_append (a b : Pairs) : textOf (a ++ b) = textOf a ++ textOf b := by
  rw [textOf, List.map_append, Text.joined_append, ← textOf, ← textOf]

theorem isAscii_textOf (m : Pairs) : Utf8.IsAscii (textOf m) := by
  refine Text.isAscii_joined fun l hl => ?_
  obtain ⟨p, -, rfl⟩ := List.mem_map.mp hl
  exact Table.isVisible_recordText p

theorem storedLines_textOf (m : Pairs) :
    Text.storedLines [] (Utf8.encode (textOf m)) = (m.map Table.recordText, none) := by
  refine Text.storedLines_joined fun l hl => ?_
  obtain ⟨p, -, rfl⟩ := List.mem_map.mp hl
  exact Table.isVisible_recordText p

/-- There is a mark for each key at a marked position, and it tells where the line of its key
starts. -/
theorem mem_marksFrom_iff {isMarked : Nat → Bool} {position place : Nat} {m : Pairs}
    {mark : String × Nat} :
    mark ∈ marksFrom isMarked position place m ↔
      ∃ before value behind, m = before ++ (mark.1, value) :: behind ∧
        isMarked (position + before.length) = true ∧
        mark.2 = place + (textOf before).length := by
  induction m generalizing position place with
  | nil =>
    constructor
    · exact fun h => absurd h List.not_mem_nil
    · rintro ⟨before, value, behind, hsplit, -⟩
      cases before <;> cases hsplit
  | cons p rest ih =>
    rw [marksFrom, List.mem_append, ih]
    constructor
    · rintro (h | ⟨before, value, behind, rfl, hmarked, hplace⟩)
      · split at h
        · next hmarked =>
          rw [List.mem_singleton.mp h]
          exact ⟨[], p.2, rest, rfl, hmarked, rfl⟩
        · exact absurd h List.not_mem_nil
      · refine ⟨p :: before, value, behind, rfl, ?_, ?_⟩
        · rw [List.length_cons, ← Nat.add_assoc, Nat.add_right_comm]
          exact hmarked
        · rw [hplace, length_textOf_cons]
          omega
    · rintro ⟨before, value, behind, hsplit, hmarked, hplace⟩
      cases before with
      | nil =>
        obtain ⟨rfl, -⟩ := List.cons.inj hsplit
        have hmarked : isMarked position = true := hmarked
        rw [if_pos hmarked]
        exact .inl (List.mem_singleton.mpr (Prod.ext rfl hplace))
      | cons q before =>
        obtain ⟨rfl, hrest⟩ := List.cons.inj hsplit
        rw [List.length_cons, ← Nat.add_assoc, Nat.add_right_comm] at hmarked
        rw [length_textOf_cons] at hplace
        exact .inr ⟨before, value, behind, hrest, hmarked, by omega⟩

theorem sublist_marksFrom (isMarked : Nat → Bool) (position place : Nat) (m : Pairs) :
    ((marksFrom isMarked position place m).map (·.1)).Sublist m.keys := by
  induction m generalizing position place with
  | nil => exact List.Sublist.refl _
  | cons p rest ih =>
    rw [marksFrom, List.map_append, Pairs.keys, List.map_cons, ← Pairs.keys]
    split
    · exact List.Sublist.cons_cons p.1 (ih _ _)
    · exact List.Sublist.cons p.1 (ih _ _)

theorem pairwise_marks (s : Sheet) : (s.marks.map (·.1)).Pairwise (· < ·) :=
  List.Pairwise.sublist (sublist_marksFrom _ _ _ _) (List.pairwise_map.mpr s.ascending)

theorem nodup_marks (s : Sheet) : (s.marks.map (·.1)).Nodup :=
  s.pairwise_marks.imp Order.ne_of_lt

theorem get?_indexOf {marks : List (String × Nat)} (h : (marks.map (·.1)).Nodup)
    {mark : String × Nat} (hmark : mark ∈ marks) :
    (indexOf marks).get? (.str mark.1) = some (.int mark.2) := by
  induction marks with
  | nil => exact absurd hmark List.not_mem_nil
  | cons first rest ih =>
    rw [List.map_cons, List.nodup_cons] at h
    rw [indexOf, List.map_cons, Entries.get?_cons, Value.standsFor_str, ← indexOf]
    rcases List.mem_cons.mp hmark with rfl | hmark
    · simp
    · have hne : first.1 ≠ mark.1 := by
        intro heq
        exact h.1 (heq ▸ List.mem_map_of_mem hmark)
      rw [beq_eq_false_iff_ne.mpr hne, ih h.2 hmark]
      rfl

/-! ## Reading -/

section

variable {s : Sheet} {directory : Path} {files : Directory}

/-- What is read from the start of a record on is that record and all behind it. -/
theorem recordsFrom_table (hdata : files.read? s.name = some (Utf8.encode s.text))
    {before behind : Pairs} (hsplit : s.records = before ++ behind) :
    (s.table directory).recordsFrom files (.int (textOf before).length)
      = (behind.entries, none) := by
  have hlength : (textOf before).length ≤ (Utf8.encode s.text).length := by
    rw [text, Utf8.length_encode (isAscii_textOf _), hsplit, textOf_append, List.length_append]
    omega
  have hopen : Table.openAt (Utf8.encode s.text) (.int (textOf before).length)
      = .ok { characters := [], bytes := Utf8.encode (textOf behind) } := by
    have hplace : Table.offsetNumber (.int (textOf before).length)
        = .ok (textOf before).length := by
      rw [Table.offsetNumber, Order.compare_ints, decide_eq_false (by omega)]
      show Except.ok ((textOf before).length : Int).toNat = _
      rw [Int.toNat_natCast]
    rw [Table.openAt, hplace]
    show Failure.lift _ (Bookmark.openAt _ _) = _
    rw [Bookmark.openAt_of_le hlength, text, hsplit, textOf_append,
      Utf8.drop_encode_append (isAscii_textOf before)]
    rfl
  have hdata' : files.read? (s.table directory).name = some (Utf8.encode s.text) := hdata
  rw [Table.recordsFrom, hdata']
  simp only [hopen, storedLines_textOf, Table.readRecords_map_recordText]
  rfl

theorem records_table (hdata : files.read? s.name = some (Utf8.encode s.text)) :
    (s.table directory).records files = (s.records.entries, none) :=
  @recordsFrom_table s directory files hdata [] s.records rfl

/-- Next to a text every key can be asked whether it is the one looked for. -/
theorem find_cons (k v : Value) (key : String) (ending : Option Failure) (rest : Entries) :
    Table.find (.str key) ending ((k, v) :: rest)
      = if k.same (.str key) = true then .ok v
        else (do
          if ← Failure.lift .misuse (k.compare .gt (.str key)) then .ok .null
          else Table.find (.str key) ending rest) := by
  rw [Table.find, Value.equals_str, Failure.lift_ok, Except.ok_bind]

theorem find_entries {m : Pairs} (hm : m.Ascending) (key : String) :
    Table.find (.str key) none m.entries = .ok (Value.orNull (m.lookup key)) := by
  induction m with
  | nil => rfl
  | cons p m ih =>
    obtain ⟨k, v⟩ := p
    obtain ⟨hk, hm⟩ := List.pairwise_cons.mp hm
    rw [Pairs.entries, List.map_cons, ← Pairs.entries, find_cons, Value.same_str,
      Pairs.lookup_cons, Order.greater_texts]
    by_cases heq : k = key
    · simp [heq, Value.orNull]
    · rw [if_neg (by simpa using heq), if_neg heq]
      by_cases hlt : key < k
      · -- The key has been passed, so no record behind this one has it.
        have hnone : m.lookup key = none := by
          rw [Pairs.lookup_eq_none_iff]
          intro hmem
          obtain ⟨q, hq, rfl⟩ := List.mem_map.mp hmem
          exact String.lt_asymm hlt (hk q hq)
        rw [hnone, decide_eq_true hlt]
        rfl
      · rw [decide_eq_false hlt]
        exact ih hm

/-- A look-up starts at a mark, and all records before the mark have other keys. -/
theorem offsetFor_table (s : Sheet) (directory : Path) (key : String) :
    ∃ before behind, s.records = before ++ behind ∧ before.lookup key = none ∧
      (s.table directory).offsetFor (.str key) = .ok (.int (textOf before).length) := by
  have hkeys : (s.table directory).indexKeys = (s.marks.map (·.1)).map Value.str := by
    rw [List.map_map]
    rfl
  obtain ⟨n, hn, hle, hbefore, -⟩ := Order.insertionPoint_texts s.pairwise_marks key
  rw [Table.offsetFor, hkeys, hn]
  show ∃ before behind, _ ∧ _ ∧ (if n = 0 then _ else _) = _
  by_cases hzero : n = 0
  · rw [if_pos hzero]
    exact ⟨[], s.records, rfl, rfl, rfl⟩
  · rw [List.length_map] at hle
    have hlast : n - 1 < s.marks.length := by omega
    have hmark : s.marks[n - 1] ∈ s.marks := List.getElem_mem hlast
    obtain ⟨before, value, behind, hsplit, -, hplace⟩ := mem_marksFrom_iff.mp hmark
    have hkey : ((s.marks.map (·.1)).map Value.str).getD (n - 1) .null
        = .str (s.marks[n - 1]).1 := by
      simp [List.getD, hlast]
    have hsubscript : Record.subscript (s.table directory).index (.str (s.marks[n - 1]).1)
        = .ok (.int (s.marks[n - 1]).2) := by
      show Record.subscript (.dict (indexOf s.marks)) _ = _
      rw [Record.subscript, get?_indexOf s.nodup_marks hmark]
      rfl
    -- The mark that was found is the last one that is not above the key.
    have hle : (s.marks[n - 1]).1 ≤ key := by
      refine hbefore _ (List.mem_iff_getElem.mpr ⟨n - 1, by simp; omega, ?_⟩)
      rw [List.getElem_take, List.getElem_map]
    refine ⟨before, _, hsplit, ?_, ?_⟩
    · rw [Pairs.lookup_eq_none_iff]
      intro hmem
      obtain ⟨p, hp, rfl⟩ := List.mem_map.mp hmem
      have h := s.ascending
      rw [hsplit] at h
      exact String.not_le.mpr ((List.pairwise_append.mp h).2.2 p hp _ List.mem_cons_self) hle
    · rw [if_neg hzero, hkey, hsubscript, hplace, Nat.zero_add]

theorem get_table (hdata : files.read? s.name = some (Utf8.encode s.text)) (key : String) :
    (s.table directory).get files (.str key) = .ok (Value.orNull (s.records.lookup key)) := by
  obtain ⟨before, behind, hsplit, hnone, hoffset⟩ := s.offsetFor_table directory key
  have hbehind : behind.Ascending := by
    have h := s.ascending
    rw [hsplit] at h
    exact (List.pairwise_append.mp h).2.1
  rw [Table.get, hoffset]
  show Table.find _ (Table.recordsFrom _ _ _).2 (Table.recordsFrom _ _ _).1 = _
  rw [recordsFrom_table hdata hsplit, find_entries hbehind, hsplit, List.lookup_append, hnone]
  rfl

end

/-! ## Opening -/

theorem isVisible_indexText (s : Sheet) : Text.IsVisible s.indexText := by
  refine Json.isVisible_members fun m hm => ?_
  obtain ⟨mark, -, rfl⟩ := List.mem_map.mp hm
  exact Json.isVisible_integer mark.2

theorem map_pair_indexMembers (marks : List (String × Nat)) :
    (indexMembers marks).map Json.Member.pair = indexOf marks := by
  rw [indexMembers, List.map_map]
  rfl

theorem pairwise_indexOf {marks : List (String × Nat)} (h : (marks.map (·.1)).Nodup) :
    (indexOf marks).Pairwise fun a b => a.1.standsFor b.1 = false := by
  rw [indexOf, List.pairwise_map]
  refine (List.pairwise_map.mp h).imp fun hne => ?_
  rw [Value.standsFor_str]
  exact beq_eq_false_iff_ne.mpr hne

/-- Every marked place has few enough digits to be read back. -/
def IsShort (s : Sheet) : Prop :=
  ∀ mark ∈ s.marks, (Nat.toDigits 10 mark.2).length ≤ Json.digitLimit

theorem isShort_of_lt {s : Sheet} (hsize : s.text.length < capacity) : s.IsShort := by
  intro mark hmark
  obtain ⟨before, value, behind, hsplit, -, hplace⟩ := mem_marksFrom_iff.mp hmark
  have hle : mark.2 ≤ s.text.length := by
    rw [text, hsplit, textOf_append, List.length_append]
    omega
  exact (Power.length_toDigits_le_iff (by decide)).mpr (Nat.lt_of_le_of_lt hle hsize)

theorem text_indexOf {s : Sheet} (hshort : s.IsShort) :
    Json.text (.dict (indexOf s.marks)) = .ok s.indexText := by
  rw [← map_pair_indexMembers]
  refine Json.text_members fun m hm => ?_
  obtain ⟨mark, hmark, rfl⟩ := List.mem_map.mp hm
  exact Json.wholeNumber_of_le (n := (mark.2 : Int)) (hshort mark hmark)

theorem length_digits_of_writeEntries {foreign : Value → Except Json.WriteFault (List Char)}
    {marks : List (String × Nat)} {parts : List (List Char)}
    (h : Json.writeEntries foreign none (indexOf marks) = .ok parts) :
    ∀ mark ∈ marks, (Nat.toDigits 10 mark.2).length ≤ Json.digitLimit := by
  induction marks generalizing parts with
  | nil => exact fun _ h => absurd h List.not_mem_nil
  | cons first rest ih =>
    rw [indexOf, List.map_cons, ← indexOf, Json.writeEntries, Except.bind_eq_ok] at h
    obtain ⟨_, _, h⟩ := h
    rw [Except.bind_eq_ok] at h
    obtain ⟨_, hplace, h⟩ := h
    obtain ⟨_, hrest, _⟩ := Except.bind_eq_ok.mp h
    rw [Json.write] at hplace
    exact List.forall_mem_cons.mpr ⟨(Json.wholeNumber_eq_ok hplace).1, ih hrest⟩

/-- An index that has a text has no place with too many digits. -/
theorem isShort_of_text {s : Sheet} {text : List Char}
    (h : Json.text (.dict (indexOf s.marks)) = .ok text) : s.IsShort := by
  rw [Json.text, Json.write, Except.bind_eq_ok] at h
  obtain ⟨_, hparts, _⟩ := h
  exact length_digits_of_writeEntries hparts

theorem readPlain_indexText {s : Sheet} (hshort : s.IsShort) :
    Json.readPlain s.indexText = .ok (.dict (indexOf s.marks)) := by
  have hread := @Json.readPlain_members (indexMembers s.marks) fun m hm => by
    obtain ⟨mark, hmark, rfl⟩ := List.mem_map.mp hm
    exact Json.reads_integer _ (n := (mark.2 : Int)) (hshort mark hmark)
  rw [map_pair_indexMembers, Entries.ofList_of_pairwise (pairwise_indexOf s.nodup_marks)] at hread
  exact hread

theorem readIndex_indexText {s : Sheet} (hshort : s.IsShort) :
    Table.readIndex (Utf8.encode s.indexText) = .ok (.dict (indexOf s.marks)) := by
  have hvisible := isVisible_indexText s
  rw [Table.readIndex, Utf8.decode_encode (Text.isAscii_of_isVisible hvisible)]
  show Failure.lift _ (Json.readPlain (Text.unifyBreaks s.indexText)) = _
  rw [Text.unifyBreaks_of_isVisible hvisible, readPlain_indexText hshort]
  rfl

theorem load_table {s : Sheet} {files : Directory} (directory : Path) (hshort : s.IsShort)
    (hin : s.IsIn files) :
    Table.load directory s.name files = .ok (s.table directory) := by
  have hindex := readIndex_indexText hshort
  have helements : (Value.dict (indexOf s.marks)).elements
      = .ok ((s.marks.map (·.1)).map Value.str) := by
    rw [Value.elements, indexOf, List.map_map, List.map_map]
    rfl
  have hsorted := Order.sortBy_texts s.pairwise_marks
  rw [Table.load, hin.index]
  simp only [hindex, Except.ok_bind, helements, Failure.lift_ok, hsorted]
  rw [List.map_map]
  rfl

/-! ## Writing -/

end Sheet

namespace Table

def isInStep (sample : Value) (position : Nat) : Bool :=
  (isSampled sample position).toOption.getD false

/-- A step that positions can be counted in. -/
def IsStep (sample : Value) : Prop := ∀ position, (isSampled sample position).isOk = true

theorem isSampled_of_isStep {sample : Value} (h : IsStep sample) (position : Nat) :
    isSampled sample position = .ok (isInStep sample position) := by
  have hok := h position
  rw [isInStep]
  cases hs : isSampled sample position with
  | error e =>
    rw [hs] at hok
    exact absurd hok Bool.false_ne_true
  | ok b => rfl

/-- What passes as a limit is a number that is not below one, or no place on the number line. -/
theorem quantity?_of_checkLimit {setting : String} {limit : Value}
    (h : Settings.checkLimit setting limit = .ok ()) :
    ∃ q, limit.quantity? = some q ∧ q.lt (.ofInt 1) = false := by
  have hcompare : limit.compare .lt (.int 1) = .ok false := by
    rw [Settings.checkLimit] at h
    cases hc : limit.compare .lt (.int 1) with
    | error m =>
      rw [hc] at h
      cases h
    | ok below =>
      rw [hc] at h
      cases below with
      | true => cases h
      | false => rfl
  have hnumber : ∀ q, limit.quantity? = some q →
      limit.compare .lt (.int 1) = limit.compareNumber .lt (.int 1) → q.lt (.ofInt 1) = false := by
    intro q hq hsame
    rw [hsame, Value.compareNumber, hq] at hcompare
    simp only [Value.quantity?, Value.plane?, Option.map_some] at hcompare
    split at hcompare
    · cases hcompare
    · exact Except.ok.inj hcompare
  cases limit with
  | bool b => exact ⟨_, rfl, hnumber _ rfl (by rw [Value.compare])⟩
  | int n => exact ⟨_, rfl, hnumber _ rfl (by rw [Value.compare])⟩
  | float x => exact ⟨_, rfl, hnumber _ rfl (by rw [Value.compare])⟩
  | fraction q => exact ⟨_, rfl, hnumber _ rfl (by rw [Value.compare])⟩
  | decimal x => exact ⟨_, rfl, hnumber _ rfl (by rw [Value.compare])⟩
  | _ => simp [Value.compare, Value.unordered] at hcompare

/-- The settings accept only steps that positions can be counted in. -/
theorem isStep_of_checkLimit {setting : String} {sample : Value}
    (h : Settings.checkLimit setting sample = .ok ()) : IsStep sample := by
  obtain ⟨q, hq, hlt⟩ := quantity?_of_checkLimit h
  intro position
  unfold isSampled
  rw [hq]
  cases q with
  | exact r =>
    have hnum : r.num ≠ 0 := by
      intro hzero
      have hden := r.den_pos
      simp only [Quantity.lt, Quantity.ofInt, Ratio.lt, Ratio.ofInt, hzero,
        decide_eq_false_iff_not] at hlt
      omega
    simp only [hnum, if_false]
    rfl
  | infinite negative => rfl
  | undefined => rfl

/-- Records with new keys go behind those that are written, and their marks behind the marks. -/
theorem writeRecords_entries {sample : Value} (hstep : IsStep sample) (position : Nat)
    (draft : Draft) {m : Pairs} (hm : m.keys.Nodup)
    (hnew : ∀ k ∈ Pairs.keys m, ∀ e ∈ draft.index, e.1.standsFor (.str k) = false) :
    writeRecords sample position draft m.entries
      = ({ text := draft.text ++ Sheet.textOf m
           index := draft.index ++ Sheet.indexOf
             (Sheet.marksFrom (isInStep sample) position draft.text.length m) }, none) := by
  induction m generalizing position draft with
  | nil =>
    simp [Pairs.entries, writeRecords, Sheet.textOf, Text.joined, Sheet.marksFrom, Sheet.indexOf]
  | cons p m ih =>
    rw [Pairs.keys, List.map_cons, List.nodup_cons, ← Pairs.keys] at hm
    have hrest : ∀ k ∈ Pairs.keys m, ∀ e ∈ draft.index, e.1.standsFor (.str k) = false :=
      fun k hk => hnew k (List.mem_cons_of_mem _ hk)
    rw [Pairs.entries, List.map_cons, ← Pairs.entries, writeRecords, line_texts]
    simp only [isSampled_of_isStep hstep]
    rw [Sheet.marksFrom, Sheet.textOf_cons]
    cases hmark : isInStep sample position with
    | false =>
      refine (ih (position + 1) { draft with text := draft.text ++ (recordText p ++ ['\n']) } hm.2
        hrest).trans ?_
      simp [Nat.add_assoc]
    | true =>
      have hinsert := Entries.insert_of_new (hnew p.1 List.mem_cons_self) (.int draft.text.length)
      -- The key that is marked here is not among the keys that are still to come.
      have hmarked : ∀ k ∈ Pairs.keys m,
          ∀ e ∈ draft.index ++ [(Value.str p.1, Value.int draft.text.length)],
            e.1.standsFor (.str k) = false := by
        intro k hk e he
        rcases List.mem_append.mp he with he | he
        · exact hrest k hk e he
        · rw [List.mem_singleton.mp he, Value.standsFor_str]
          refine beq_eq_false_iff_ne.mpr ?_
          rintro rfl
          exact hm.1 hk
      show writeRecords sample (position + 1)
        { text := draft.text ++ (recordText p ++ ['\n'])
          index := draft.index.insert (.str p.1) (.int draft.text.length) } (Pairs.entries m) = _
      rw [hinsert]
      refine (ih (position + 1) _ hm.2 hmarked).trans ?_
      simp [Sheet.indexOf, Nat.add_assoc]

end Table

namespace Sheet

def ofItems (name : String) (sample : Value) (items : Pairs) (h : items.keys.Nodup) : Sheet where
  name := name
  records := items.sorted
  ascending := Pairs.ascending_sorted h
  isMarked := Table.isInStep sample

def addTo (s : Sheet) (files : Directory) : Directory :=
  (files.write s.name (Utf8.encode s.text)).write (Table.indexName s.name)
    (Utf8.encode s.indexText)

theorem indexName_ne (name : String) : Table.indexName name ≠ name := by
  intro h
  have hlength := congrArg String.length h
  rw [Table.indexName, String.length_append] at hlength
  have : ".idx".length = 4 := by decide
  omega

theorem isIn_addTo (s : Sheet) (files : Directory) : s.IsIn (s.addTo files) where
  data := by
    rw [addTo, Directory.read?_write, if_neg (indexName_ne s.name).symm,
      Directory.read?_write_self]
  index := Directory.read?_write_self _ _ _

theorem indexText_of_ok {index : Entries} {text : List Char}
    (h : Json.text (.dict index) = .ok text) : Table.indexText index = (text, none) := by
  rw [Table.indexText, h]

/-- Writing a table of texts fails only over the text of its index. -/
theorem write_eq {sample : Value} (hstep : Table.IsStep sample) (directory : Path) (name : String)
    {items : Pairs} (hitems : items.keys.Nodup) (files : Directory) :
    Table.write directory name items.entries sample files
      = let s := ofItems name sample items hitems
        let (text, fault) := Table.indexText (indexOf s.marks)
        let after := (files.write name (Utf8.encode s.text)).write (Table.indexName name)
          (Utf8.encode text)
        match fault with
        | some fault => (.error (.unwritable fault), after)
        | none => (Table.load directory name after, after) := by
  have hsorted := Pairs.ascending_sorted hitems
  have hrecords := Table.writeRecords_entries hstep 0 { text := [], index := [] }
    (Pairs.nodup_keys_of_ascending hsorted) (fun _ _ _ he => absurd he List.not_mem_nil)
  rw [Table.write, Order.sortBy_entries]
  simp only [hrecords, List.nil_append, List.length_nil]
  rfl

/-- Writing a table of texts leaves the files of a sheet, opened. -/
theorem write_entries {sample : Value} (hstep : Table.IsStep sample) (directory : Path)
    (name : String) {items : Pairs} (hitems : items.keys.Nodup)
    (hshort : (ofItems name sample items hitems).IsShort) (files : Directory) :
    Table.write directory name items.entries sample files
      = (.ok ((ofItems name sample items hitems).table directory),
          (ofItems name sample items hitems).addTo files) := by
  have hload := load_table directory hshort (isIn_addTo _ files)
  rw [write_eq hstep directory name hitems files]
  simp only [indexText_of_ok (text_indexOf hshort)]
  exact congrArg (fun result => (result, (ofItems name sample items hitems).addTo files)) hload

/-- Where writing a table of texts succeeds, its index has a text. -/
theorem isShort_of_write {sample : Value} (hstep : Table.IsStep sample) {directory : Path}
    {name : String} {items : Pairs} (hitems : items.keys.Nodup) {files after : Directory}
    {t : Table} (h : Table.write directory name items.entries sample files = (.ok t, after)) :
    (ofItems name sample items hitems).IsShort := by
  cases htext : Json.text (.dict (indexOf (ofItems name sample items hitems).marks)) with
  | ok text => exact isShort_of_text htext
  | error fault =>
    rw [write_eq hstep directory name hitems files] at h
    simp only [Table.indexText, htext, Prod.mk.injEq, reduceCtorEq, false_and] at h

end Sheet

end SchemaStore
