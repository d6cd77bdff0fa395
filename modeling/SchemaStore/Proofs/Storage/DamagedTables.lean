import SchemaStore.Proofs.Storage.Damage
import SchemaStore.Proofs.Storage.Recovery

/-!
Scans and look-ups in damaged tables.  A scan reads whole tables, from the newest to the oldest, and
takes only text keys.  A look-up reads a table from the place that its index names up to the first
record whose key is not below the wanted one, so that it does not meet what is behind.  Both end
with the first line that they cannot take, and report it if it is no JSON text.
-/

namespace SchemaStore

/-! ## The records of tables -/

namespace Table

/-- A line of a table that holds a record of a key. -/
def IsRecordOf (key : Value) (text : List Char) : Prop :=
  ∃ es value, Record.IsObject text es ∧ es.field? Record.keyName = some key ∧
    es.field? Record.valueName = some value

theorem IsRecordOf.unique {key other : Value} {text : List Char} (h : IsRecordOf key text)
    (hother : IsRecordOf other text) : other = key := by
  obtain ⟨es, _, ⟨v, hread, hes⟩, hkey, -⟩ := h
  obtain ⟨es', _, hobject, hkey', -⟩ := hother
  obtain rfl := Option.some.inj (hes.symm.trans ((Record.isObject_iff hread).mp hobject))
  exact Option.some.inj (hkey'.symm.trans hkey)

theorem isRecordOf_iff {text : List Char} {v : Value} (hread : Json.readPlain text = .ok v)
    {es : Entries} (hes : v.entries? = some es) {key : Value} :
    IsRecordOf key text ↔ es.field? Record.keyName = some key ∧
      ∃ value, es.field? Record.valueName = some value := by
  simp only [IsRecordOf, Record.isObject_iff hread, hes, Option.some.injEq]
  constructor
  · rintro ⟨_, value, rfl, hkey, hvalue⟩
    exact ⟨hkey, value, hvalue⟩
  · rintro ⟨hkey, value, hvalue⟩
    exact ⟨es, value, rfl, hkey, hvalue⟩

/-- A line that is not blank holds a record, or reading it fails. -/
theorem readRecord_cases (t : Table) {text : List Char} (hblank : text.all Text.isBlank = false) :
    (∃ record, t.readRecord text = .ok record ∧ IsRecordOf record.1 text ∧ ¬Record.IsBroken text) ∨
      ∃ f, t.readRecord text = .error f ∧ (f.isStore = true ↔ Record.IsBroken text) ∧
        ∀ key, ¬IsRecordOf key text := by
  rw [readRecord]
  cases hread : Json.readPlain text with
  | error fault =>
    refine .inr ⟨_, rfl, iff_of_true rfl ⟨hblank, fault, hread⟩, ?_⟩
    rintro key ⟨_, _, ⟨v, hv, -⟩, -⟩
    rw [hread] at hv
    cases hv
  | ok v =>
    -- What is wrong with a line that is read is no error of the store.
    have hunbroken : ¬Record.IsBroken text := Record.not_isBroken_of_readPlain hread
    have hmisread : ∀ f : Failure, f.isStore = false → (f.isStore = true ↔ Record.IsBroken text) :=
      fun f hf => iff_of_false (Bool.eq_false_iff.mp hf) hunbroken
    cases hes : v.entries? with
    | none =>
      obtain ⟨m, hm⟩ := Record.exists_member_eq_error hes Record.keyName
      refine .inr ⟨.misuse m, by simp only [hm]; rfl, hmisread _ rfl, ?_⟩
      rintro key ⟨_, _, hobject, -⟩
      rw [Record.isObject_iff hread, hes] at hobject
      cases hobject
    | some es =>
      simp only [Record.member_of_entries hes, isRecordOf_iff hread hes]
      cases hkey : es.field? Record.keyName with
      | none =>
        refine .inr ⟨.missingKey _, rfl, hmisread _ rfl, ?_⟩
        rintro key ⟨h, -⟩
        cases h
      | some key =>
        cases hvalue : es.field? Record.valueName with
        | none =>
          refine .inr ⟨.missingKey _, rfl, hmisread _ rfl, ?_⟩
          rintro key ⟨-, value, h⟩
          cases h
        | some value => exact .inl ⟨(key, value), rfl, ⟨rfl, value, rfl⟩, hunbroken⟩

/-- The records in lines, and the failure that reading them ends with. -/
def recordsOf (t : Table) (lines : StoredLines) : List (Value × Value) × Option Failure :=
  match t.readRecords lines.1 with
  | (records, some e) => (records, some e)
  | (records, none) => (records, lines.2.map .encoding)

variable {t : Table} {text : List Char} {texts : List (List Char)} {fault : Option Utf8.Fault}

theorem recordsOf_nil : t.recordsOf ([], fault) = ([], fault.map .encoding) := rfl

theorem recordsOf_blank (h : text.all Text.isBlank = true) :
    t.recordsOf (text :: texts, fault) = t.recordsOf (texts, fault) := by
  rw [recordsOf, readRecords, if_pos h, recordsOf]

theorem recordsOf_record (hblank : text.all Text.isBlank = false) {record : Value × Value}
    (h : t.readRecord text = .ok record) :
    t.recordsOf (text :: texts, fault)
      = (record :: (t.recordsOf (texts, fault)).1, (t.recordsOf (texts, fault)).2) := by
  rw [recordsOf, readRecords, if_neg (by rw [hblank]; exact Bool.false_ne_true), h, recordsOf]
  rcases t.readRecords texts with ⟨records, e⟩
  cases e <;> rfl

theorem recordsOf_error (hblank : text.all Text.isBlank = false) {f : Failure}
    (h : t.readRecord text = .error f) : t.recordsOf (text :: texts, fault) = ([], some f) := by
  rw [recordsOf, readRecords, if_neg (by rw [hblank]; exact Bool.false_ne_true), h]

/-- A line that is blank or holds a record of a text key. -/
def IsTextLine (text : List Char) : Prop :=
  text.all Text.isBlank = true ∨ ∃ key, IsRecordOf (.str key) text

end Table

namespace Engine

open Table

variable {t : Table} {text : List Char} {texts : List (List Char)} {fault : Option Utf8.Fault}
  {start : String} {found : List (String × Value)}

theorem exists_scanRecords_cons (start : String) (found : List (String × Value))
    (ending : Option Failure) (key : String) (value : Value) (rest : List (Value × Value)) :
    ∃ more, scanRecords start found ending ((.str key, value) :: rest)
      = scanRecords start more ending rest := by
  rw [scanRecords]
  split
  · exact ⟨_, rfl⟩
  · exact ⟨_, rfl⟩

theorem scanRecords_of_noText {record : Value × Value} (h : ∀ key, record.1 ≠ .str key)
    (ending : Option Failure) (rest : List (Value × Value)) :
    scanRecords start found ending (record :: rest)
      = .error (.noOperation record.1 "startswith") := by
  obtain ⟨k, v⟩ := record
  cases k with
  | str key => exact absurd rfl (h key)
  | _ => rfl

/-- Scanning the lines of a table ends well when all of them are blank or hold records of text
keys. -/
theorem ends_scanRecords (t : Table) (start : String) (found : List (String × Value))
    (lines : StoredLines) :
    Ends (scanRecords start found (t.recordsOf lines).2 (t.recordsOf lines).1)
      (lines.IsWhole IsTextLine) (lines.EndsReported IsTextLine Record.IsBroken) := by
  obtain ⟨texts, fault⟩ := lines
  induction texts generalizing found with
  | nil =>
    rw [recordsOf_nil]
    refine StoredLines.ends_nil (fun h => ⟨found, ?_⟩) fun e h => ?_
    · rw [h]
      rfl
    · rw [h]
      rfl
  | cons text texts ih =>
    cases hblank : text.all Text.isBlank with
    | true =>
      rw [recordsOf_blank hblank]
      exact StoredLines.ends_cons_of_passes (.inl hblank) (ih found)
    | false =>
      have hkey : IsTextLine text ↔ ∃ key, IsRecordOf (.str key) text := by
        rw [IsTextLine, hblank]
        exact or_iff_right Bool.false_ne_true
      obtain ⟨⟨k, v⟩, hread, hrecord, hunbroken⟩ | ⟨f, hread, hstore, hnone⟩ :=
        t.readRecord_cases hblank
      · rw [recordsOf_record hblank hread]
        by_cases htext : ∃ key, k = .str key
        · obtain ⟨key, rfl⟩ := htext
          obtain ⟨more, hmore⟩ := exists_scanRecords_cons start found
            (t.recordsOf (texts, fault)).2 key v (t.recordsOf (texts, fault)).1
          rw [hmore]
          exact StoredLines.ends_cons_of_passes (hkey.mpr ⟨key, hrecord⟩) (ih more)
        · have hno : ∀ key, k ≠ .str key := fun key h => htext ⟨key, h⟩
          refine StoredLines.ends_cons_of_error (fun h => ?_) (scanRecords_of_noText hno _ _)
            (iff_of_false Bool.false_ne_true hunbroken)
          obtain ⟨key, hother⟩ := hkey.mp h
          exact hno key (hother.unique hrecord)
      · rw [recordsOf_error hblank hread]
        refine StoredLines.ends_cons_of_error (fun h => ?_) rfl hstore
        obtain ⟨key, hrecord⟩ := hkey.mp h
        exact hnone _ hrecord

/-! ## Scanning -/

theorem ends_scanEntries (start : String) (found : List (String × Value)) (memory : Entries) :
    Ends (scanRecords start found none memory) (∀ record ∈ memory, ∃ key, record.1 = .str key)
      False := by
  induction memory generalizing found with
  | nil => exact .inl ⟨fun _ h => absurd h List.not_mem_nil, found, rfl⟩
  | cons record memory ih =>
    rw [List.forall_mem_cons]
    obtain ⟨k, v⟩ := record
    by_cases htext : ∃ key, k = .str key
    · obtain ⟨key, rfl⟩ := htext
      obtain ⟨more, hmore⟩ := exists_scanRecords_cons start found none key v memory
      rw [hmore, and_iff_right ⟨key, rfl⟩]
      exact ih more
    · exact .inr ⟨fun h => htext h.1, _,
        scanRecords_of_noText (fun key h => htext ⟨key, h⟩) none memory,
        iff_of_false Bool.false_ne_true not_false⟩

variable {files : Directory}

theorem records_eq {content : Utf8.Bytes} (h : files.read? t.name = some content) :
    t.records files = t.recordsOf (Text.storedLines [] content) := by
  have hopen : Table.openAt content (.int 0) = .ok { characters := [], bytes := content } := rfl
  rw [records, recordsFrom, h]
  simp only [hopen]
  rfl

/-- Tables are scanned up to the first that is not whole. -/
theorem isReported_scanTables_iff {tables : List Table}
    (h : ∀ t ∈ tables, (files.read? t.name).isSome = true) :
    IsReported (scanTables files start found tables) ↔
      FirstIsReported (fun t => (files.linesOf t.name).IsWhole IsTextLine)
        (fun t => (files.linesOf t.name).EndsReported IsTextLine Record.IsBroken) tables := by
  induction tables generalizing found with
  | nil => exact iff_of_true (isReported_ok found) firstIsReported_nil
  | cons t tables ih =>
    obtain ⟨ht, htables⟩ := List.forall_mem_cons.mp h
    obtain ⟨content, hcontent⟩ := Option.isSome_iff_exists.mp ht
    have hlines : files.linesOf t.name = Text.storedLines [] content := by
      rw [Directory.linesOf, hcontent, Option.getD_some]
    have hends := ends_scanRecords t start found (files.linesOf t.name)
    have hrecords : t.records files = t.recordsOf (files.linesOf t.name) := by
      rw [hlines, records_eq hcontent]
    rw [firstIsReported_cons, scanTables, hrecords, isReported_bind,
      ← hends.isReported_iff]
    refine and_congr_right fun _ => ?_
    rw [← hends.exists_iff]
    constructor
    · rintro hrest ⟨more, hmore⟩
      exact (ih htables).mp (hrest more hmore)
    · intro hrest more hmore
      exact (ih htables).mpr (hrest ⟨more, hmore⟩)

theorem answer_scan {site : Site} (h : site.engine.isClosed = false) (start : String) :
    (scan start site).answer = (do
      let found ← scanRecords start [] none site.engine.memtable
      scanTables site.files start found site.engine.tables.reverse) := by
  rw [scan, checkOpen_bind _ h]
  exact answer_ofResult _ site

theorem answer_get {site : Site} (h : site.engine.isClosed = false) (key : Value) :
    (get key site).answer = site.engine.lookup site.files key := by
  rw [get, checkOpen_bind _ h]
  exact answer_ofResult _ site

end Engine

/-! ## Looking up -/

namespace Value

theorem exists_text_of_isSome {k : Value} (h : k.asText?.isSome = true) : ∃ s, k = .str s := by
  cases k with
  | str s => exact ⟨s, rfl⟩
  | _ => cases h

theorem same_text_iff {k : Value} {key : String} : k.same (.str key) = true ↔ k = .str key := by
  constructor
  · intro h
    cases k <;> simp [same, sameNumber, plane?, entries?] at h
    rw [h]
  · rintro rfl
    simp

/-- Only texts are ordered against texts. -/
theorem exists_compare_text_eq_error {k : Value} (h : ∀ s, k ≠ .str s) (r : Relation)
    (key : String) : ∃ m, k.compare r (.str key) = .error m := by
  cases k with
  | str s => exact absurd rfl (h s)
  | _ => exact ⟨_, by simp [compare, compareNumber, quantity?, plane?, unordered]; rfl⟩

end Value

namespace Table

/-- A line that a look-up of a key passes on its way: it is blank, or it holds a record of a lesser
key. -/
def IsPassed (key : String) (text : List Char) : Prop :=
  text.all Text.isBlank = true ∨ ∃ lesser, lesser < key ∧ IsRecordOf (.str lesser) text

/-- A line that ends a look-up of a key with an answer: it holds a record of the key, or of a
greater one. -/
def IsAnswer (key : String) (text : List Char) : Prop :=
  ∃ other, key ≤ other ∧ IsRecordOf (.str other) text

variable {t : Table} {files : Directory} {key : String}

/-- A record of a lesser key is passed. -/
theorem find_of_lt {other : String} (h : other < key) (ending : Option Failure) (v : Value)
    (rest : List (Value × Value)) :
    find (.str key) ending ((.str other, v) :: rest) = find (.str key) ending rest := by
  have hne : (Value.str other).same (.str key) = false := by
    rw [Bool.eq_false_iff, ne_eq, Value.same_text_iff, Value.str.injEq]
    exact Order.ne_of_lt h
  rw [Sheet.find_cons, if_neg (Bool.eq_false_iff.mp hne), Order.greater_texts,
    decide_eq_false (String.lt_asymm h)]
  rfl

/-- The look-up ends at a record of the key or of a greater one. -/
theorem exists_find_of_le {other : String} (h : key ≤ other) (ending : Option Failure) (v : Value)
    (rest : List (Value × Value)) :
    ∃ found, find (.str key) ending ((.str other, v) :: rest) = .ok found := by
  rw [Sheet.find_cons]
  by_cases heq : other = key
  · exact ⟨v, if_pos (Value.same_text_iff.mpr (heq ▸ rfl))⟩
  · have hlt : key < other := Order.lt_of_le_of_ne h (Ne.symm heq)
    rw [if_neg fun hsame => heq (Value.str.inj (Value.same_text_iff.mp hsame)),
      Order.greater_texts, decide_eq_true hlt]
    exact ⟨.null, rfl⟩

/-- A record of another key than a text stops the look-up with what the comparison raises. -/
theorem exists_find_of_noText {k : Value} (h : ∀ s, k ≠ .str s) (ending : Option Failure)
    (v : Value) (rest : List (Value × Value)) :
    ∃ m, find (.str key) ending ((k, v) :: rest) = .error (.misuse m) := by
  obtain ⟨m, hm⟩ := Value.exists_compare_text_eq_error h .gt key
  rw [Sheet.find_cons, if_neg fun hsame => h key (Value.same_text_iff.mp hsame), hm]
  exact ⟨m, rfl⟩

/-- At a record the look-up goes on, ends with an answer, or fails without a report. -/
theorem isReported_find_record {text : List Char} (hblank : text.all Text.isBlank = false)
    {k : Value} (hrecord : IsRecordOf k text) (ending : Option Failure) (v : Value)
    (rest : List (Value × Value)) :
    IsReported (find (.str key) ending ((k, v) :: rest)) ↔
      (IsPassed key text ∨ IsAnswer key text) ∧
        (IsPassed key text → IsReported (find (.str key) ending rest)) := by
  have hpassed : IsPassed key text ↔ ∃ lesser, lesser < key ∧ IsRecordOf (.str lesser) text := by
    rw [IsPassed, hblank]
    exact or_iff_right Bool.false_ne_true
  by_cases htext : ∃ other, k = .str other
  · obtain ⟨other, rfl⟩ := htext
    by_cases hlt : other < key
    · have hpass : IsPassed key text := hpassed.mpr ⟨other, hlt, hrecord⟩
      rw [find_of_lt hlt, and_iff_right (.inl hpass), forall_prop_of_true hpass]
    · have hle : key ≤ other := String.not_lt.mp hlt
      have hno : ¬IsPassed key text := by
        rw [hpassed]
        rintro ⟨lesser, hlesser, hread⟩
        exact hlt (Value.str.inj (hrecord.unique hread) ▸ hlesser)
      obtain ⟨found, hfound⟩ := exists_find_of_le hle ending v rest
      rw [hfound]
      exact iff_of_true (isReported_ok found) ⟨.inr ⟨other, hle, hrecord⟩, fun h => absurd h hno⟩
  · have hno : ∀ other, ¬IsRecordOf (.str other) text := fun other h =>
      htext ⟨other, h.unique hrecord⟩
    obtain ⟨m, hm⟩ := @exists_find_of_noText key k (fun other h => htext ⟨other, h⟩) ending v rest
    rw [hm]
    refine iff_of_false (fun h => ?_) ?_
    · cases isReported_error.mp h
    · rw [hpassed]
      rintro ⟨⟨lesser, -, h⟩ | ⟨other, -, h⟩, -⟩
      · exact hno lesser h
      · exact hno other h

/-- A look-up reads lines up to the first that it does not pass. -/
theorem isReported_find_iff (t : Table) (key : String) (lines : StoredLines) :
    IsReported (find (.str key) (t.recordsOf lines).2 (t.recordsOf lines).1) ↔
      lines.EndsReported (IsPassed key) fun text => Record.IsBroken text ∨ IsAnswer key text := by
  obtain ⟨texts, fault⟩ := lines
  induction texts with
  | nil =>
    rw [recordsOf_nil]
    cases fault with
    | none => exact iff_of_true (isReported_ok _) ⟨firstIsReported_nil, fun _ => rfl⟩
    | some e =>
      refine iff_of_false (fun h => ?_) fun h => ?_
      · cases isReported_error.mp h
      · cases h.2 fun _ h => absurd h List.not_mem_nil
  | cons text texts ih =>
    rw [StoredLines.endsReported_cons]
    cases hblank : text.all Text.isBlank with
    | true =>
      have hpass : IsPassed key text := .inl hblank
      rw [recordsOf_blank hblank, ih, and_iff_right (.inl hpass), forall_prop_of_true hpass]
    | false =>
      obtain ⟨⟨k, v⟩, hread, hrecord, hunbroken⟩ | ⟨f, hread, hstore, hnone⟩ :=
        t.readRecord_cases hblank
      · rw [recordsOf_record hblank hread, or_iff_right hunbroken,
          isReported_find_record hblank hrecord, ih]
      · rw [recordsOf_error hblank hread]
        have hno : ¬IsPassed key text := by
          rintro (h | ⟨lesser, -, hrecord⟩)
          · exact Bool.false_ne_true (hblank.symm.trans h)
          · exact hnone _ hrecord
        have hnoAnswer : ¬IsAnswer key text := by
          rintro ⟨other, -, hrecord⟩
          exact hnone _ hrecord
        rw [or_iff_right hno, or_iff_left hnoAnswer, ← hstore]
        show IsReported (.error f) ↔ _
        rw [isReported_error]
        exact (and_iff_left fun h => absurd h hno).symm

/-- The lines that a look-up of a key reads: the index tells where they start. -/
def linesFor (t : Table) (files : Directory) (key : String) : Except Failure StoredLines := do
  let offset ← t.offsetFor (.str key)
  match files.read? t.name with
  | none => .error (.disk (.missing t.path))
  | some content => do
    let remainder ← Table.openAt content offset
    .ok (Text.storedLines remainder.characters remainder.bytes)

theorem get_eq (t : Table) (files : Directory) (key : String) :
    t.get files (.str key) = (t.linesFor files key >>= fun lines =>
      find (.str key) (t.recordsOf lines).2 (t.recordsOf lines).1) := by
  rw [get, linesFor]
  cases t.offsetFor (.str key) with
  | error f => rfl
  | ok offset =>
    simp only [Except.ok_bind, recordsFrom]
    cases files.read? t.name with
    | none => rfl
    | some content =>
      dsimp only
      cases Table.openAt content offset <;> rfl

theorem isStore_quoting {values : List Value} {f : Failure} (h : f.isStore = false) :
    (Failure.quoting values f).isStore = false := by
  rw [Failure.quoting, Report.quoting]
  split
  · exact h
  · rfl

theorem isForeign_openAt (content : Utf8.Bytes) (offset : Value) :
    IsForeign (Table.openAt content offset) := by
  have hnumber : IsForeign (offsetNumber offset) := by
    unfold offsetNumber
    refine (isForeign_lift (fun _ => rfl) _).bind fun negative => ?_
    cases negative with
    | true => exact isForeign_error (isStore_quoting rfl)
    | false =>
      cases offset with
      | float x => cases x <;> first | exact isForeign_ok _ | exact isForeign_error rfl
      | _ => exact isForeign_ok _
  rw [Table.openAt]
  exact hnumber.bind fun n => isForeign_lift (fun fault => by cases fault <;> rfl) _

/-- Where a look-up starts is found without reading records. -/
theorem isForeign_linesFor (t : Table) (files : Directory) (key : String) :
    IsForeign (t.linesFor files key) := by
  have hoffset : IsForeign (t.offsetFor (.str key)) := by
    rw [offsetFor]
    refine (isForeign_lift (fun _ => rfl) _).bind fun n => ?_
    split
    · exact isForeign_ok _
    · exact fun f h => Record.isStore_subscript h
  rw [linesFor]
  refine hoffset.bind fun offset => ?_
  split
  · exact isForeign_error rfl
  · exact (isForeign_openAt _ _).bind fun _ => isForeign_ok _

theorem isReported_get_iff (t : Table) (files : Directory) (key : String) :
    IsReported (t.get files (.str key)) ↔
      ∃ lines, t.linesFor files key = .ok lines ∧
        lines.EndsReported (IsPassed key) fun text => Record.IsBroken text ∨ IsAnswer key text := by
  rw [get_eq, isReported_bind, (isForeign_linesFor t files key).isReported_iff]
  simp only [isReported_find_iff]
  constructor
  · rintro ⟨⟨lines, hlines⟩, h⟩
    exact ⟨lines, hlines, h lines hlines⟩
  · rintro ⟨lines, hlines, h⟩
    exact ⟨⟨lines, hlines⟩, fun other hother => Except.ok.inj (hlines.symm.trans hother) ▸ h⟩

end Table

namespace Engine

variable {files : Directory} {key : String}

theorem isReported_findIn_iff {tables : List Table} :
    IsReported (findIn files (.str key) tables) ↔
      FirstIsReported (fun t => t.get files (.str key) = .ok .null)
        (fun t => IsReported (t.get files (.str key))) tables := by
  induction tables with
  | nil => exact iff_of_true (isReported_ok _) firstIsReported_nil
  | cons t tables ih =>
    rw [findIn, isReported_bind, firstIsReported_cons,
      or_iff_right_of_imp fun h => h ▸ isReported_ok _, ← ih]
    refine and_congr_right fun _ => ⟨fun h hnull => h _ hnull, fun h v hv => ?_⟩
    cases v with
    | null => exact h hv
    | _ => exact isReported_ok _

theorem isReported_lookup_iff {e : Engine} :
    IsReported (e.lookup files (.str key)) ↔
      (e.memtable.get? (.str key)).isSome = true ∨
        FirstIsReported (fun t => t.get files (.str key) = .ok .null)
          (fun t => IsReported (t.get files (.str key))) e.tables.reverse := by
  have hhash : Record.checkHashable (.str key) = .ok () := rfl
  rw [lookup, hhash, Except.ok_bind, ← isReported_findIn_iff]
  cases e.memtable.get? (.str key) with
  | none => simp
  | some v => simp [isReported_ok]

/-! ## Opened engines -/

/-- A table whose only line is no JSON text. -/
def brokenTable : Directory :=
  [(logName, Utf8.encode (Log.writeText ("b", "2"))),
   ("sst_1700000000000.jsonl", Utf8.encode "damaged\n".toList)]

theorem openAt_brokenTable :
    ((openAt World.roomy brokenTable).1.toOption.map fun e =>
      (e.memtable.all (·.1.asText?.isSome), (e.memtable.get? (.str "b")).isSome,
        e.tables.map Table.name))
        = some (true, true, ["sst_1700000000000.jsonl"]) := by
  decide +kernel

theorem linesOf_brokenTable :
    ((openAt World.roomy brokenTable).2.linesOf "sst_1700000000000.jsonl")
      = (["damaged".toList], none) := by
  decide +kernel

theorem isBroken_damaged : Record.IsBroken "damaged".toList := by
  refine ⟨by decide +kernel, ?_⟩
  have herror : (Json.readPlain "damaged".toList).toOption.isNone = true := by decide +kernel
  cases hread : Json.readPlain "damaged".toList with
  | error fault => exact ⟨fault, rfl⟩
  | ok v =>
    rw [hread] at herror
    cases herror

/-- A log with a byte that no text has. -/
def garbledLog : Directory := [(logName, [0xff, 0x0a])]

/-- A record of the log without a key. -/
def keylessLog : Directory :=
  [(logName, Utf8.encode "\x7b\"op\": \"put\", \"value\": \"1\"\x7d\n".toList)]

/-- A record of a table without a value. -/
def valuelessTable : Directory :=
  [("sst_1700000000000.jsonl", Utf8.encode "\x7b\"key\": \"a\"\x7d\n".toList)]

theorem answers_valuelessTable :
    ((openAt World.roomy valuelessTable).1.toOption.map fun e =>
      let site : Site := { engine := e, files := (openAt World.roomy valuelessTable).2 }
      (decide (IsReported (scan "" site).answer), decide (IsReported (get (.str "a") site).answer)))
        = some (false, false) := by
  decide +kernel

end Engine
end SchemaStore
