import SchemaStore.Proofs.Json.Endings
import SchemaStore.Proofs.Storage.Sheets

/-!
Texts that are cut short.  What is left of an object when its text is cut anywhere before the
closing brace is no JSON text: the reader stops at a string that is broken off, or it comes to the
end with the object still open.  A text breaks from a state when every shorter beginning of it fails
to read, and that is shown for one token after the other.  So a beginning of a table's text holds
the records whose lines are whole, and whatever else it holds makes reading fail.
-/

namespace SchemaStore
namespace Json

/-! ## Strings that are broken off -/

/-- A string without its closing mark is broken off, wherever it is cut. -/
theorem tokensFrom_cut_quote (position : Nat) {s : String} {p q : List Char}
    (hsplit : p ++ q = quote s) (hp : p ≠ []) (hq : q ≠ []) :
    ∃ cause place, tokensFrom position 0 p = [⟨.brokenString cause place, position⟩] := by
  cases p with
  | nil => exact absurd rfl hp
  | cons c p =>
    rw [quote, List.cons_append] at hsplit
    obtain ⟨rfl, hbody⟩ := List.cons.inj hsplit
    cases hread : stringUnits position (position + 1) p with
    | error fault =>
      refine ⟨fault.1, fault.2, ?_⟩
      have hblank : isBlank '"' = false := rfl
      rw [tokensFrom, hblank, tokenAt]
      simp only [hread, Bool.false_eq_true, if_false]
    | ok found =>
      -- The whole body would be read up to the same mark, and it is longer.
      obtain ⟨hmore, hle⟩ := stringUnits_append hread q
      have hwhole := stringUnits_body position (position + 1) s.toList []
      rw [← hbody] at hwhole
      rw [hwhole] at hmore
      have hwidth := congrArg Prod.snd (Except.ok.inj hmore)
      have hlength := congrArg List.length hbody
      have hpos := List.length_pos_iff.mpr hq
      simp only [List.length_append, List.length_cons, List.length_nil] at hlength hwidth
      omega

/-! ## Texts that break -/

section

variable {ε : Type} {revive : Entries → Except ε Value}

variable (revive) in
/-- Every beginning of a text fails to read from a state, as long as something is missing. -/
def Breaks (s : State) (cs : List Char) : Prop :=
  ∀ (position length : Nat) (p q : List Char), p ++ q = cs → q ≠ [] →
    (readOn revive position s p >>= finish length).isOk = false

/-- States in which a text may not end. -/
def IsUnfinished (s : State) : Prop := ∀ v, s ≠ .finished v

theorem isOk_finish (length : Nat) {s : State} (h : IsUnfinished s) :
    (finish length s : Except (Stop ε) Value).isOk = false := by
  cases s with
  | finished v => exact absurd rfl (h v)
  | _ => rfl

theorem breaks_mark {s next : State} {c : Char} {cs : List Char} {t : Token}
    (hs : IsUnfinished s) (hblank : isBlank c = false)
    (hbroken : ∀ cause place, t ≠ .brokenString cause place)
    (ht : ∀ position rest, tokenAt position (c :: rest) = (t, 1))
    (hstep : ∀ position, step revive s ⟨t, position⟩ = .ok next) (h : Breaks revive next cs) :
    Breaks revive s (c :: cs) := by
  intro position length p q hsplit hq
  cases p with
  | nil => exact isOk_finish length hs
  | cons d p =>
    obtain ⟨rfl, hrest⟩ := List.cons.inj hsplit
    rw [readOn_mark revive position s hblank hbroken p (ht position p), hstep]
    exact h _ length p q hrest hq

theorem breaks_blank {s : State} {c : Char} {cs : List Char} (hs : IsUnfinished s)
    (hblank : isBlank c = true) (h : Breaks revive s cs) : Breaks revive s (c :: cs) := by
  intro position length p q hsplit hq
  cases p with
  | nil => exact isOk_finish length hs
  | cons d p =>
    obtain ⟨rfl, hrest⟩ := List.cons.inj hsplit
    rw [readOn_blank revive position s hblank]
    exact h _ length p q hrest hq

theorem breaks_last {s : State} (hs : IsUnfinished s) (c : Char) : Breaks revive s [c] := by
  intro position length p q hsplit hq
  cases p with
  | nil => exact isOk_finish length hs
  | cons d p => exact absurd (List.append_eq_nil_iff.mp (List.cons.inj hsplit).2).2 hq

theorem breaks_quote {s next : State} {name : String} {cs : List Char} (hs : IsUnfinished s)
    (hbroken : ∀ cause place position,
      (step revive s ⟨.brokenString cause place, position⟩).isOk = false)
    (hstep : ∀ position, step revive s ⟨.string name, position⟩ = .ok next)
    (h : Breaks revive next cs) : Breaks revive s (quote name ++ cs) := by
  have hbehind : ∀ (position length : Nat) (p q : List Char), p ++ q = cs → q ≠ [] →
      (readOn revive position s (quote name ++ p) >>= finish length).isOk = false := by
    intro position length p q hsplit hq
    rw [readOn_quote, hstep]
    exact h _ length p q hsplit hq
  intro position length p q hsplit hq
  rcases List.append_eq_append_iff.mp hsplit with ⟨missing, hname, hrest⟩ | ⟨more, hp, hcs⟩
  · by_cases hmissing : missing = []
    · rw [hmissing, List.append_nil] at hname
      rw [hmissing, List.nil_append] at hrest
      rw [← hname, ← List.append_nil (quote name)]
      exact hbehind position length [] q hrest hq
    · by_cases hp : p = []
      · rw [hp]
        exact isOk_finish length hs
      · -- The text is cut within the string, and the string is the last token that is seen.
        obtain ⟨cause, place, htokens⟩ := tokensFrom_cut_quote position hname.symm hp hmissing
        have hfails := hbroken cause place position
        rw [readOn, htokens]
        cases hstep : step revive s ⟨.brokenString cause place, position⟩ with
        | error e => simp [hstep]; rfl
        | ok next =>
          rw [hstep] at hfails
          exact absurd hfails.symm Bool.false_ne_true
  · rw [hp]
    exact hbehind position length more q hcs.symm hq

/-! ## Objects that are left open -/

/-- The text of members, after which an object is closed, breaks wherever it is cut. -/
theorem breaks_members {fields : Pairs} (hne : fields ≠ []) {s : State} (hs : IsUnfinished s)
    (hbroken : ∀ cause place position,
      (step revive s ⟨.brokenString cause place, position⟩).isOk = false)
    {done : Entries} (hstep : ∀ name position,
      step revive s ⟨.string name, position⟩ = .ok (.colon done name [])) :
    Breaks revive s ([',', ' '].intercalate (fields.members.map Member.part) ++ ['\x7d']) := by
  induction fields generalizing s done with
  | nil => exact absurd rfl hne
  | cons f rest ih =>
    have hmember : ∀ {tail : List Char},
        Breaks revive (.afterMember (done.insert (.str f.1) (.str f.2)) []) tail →
          Breaks revive s (quote f.1 ++ ':' :: ' ' :: (quote f.2 ++ tail)) := by
      intro tail htail
      apply breaks_quote hs hbroken (fun _ => hstep f.1 _)
      apply breaks_mark (fun _ h => by cases h) rfl (fun _ _ h => by cases h) (fun _ _ => rfl)
        (fun _ => rfl)
      apply breaks_blank (fun _ h => by cases h) rfl
      exact breaks_quote (fun _ h => by cases h) (fun _ _ _ => rfl) (fun _ => rfl) htail
    -- The last member is followed by the brace, and every other one by a comma.
    cases rest with
    | nil =>
      have htext : [',', ' '].intercalate (List.map Member.part (Pairs.members [f])) ++ ['\x7d']
          = quote f.1 ++ ':' :: ' ' :: (quote f.2 ++ ['\x7d']) := by
        simp [List.intercalate, Pairs.members, Member.part]
      rw [htext]
      exact hmember (breaks_last (fun _ h => by cases h) _)
    | cons next rest =>
      have htext : [',', ' '].intercalate (List.map Member.part (Pairs.members (f :: next :: rest)))
            ++ ['\x7d']
          = quote f.1 ++ ':' :: ' ' :: (quote f.2 ++ ',' :: ' ' ::
            ([',', ' '].intercalate (List.map Member.part (Pairs.members (next :: rest)))
              ++ ['\x7d'])) := by
        simp [List.intercalate, Pairs.members, Member.part]
      rw [htext]
      apply hmember
      apply breaks_mark (fun _ h => by cases h) rfl (fun _ _ h => by cases h) (fun _ _ => rfl)
        (fun _ => rfl)
      apply breaks_blank (fun _ h => by cases h) rfl
      exact ih (List.cons_ne_nil next rest) (fun _ h => by cases h) (fun _ _ _ => rfl)
        (fun _ _ => rfl)

end

/-- An object of texts that is cut before its closing brace cannot be read. -/
theorem isOk_readPlain_cut {fields : Pairs} {p q : List Char} (hsplit : p ++ q = fields.objectText)
    (hq : q ≠ []) : (readPlain p).isOk = false := by
  have hbreaks : @Breaks Empty (fun es => .ok (.dict es)) (.value []) fields.objectText := by
    cases fields with
    | nil =>
      apply breaks_mark (fun _ h => by cases h) rfl (fun _ _ h => by cases h) (fun _ _ => rfl)
        (fun _ => rfl)
      exact breaks_last (fun _ h => by cases h) _
    | cons f rest =>
      have htext : Pairs.objectText (f :: rest) = '\x7b' ::
          ([',', ' '].intercalate (List.map Member.part (Pairs.members (f :: rest))) ++ ['\x7d']) :=
        rfl
      rw [htext]
      apply breaks_mark (fun _ h => by cases h) rfl (fun _ _ h => by cases h) (fun _ _ => rfl)
        (fun _ => rfl)
      exact breaks_members (List.cons_ne_nil f rest) (fun _ h => by cases h) (fun _ _ _ => rfl)
        (fun _ _ => rfl)
  have hfails := hbreaks 0 p.length p q hsplit hq
  rw [readPlain, read]
  by_cases hmark : p.head? = some '\ufeff'
  · simp only [hmark, if_true]
    rfl
  · simp only [hmark, if_false]
    cases hread : @readOn Empty (fun es => .ok (.dict es)) 0 (.value []) p >>= finish p.length with
    | ok v =>
      rw [hread] at hfails
      exact absurd hfails.symm Bool.false_ne_true
    | error stop =>
      have hresult : ((tokens p).foldlM (@step Empty fun es => .ok (.dict es)) (.value []) >>=
          finish p.length) = .error stop := hread
      simp only [hresult]
      cases stop <;> rfl

end Json

/-! ## The lines of a text that is cut short -/

namespace Utf8

theorem take_encode {cs : List Char} (h : IsAscii cs) (n : Nat) :
    (encode cs).take n = encode (cs.take n) := by
  induction cs generalizing n with
  | nil => simp [encode]
  | cons c cs ih =>
    have hc := h c List.mem_cons_self
    cases n with
    | zero => rfl
    | succ n =>
      rw [List.take_succ_cons, encode_cons_of_lt hc, encode_cons_of_lt hc, List.take_succ_cons,
        ih fun d hd => h d (List.mem_cons_of_mem c hd)]

end Utf8

namespace Text

theorem lines_line {l : List Char} (h : IsVisible l) (rest : List Char) :
    lines (l ++ '\n' :: rest) = l :: lines rest := by
  rw [lines, splitLines_line h, lines]
  by_cases htail : (splitLines rest).2.isEmpty = true <;> simp [htail]

theorem lines_of_isVisible {l : List Char} (h : IsVisible l) (hne : l ≠ []) : lines l = [l] := by
  have hsplit : splitLines l = ([], l) := by
    clear hne
    induction l with
    | nil => rfl
    | cons c l ih =>
      obtain ⟨hc, hl⟩ := isVisible_cons.mp h
      obtain ⟨hn, hr⟩ := ne_newline_of_isVisible hc
      rw [splitLines_cons_of_ne hn hr, ih hl]
  rw [lines, hsplit]
  simp [hne]

end Text

namespace Sheet

/-- What is left of a table's text: the lines of its first records, and it may be that the next
record is there in part. -/
inductive Cut (m : Pairs) (texts : List (List Char)) : Prop where
  | clean (kept : Pairs) (hkept : kept <+: m) (htexts : texts = kept.map Table.recordText)
  | torn (kept : Pairs) (p : String × String) (tail missing : List Char) (hkept : kept ++ [p] <+: m)
      (htail : tail ≠ []) (hmissing : missing ≠ []) (hrecord : tail ++ missing = Table.recordText p)
      (htexts : texts = kept.map Table.recordText ++ [tail])

theorem Cut.cons {m : Pairs} {texts : List (List Char)} (h : Cut m texts) (p : String × String) :
    Cut (p :: m) (Table.recordText p :: texts) := by
  cases h with
  | clean kept hkept htexts =>
    exact .clean (p :: kept) (List.cons_prefix_cons.mpr ⟨rfl, hkept⟩) (by rw [htexts]; rfl)
  | torn kept q tail missing hkept htail hmissing hrecord htexts =>
    exact .torn (p :: kept) q tail missing (List.cons_prefix_cons.mpr ⟨rfl, hkept⟩) htail hmissing
      hrecord (by rw [htexts]; rfl)

theorem isVisible_take {cs : List Char} (h : Text.IsVisible cs) (n : Nat) :
    Text.IsVisible (cs.take n) :=
  fun c hc => h c (List.mem_of_mem_take hc)

theorem cut_take (m : Pairs) (n : Nat) : Cut m (Text.lines ((textOf m).take n)) := by
  induction m generalizing n with
  | nil =>
    exact .clean [] List.nil_prefix
      (by simp [textOf, Text.joined, Text.lines, Text.splitLines])
  | cons p m ih =>
    have hvisible := Table.isVisible_recordText p
    rw [textOf_cons]
    by_cases hn : n ≤ (Table.recordText p).length
    · -- The cut is within the first record, or right before or behind it.
      rw [List.take_append_of_le_length hn]
      by_cases hzero : n = 0
      · exact .clean [] List.nil_prefix (by rw [hzero]; rfl)
      have htail : (Table.recordText p).take n ≠ [] := by
        intro hnil
        have hlength := congrArg List.length hnil
        rw [List.length_take, List.length_nil] at hlength
        omega
      rw [Text.lines_of_isVisible (isVisible_take hvisible n) htail]
      by_cases hwhole : n = (Table.recordText p).length
      · refine .clean [p] (List.cons_prefix_cons.mpr ⟨rfl, List.nil_prefix⟩) ?_
        rw [hwhole, List.take_length]
        rfl
      · refine .torn [] p _ ((Table.recordText p).drop n)
          (List.cons_prefix_cons.mpr ⟨rfl, List.nil_prefix⟩) htail ?_
          (List.take_append_drop n _) rfl
        intro hnil
        have hlength := congrArg List.length hnil
        rw [List.length_drop, List.length_nil] at hlength
        omega
    · have hrest : n - (Table.recordText p).length
          = n - (Table.recordText p).length - 1 + 1 := by omega
      rw [List.take_append, List.take_of_length_le (by omega), hrest, List.take_succ_cons,
        Text.lines_line hvisible]
      exact (ih _).cons p

/-- The lines that are read from a table whose text is cut. -/
theorem storedLines_take (m : Pairs) (n : Nat) :
    ∃ texts, Text.storedLines [] ((Utf8.encode (textOf m)).take n) = (texts, none) ∧
      Cut m texts := by
  refine ⟨_, ?_, cut_take m n⟩
  have hascii : Utf8.IsAscii ((textOf m).take n) :=
    fun c hc => isAscii_textOf m c (List.mem_of_mem_take hc)
  rw [Utf8.take_encode (isAscii_textOf m), Text.storedLines, Utf8.decodeInPieces_encode hascii]
  rfl

end Sheet

/-! ## The records of a text that is cut short -/

namespace Table

theorem readRecords_append (t : Table) (m : Pairs) (texts : List (List Char)) :
    t.readRecords (m.map recordText ++ texts)
      = (m.entries ++ (t.readRecords texts).1, (t.readRecords texts).2) := by
  induction m with
  | nil => rfl
  | cons p m ih =>
    have hblank : (recordText p).all Text.isBlank = false := (fields p).not_isBlank_objectText
    rw [List.map_cons, List.cons_append, readRecords, hblank, readRecord_recordText]
    simp only [ih]
    rfl

/-- A record that is there in part is reported as corrupt. -/
theorem readRecords_cut (t : Table) {p : String × String} {tail missing : List Char}
    (htail : tail ≠ []) (hmissing : missing ≠ []) (hrecord : tail ++ missing = recordText p) :
    t.readRecords [tail] = ([], some (.store (.corruptTable t.path))) := by
  have hblank : tail.all Text.isBlank = false := by
    cases tail with
    | nil => exact absurd rfl htail
    | cons c tail =>
      have hopens : c = '\x7b' := (List.cons.inj hrecord).1
      rw [hopens, List.all_cons]
      rfl
  have hfails := Json.isOk_readPlain_cut hrecord hmissing
  have hcorrupt : t.readRecord tail = .error (.store (.corruptTable t.path)) := by
    rw [readRecord]
    cases hread : Json.readPlain tail with
    | error fault => rfl
    | ok v =>
      rw [hread] at hfails
      exact absurd hfails.symm Bool.false_ne_true
  rw [readRecords, hblank, hcorrupt]
  rfl

/-- No line that is a record in part is a record. -/
theorem ne_recordText_of_cut {p : String × String} {tail missing : List Char}
    (hmissing : missing ≠ []) (hrecord : tail ++ missing = recordText p) (q : String × String) :
    tail ≠ recordText q := by
  intro heq
  have hfails := Json.isOk_readPlain_cut hrecord hmissing
  rw [heq, recordText, Pairs.readPlain_objectText (nodup_keys_fields q)] at hfails
  exact absurd hfails.symm Bool.false_ne_true

/-- The search for a key that is not there comes to the end if no key is greater. -/
theorem find_entries_of_none {m : Pairs} {key : String} (hnone : m.lookup key = none)
    (ending : Option Failure) :
    find (.str key) ending m.entries
      = if ∀ k ∈ Pairs.keys m, k ≤ key then find (.str key) ending [] else .ok .null := by
  induction m with
  | nil => simp [Pairs.entries, Pairs.keys]
  | cons p m ih =>
    obtain ⟨k, v⟩ := p
    rw [Pairs.lookup_cons] at hnone
    by_cases heq : k = key
    · rw [if_pos heq] at hnone
      exact absurd hnone (Option.some_ne_none v)
    · rw [if_neg heq] at hnone
      rw [Pairs.entries, List.map_cons, ← Pairs.entries, Sheet.find_cons, Value.same_str,
        Order.greater_texts, if_neg (by simpa using heq)]
      by_cases hlt : key < k
      · have hgreater : ¬∀ k' ∈ Pairs.keys ((k, v) :: m), k' ≤ key :=
          fun h => String.not_le.mpr hlt (h k List.mem_cons_self)
        rw [decide_eq_true hlt, if_neg hgreater]
        rfl
      · have hrest : (∀ k' ∈ Pairs.keys ((k, v) :: m), k' ≤ key) ↔
            ∀ k' ∈ Pairs.keys m, k' ≤ key := by
          show (∀ k' ∈ k :: Pairs.keys m, k' ≤ key) ↔ _
          simp [String.not_lt.mp hlt]
        rw [decide_eq_false hlt]
        simp only [hrest]
        exact ih hnone

end Table
end SchemaStore
