import SchemaStore.Json.Reader
import SchemaStore.Proofs.Json.Strings

/-!
Reading back what was written.  A text reads as a value when the reader, started on the text with
anything that can follow it, comes out behind the text with the value delivered.  Stated with
what follows left open, this composes: strings, whole numbers and objects read as what they were
written from, and a whole text is the case in which nothing follows.  An object may also fail to be
revived, and then so does everything around it; a text yields a result when it comes to a value or
to such a failure, and reading as a value is the case of a result that is one.
-/

namespace SchemaStore
namespace Json

/-! ## Reading step by step -/

section

variable {ε : Type} (revive : Entries → Except ε Value)

/-- The state after reading on through a text whose first character stands at a position. -/
def readOn (position : Nat) (s : State) (cs : List Char) : Except (Stop ε) State :=
  (tokensFrom position 0 cs).foldlM (step revive) s

theorem readOn_blank (position : Nat) (s : State) {c : Char} (h : isBlank c = true)
    (rest : List Char) :
    readOn revive position s (c :: rest) = readOn revive (position + 1) s rest := by
  simp only [readOn, tokensFrom, h, if_true]

theorem tokensFrom_skip (position : Nat) (cs rest : List Char) :
    tokensFrom position cs.length (cs ++ rest) = tokensFrom (position + cs.length) 0 rest := by
  induction cs generalizing position with
  | nil => rfl
  | cons c cs ih =>
    rw [List.cons_append, List.length_cons, tokensFrom, ih,
      show position + 1 + cs.length = position + (cs.length + 1) by omega]

/-- The token at the front of a text is the first of its tokens. -/
theorem exists_tokensFrom_eq_cons (position : Nat) {c : Char} (hblank : isBlank c = false)
    (cs : List Char) :
    ∃ ts, tokensFrom position 0 (c :: cs) = ⟨(tokenAt position (c :: cs)).1, position⟩ :: ts := by
  rw [tokensFrom, hblank, if_neg Bool.false_ne_true]
  split
  · next heq => exact ⟨_, by rw [heq]⟩
  · next heq => exact ⟨_, by rw [heq]⟩

theorem tokensFrom_token (position : Nat) {c : Char} {cs : List Char} (hblank : isBlank c = false)
    (hwhole : ∀ cause place, (tokenAt position (c :: cs)).1 ≠ .brokenString cause place) :
    tokensFrom position 0 (c :: cs) = ⟨(tokenAt position (c :: cs)).1, position⟩
      :: tokensFrom (position + 1) ((tokenAt position (c :: cs)).2 - 1) cs := by
  rw [tokensFrom, hblank, if_neg Bool.false_ne_true]
  split
  · next heq =>
    rw [heq] at hwhole
    exact absurd rfl (hwhole _ _)
  · next heq =>
    rw [heq]

/-- A token that is not a broken string is one step of the reader. -/
theorem readOn_token (position : Nat) (s : State) {c : Char} {cs rest : List Char} {t : Token}
    (hblank : isBlank c = false) (hbroken : ∀ cause place, t ≠ .brokenString cause place)
    (ht : tokenAt position (c :: cs ++ rest) = (t, (c :: cs).length)) :
    readOn revive position s (c :: cs ++ rest) = (do
      let s ← step revive s ⟨t, position⟩
      readOn revive (position + (c :: cs).length) s rest) := by
  have htokens : tokensFrom position 0 (c :: cs ++ rest)
      = ⟨t, position⟩ :: tokensFrom (position + (c :: cs).length) 0 rest := by
    have hskip := tokensFrom_skip (position + 1) cs rest
    rw [List.cons_append] at ht ⊢
    rw [tokensFrom_token position hblank (by rw [ht]; exact hbroken), ht, List.length_cons,
      Nat.add_sub_cancel, hskip,
      show position + (cs.length + 1) = position + 1 + cs.length by omega]
  rw [readOn, htokens, List.foldlM_cons]
  rfl

theorem readOn_quote (position : Nat) (s : State) (name : String) (rest : List Char) :
    readOn revive position s (quote name ++ rest) = (do
      let s ← step revive s ⟨.string name, position⟩
      readOn revive (position + (quote name).length) s rest) :=
  @readOn_token _ revive position s '"' (name.toList.flatMap escape ++ ['"']) rest _ rfl
    (fun _ _ h => by cases h) (tokenAt_quote position name rest)

theorem readOn_mark (position : Nat) (s : State) {c : Char} {t : Token}
    (hblank : isBlank c = false) (hbroken : ∀ cause place, t ≠ .brokenString cause place)
    (rest : List Char) (ht : tokenAt position (c :: rest) = (t, 1)) :
    readOn revive position s (c :: rest) = (do
      let s ← step revive s ⟨t, position⟩
      readOn revive (position + 1) s rest) :=
  @readOn_token _ revive position s c [] rest t hblank hbroken ht

/-! ## Texts that read as values -/

/-- What may follow a number without becoming part of it. -/
def EndsNumber (rest : List Char) : Prop :=
  ∀ c ∈ rest.head?, c.isDigit = false ∧ c ≠ '.' ∧ c ≠ 'e' ∧ c ≠ 'E'

/-- What reading a text comes to wherever a value is due: a value, or the error of an object in it
that is not revived. -/
def Yields (cs : List Char) (result : Except ε Value) : Prop :=
  ∀ position stack rest, EndsNumber rest →
    readOn revive position (.value stack) (cs ++ rest) = (do
      let v ← result.mapError Stop.revived
      readOn revive (position + cs.length) (deliver v stack) rest)

/-- A text is read as a value wherever a value is due. -/
def Reads (cs : List Char) (v : Value) : Prop :=
  ∀ position stack rest, EndsNumber rest →
    readOn revive position (.value stack) (cs ++ rest)
      = readOn revive (position + cs.length) (deliver v stack) rest

theorem yields_ok_iff {cs : List Char} {v : Value} :
    Yields revive cs (.ok v) ↔ Reads revive cs v := Iff.rfl

theorem reads_quote (s : String) : Reads revive (quote s) (.str s) := by
  intro position stack rest _
  rw [readOn_quote]
  rfl

/-- A whole text comes to what it comes to anywhere. -/
theorem read_of_yields {cs : List Char} {result : Except ε Value} (h : Yields revive cs result)
    (hmark : cs.head? ≠ some '\ufeff') : read revive cs = result.mapError ReadFault.revived := by
  have hread := h 0 [] [] (by simp [EndsNumber])
  rw [List.append_nil] at hread
  have hfold : (tokens cs).foldlM (step revive) (.value []) = (do
      let v ← result.mapError Stop.revived
      readOn revive (0 + cs.length) (deliver v []) []) := hread
  rw [read]
  simp only [if_neg hmark, hfold]
  cases result <;> rfl

/-- A text that reads as a value is a document of that value. -/
theorem read_of_reads {cs : List Char} {v : Value} (h : Reads revive cs v)
    (hmark : cs.head? ≠ some '\ufeff') : read revive cs = .ok v :=
  read_of_yields revive ((yields_ok_iff revive).mpr h) hmark

/-! ## Objects -/

end

/-- A member of an object that is read: its name, the text of its value, and what that comes to. -/
structure Attempt (ε : Type) where
  name : String
  text : List Char
  result : Except ε Value

namespace Attempt

variable {ε : Type}

def part (a : Attempt ε) : List Char := quote a.name ++ ':' :: ' ' :: a.text

/-- The pairs of an object, the first of them read before.  The first error is the last word. -/
def collect (done : Entries) : List (Attempt ε) → Except ε Entries
  | [] => .ok done
  | a :: rest =>
    match a.result with
    | .ok v => collect (done.insert (.str a.name) v) rest
    | .error e => .error e

/-- What an object with these members comes to. -/
def outcome (revive : Entries → Except ε Value) (attempts : List (Attempt ε)) : Except ε Value :=
  match collect [] attempts with
  | .ok es => revive es
  | .error e => .error e

end Attempt

/-- A member of an object: its name, the text of its value, and the value. -/
structure Member where
  name : String
  text : List Char
  value : Value

namespace Member

def part (m : Member) : List Char := quote m.name ++ ':' :: ' ' :: m.text

def pair (m : Member) : Value × Value := (.str m.name, m.value)

def attempt {ε : Type} (m : Member) : Attempt ε :=
  { name := m.name, text := m.text, result := .ok m.value }

theorem collect_attempt {ε : Type} (done : Entries) (ms : List Member) :
    @Attempt.collect ε done (ms.map attempt)
      = .ok (ms.foldl (fun (es : Entries) m => es.insert (.str m.name) m.value) done) := by
  induction ms generalizing done with
  | nil => rfl
  | cons m ms ih => exact ih _

end Member

section

variable {ε : Type} (revive : Entries → Except ε Value)

theorem readOn_attempt (position : Nat) (done : Entries) (stack : List Frame) {a : Attempt ε}
    (ha : Yields revive a.text a.result) {rest : List Char} (hrest : EndsNumber rest) :
    readOn revive position (.name done stack) (a.part ++ rest) = (do
      let v ← a.result.mapError Stop.revived
      readOn revive (position + a.part.length)
        (.afterMember (done.insert (.str a.name) v) stack) rest) := by
  have hlength : a.part.length = (quote a.name).length + 1 + 1 + a.text.length := by
    simp only [Attempt.part, List.length_append, List.length_cons]
    omega
  rw [Attempt.part, List.append_assoc, readOn_quote]
  show readOn revive _ (.colon done a.name stack) (':' :: (' ' :: a.text ++ rest)) = _
  rw [readOn_mark revive _ _ rfl (fun _ _ h => by cases h) _ rfl]
  show readOn revive _ (.value (.member done a.name :: stack)) (' ' :: (a.text ++ rest)) = _
  rw [readOn_blank revive _ _ rfl, ha _ _ _ hrest, ← Attempt.part, hlength]
  simp only [deliver, Nat.add_assoc]

theorem readOn_attempts (position : Nat) (done : Entries) (stack : List Frame)
    {attempts : List (Attempt ε)} (hne : attempts ≠ [])
    (hall : ∀ a ∈ attempts, Yields revive a.text a.result) (rest : List Char) :
    readOn revive position (.name done stack)
        ([',', ' '].intercalate (attempts.map Attempt.part) ++ '\x7d' :: rest) = (do
      let es ← (Attempt.collect done attempts).mapError Stop.revived
      let s ← close revive es stack
      readOn revive
        (position + ([',', ' '].intercalate (attempts.map Attempt.part)).length + 1) s rest) := by
  induction attempts generalizing position done with
  | nil => exact absurd rfl hne
  | cons a attempts ih =>
    have ha := hall a List.mem_cons_self
    -- A comma follows each member but the last, which the brace follows.
    cases attempts with
    | nil =>
      have hparts : [',', ' '].intercalate (List.map Attempt.part [a]) = a.part := by
        simp [List.intercalate]
      rw [hparts, readOn_attempt revive position done stack ha (by simp [EndsNumber]),
        Attempt.collect]
      cases a.result with
      | error e => rfl
      | ok v =>
        show readOn revive _ (.afterMember (done.insert (.str a.name) v) stack) ('\x7d' :: rest) = _
        rw [readOn_mark revive _ _ rfl (fun _ _ h => by cases h) _ rfl]
        rfl
    | cons next attempts =>
      have hparts : [',', ' '].intercalate (List.map Attempt.part (a :: next :: attempts))
          = a.part
            ++ ',' :: ' ' :: [',', ' '].intercalate (List.map Attempt.part (next :: attempts)) := by
        simp [List.intercalate]
      rw [hparts, List.append_assoc,
        readOn_attempt revive position done stack ha (by simp [EndsNumber]), Attempt.collect]
      cases a.result with
      | error e => rfl
      | ok v =>
        show readOn revive _ (.afterMember (done.insert (.str a.name) v) stack)
          (',' :: ' ' :: ([',', ' '].intercalate _ ++ _)) = _
        rw [readOn_mark revive _ _ rfl (fun _ _ h => by cases h) _ rfl]
        show readOn revive _ (.name _ stack) (' ' :: ([',', ' '].intercalate _ ++ _)) = _
        rw [readOn_blank revive _ _ rfl,
          ih _ _ (by simp) fun a' ha' => hall a' (List.mem_cons_of_mem a ha')]
        simp only [List.length_append, List.length_cons, Nat.add_assoc, Nat.add_comm,
          Nat.add_left_comm]

/-- An object comes to what its dictionary is revived to, unless one of its members fails. -/
theorem yields_object {attempts : List (Attempt ε)}
    (hall : ∀ a ∈ attempts, Yields revive a.text a.result) :
    Yields revive (enclose none '\x7b' '\x7d' (attempts.map Attempt.part))
      (Attempt.outcome revive attempts) := by
  intro position stack rest _
  cases attempts with
  | nil =>
    show readOn revive position _ ('\x7b' :: '\x7d' :: rest) = _
    rw [readOn_mark revive _ _ rfl (fun _ _ h => by cases h) _ rfl]
    show readOn revive _ (.firstName stack) ('\x7d' :: rest) = _
    rw [readOn_mark revive _ _ rfl (fun _ _ h => by cases h) _ rfl]
    have hnone : Attempt.outcome revive ([] : List (Attempt ε)) = revive [] := rfl
    show (do let s ← close revive [] stack; readOn revive _ s rest) = _
    rw [close, hnone]
    cases revive [] <;> rfl
  | cons a attempts =>
    have htext : enclose none '\x7b' '\x7d' (List.map Attempt.part (a :: attempts)) ++ rest
        = '\x7b' ::
          ([',', ' '].intercalate (List.map Attempt.part (a :: attempts)) ++ '\x7d' :: rest) := by
      simp [enclose]
    have hlength : (enclose none '\x7b' '\x7d' (List.map Attempt.part (a :: attempts))).length
        = 1 + ([',', ' '].intercalate (List.map Attempt.part (a :: attempts))).length + 1 := by
      simp [enclose]
      omega
    -- After the opening brace a name is taken just as it is after a comma.
    have hfirst : ∀ position, readOn revive position (.firstName stack)
          ([',', ' '].intercalate (List.map Attempt.part (a :: attempts)) ++ '\x7d' :: rest)
        = readOn revive position (.name [] stack)
          ([',', ' '].intercalate (List.map Attempt.part (a :: attempts)) ++ '\x7d' :: rest) := by
      intro position
      obtain ⟨tail, htail⟩ : ∃ tail, [',', ' '].intercalate (List.map Attempt.part (a :: attempts))
          = quote a.name ++ tail := by
        cases attempts <;> simp [List.intercalate, Attempt.part]
      rw [htail, List.append_assoc, readOn_quote, readOn_quote]
      rfl
    rw [htext, readOn_mark revive _ _ rfl (fun _ _ h => by cases h) _ rfl]
    show readOn revive _ (.firstName stack) _ = _
    rw [hfirst, readOn_attempts revive _ _ _ (by simp) hall, hlength, Attempt.outcome]
    cases Attempt.collect [] (a :: attempts) with
    | error e => rfl
    | ok es =>
      show (do let s ← close revive es stack; readOn revive _ s rest) = _
      simp only [close, Nat.add_assoc]
      cases revive es <;> rfl

/-- An object reads as what its dictionary is revived to, when each member reads as its value. -/
theorem reads_object {ms : List Member} (hms : ∀ m ∈ ms, Reads revive m.text m.value) {v : Value}
    (hv : revive (Entries.ofList (ms.map Member.pair)) = .ok v) :
    Reads revive (enclose none '\x7b' '\x7d' (ms.map Member.part)) v := by
  have hcomes : Attempt.outcome revive (ms.map Member.attempt) = .ok v := by
    rw [Attempt.outcome, Member.collect_attempt, ← hv, Entries.ofList, List.foldl_map]
    rfl
  have hattempts : ∀ a ∈ ms.map Member.attempt, Yields revive a.text a.result := by
    intro a ha
    obtain ⟨m, hm, rfl⟩ := List.mem_map.mp ha
    exact (yields_ok_iff revive).mpr (hms m hm)
  have hobject := yields_object revive hattempts
  rw [hcomes, List.map_map] at hobject
  exact (yields_ok_iff revive).mp hobject

end

/-! ## Whole numbers -/

theorem ne_of_isDigit {c other : Char} (hc : c.isDigit = true) (hother : other.isDigit = false) :
    c ≠ other := by
  rintro rfl
  rw [hc] at hother
  exact absurd hother (by decide)

theorem isBlank_of_isDigit {c : Char} (hc : c.isDigit = true) : isBlank c = false := by
  simp only [isBlank, Bool.or_eq_false_iff, beq_eq_false_iff_ne]
  exact ⟨⟨⟨ne_of_isDigit hc rfl, ne_of_isDigit hc rfl⟩, ne_of_isDigit hc rfl⟩,
    ne_of_isDigit hc rfl⟩

theorem isDigit_toDigits (n : Nat) : ∀ d ∈ Nat.toDigits 10 n, d.isDigit = true :=
  fun _ hd => Nat.isDigit_of_mem_toDigits (by decide) (by decide) hd

theorem toDigits_eq_cons (n : Nat) :
    ∃ d ds, Nat.toDigits 10 n = d :: ds ∧ d.isDigit = true := by
  cases h : Nat.toDigits 10 n with
  | nil => exact absurd h Nat.toDigits_ne_nil
  | cons d ds => exact ⟨d, ds, rfl, isDigit_toDigits n d (h ▸ List.mem_cons_self)⟩

theorem head?_toDigits_ne_zero (n : Nat) (h : 0 < n) : (Nat.toDigits 10 n).head? ≠ some '0' := by
  induction n using Nat.strongRecOn with
  | ind n ih =>
    rw [Nat.toDigits_eq_if (by decide)]
    split
    · next hn =>
      have : ∀ d < 10, 0 < d → [d.digitChar].head? ≠ some '0' := by decide
      exact this n hn h
    · next hn =>
      have hhead := ih (n / 10) (by omega) (by omega)
      obtain ⟨d, ds, hds, -⟩ := toDigits_eq_cons (n / 10)
      rw [hds] at hhead ⊢
      simpa using hhead

/-- Behind these characters digits do not go on. -/
def EndsDigits (rest : List Char) : Prop := ∀ c ∈ rest.head?, c.isDigit = false

theorem EndsNumber.endsDigits {rest : List Char} (h : EndsNumber rest) : EndsDigits rest :=
  fun c hc => (h c hc).1

theorem takeWhile_isDigit_append {ds rest : List Char} (hds : ∀ d ∈ ds, d.isDigit = true)
    (hrest : EndsDigits rest) : (ds ++ rest).takeWhile Char.isDigit = ds := by
  rw [List.takeWhile_append_of_pos hds]
  cases rest with
  | nil => simp
  | cons c rest =>
    have hc := hrest c (by simp)
    simp [hc]

/-- Digits as they stand before a point: a lone zero, or digits of which the first is not zero. -/
def IsWhole (ds : List Char) : Prop :=
  ds = ['0'] ∨ ((∀ d ∈ ds, d.isDigit = true) ∧ ds ≠ [] ∧ ds.head? ≠ some '0')

theorem isWhole_toDigits (n : Nat) : IsWhole (Nat.toDigits 10 n) := by
  rcases Nat.eq_zero_or_pos n with rfl | hn
  · exact .inl rfl
  · exact .inr ⟨isDigit_toDigits n, Nat.toDigits_ne_nil, head?_toDigits_ne_zero n hn⟩

theorem wholeDigits_append {ds rest : List Char} (hds : IsWhole ds) (hrest : EndsDigits rest) :
    wholeDigits (ds ++ rest) = ds := by
  rcases hds with rfl | ⟨hdigits, hne, hhead⟩
  · rfl
  · cases ds with
    | nil => exact absurd rfl hne
    | cons d ds =>
      rw [List.cons_append, wholeDigits, ← List.cons_append, takeWhile_isDigit_append hdigits hrest]
      intro _ h
      simp only [List.cons.injEq] at h
      exact hhead (by rw [h.1]; rfl)

theorem fractionDigits_of_endsNumber {rest : List Char} (h : EndsNumber rest) :
    fractionDigits rest = [] := by
  unfold fractionDigits
  split
  · exact absurd rfl (h '.' (by simp)).2.1
  · rfl

theorem power?_of_endsNumber {rest : List Char} (h : EndsNumber rest) : power? rest = none := by
  cases rest with
  | nil => rfl
  | cons c rest =>
    obtain ⟨-, -, he, hE⟩ := h c (by simp)
    rw [power?, if_neg (by simp [he, hE])]

/-- Digits that are not too many, with a sign or without, are a whole number. -/
theorem number?_integer {n : Int} (hn : (Nat.toDigits 10 n.natAbs).length ≤ digitLimit)
    {rest : List Char} (hrest : EndsNumber rest) :
    number? (integer n ++ rest) = some (.scalar (.int n), (integer n).length) := by
  obtain ⟨d, ds, hds, hd⟩ := toDigits_eq_cons n.natAbs
  have hne : (Nat.toDigits 10 n.natAbs).isEmpty = false := by rw [hds]; rfl
  have hwhole := wholeDigits_append (isWhole_toDigits n.natAbs) hrest.endsDigits
  have hfraction := fractionDigits_of_endsNumber hrest
  have hpower := power?_of_endsNumber hrest
  by_cases hneg : n < 0
  · have hvalue : -(n.natAbs : Int) = n := by omega
    rw [integer, if_pos hneg, number?]
    simp only [List.cons_append, List.head?_cons, BEq.rfl, if_true, List.drop_succ_cons,
      List.drop_zero, hwhole, hne, Bool.false_eq_true, if_false, List.drop_left, hfraction,
      List.isEmpty_nil, Nat.add_zero]
    rw [Nat.add_comm 1, List.drop_succ_cons, List.drop_left, hpower, if_pos ⟨trivial, rfl⟩,
      if_neg (by omega), Nat.ofDigitChars_ten_toDigits, hvalue, List.length_cons]
  · have hvalue : (n.natAbs : Int) = n := by omega
    have hhead : ((Nat.toDigits 10 n.natAbs ++ rest).head? == some '-') = false := by
      have : d ≠ '-' := by
        rintro rfl
        exact absurd hd (by decide)
      rw [hds]
      simpa using this
    rw [integer, if_neg hneg, number?]
    simp only [hhead, Bool.false_eq_true, if_false, hwhole, hne, List.drop_left, hfraction,
      List.isEmpty_nil, if_true, Nat.add_zero, Nat.zero_add, hpower]
    rw [if_pos ⟨trivial, trivial⟩, if_neg (by omega), Nat.ofDigitChars_ten_toDigits, hvalue]

/-- A number with a minus sign or without. -/
def signed (negative : Bool) (cs : List Char) : List Char := if negative then '-' :: cs else cs

theorem integer_eq_signed (n : Int) :
    integer n = signed (decide (n < 0)) (Nat.toDigits 10 n.natAbs) := by
  by_cases h : n < 0 <;> simp [integer, signed, h]

/-- What starts with a digit, but for a sign, is read as a number. -/
theorem tokenAt_number (position : Nat) {negative : Bool} {d : Char} (hd : d.isDigit = true)
    {cs : List Char} {found : Token × Nat}
    (hnumber : number? (signed negative (d :: cs)) = some found) :
    tokenAt position (signed negative (d :: cs)) = found := by
  have hother : ∀ c : Char, c.isDigit = false → c ≠ d := fun _ hc => (ne_of_isDigit hd hc).symm
  have hnames : names.find? (fun name => name.1.isPrefixOf (signed negative (d :: cs))) = none := by
    cases negative <;>
      simp [signed, names, List.isPrefixOf, hother 'n' rfl, hother 't' rfl, hother 'f' rfl,
        hother 'N' rfl, hother 'I' rfl, hother '-' rfl]
  obtain ⟨c, rest, hcs, hc⟩ : ∃ c rest, signed negative (d :: cs) = c :: rest ∧
      (c = '-' ∨ c = d) := by
    cases negative
    · exact ⟨d, _, rfl, .inr rfl⟩
    · exact ⟨'-', _, rfl, .inl rfl⟩
  have hmark : ∀ m : Char, m.isDigit = false → m ≠ '-' → c ≠ m := by
    intro m hm hminus
    rcases hc with rfl | rfl
    · exact Ne.symm hminus
    · exact ne_of_isDigit hd hm
  rw [hcs] at hnames hnumber ⊢
  rw [tokenAt, hnames, hnumber]
  · rfl
  all_goals
    intro _ h
    simp only [List.cons.injEq] at h
    exact hmark _ rfl (by decide) h.1

theorem isBlank_signed {negative : Bool} {d : Char} (hd : d.isDigit = true) (cs : List Char) :
    ∃ c rest, signed negative (d :: cs) = c :: rest ∧ isBlank c = false := by
  cases negative with
  | true => exact ⟨'-', _, rfl, rfl⟩
  | false => exact ⟨d, cs, rfl, isBlank_of_isDigit hd⟩

/-- A text that is a number whatever follows it is read as that number. -/
theorem reads_number {ε : Type} (revive : Entries → Except ε Value) {negative : Bool} {d : Char}
    (hd : d.isDigit = true) {cs : List Char} {v : Value}
    (h : ∀ rest, EndsNumber rest → number? (signed negative (d :: cs) ++ rest)
      = some (.scalar v, (signed negative (d :: cs)).length)) :
    Reads revive (signed negative (d :: cs)) v := by
  intro position stack rest hrest
  have happend : signed negative (d :: cs) ++ rest = signed negative (d :: (cs ++ rest)) := by
    cases negative <;> rfl
  have hnumber := h rest hrest
  rw [happend] at hnumber
  have htoken := tokenAt_number position hd hnumber
  rw [← happend] at htoken
  obtain ⟨c, text, hcs, hc⟩ := isBlank_signed hd cs
  rw [hcs] at htoken ⊢
  rw [readOn_token revive position _ hc (fun _ _ h => by cases h) htoken]
  rfl

theorem reads_integer {ε : Type} (revive : Entries → Except ε Value) {n : Int}
    (hn : (Nat.toDigits 10 n.natAbs).length ≤ digitLimit) :
    Reads revive (integer n) (.int n) := by
  obtain ⟨d, ds, hds, hd⟩ := toDigits_eq_cons n.natAbs
  have htext : integer n = signed (decide (n < 0)) (d :: ds) := by rw [integer_eq_signed, hds]
  rw [htext]
  apply reads_number revive hd
  intro rest hrest
  rw [← htext]
  exact number?_integer hn hrest

/-! ## Writing -/

theorem wholeNumber_eq_ok {n : Int} {text : List Char} (h : wholeNumber n = .ok text) :
    (Nat.toDigits 10 n.natAbs).length ≤ digitLimit ∧ text = integer n := by
  unfold wholeNumber at h
  split at h
  · cases h
  · next hdigits =>
    cases h
    exact ⟨Nat.not_lt.mp hdigits, rfl⟩

theorem wholeNumber_of_le {n : Int} (hn : (Nat.toDigits 10 n.natAbs).length ≤ digitLimit) :
    wholeNumber n = .ok (integer n) :=
  if_neg (Nat.not_lt.mpr hn)

theorem writeEntries_members (foreign : Value → Except WriteFault (List Char))
    {ms : List Member} (hms : ∀ m ∈ ms, write foreign none m.value = .ok m.text) :
    writeEntries foreign none (ms.map Member.pair) = .ok (ms.map Member.part) := by
  induction ms with
  | nil => rfl
  | cons m ms ih =>
    have hm := hms m List.mem_cons_self
    rw [List.map_cons, Member.pair, writeEntries, hm,
      ih fun m' hm' => hms m' (List.mem_cons_of_mem m hm')]
    rfl

/-- An object with texts as names is written member by member, on one line. -/
theorem text_members {ms : List Member}
    (hms : ∀ m ∈ ms,
      write (fun v => .error (.notSerializable v.className)) none m.value = .ok m.text) :
    text (.dict (ms.map Member.pair)) = .ok (enclose none '\x7b' '\x7d' (ms.map Member.part)) := by
  rw [text, write, deeper, Option.map_none, writeEntries_members _ hms]
  rfl

/-- An object that is read plainly gives back the dictionary that was written. -/
theorem readPlain_members {ms : List Member}
    (hms : ∀ m ∈ ms, @Reads Empty (fun es => .ok (.dict es)) m.text m.value) :
    readPlain (enclose none '\x7b' '\x7d' (ms.map Member.part))
      = .ok (.dict (Entries.ofList (ms.map Member.pair))) := by
  refine read_of_reads _ (reads_object _ hms rfl) ?_
  cases ms with
  | nil => decide
  | cons m ms => simp [enclose]

theorem isVisible_integer (n : Int) : Text.IsVisible (integer n) := by
  have hdigits : Text.IsVisible (Nat.toDigits 10 n.natAbs) := by
    intro d hd
    have hd : d.isDigit = true := isDigit_toDigits _ d hd
    have hlow : 48 ≤ d.toNat ∧ d.toNat ≤ 57 := by
      simpa [Char.isDigit, UInt32.le_iff_toNat_le] using hd
    simp only [Text.isVisible, Bool.and_eq_true, decide_eq_true_eq]
    omega
  unfold integer
  split
  · exact Text.isVisible_cons.mpr ⟨rfl, hdigits⟩
  · exact hdigits

theorem isVisible_enclose {left right : Char} (hl : Text.isVisible left = true)
    (hr : Text.isVisible right = true) {parts : List (List Char)}
    (hparts : ∀ part ∈ parts, Text.IsVisible part) :
    Text.IsVisible (enclose none left right parts) := by
  have hjoined : Text.IsVisible ([',', ' '].intercalate parts) := by
    induction parts with
    | nil => exact Text.isVisible_nil
    | cons part parts ih =>
      have hrest := ih fun p hp => hparts p (List.mem_cons_of_mem part hp)
      have hpart := hparts part List.mem_cons_self
      cases parts with
      | nil => simpa [List.intercalate] using hpart
      | cons next parts =>
        have : [',', ' '].intercalate (part :: next :: parts)
            = part ++ ([',', ' '] ++ [',', ' '].intercalate (next :: parts)) := by
          simp [List.intercalate]
        rw [this]
        exact Text.isVisible_append.mpr ⟨hpart, Text.isVisible_cons.mpr
          ⟨rfl, Text.isVisible_cons.mpr ⟨rfl, hrest⟩⟩⟩
  have hright : Text.IsVisible [right] := Text.isVisible_cons.mpr ⟨hr, Text.isVisible_nil⟩
  cases parts with
  | nil => exact Text.isVisible_cons.mpr ⟨hl, hright⟩
  | cons part parts =>
    exact Text.isVisible_cons.mpr ⟨hl, Text.isVisible_append.mpr ⟨hjoined, hright⟩⟩

theorem isVisible_members {ms : List Member} (hms : ∀ m ∈ ms, Text.IsVisible m.text) :
    Text.IsVisible (enclose none '\x7b' '\x7d' (ms.map Member.part)) := by
  refine isVisible_enclose rfl rfl fun part hpart => ?_
  obtain ⟨m, hm, rfl⟩ := List.mem_map.mp hpart
  refine Text.isVisible_append.mpr ⟨isVisible_quote m.name, ?_⟩
  exact Text.isVisible_cons.mpr ⟨rfl, Text.isVisible_cons.mpr ⟨rfl, hms m hm⟩⟩

end Json
end SchemaStore
