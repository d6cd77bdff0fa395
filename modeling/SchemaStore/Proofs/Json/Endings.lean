import SchemaStore.Proofs.Json.Objects
import SchemaStore.Proofs.Sequencing

/-!
Where tokens end.  A brace stands by itself: no number and no name goes on with one, and a string
that has its closing mark is read up to the mark.  So a brace behind a text leaves the tokens of the
text alone, as long as no string in it is broken off, and the reader comes to the brace in the state
in which it left the text.  In particular a text that is a value is none any more when an object
follows it.
-/

namespace SchemaStore
namespace Json

/-- A brace of either kind. -/
def IsBrace (c : Char) : Prop := c = '\x7b' ∨ c = '\x7d'

section

variable {b : Char}

theorem IsBrace.isDigit (h : IsBrace b) : b.isDigit = false := by
  rcases h with rfl | rfl <;> rfl

theorem IsBrace.isBlank (h : IsBrace b) : isBlank b = false := by
  rcases h with rfl | rfl <;> rfl

/-! ## Numbers -/

theorem takeWhile_isDigit_brace (hb : IsBrace b) (cs more : List Char) :
    (cs ++ b :: more).takeWhile Char.isDigit = cs.takeWhile Char.isDigit := by
  have hdigit : ¬b.isDigit = true := Bool.eq_false_iff.mp hb.isDigit
  rw [List.takeWhile_append, List.takeWhile_cons_of_neg hdigit, List.append_nil]
  split
  · next h =>
    exact ((List.takeWhile_prefix Char.isDigit).eq_of_length h).symm
  · rfl

theorem wholeDigits_brace (hb : IsBrace b) (cs more : List Char) :
    wholeDigits (cs ++ b :: more) = wholeDigits cs := by
  cases cs with
  | nil => rcases hb with rfl | rfl <;> rfl
  | cons c cs =>
    by_cases hc : c = '0'
    · rw [hc]
      rfl
    · have hwhole : ∀ rest, wholeDigits (c :: rest) = (c :: rest).takeWhile Char.isDigit := by
        intro rest
        rw [wholeDigits]
        intro _ h
        exact hc (List.cons.inj h).1
      rw [List.cons_append, hwhole, hwhole, ← List.cons_append, takeWhile_isDigit_brace hb]

theorem fractionDigits_brace (hb : IsBrace b) (cs more : List Char) :
    fractionDigits (cs ++ b :: more) = fractionDigits cs := by
  cases cs with
  | nil => rcases hb with rfl | rfl <;> rfl
  | cons c cs =>
    by_cases hc : c = '.'
    · rw [hc, List.cons_append, fractionDigits, fractionDigits, takeWhile_isDigit_brace hb]
    · have hnone : ∀ rest, fractionDigits (c :: rest) = [] := by
        intro rest
        rw [fractionDigits]
        intro _ h
        exact hc (List.cons.inj h).1
      rw [List.cons_append, hnone, hnone]

theorem readSign_brace (hb : IsBrace b) (cs more : List Char) :
    Numeral.readSign (cs ++ b :: more)
      = ((Numeral.readSign cs).1, (Numeral.readSign cs).2 ++ b :: more) := by
  cases cs with
  | nil => rcases hb with rfl | rfl <;> rfl
  | cons c cs =>
    by_cases hminus : c = '-'
    · rw [hminus]
      rfl
    by_cases hplus : c = '+'
    · rw [hplus]
      rfl
    · have hnone : ∀ rest, Numeral.readSign (c :: rest) = (false, c :: rest) := by
        intro rest
        rw [Numeral.readSign]
        · exact fun _ h => hminus (List.cons.inj h).1
        · exact fun _ h => hplus (List.cons.inj h).1
      rw [List.cons_append, hnone, hnone, List.cons_append]

theorem power?_brace (hb : IsBrace b) (cs more : List Char) :
    power? (cs ++ b :: more) = power? cs := by
  cases cs with
  | nil => rcases hb with rfl | rfl <;> rfl
  | cons c cs =>
    have hle : (Numeral.readSign cs).2.length ≤ cs.length := by
      unfold Numeral.readSign
      split <;> simp
    have hsigns : (cs ++ b :: more).length - ((Numeral.readSign cs).2 ++ b :: more).length
        = cs.length - (Numeral.readSign cs).2.length := by
      simp only [List.length_append, List.length_cons]
      omega
    rw [List.cons_append, power?, power?, readSign_brace hb]
    simp only [takeWhile_isDigit_brace hb, hsigns]

end

/-- What stands behind the sign of a number. -/
def unsignedPart (cs : List Char) : List Char :=
  if cs.head? == some '-' then cs.drop 1 else cs

def wholePart (cs : List Char) : List Char := wholeDigits (unsignedPart cs)

def fractionPart (cs : List Char) : List Char :=
  fractionDigits ((unsignedPart cs).drop (wholePart cs).length)

/-- How many characters a number takes before a power of ten. -/
def widthBeforePower (cs : List Char) : Nat :=
  (if cs.head? == some '-' then 1 else 0) + (wholePart cs).length
    + (if (fractionPart cs).isEmpty then 0 else (fractionPart cs).length + 1)

def powerPart (cs : List Char) : Option (Nat × Int) := power? (cs.drop (widthBeforePower cs))

/-- The token that the parts of a number make, and its width. -/
def ofParts (negative : Bool) (whole fraction : List Char) (before : Nat)
    (power : Option (Nat × Int)) : Option (Token × Nat) :=
  if whole.isEmpty then none
  else if fraction.isEmpty ∧ power = none then
    if digitLimit < whole.length then some (.longInteger whole.length, before)
    else
      let n : Int := Nat.ofDigitChars 10 whole 0
      some (.scalar (.int (if negative then -n else n)), before)
  else
    let x := Binary64.ofDecimal negative (Nat.ofDigitChars 10 (whole ++ fraction) 0)
      ((power.getD (0, 0)).2 - fraction.length)
    some (.scalar (.float x), before + (power.getD (0, 0)).1)

theorem number?_eq (cs : List Char) :
    number? cs = ofParts (cs.head? == some '-') (wholePart cs) (fractionPart cs)
      (widthBeforePower cs) (powerPart cs) := rfl

theorem length_wholeDigits_le (cs : List Char) : (wholeDigits cs).length ≤ cs.length := by
  unfold wholeDigits
  split
  · simp
  · exact (List.takeWhile_prefix _).length_le

theorem length_fractionDigits_le (cs : List Char) :
    (if (fractionDigits cs).isEmpty then 0 else (fractionDigits cs).length + 1) ≤ cs.length := by
  unfold fractionDigits
  split
  · next rest =>
    have hle := (List.takeWhile_prefix (l := rest) Char.isDigit).length_le
    rw [List.length_cons]
    split <;> omega
  · exact Nat.zero_le _

theorem length_readSign_le (cs : List Char) : (Numeral.readSign cs).2.length ≤ cs.length := by
  unfold Numeral.readSign
  split <;> simp

theorem widthBeforePower_le (cs : List Char) : widthBeforePower cs ≤ cs.length := by
  have hwhole := length_wholeDigits_le (unsignedPart cs)
  have hfraction := length_fractionDigits_le ((unsignedPart cs).drop (wholePart cs).length)
  have hbody : (if cs.head? == some '-' then 1 else 0) + (unsignedPart cs).length = cs.length := by
    unfold unsignedPart
    cases cs with
    | nil => rfl
    | cons c cs =>
      split
      · simp [Nat.add_comm]
      · simp
  rw [List.length_drop, ← fractionPart] at hfraction
  rw [widthBeforePower]
  rw [← wholePart] at hwhole
  omega

theorem width_power?_le {cs : List Char} {found : Nat × Int} (h : power? cs = some found) :
    found.1 ≤ cs.length := by
  cases cs with
  | nil => cases h
  | cons c cs =>
    have hsign := length_readSign_le cs
    have hdigits := (List.takeWhile_prefix (l := (Numeral.readSign cs).2) Char.isDigit).length_le
    simp only [power?, Option.ite_none_right_eq_some, Option.ite_none_left_eq_some,
      Option.some.injEq] at h
    obtain ⟨-, -, rfl⟩ := h
    rw [List.length_cons]
    dsimp only
    omega

/-- Every part of a number lies within the text. -/
theorem width_number?_le {cs : List Char} {found : Token × Nat} (h : number? cs = some found) :
    found.2 ≤ cs.length := by
  have hbefore := widthBeforePower_le cs
  have hpower : widthBeforePower cs + ((powerPart cs).getD (0, 0)).1 ≤ cs.length := by
    cases hfound : powerPart cs with
    | none => exact hbefore
    | some found =>
      have hle := width_power?_le hfound
      rw [List.length_drop] at hle
      simp only [Option.getD_some]
      omega
  rw [number?_eq, ofParts] at h
  split at h
  · cases h
  · split at h
    · split at h
      · obtain rfl := Option.some.inj h
        exact hbefore
      · obtain rfl := Option.some.inj h
        exact hbefore
    · obtain rfl := Option.some.inj h
      exact hpower

/-- A number does not go on with a brace. -/
theorem number?_brace {b : Char} (hb : IsBrace b) (c : Char) (cs more : List Char) :
    number? (c :: cs ++ b :: more) = number? (c :: cs) := by
  have hhead : (c :: cs ++ b :: more).head? = (c :: cs).head? := rfl
  have hbody : unsignedPart (c :: cs ++ b :: more) = unsignedPart (c :: cs) ++ b :: more := by
    rw [unsignedPart, unsignedPart, hhead]
    split <;> rfl
  have hwhole : wholePart (c :: cs ++ b :: more) = wholePart (c :: cs) := by
    rw [wholePart, hbody, wholeDigits_brace hb, ← wholePart]
  have hfraction : fractionPart (c :: cs ++ b :: more) = fractionPart (c :: cs) := by
    have hle : (wholePart (c :: cs)).length ≤ (unsignedPart (c :: cs)).length :=
      length_wholeDigits_le _
    rw [fractionPart, hbody, hwhole, List.drop_append_of_le_length hle, fractionDigits_brace hb,
      ← fractionPart]
  have hbefore : widthBeforePower (c :: cs ++ b :: more) = widthBeforePower (c :: cs) := by
    rw [widthBeforePower, hhead, hwhole, hfraction, ← widthBeforePower]
  have hpower : powerPart (c :: cs ++ b :: more) = powerPart (c :: cs) := by
    rw [powerPart, hbefore, List.drop_append_of_le_length (widthBeforePower_le _),
      power?_brace hb, ← powerPart]
  rw [number?_eq, number?_eq, hhead, hwhole, hfraction, hbefore, hpower]

/-! ## Tokens -/

/-- A string that is read is at its closing mark, or it goes on behind what stands for one unit. -/
theorem stringUnits_cases {start position : Nat} {cs : List Char} {found : List Nat × Nat}
    (h : stringUnits start position cs = .ok found) :
    (∃ tail, cs = '"' :: tail ∧ found = ([], 1)) ∨
      ∃ head tail unit, cs = head ++ tail ∧ head ≠ [] ∧
        ∀ more, (tail ≠ [] → more ≠ []) → stringUnits start position (head ++ more)
          = prependUnits [unit] head.length (stringUnits start (position + head.length) more) := by
  cases cs with
  | nil => cases h
  | cons c cs =>
    rw [stringUnits.eq_def] at h
    dsimp only at h
    split at h
    · next hmark =>
      rw [hmark]
      exact .inl ⟨cs, rfl, (Except.ok.inj h).symm⟩
    · next hmark =>
      refine .inr ?_
      split at h
      · next hslash =>
        subst hslash
        split at h
        · cases h
        · split at h
          · next a b c d tail =>
            split at h
            · cases h
            · next hrest =>
              split at h
              · cases h
              · next unit hunit =>
                refine ⟨['\\', 'u', a, b, c, d], tail, unit, rfl, List.cons_ne_nil _ _,
                  fun more hmore => ?_⟩
                -- Something follows the four digits.
                have htail : tail ≠ [] := by simpa using hrest
                have hempty : more.isEmpty = false := List.isEmpty_eq_false_iff.mpr (hmore htail)
                simp only [List.cons_append, List.nil_append]
                rw [stringUnits.eq_def]
                simp only [hempty, hunit]
                rfl
          · cases h
        · next e tail hu =>
          split at h
          · cases h
          · next unit hunit =>
            exact ⟨['\\', e], tail, unit.toNat, rfl, List.cons_ne_nil _ _, fun more _ =>
              stringUnits_short start position hu hunit more⟩
      · next hslash =>
        split at h
        · cases h
        · next hlow =>
          refine ⟨[c], cs, c.toNat, rfl, List.cons_ne_nil _ _, fun more _ => ?_⟩
          rw [List.singleton_append, stringUnits.eq_def]
          simp only [hmark, hslash, hlow, if_false]
          rfl

/-- A string that has its closing mark is read up to the mark, whatever follows it. -/
theorem stringUnits_append {start position : Nat} {cs : List Char} {found : List Nat × Nat}
    (h : stringUnits start position cs = .ok found) (rest : List Char) :
    stringUnits start position (cs ++ rest) = .ok found ∧ found.2 ≤ cs.length := by
  induction hn : cs.length using Nat.strongRecOn generalizing position cs found with
  | ind n ih =>
  subst hn
  rcases stringUnits_cases h with ⟨tail, rfl, rfl⟩ | ⟨head, tail, unit, rfl, hhead, hgoes⟩
  · rw [List.cons_append, stringUnits.eq_def]
    exact ⟨rfl, Nat.le_add_left 1 _⟩
  · have hlength : 0 < head.length := List.length_pos_iff.mpr hhead
    rw [hgoes tail id, prependUnits, Except.bind_eq_ok] at h
    obtain ⟨inner, hinner, heq⟩ := h
    rw [List.length_append]
    obtain ⟨hmore, hle⟩ := ih tail.length (by rw [List.length_append]; omega) hinner rfl
    have hrest : tail ≠ [] → tail ++ rest ≠ [] := fun hne =>
      List.append_ne_nil_of_left_ne_nil hne rest
    rw [List.append_assoc, hgoes (tail ++ rest) hrest, hmore]
    obtain rfl := Except.ok.inj heq
    exact ⟨rfl, by simp only; omega⟩

/-- The characters that are tokens by themselves, and the mark that starts a string. -/
def marks : List Char := ['[', ']', '\x7b', '\x7d', ':', ',', '"']

theorem tokenAt_of_notMem_marks (position : Nat) {c : Char} (h : c ∉ marks) (cs : List Char) :
    tokenAt position (c :: cs) =
      match names.find? fun n => n.1.isPrefixOf (c :: cs) with
      | some (name, v) => (.scalar v, name.length)
      | none => (number? (c :: cs)).getD (.stray, 1) := by
  rw [tokenAt]
  all_goals
    first
    | rfl
    | exact fun _ heq => h ((List.cons.inj heq).1 ▸ by decide)

/-- No name goes on with a brace. -/
theorem isPrefixOf_brace {b : Char} (hb : IsBrace b) {n : List Char × Value} (hn : n ∈ names)
    (cs more : List Char) : n.1.isPrefixOf (cs ++ b :: more) = n.1.isPrefixOf cs := by
  have hmem : b ∉ n.1 := by
    simp only [names, List.mem_cons, List.not_mem_nil, or_false] at hn
    rcases hb with rfl | rfl
    all_goals
      rcases hn with rfl | rfl | rfl | rfl | rfl | rfl
      all_goals decide
  rw [Bool.eq_iff_iff, List.isPrefixOf_iff_prefix, List.isPrefixOf_iff_prefix]
  refine ⟨fun h => ?_, fun h => h.trans (List.prefix_append cs _)⟩
  rcases List.prefix_or_prefix_of_prefix h (List.prefix_append cs _) with hshort | ⟨tail, htail⟩
  · exact hshort
  · rw [← htail, List.prefix_append_right_inj] at h
    cases tail with
    | nil =>
      exact ⟨[], by rw [List.append_nil, ← htail, List.append_nil]⟩
    | cons c tail =>
      obtain rfl := (List.cons_prefix_cons.mp h).1
      exact absurd (htail ▸ List.mem_append_right cs List.mem_cons_self) hmem

theorem find?_names_brace {b : Char} (hb : IsBrace b) (cs more : List Char) :
    (names.find? fun n => n.1.isPrefixOf (cs ++ b :: more))
      = names.find? fun n => n.1.isPrefixOf cs := by
  rw [← List.head?_filter, ← List.head?_filter,
    List.filter_congr fun _ hn => isPrefixOf_brace hb hn cs more]

/-- A token that is not a broken string ends within the text, and a brace behind the text is no
part of it. -/
theorem tokenAt_brace {b : Char} (hb : IsBrace b) (position : Nat) (c : Char) (cs more : List Char)
    (hwhole : ∀ cause place, (tokenAt position (c :: cs)).1 ≠ .brokenString cause place) :
    tokenAt position (c :: cs ++ b :: more) = tokenAt position (c :: cs) ∧
      (tokenAt position (c :: cs)).2 ≤ cs.length + 1 := by
  by_cases hmark : c ∈ marks
  · simp only [marks, List.mem_cons, List.not_mem_nil, or_false] at hmark
    rcases hmark with rfl | rfl | rfl | rfl | rfl | rfl | rfl
    all_goals try exact ⟨rfl, Nat.le_add_left 1 _⟩
    simp only [List.cons_append, tokenAt] at hwhole ⊢
    cases hread : stringUnits position (position + 1) cs with
    | error fault =>
      rw [hread] at hwhole
      exact absurd rfl (hwhole fault.1 fault.2)
    | ok found =>
      obtain ⟨hmore, hle⟩ := stringUnits_append hread (b :: more)
      rw [hmore]
      exact ⟨rfl, Nat.succ_le_succ hle⟩
  · rw [List.cons_append, tokenAt_of_notMem_marks position hmark,
      tokenAt_of_notMem_marks position hmark, ← List.cons_append, find?_names_brace hb,
      number?_brace hb]
    refine ⟨rfl, ?_⟩
    cases hname : names.find? fun n => n.1.isPrefixOf (c :: cs) with
    | some n =>
      have hprefix := List.find?_some hname
      exact (List.isPrefixOf_iff_prefix.mp hprefix).length_le
    | none =>
      cases hnumber : number? (c :: cs) with
      | none => exact Nat.le_add_left 1 _
      | some found => exact width_number?_le hnumber

/-- When no string of a text is broken off, a brace behind the text leaves its tokens alone. -/
theorem tokensFrom_brace {b : Char} (hb : IsBrace b) (position skip : Nat) (cs more : List Char)
    (hskip : skip ≤ cs.length)
    (hwhole : ∀ t ∈ tokensFrom position skip cs, ∀ cause place,
      t.token ≠ .brokenString cause place) :
    tokensFrom position skip (cs ++ b :: more)
      = tokensFrom position skip cs ++ tokensFrom (position + cs.length) 0 (b :: more) := by
  induction cs generalizing position skip with
  | nil =>
    obtain rfl : skip = 0 := Nat.le_zero.mp hskip
    rfl
  | cons c cs ih =>
    have hposition : position + (c :: cs).length = position + 1 + cs.length := by
      rw [List.length_cons]
      omega
    rw [hposition]
    cases skip with
    | succ skip =>
      rw [tokensFrom] at hwhole
      rw [List.cons_append, tokensFrom, tokensFrom,
        ih (position + 1) skip (Nat.le_of_succ_le_succ hskip) hwhole]
    | zero =>
      by_cases hblank : isBlank c = true
      · simp only [tokensFrom, hblank, if_true] at hwhole
        simp only [List.cons_append, tokensFrom, hblank, if_true]
        rw [ih (position + 1) 0 (Nat.zero_le _) hwhole]
        rfl
      · have hblank : isBlank c = false := Bool.eq_false_iff.mpr hblank
        have htoken : ∀ cause place,
            (tokenAt position (c :: cs)).1 ≠ .brokenString cause place := by
          obtain ⟨ts, hts⟩ := exists_tokensFrom_eq_cons position hblank cs
          exact hwhole _ (hts ▸ List.mem_cons_self)
        obtain ⟨hsame, hwidth⟩ := tokenAt_brace hb position c cs more htoken
        rw [tokensFrom_token position hblank htoken] at hwhole ⊢
        rw [List.cons_append] at hsame ⊢
        rw [tokensFrom_token position hblank (by rwa [hsame]), hsame, List.cons_append,
          ih (position + 1) _ (Nat.sub_le_of_le_add hwidth)
            fun t ht => hwhole t (List.mem_cons_of_mem _ ht)]

/-! ## Reading on -/

section

variable {ε : Type} {revive : Entries → Except ε Value}

variable (revive) in
/-- Wherever it stands, a broken string is an error. -/
theorem step_brokenString (s : State) (cause : Cause) (place position : Nat) :
    ∃ stop, step revive s ⟨.brokenString cause place, position⟩ = .error stop := by
  cases s <;> exact ⟨_, rfl⟩

/-- Tokens that the reader gets through hold no broken string. -/
theorem whole_of_foldlM {ts : List Placed} {s next : State}
    (h : ts.foldlM (step revive) s = .ok next) :
    ∀ t ∈ ts, ∀ cause place, t.token ≠ .brokenString cause place := by
  induction ts generalizing s with
  | nil => exact fun _ ht => absurd ht List.not_mem_nil
  | cons first ts ih =>
    rw [List.foldlM_cons] at h
    obtain ⟨middle, hfirst, hrest⟩ := Except.bind_eq_ok.mp h
    intro t ht cause place hbroken
    rcases List.mem_cons.mp ht with rfl | ht
    · obtain ⟨stop, hstop⟩ := step_brokenString revive s cause place t.start
      rw [← hbroken, hfirst] at hstop
      cases hstop
    · exact ih hrest t ht cause place hbroken

/-- A text that the reader gets through is left as it is when a brace follows. -/
theorem readOn_brace {b : Char} (hb : IsBrace b) {position : Nat} {s next : State}
    {cs : List Char} (h : readOn revive position s cs = .ok next) (more : List Char) :
    readOn revive position s (cs ++ b :: more)
      = readOn revive (position + cs.length) next (b :: more) := by
  rw [readOn] at h
  rw [readOn, tokensFrom_brace hb position 0 cs more (Nat.zero_le _) (whole_of_foldlM h),
    List.foldlM_append, h]
  rfl

end

/-! ## Whole texts -/

/-- A fault of a text with its place in lines and columns. -/
def Stop.fault {ε : Type} (cs : List Char) : Stop ε → ReadFault ε
  | .malformed cause position =>
    .malformed cause (lineAndColumn cs position).1 (lineAndColumn cs position).2 position
  | .longInteger digits => .longInteger digits
  | .revived e => .revived e

section

variable {ε : Type} {revive : Entries → Except ε Value}

theorem read_of_head?_ne {cs : List Char} (hmark : cs.head? ≠ some '\ufeff') :
    read revive cs
      = (readOn revive 0 (.value []) cs >>= finish cs.length).mapError (Stop.fault cs) := by
  have hfold : (tokens cs).foldlM (step revive) (.value []) = readOn revive 0 (.value []) cs := rfl
  rw [read]
  simp only [if_neg hmark, hfold]
  cases readOn revive 0 (.value []) cs >>= finish cs.length with
  | ok v => rfl
  | error stop => cases stop <;> rfl

theorem read_of_head?_eq {cs : List Char} (hmark : cs.head? = some '\ufeff') :
    read revive cs = .error (Stop.fault cs (.malformed .byteOrderMark 0)) := by
  rw [read]
  simp only [hmark, if_true]
  rfl

theorem finish_eq_ok {length : Nat} {s : State} {v : Value} :
    (finish length s : Except (Stop ε) Value) = .ok v ↔ s = .finished v := by
  constructor
  · intro h
    cases s <;> cases h
    rfl
  · rintro rfl
    rfl

theorem finish_ne_revived (length : Nat) (s : State) (e : ε) :
    finish length s ≠ .error (.revived e) := by
  intro h
  cases s <;> cases h

/-- A text is a value when the reader is finished with it at its end. -/
theorem read_eq_ok_iff {cs : List Char} {v : Value} :
    read revive cs = .ok v ↔
      cs.head? ≠ some '\ufeff' ∧ readOn revive 0 (.value []) cs = .ok (.finished v) := by
  by_cases hmark : cs.head? = some '\ufeff'
  · simp [read_of_head?_eq hmark, hmark]
  · rw [read_of_head?_ne hmark]
    cases readOn revive 0 (.value []) cs with
    | error stop => exact ⟨fun h => (nomatch h), fun h => (nomatch h.2)⟩
    | ok s =>
      rw [Except.ok_bind, Except.ok.injEq, ← @finish_eq_ok ε cs.length]
      cases finish cs.length s with
      | error stop => exact ⟨fun h => (nomatch h), fun h => (nomatch h.2)⟩
      | ok w =>
        show Except.ok w = .ok v ↔ _
        rw [Except.ok.injEq, Except.ok.injEq]
        exact (and_iff_right hmark).symm

/-- An object that is not revived ends the reading, whatever follows it. -/
theorem read_eq_revived_iff {cs : List Char} {e : ε} :
    read revive cs = .error (.revived e) ↔
      cs.head? ≠ some '\ufeff' ∧ readOn revive 0 (.value []) cs = .error (.revived e) := by
  have hfault : ∀ stop : Stop ε, stop.fault cs = .revived e ↔ stop = .revived e := by
    intro stop
    cases stop <;> simp [Stop.fault]
  by_cases hmark : cs.head? = some '\ufeff'
  · simp [read_of_head?_eq hmark, hmark, Stop.fault]
  · rw [read_of_head?_ne hmark]
    cases readOn revive 0 (.value []) cs with
    | error stop =>
      show Except.error (stop.fault cs) = .error (.revived e) ↔ _
      rw [Except.error.injEq, hfault, Except.error.injEq]
      exact (and_iff_right hmark).symm
    | ok s =>
      refine ⟨fun h => ?_, fun h => nomatch h.2⟩
      rw [Except.ok_bind] at h
      cases hfinish : (finish cs.length s : Except (Stop ε) Value) with
      | ok w =>
        rw [hfinish] at h
        cases h
      | error stop =>
        rw [hfinish] at h
        have hstop := (hfault stop).mp (Except.error.inj h)
        exact absurd (hstop ▸ hfinish) (finish_ne_revived cs.length s e)

theorem exists_read_eq_error {cs : List Char} {stop : Stop ε}
    (h : readOn revive 0 (.value []) cs = .error stop) :
    ∃ fault, read revive cs = .error fault := by
  cases hread : read revive cs with
  | error fault => exact ⟨fault, rfl⟩
  | ok v =>
    rw [(read_eq_ok_iff.mp hread).2] at h
    cases h

/-- A text that is a value is none when a brace follows it. -/
theorem exists_read_brace_eq_error {b : Char} (hb : IsBrace b) {cs : List Char} {v : Value}
    (h : read revive cs = .ok v) (more : List Char) :
    ∃ fault, read revive (cs ++ b :: more) = .error fault := by
  have hread := (read_eq_ok_iff.mp h).2
  have hstop : ∃ stop, readOn revive (0 + cs.length) (.finished v) (b :: more) = .error stop := by
    obtain ⟨ts, hts⟩ := exists_tokensFrom_eq_cons (0 + cs.length) hb.isBlank more
    rw [readOn, hts]
    exact ⟨_, rfl⟩
  obtain ⟨stop, hstop⟩ := hstop
  exact exists_read_eq_error ((readOn_brace hb hread more).trans hstop)

/-! ## Blanks before a text -/

theorem readOn_blanks (position : Nat) (s : State) {blanks : List Char}
    (h : ∀ c ∈ blanks, isBlank c = true) (cs : List Char) :
    readOn revive position s (blanks ++ cs) = readOn revive (position + blanks.length) s cs := by
  induction blanks generalizing position with
  | nil => rfl
  | cons c blanks ih =>
    rw [List.cons_append, readOn_blank revive position s (h c List.mem_cons_self),
      ih _ fun d hd => h d (List.mem_cons_of_mem c hd), List.length_cons,
      show position + 1 + blanks.length = position + (blanks.length + 1) by omega]

/-- Blanks before a text that reads as a value are skipped. -/
theorem read_blanks_append {blanks cs : List Char} {v : Value}
    (hblanks : ∀ c ∈ blanks, isBlank c = true) (h : Reads revive cs v)
    (hmark : cs.head? ≠ some '\ufeff') : read revive (blanks ++ cs) = .ok v := by
  have hreads : Reads revive (blanks ++ cs) v := by
    intro position stack rest hrest
    rw [List.append_assoc, readOn_blanks position _ hblanks, h _ stack rest hrest,
      List.length_append, Nat.add_assoc]
  refine read_of_reads revive hreads ?_
  cases blanks with
  | nil => exact hmark
  | cons c blanks =>
    have hc := hblanks c List.mem_cons_self
    rw [List.cons_append, List.head?_cons]
    rintro ⟨rfl⟩
    exact absurd hc (by decide)

/-- The characters that pass for white space in stored lines start no token. -/
theorem tokenAt_of_isBlank (position : Nat) {c : Char} (h : Text.isBlank c = true)
    (cs : List Char) : tokenAt position (c :: cs) = (.stray, 1) := by
  -- No visible character passes for white space.
  have hne : ∀ m : Char, 0x21 ≤ m.toNat ∧ m.toNat ≤ 0x7e → c ≠ m := by
    rintro m hm rfl
    simp only [Text.isBlank, Bool.or_eq_true, Bool.and_eq_true, decide_eq_true_eq, beq_iff_eq] at h
    omega
  have hmarks : c ∉ marks := by
    intro hmem
    have hvisible : (marks.all fun m => decide (0x21 ≤ m.toNat ∧ m.toNat ≤ 0x7e)) = true := by
      decide
    exact hne c (of_decide_eq_true (List.all_eq_true.mp hvisible c hmem)) rfl
  have hdigit : c.isDigit = false := by
    rw [Bool.eq_false_iff]
    intro hc
    have hbounds : 48 ≤ c.toNat ∧ c.toNat ≤ 57 := by
      simpa [Char.isDigit, UInt32.le_iff_toNat_le] using hc
    exact hne c ⟨by omega, by omega⟩ rfl
  have hnames : (names.find? fun n => n.1.isPrefixOf (c :: cs)) = none := by
    simp [names, List.isPrefixOf, (hne 'n' (by decide)).symm, (hne 't' (by decide)).symm,
      (hne 'f' (by decide)).symm, (hne 'N' (by decide)).symm, (hne 'I' (by decide)).symm,
      (hne '-' (by decide)).symm]
  have hnumber : number? (c :: cs) = none := by
    have hwhole : wholePart (c :: cs) = [] := by
      have hunsigned : unsignedPart (c :: cs) = c :: cs := by
        rw [unsignedPart, if_neg (by simpa using hne '-' (by decide))]
      rw [wholePart, hunsigned, wholeDigits, List.takeWhile_cons_of_neg (by simp [hdigit])]
      exact fun _ heq => hne '0' (by decide) (List.cons.inj heq).1
    rw [number?_eq, hwhole]
    rfl
  rw [tokenAt_of_notMem_marks position hmarks, hnames, hnumber]
  rfl

theorem exists_read_stray_eq_error {blanks : List Char} (hblanks : ∀ c ∈ blanks, isBlank c = true)
    {c : Char} (h : Text.isBlank c = true) (hjson : isBlank c = false) (cs : List Char) :
    ∃ fault, read revive (blanks ++ c :: cs) = .error fault := by
  have hstop : ∃ stop, readOn revive (0 + blanks.length) (.value []) (c :: cs) = .error stop := by
    obtain ⟨ts, hts⟩ := exists_tokensFrom_eq_cons (0 + blanks.length) hjson cs
    rw [readOn, hts, tokenAt_of_isBlank _ h]
    exact ⟨_, rfl⟩
  obtain ⟨stop, hstop⟩ := hstop
  exact exists_read_eq_error ((readOn_blanks 0 _ hblanks (c :: cs)).trans hstop)

end

end Json
end SchemaStore
