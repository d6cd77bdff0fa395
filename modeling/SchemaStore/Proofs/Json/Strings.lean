import SchemaStore.Json.Token
import SchemaStore.Json.Writer
import SchemaStore.Proofs.Text.Ascii

/-!
Strings in JSON.  A string is written with an escape for every character that is not visible
ASCII, by the UTF-16 code units of the character.  Reading collects code units and joins pairs of
surrogates, so it gets the string back, whatever follows the closing mark.
-/

namespace SchemaStore

/-! ## Hexadecimal digits -/

namespace Text

theorem isVisible_digitChar : ∀ d < 16, isVisible d.digitChar = true := by decide

theorem hex_four {u : Nat} (h : u < 0x10000) :
    hex 4 u = [(u / 4096).digitChar, (u / 256 % 16).digitChar, (u / 16 % 16).digitChar,
      (u % 16).digitChar] := by
  have zero : ∀ n, n = 0 → n.digitChar = '0' := by
    rintro n rfl
    rfl
  rw [hex, Nat.toDigits_eq_if (by decide)]
  split
  · next h1 =>
    rw [zero (u / 4096) (by omega), zero (u / 256 % 16) (by omega),
      zero (u / 16 % 16) (by omega), Nat.mod_eq_of_lt h1]
    rfl
  rw [Nat.toDigits_eq_if (by decide)]
  split
  · next h1 h2 =>
    rw [zero (u / 4096) (by omega), zero (u / 256 % 16) (by omega), Nat.mod_eq_of_lt h2]
    rfl
  rw [Nat.toDigits_eq_if (by decide)]
  split
  · next h1 h2 h3 =>
    rw [zero (u / 4096) (by omega), show u / 256 % 16 = u / 16 / 16 by omega]
    rfl
  rw [Nat.toDigits_of_lt_base (by omega), show u / 16 / 16 / 16 = u / 4096 by omega,
    show u / 16 / 16 % 16 = u / 256 % 16 by omega]
  rfl

end Text

namespace Json

theorem hex4?_digitChar {a b c d : Nat} (ha : a < 16) (hb : b < 16) (hc : c < 16) (hd : d < 16) :
    hex4? a.digitChar b.digitChar c.digitChar d.digitChar
      = some (((a * 16 + b) * 16 + c) * 16 + d) := by
  have digit : ∀ n < 16,
      (if n.digitChar.isDigit then some (n.digitChar.toNat - 48)
        else if 'a' ≤ n.digitChar ∧ n.digitChar ≤ 'f' then some (n.digitChar.toNat - 87)
        else if 'A' ≤ n.digitChar ∧ n.digitChar ≤ 'F' then some (n.digitChar.toNat - 55)
        else none) = some n := by
    decide
  simp only [hex4?, digit a ha, digit b hb, digit c hc, digit d hd]
  rfl

/-! ## Code units -/

theorem units_lt {c : Char} {u : Nat} (h : u ∈ units c) : u < 0x10000 := by
  have hc : c.toNat < 0x110000 := by
    have hvalid : c.toNat < 0xd800 ∨ 0xdfff < c.toNat ∧ c.toNat < 0x110000 := c.valid
    omega
  simp only [units] at h
  split at h
  · rw [List.mem_singleton.mp h]
    assumption
  · simp only [List.mem_cons, List.not_mem_nil, or_false] at h
    omega

/-- Joining code units undoes cutting characters into them. -/
theorem ofUnits_units_append (c : Char) (us : List Nat) :
    ofUnits (units c ++ us) = c :: ofUnits us := by
  have hvalid : c.toNat < 0xd800 ∨ 0xdfff < c.toNat ∧ c.toNat < 0x110000 := c.valid
  simp only [units]
  by_cases hsmall : c.toNat < 0x10000
  · rw [if_pos hsmall, List.singleton_append]
    cases us with
    | nil => simp only [ofUnits, Char.ofNat_toNat]
    | cons v us =>
      rw [ofUnits, if_neg (by omega), Char.ofNat_toNat]
  · rw [if_neg hsmall, List.cons_append, List.singleton_append, ofUnits, if_pos (by omega)]
    have hjoin : 0x10000 + (0xd800 + (c.toNat - 0x10000) / 0x400 - 0xd800) * 0x400
        + (0xdc00 + (c.toNat - 0x10000) % 0x400 - 0xdc00) = c.toNat := by omega
    rw [hjoin, Char.ofNat_toNat]

theorem ofUnits_flatMap_units (cs : List Char) : ofUnits (cs.flatMap units) = cs := by
  induction cs with
  | nil => rfl
  | cons c cs ih => rw [List.flatMap_cons, ofUnits_units_append, ih]

/-! ## Reading what was escaped -/

/-- Adds units at the front of what a string reader found, and their width to its width. -/
def prependUnits (us : List Nat) (width : Nat) (found : Except (Cause × Nat) (List Nat × Nat)) :
    Except (Cause × Nat) (List Nat × Nat) := do
  let (units, w) ← found
  .ok (us ++ units, w + width)

theorem prependUnits_prependUnits (us vs : List Nat) (m n : Nat)
    (found : Except (Cause × Nat) (List Nat × Nat)) :
    prependUnits us m (prependUnits vs n found) = prependUnits (us ++ vs) (m + n) found := by
  cases found with
  | error e => rfl
  | ok r =>
    show Except.ok (us ++ (vs ++ r.1), r.2 + n + m) = Except.ok (us ++ vs ++ r.1, r.2 + (m + n))
    rw [List.append_assoc, Nat.add_assoc, Nat.add_comm n m]

/-- An escape by a code unit.  Something has to follow it, which the closing mark always does. -/
theorem stringUnits_unit (start position : Nat) {u : Nat} (hu : u < 0x10000) {rest : List Char}
    (hrest : rest ≠ []) :
    stringUnits start position ('\\' :: 'u' :: Text.hex 4 u ++ rest)
      = prependUnits [u] 6 (stringUnits start (position + 6) rest) := by
  have hjoin : ((u / 4096 * 16 + u / 256 % 16) * 16 + u / 16 % 16) * 16 + u % 16 = u := by omega
  have hread := hex4?_digitChar (a := u / 4096) (b := u / 256 % 16) (c := u / 16 % 16)
    (d := u % 16) (by omega) (by omega) (by omega) (by omega)
  rw [hjoin] at hread
  have hempty : rest.isEmpty = false := by
    cases rest with
    | nil => exact absurd rfl hrest
    | cons _ _ => rfl
  rw [Text.hex_four hu]
  simp only [List.cons_append, List.nil_append]
  rw [stringUnits.eq_def]
  simp only [hempty, hread, prependUnits]
  rfl

theorem stringUnits_short (start position : Nat) {e c : Char} (he : e ≠ 'u')
    (hc : shortEscape? e = some c) (rest : List Char) :
    stringUnits start position ('\\' :: e :: rest)
      = prependUnits [c.toNat] 2 (stringUnits start (position + 2) rest) := by
  rw [stringUnits.eq_def]
  simp only [prependUnits]
  split <;> simp_all

theorem stringUnits_visible (start position : Nat) {c : Char} (hc : Text.isVisible c = true)
    (hmark : c ≠ '"') (hslash : c ≠ '\\') (rest : List Char) :
    stringUnits start position (c :: rest)
      = prependUnits [c.toNat] 1 (stringUnits start (position + 1) rest) := by
  have := (Text.toNat_of_isVisible hc).1
  rw [stringUnits.eq_def]
  simp only [hmark, hslash, if_false, if_neg (show ¬c.toNat ≤ 0x1f by omega)]
  rfl

/-- The three forms in which a character is written. -/
theorem escape_cases (c : Char) :
    (∃ e, e ≠ 'u' ∧ shortEscape? e = some c ∧ units c = [c.toNat] ∧ escape c = ['\\', e]
        ∧ Text.isVisible e = true) ∨
      (Text.isVisible c = true ∧ c ≠ '"' ∧ c ≠ '\\' ∧ units c = [c.toNat] ∧ escape c = [c]) ∨
      escape c = (units c).flatMap fun u => '\\' :: 'u' :: Text.hex 4 u := by
  unfold escape
  split
  · next h => rcases h with rfl | rfl <;> exact .inl ⟨_, by decide, rfl, rfl, rfl, rfl⟩
  split
  · next h => subst h; exact .inl ⟨'n', by decide, rfl, rfl, rfl, rfl⟩
  split
  · next h => subst h; exact .inl ⟨'r', by decide, rfl, rfl, rfl, rfl⟩
  split
  · next h => subst h; exact .inl ⟨'t', by decide, rfl, rfl, rfl, rfl⟩
  split
  · next h => subst h; exact .inl ⟨'f', by decide, rfl, rfl, rfl, rfl⟩
  split
  · next h => subst h; exact .inl ⟨'b', by decide, rfl, rfl, rfl, rfl⟩
  split
  · next hspecial _ _ _ _ _ h =>
    have hlow : 0x20 ≤ c.toNat := h.1
    have hhigh : c.toNat ≤ 0x7e := h.2
    refine .inr (.inl ⟨?_, fun e => hspecial (.inl e), fun e => hspecial (.inr e), ?_, rfl⟩)
    · simp only [Text.isVisible, hlow, hhigh, decide_true, Bool.and_self]
    · simp only [units, if_pos (show c.toNat < 0x10000 by omega)]
  · exact .inr (.inr rfl)

theorem stringUnits_units (start position : Nat) {us : List Nat} (hus : ∀ u ∈ us, u < 0x10000)
    {rest : List Char} (hrest : rest ≠ []) :
    stringUnits start position ((us.flatMap fun u => '\\' :: 'u' :: Text.hex 4 u) ++ rest)
      = prependUnits us (6 * us.length) (stringUnits start (position + 6 * us.length) rest) := by
  induction us generalizing position with
  | nil =>
    show stringUnits start position rest = prependUnits [] 0 (stringUnits start position rest)
    cases stringUnits start position rest <;> rfl
  | cons u us ih =>
    have hne : (us.flatMap fun u => '\\' :: 'u' :: Text.hex 4 u) ++ rest ≠ [] := by
      simp [hrest]
    rw [List.flatMap_cons, List.append_assoc,
      stringUnits_unit start position (hus u List.mem_cons_self) hne,
      ih (position + 6) fun v hv => hus v (List.mem_cons_of_mem u hv), prependUnits_prependUnits,
      List.singleton_append, List.length_cons, show position + 6 + 6 * us.length
        = position + 6 * (us.length + 1) by omega, show 6 + 6 * us.length
        = 6 * (us.length + 1) by omega]

theorem length_hexes {us : List Nat} (hus : ∀ u ∈ us, u < 0x10000) :
    (us.flatMap fun u => '\\' :: 'u' :: Text.hex 4 u).length = 6 * us.length := by
  induction us with
  | nil => rfl
  | cons u us ih =>
    rw [List.flatMap_cons, List.length_append, ih fun v hv => hus v (List.mem_cons_of_mem u hv),
      Text.hex_four (hus u List.mem_cons_self)]
    simp only [List.length_cons, List.length_nil]
    omega

theorem stringUnits_escape (start position : Nat) (c : Char) {rest : List Char}
    (hrest : rest ≠ []) :
    stringUnits start position (escape c ++ rest)
      = prependUnits (units c) (escape c).length
          (stringUnits start (position + (escape c).length) rest) := by
  rcases escape_cases c with ⟨e, he, hshort, hunits, hescape, -⟩ | ⟨hc, hm, hs, hunits, hescape⟩ | h
  · rw [hescape, hunits]
    exact stringUnits_short start position he hshort rest
  · rw [hescape, hunits]
    exact stringUnits_visible start position hc hm hs rest
  · have hus : ∀ u ∈ units c, u < 0x10000 := fun u hu => units_lt hu
    rw [h, length_hexes hus]
    exact stringUnits_units start position hus hrest

theorem stringUnits_body (start position : Nat) (cs rest : List Char) :
    stringUnits start position (cs.flatMap escape ++ '"' :: rest)
      = .ok (cs.flatMap units, (cs.flatMap escape).length + 1) := by
  induction cs generalizing position with
  | nil =>
    rw [List.flatMap_nil, List.nil_append, stringUnits.eq_def]
    rfl
  | cons c cs ih =>
    have hne : cs.flatMap escape ++ '"' :: rest ≠ [] := by simp
    rw [List.flatMap_cons, List.append_assoc, stringUnits_escape start position c hne, ih,
      List.flatMap_cons, List.length_append]
    show Except.ok (units c ++ cs.flatMap units, _ + (escape c).length) = _
    rw [show (cs.flatMap escape).length + 1 + (escape c).length
      = (escape c).length + (cs.flatMap escape).length + 1 by omega]

/-- A written string is one token, whatever follows it. -/
theorem tokenAt_quote (position : Nat) (s : String) (rest : List Char) :
    tokenAt position (quote s ++ rest) = (.string s, (quote s).length) := by
  have hquote : quote s ++ rest = '"' :: (s.toList.flatMap escape ++ '"' :: rest) := by
    simp [quote]
  rw [hquote, tokenAt]
  simp only [stringUnits_body, ofUnits_flatMap_units, String.ofList_toList]
  simp [quote]

/-! ## The characters of a string -/

theorem isVisible_hex {u : Nat} (h : u < 0x10000) : Text.IsVisible (Text.hex 4 u) := by
  rw [Text.hex_four h]
  intro c hc
  simp only [List.mem_cons, List.not_mem_nil, or_false] at hc
  rcases hc with rfl | rfl | rfl | rfl <;> exact Text.isVisible_digitChar _ (by omega)

theorem isVisible_escape (c : Char) : Text.IsVisible (escape c) := by
  rcases escape_cases c with ⟨e, -, -, -, hescape, he⟩ | ⟨hc, -, -, -, hescape⟩ | h
  · rw [hescape]
    exact Text.isVisible_cons.mpr ⟨rfl, Text.isVisible_cons.mpr ⟨he, Text.isVisible_nil⟩⟩
  · rw [hescape]
    exact Text.isVisible_cons.mpr ⟨hc, Text.isVisible_nil⟩
  · rw [h]
    intro d hd
    obtain ⟨u, hu, hd⟩ := List.mem_flatMap.mp hd
    simp only [List.mem_cons] at hd
    rcases hd with rfl | rfl | hd
    · rfl
    · rfl
    · exact isVisible_hex (units_lt hu) d hd

theorem isVisible_quote (s : String) : Text.IsVisible (quote s) := by
  refine Text.isVisible_cons.mpr ⟨rfl, Text.isVisible_append.mpr ⟨?_, ?_⟩⟩
  · intro d hd
    obtain ⟨c, -, hd⟩ := List.mem_flatMap.mp hd
    exact isVisible_escape c d hd
  · exact Text.isVisible_cons.mpr ⟨rfl, Text.isVisible_nil⟩

end Json
end SchemaStore
