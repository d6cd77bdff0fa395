import SchemaStore.Text.Blank
import SchemaStore.Text.Lines

/-!
Plain text in files.  Everything that the storage engine writes consists of characters that take
one byte each, and a line of it holds no character that could end a line.  For such text the
bytes of a file are its characters, so a place in the text is a place in the file, and reading
a file gives back the lines that were written.
-/

namespace SchemaStore

/-! ## One byte a character -/

namespace Utf8

def IsAscii (cs : List Char) : Prop := ∀ c ∈ cs, c.toNat < 0x80

theorem encode_append (a b : List Char) : encode (a ++ b) = encode a ++ encode b := by
  simp [encode]

theorem encode_cons_of_lt {c : Char} (h : c.toNat < 0x80) (cs : List Char) :
    encode (c :: cs) = c.toUInt8 :: encode cs := by
  have hsize : c.utf8Size = 1 := by
    rw [Char.utf8Size_eq_one_iff, UInt32.le_iff_toNat_le]
    exact Nat.le_of_lt_succ h
  rw [encode, List.flatMap_cons, String.utf8EncodeChar_eq_singleton hsize, Char.toUInt8_val]
  rfl

theorem length_encode {cs : List Char} (h : IsAscii cs) : (encode cs).length = cs.length := by
  induction cs with
  | nil => rfl
  | cons c cs ih =>
    rw [encode_cons_of_lt (h c List.mem_cons_self), List.length_cons, List.length_cons,
      ih fun d hd => h d (List.mem_cons_of_mem c hd)]

/-- What lies behind the first part of a text starts at the byte that counts its characters. -/
theorem drop_encode_append {a : List Char} (h : IsAscii a) (b : List Char) :
    (encode (a ++ b)).drop a.length = encode b := by
  rw [encode_append, ← length_encode h, List.drop_left]

theorem decodeFrom_encode {cs : List Char} (h : IsAscii cs) (position : Nat) :
    decodeFrom position (encode cs) = (cs, none) := by
  induction cs generalizing position with
  | nil => rfl
  | cons c cs ih =>
    have hc : c.toNat < 0x80 := h c List.mem_cons_self
    have hnat : c.toUInt8.toNat = c.toNat := by
      show c.toNat % 256 = c.toNat
      omega
    have hlow : c.toUInt8 < 0x80 := by
      rw [UInt8.lt_iff_toNat_lt, hnat]
      exact hc
    rw [encode_cons_of_lt hc, decodeFrom.eq_def]
    simp only [hlow, if_true, hnat, Char.ofNat_toNat,
      ih (fun d hd => h d (List.mem_cons_of_mem c hd))]

theorem decodeInPieces_encode {cs : List Char} (h : IsAscii cs) :
    decodeInPieces (encode cs) = (cs, none) := by
  rw [decodeInPieces, decodeFrom_encode h]

theorem decode_encode {cs : List Char} (h : IsAscii cs) : decode (encode cs) = .ok cs := by
  rw [decode, decodeFrom_encode h]

end Utf8

/-! ## Lines -/

namespace Text

/-- A visible ASCII character or the ordinary space. -/
def isVisible (c : Char) : Bool := 0x20 ≤ c.toNat && c.toNat ≤ 0x7e

def IsVisible (cs : List Char) : Prop := ∀ c ∈ cs, isVisible c = true

theorem isVisible_nil : IsVisible [] := fun _ h => absurd h List.not_mem_nil

theorem isVisible_cons {c : Char} {cs : List Char} :
    IsVisible (c :: cs) ↔ isVisible c = true ∧ IsVisible cs := by
  simp only [IsVisible, List.mem_cons, forall_eq_or_imp]

theorem isVisible_append {a b : List Char} : IsVisible (a ++ b) ↔ IsVisible a ∧ IsVisible b := by
  simp only [IsVisible, List.mem_append, or_imp, forall_and]

theorem toNat_of_isVisible {c : Char} (h : isVisible c = true) :
    0x20 ≤ c.toNat ∧ c.toNat ≤ 0x7e := by
  simpa only [isVisible, Bool.and_eq_true, decide_eq_true_eq] using h

theorem ne_newline_of_isVisible {c : Char} (h : isVisible c = true) : c ≠ '\n' ∧ c ≠ '\r' := by
  have hc := (toNat_of_isVisible h).1
  constructor
  · rintro rfl
    exact absurd hc (by decide)
  · rintro rfl
    exact absurd hc (by decide)

theorem isAscii_of_isVisible {cs : List Char} (h : IsVisible cs) : Utf8.IsAscii cs := by
  intro c hc
  have := (toNat_of_isVisible (h c hc)).2
  omega

theorem splitLines_cons_of_ne {c : Char} (hn : c ≠ '\n') (hr : c ≠ '\r') (rest : List Char) :
    splitLines (c :: rest) = match splitLines rest with
      | (l :: ls, tail) => ((c :: l) :: ls, tail)
      | ([], tail) => ([], c :: tail) := by
  rw [splitLines]
  all_goals first | rfl | exact hn | exact hr | exact fun _ h => absurd h hr

/-- A text that ends with a line feed is cut off as the first line. -/
theorem splitLines_line {l : List Char} (h : IsVisible l) (rest : List Char) :
    splitLines (l ++ '\n' :: rest) = (l :: (splitLines rest).1, (splitLines rest).2) := by
  induction l with
  | nil => rw [List.nil_append, splitLines]
  | cons c l ih =>
    obtain ⟨hc, hl⟩ := isVisible_cons.mp h
    obtain ⟨hn, hr⟩ := ne_newline_of_isVisible hc
    rw [List.cons_append, splitLines_cons_of_ne hn hr, ih hl]

def joined (ls : List (List Char)) : List Char := ls.flatMap fun l => l ++ ['\n']

theorem joined_cons (l : List Char) (ls : List (List Char)) :
    joined (l :: ls) = l ++ '\n' :: joined ls := by
  simp [joined]

theorem joined_append (a b : List (List Char)) : joined (a ++ b) = joined a ++ joined b := by
  simp [joined]

theorem splitLines_joined {ls : List (List Char)} (h : ∀ l ∈ ls, IsVisible l) :
    splitLines (joined ls) = (ls, []) := by
  induction ls with
  | nil => rfl
  | cons l ls ih =>
    rw [joined_cons, splitLines_line (h l List.mem_cons_self),
      ih fun l' hl' => h l' (List.mem_cons_of_mem l hl')]

theorem isAscii_joined {ls : List (List Char)} (h : ∀ l ∈ ls, IsVisible l) :
    Utf8.IsAscii (joined ls) := by
  intro c hc
  obtain ⟨l, hl, hcl⟩ := List.mem_flatMap.mp hc
  rcases List.mem_append.mp hcl with hin | hend
  · exact isAscii_of_isVisible (h l hl) c hin
  · rw [List.mem_singleton.mp hend]
    decide

/-- Reading a file gives back the lines that were written into it. -/
theorem storedLines_joined {ls : List (List Char)} (h : ∀ l ∈ ls, IsVisible l) :
    storedLines [] (Utf8.encode (joined ls)) = (ls, none) := by
  rw [storedLines, Utf8.decodeInPieces_encode (isAscii_joined h)]
  simp [lines, splitLines_joined h]

theorem unifyBreaks_of_isVisible {cs : List Char} (h : IsVisible cs) : unifyBreaks cs = cs := by
  induction cs with
  | nil => rfl
  | cons c cs ih =>
    obtain ⟨hc, hcs⟩ := isVisible_cons.mp h
    have hr := (ne_newline_of_isVisible hc).2
    rw [unifyBreaks, ih hcs]
    · exact fun _ h => absurd h hr
    · exact hr

end Text

end SchemaStore
