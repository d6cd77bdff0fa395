import SchemaStore.Proofs.Text.Ascii

/-!
Text behind text.  Well-formed bytes mean the same whatever follows them, and lines that are
appended to a text go on with what stands behind its last line break.
-/

namespace SchemaStore

namespace Utf8

/-- Well-formed bytes mean the same whatever follows them. -/
theorem decodeFrom_append {position : Nat} {bytes : Bytes} {cs : List Char}
    (h : decodeFrom position bytes = (cs, none)) (more : Bytes) :
    decodeFrom position (bytes ++ more)
      = (cs ++ (decodeFrom (position + bytes.length) more).1,
          (decodeFrom (position + bytes.length) more).2) := by
  -- A character of one to four bytes, and what follows it.
  have hkeep : ∀ {position : Nat} {c : Char} {rest : Bytes} {width : Nat} {cs : List Char},
      (∀ {cs : List Char}, decodeFrom (position + width) rest = (cs, none) →
        decodeFrom (position + width) (rest ++ more)
          = (cs ++ (decodeFrom (position + width + rest.length) more).1,
              (decodeFrom (position + width + rest.length) more).2)) →
      (c :: (decodeFrom (position + width) rest).1, (decodeFrom (position + width) rest).2)
        = (cs, none) →
      (c :: (decodeFrom (position + width) (rest ++ more)).1,
          (decodeFrom (position + width) (rest ++ more)).2)
        = (cs ++ (decodeFrom (position + (rest.length + width)) more).1,
            (decodeFrom (position + (rest.length + width)) more).2) := by
    intro position c rest width cs ih h
    obtain ⟨rfl, hnone⟩ := Prod.mk.inj h
    rw [ih (Prod.ext rfl hnone), Nat.add_assoc, Nat.add_comm width]
    rfl
  fun_induction decodeFrom position bytes generalizing cs with
  | case1 position =>
    obtain rfl := (Prod.mk.inj h).1
    rfl
  | case2 position a rest keep ha =>
    rename_i ih
    rw [List.cons_append, decodeFrom.eq_def]
    simp only [ha, if_true]
    exact hkeep ih h
  | case6 position a keep ha hstart b rest hsecond hshort =>
    rename_i ih
    rw [List.cons_append, List.cons_append, decodeFrom.eq_def]
    simp only [ha, hstart, hsecond, hshort, if_false, if_true]
    exact hkeep ih h
  | case9 position a keep ha hstart b hsecond hshort c rest hthird hmiddle =>
    rename_i ih
    rw [List.cons_append, List.cons_append, List.cons_append, decodeFrom.eq_def]
    simp only [ha, hstart, hsecond, hshort, hthird, hmiddle, if_false, if_true]
    exact hkeep ih h
  | case12 position a keep ha hstart b hsecond hshort c hthird hmiddle d rest hfourth =>
    rename_i ih
    rw [List.cons_append, List.cons_append, List.cons_append, List.cons_append, decodeFrom.eq_def]
    simp only [ha, hstart, hsecond, hshort, hthird, hmiddle, hfourth, if_false]
    exact hkeep ih h
  | case3 | case4 | case5 | case7 | case8 | case10 | case11 => cases (Prod.mk.inj h).2
end Utf8

namespace Text

/-- A line that is appended to a text goes on with what stands behind its last line break. -/
theorem splitLines_append_line {l : List Char} (h : IsVisible l) (hne : l ≠ [])
    (cs rest : List Char) :
    splitLines (cs ++ (l ++ '\n' :: rest))
      = ((splitLines cs).1 ++ ((splitLines cs).2 ++ l) :: (splitLines rest).1,
          (splitLines rest).2) := by
  fun_induction splitLines cs with
  | case1 => exact splitLines_line h rest
  | case2 cs ls tail hcs ih =>
    rw [List.cons_append, splitLines, ih, hcs]
    rfl
  | case3 cs ls tail hcs ih =>
    rw [List.cons_append, List.cons_append, splitLines, ih, hcs]
    rfl
  | case4 cs hreturn ls tail hcs ih =>
    rw [List.cons_append, splitLines, ih, hcs]
    · rfl
    · intro more hmore
      -- The line does not start with the line feed that would belong to the carriage return.
      cases cs with
      | nil =>
        cases l with
        | nil => exact hne rfl
        | cons c l =>
          exact (ne_newline_of_isVisible (isVisible_cons.mp h).1).1 (List.cons.inj hmore).1
      | cons d cs =>
        obtain rfl := (List.cons.inj hmore).1
        exact hreturn cs rfl
  | case5 c cs hn _ hr first ls tail hcs ih =>
    rw [List.cons_append, splitLines_cons_of_ne hn hr, ih, hcs]
    rfl
  | case6 c cs hn _ hr tail hcs ih =>
    rw [List.cons_append, splitLines_cons_of_ne hn hr, ih, hcs]
    rfl
theorem lines_append_joined {l : List Char} {ls : List (List Char)}
    (h : ∀ l' ∈ l :: ls, IsVisible l') (hne : l ≠ []) (cs : List Char) :
    lines (cs ++ joined (l :: ls)) = (splitLines cs).1 ++ ((splitLines cs).2 ++ l) :: ls := by
  rw [joined_cons, lines, splitLines_append_line (h l List.mem_cons_self) hne,
    splitLines_joined fun l' hl' => h l' (List.mem_cons_of_mem l hl')]
  rfl

end Text

end SchemaStore
