import SchemaStore.Proofs.Json.Objects

/-!
Reading back values of every form.  Names, strings and whole numbers are single tokens; a list
reads as the list of what its items read as.  An item must start with something that is neither a
blank nor a closing bracket, because after an opening bracket a closing one ends the list.
-/

namespace SchemaStore
namespace Json

/-! ## How values start -/

/-- The first character shows that a value starts there. -/
def StartsValue (cs : List Char) : Prop :=
  ∃ c rest, cs = c :: rest ∧ isBlank c = false ∧ c ≠ ']' ∧ c ≠ '\ufeff'

theorem startsValue_cons {c : Char} (rest : List Char) (hblank : isBlank c = false)
    (hend : c ≠ ']') (hmark : c ≠ '\ufeff') : StartsValue (c :: rest) :=
  ⟨c, rest, rfl, hblank, hend, hmark⟩

theorem StartsValue.head?_ne {cs : List Char} (h : StartsValue cs) : cs.head? ≠ some '\ufeff' := by
  obtain ⟨c, rest, rfl, -, -, hmark⟩ := h
  simpa using hmark

theorem startsValue_signed (negative : Bool) {d : Char} (hd : d.isDigit = true) (cs : List Char) :
    StartsValue (signed negative (d :: cs)) := by
  cases negative with
  | true => exact startsValue_cons _ rfl (by decide) (by decide)
  | false =>
    exact startsValue_cons cs (isBlank_of_isDigit hd) (ne_of_isDigit hd rfl) (ne_of_isDigit hd rfl)

theorem startsValue_integer (n : Int) : StartsValue (integer n) := by
  obtain ⟨d, ds, hds, hd⟩ := toDigits_eq_cons n.natAbs
  rw [integer_eq_signed, hds]
  exact startsValue_signed _ hd ds

theorem startsValue_quote (s : String) : StartsValue (quote s) :=
  startsValue_cons _ rfl (by decide) (by decide)

theorem startsValue_enclose {left : Char} (right : Char) (parts : List (List Char))
    (hblank : isBlank left = false) (hend : left ≠ ']') (hmark : left ≠ '\ufeff') :
    StartsValue (enclose none left right parts) := by
  cases parts with
  | nil => exact startsValue_cons _ hblank hend hmark
  | cons part parts => exact startsValue_cons _ hblank hend hmark

theorem startsValue_name {name : List Char} {v : Value} (h : (name, v) ∈ names) :
    StartsValue name := by
  simp only [names, List.mem_cons, Prod.mk.injEq, List.not_mem_nil, or_false] at h
  rcases h with ⟨rfl, -⟩ | ⟨rfl, -⟩ | ⟨rfl, -⟩ | ⟨rfl, -⟩ | ⟨rfl, -⟩ | ⟨rfl, -⟩
  all_goals exact startsValue_cons _ rfl (by decide) (by decide)

theorem number?_ne_endList {cs : List Char} {r : Token × Nat} (h : number? cs = some r) :
    r.1 ≠ .endList := by
  unfold number? at h
  dsimp only at h
  repeat' split at h
  all_goals cases h
  all_goals exact Token.noConfusion

/-- Only a closing bracket is the token that ends a list. -/
theorem tokenAt_ne_endList (position : Nat) {c : Char} (h : c ≠ ']') (cs : List Char) :
    (tokenAt position (c :: cs)).1 ≠ .endList := by
  intro htoken
  rw [tokenAt.eq_def] at htoken
  split at htoken
  · cases htoken
  · next heq => exact h (List.cons.inj heq).1
  · cases htoken
  · cases htoken
  · cases htoken
  · cases htoken
  · split at htoken
    · cases htoken
    · cases htoken
  · split at htoken
    · cases htoken
    · cases hnumber : number? (c :: cs) with
      | none =>
        rw [hnumber] at htoken
        cases htoken
      | some r =>
        rw [hnumber] at htoken
        exact number?_ne_endList hnumber htoken

section

variable {ε : Type} (revive : Entries → Except ε Value)

/-- After an opening bracket an item is read as it is after a comma. -/
theorem readOn_firstItem (position : Nat) (stack : List Frame) {cs : List Char}
    (h : StartsValue cs) (rest : List Char) :
    readOn revive position (.firstItem stack) (cs ++ rest)
      = readOn revive position (.value (.list [] :: stack)) (cs ++ rest) := by
  obtain ⟨c, cs, rfl, hblank, hend, -⟩ := h
  have htoken := tokenAt_ne_endList position hend (cs ++ rest)
  obtain ⟨ts, hts⟩ := exists_tokensFrom_eq_cons position hblank (cs ++ rest)
  -- Whatever the first token is, it does not end the list.
  have hstep : ∀ t : Placed, t.token ≠ .endList →
      step revive (.firstItem stack) t = step revive (.value (.list [] :: stack)) t := by
    intro t hne
    simp only [step]
  rw [List.cons_append, readOn, readOn, hts, List.foldlM_cons, List.foldlM_cons, hstep _ htoken]

/-! ## Names -/

theorem reads_name {name : List Char} {v : Value} (h : (name, v) ∈ names) :
    Reads revive name v := by
  intro position stack rest _
  obtain ⟨c, cs, rfl, hblank, -, -⟩ := startsValue_name h
  have htoken : tokenAt position (c :: cs ++ rest) = (.scalar v, (c :: cs).length) := by
    simp only [names, List.mem_cons, Prod.mk.injEq, List.not_mem_nil, or_false] at h
    rcases h with ⟨heq, rfl⟩ | ⟨heq, rfl⟩ | ⟨heq, rfl⟩ | ⟨heq, rfl⟩ | ⟨heq, rfl⟩ | ⟨heq, rfl⟩
    all_goals
      rw [heq]
      simp [tokenAt, names, List.isPrefixOf]
  rw [readOn_token revive position _ hblank (fun _ _ h => by cases h) htoken]
  rfl

theorem reads_null : Reads revive "null".toList .null := reads_name revive (by simp [names])

theorem reads_boolean (b : Bool) : Reads revive (boolean b) (.bool b) := by
  cases b with
  | false => exact reads_name revive (by simp [names, boolean])
  | true => exact reads_name revive (by simp [names, boolean])

theorem startsValue_boolean (b : Bool) : StartsValue (boolean b) := by
  cases b with
  | false => exact startsValue_cons _ rfl (by decide) (by decide)
  | true => exact startsValue_cons _ rfl (by decide) (by decide)

/-! ## Lists -/

/-- A text that reads as a value and shows where it starts. -/
structure Denotes (cs : List Char) (v : Value) : Prop where
  reads : Reads revive cs v
  starts : StartsValue cs

theorem read_of_denotes {cs : List Char} {v : Value} (h : Denotes revive cs v) :
    read revive cs = .ok v :=
  read_of_reads revive h.reads h.starts.head?_ne

theorem readOn_items (position : Nat) (done : List Value) (stack : List Frame)
    {items : List (List Char × Except ε Value)} (hne : items ≠ [])
    (hitems : ∀ i ∈ items, Yields revive i.1 i.2) (rest : List Char) :
    readOn revive position (.value (.list done :: stack))
        ([',', ' '].intercalate (items.map (·.1)) ++ ']' :: rest) = (do
      let vs ← (items.mapM Prod.snd).mapError Stop.revived
      readOn revive (position + ([',', ' '].intercalate (items.map (·.1))).length + 1)
        (deliver (.list (done.reverse ++ vs)) stack) rest) := by
  induction items generalizing position done with
  | nil => exact absurd rfl hne
  | cons i items ih =>
    obtain ⟨part, result⟩ := i
    have hpart : Yields revive part result := hitems _ List.mem_cons_self
    -- A comma follows each item but the last, which the bracket follows.
    cases items with
    | nil =>
      have htext : [',', ' '].intercalate ([(part, result)].map (·.1)) = part := by
        simp [List.intercalate]
      rw [htext, hpart _ _ _ (by simp [EndsNumber]), List.mapM_cons]
      cases result with
      | error e => rfl
      | ok v =>
        show readOn revive _ (.afterItem (v :: done) stack) (']' :: rest) = _
        rw [readOn_mark revive _ _ rfl (fun _ _ h => by cases h) _ rfl]
        show readOn revive _ (deliver (.list (v :: done).reverse) stack) rest = _
        rw [List.reverse_cons]
        rfl
    | cons next items =>
      have htext : [',', ' '].intercalate (((part, result) :: next :: items).map (·.1))
          = part ++ ',' :: ' ' :: [',', ' '].intercalate ((next :: items).map (·.1)) := by
        simp [List.intercalate]
      rw [htext, List.append_assoc, hpart _ _ _ (by simp [EndsNumber]), List.mapM_cons]
      cases result with
      | error e => rfl
      | ok v =>
        show readOn revive _ (.afterItem (v :: done) stack)
          (',' :: ' ' :: ([',', ' '].intercalate ((next :: items).map (·.1)) ++ ']' :: rest)) = _
        rw [readOn_mark revive _ _ rfl (fun _ _ h => by cases h) _ rfl]
        show readOn revive _ (.value (.list (v :: done) :: stack))
          (' ' :: ([',', ' '].intercalate ((next :: items).map (·.1)) ++ ']' :: rest)) = _
        rw [readOn_blank revive _ _ rfl,
          ih _ _ (List.cons_ne_nil _ _) fun i hi => hitems i (List.mem_cons_of_mem _ hi)]
        cases List.mapM Prod.snd (next :: items) with
        | error e => rfl
        | ok vs =>
          show readOn revive _ (deliver (.list ((v :: done).reverse ++ vs)) stack) rest
            = readOn revive _ (deliver (.list (done.reverse ++ v :: vs)) stack) rest
          simp only [List.reverse_cons, List.append_assoc, List.singleton_append,
            List.length_append, List.length_cons, Nat.add_assoc, Nat.add_comm, Nat.add_left_comm]

/-- A list comes to the list of what its items come to, unless one of them fails. -/
theorem yields_list {items : List (List Char × Except ε Value)}
    (hitems : ∀ i ∈ items, Yields revive i.1 i.2 ∧ StartsValue i.1) :
    Yields revive (enclose none '[' ']' (items.map (·.1))) ((items.mapM Prod.snd).map .list) := by
  intro position stack rest _
  cases items with
  | nil =>
    show readOn revive position _ ('[' :: ']' :: rest) = _
    rw [readOn_mark revive _ _ rfl (fun _ _ h => by cases h) _ rfl]
    show readOn revive _ (.firstItem stack) (']' :: rest) = _
    rw [readOn_mark revive _ _ rfl (fun _ _ h => by cases h) _ rfl]
    rfl
  | cons i items =>
    have htext : enclose none '[' ']' ((i :: items).map (·.1)) ++ rest
        = '[' :: ([',', ' '].intercalate ((i :: items).map (·.1)) ++ ']' :: rest) := by
      simp [enclose]
    have hlength : (enclose none '[' ']' ((i :: items).map (·.1))).length
        = 1 + ([',', ' '].intercalate ((i :: items).map (·.1))).length + 1 := by
      simp [enclose]
      omega
    have hfirst : ∀ position, readOn revive position (.firstItem stack)
          ([',', ' '].intercalate ((i :: items).map (·.1)) ++ ']' :: rest)
        = readOn revive position (.value (.list [] :: stack))
          ([',', ' '].intercalate ((i :: items).map (·.1)) ++ ']' :: rest) := by
      intro position
      obtain ⟨tail, htail⟩ : ∃ tail, [',', ' '].intercalate ((i :: items).map (·.1))
          = i.1 ++ tail := by
        cases items <;> simp [List.intercalate]
      rw [htail, List.append_assoc]
      exact readOn_firstItem revive position stack (hitems i List.mem_cons_self).2 _
    rw [htext, readOn_mark revive _ _ rfl (fun _ _ h => by cases h) _ rfl]
    show readOn revive _ (.firstItem stack) _ = _
    rw [hfirst, readOn_items revive _ _ _ (List.cons_ne_nil _ _) fun j hj => (hitems j hj).1,
      hlength]
    cases List.mapM Prod.snd (i :: items) with
    | error e => rfl
    | ok vs =>
      show readOn revive _ (deliver (.list vs) stack) rest
        = readOn revive _ (deliver (.list vs) stack) rest
      simp only [Nat.add_assoc]

/-- A list reads as the list of what its items read as. -/
theorem denotes_list {items : List (List Char × Value)}
    (hitems : ∀ i ∈ items, Denotes revive i.1 i.2) :
    Denotes revive (enclose none '[' ']' (items.map (·.1))) (.list (items.map (·.2))) where
  starts := startsValue_enclose _ _ rfl (by decide) (by decide)
  reads := by
    have hyields : ∀ i ∈ items.map fun i => (i.1, (.ok i.2 : Except ε Value)),
        Yields revive i.1 i.2 ∧ StartsValue i.1 := by
      intro i hi
      obtain ⟨j, hj, rfl⟩ := List.mem_map.mp hi
      exact ⟨(yields_ok_iff revive).mpr (hitems j hj).reads, (hitems j hj).starts⟩
    have hall : (items.map fun i => (i.1, (.ok i.2 : Except ε Value))).mapM Prod.snd
        = .ok (items.map (·.2)) := by
      rw [List.mapM_map]
      exact List.mapM_pure
    have hlist := yields_list revive hyields
    rw [hall, List.map_map] at hlist
    exact (yields_ok_iff revive).mp hlist

theorem denotes_object {ms : List Member} (hms : ∀ m ∈ ms, Reads revive m.text m.value)
    {v : Value} (hv : revive (Entries.ofList (ms.map Member.pair)) = .ok v) :
    Denotes revive (enclose none '\x7b' '\x7d' (ms.map Member.part)) v where
  starts := startsValue_enclose _ _ rfl (by decide) (by decide)
  reads := reads_object revive hms hv

end

/-! ## Keys -/

/-- Visible characters that mean nothing inside a string stand for themselves. -/
theorem flatMap_escape_of_plain {cs : List Char}
    (h : ∀ c ∈ cs, Text.isVisible c = true ∧ c ≠ '"' ∧ c ≠ '\\') : cs.flatMap escape = cs := by
  induction cs with
  | nil => rfl
  | cons c cs ih =>
    obtain ⟨hvisible, hmark, hslash⟩ := h c List.mem_cons_self
    have hbounds := Text.toNat_of_isVisible hvisible
    have hne : ∀ other : Char, other.toNat < 0x20 → c ≠ other := by
      intro other hother heq
      rw [heq] at hbounds
      omega
    have hplain : ' ' ≤ c ∧ c ≤ '~' := by
      simpa [Char.le_def, UInt32.le_iff_toNat_le] using hbounds
    have hescape : escape c = [c] := by
      rw [escape, if_neg (by simp [hmark, hslash]), if_neg (hne '\n' (by decide)),
        if_neg (hne '\r' (by decide)), if_neg (hne '\t' (by decide)),
        if_neg (hne '\x0c' (by decide)), if_neg (hne '\x08' (by decide)), if_pos hplain]
    rw [List.flatMap_cons, hescape, ih fun d hd => h d (List.mem_cons_of_mem c hd),
      List.singleton_append]

theorem quote_of_plain {cs : List Char}
    (h : ∀ c ∈ cs, Text.isVisible c = true ∧ c ≠ '"' ∧ c ≠ '\\') :
    quote (String.ofList cs) = '"' :: (cs ++ ['"']) := by
  rw [quote, String.toList_ofList, flatMap_escape_of_plain h]

theorem mem_integer {n : Int} {c : Char} (hc : c ∈ integer n) : c = '-' ∨ c.isDigit = true := by
  unfold integer at hc
  split at hc
  · rcases List.mem_cons.mp hc with rfl | hc
    · exact .inl rfl
    · exact .inr (isDigit_toDigits _ _ hc)
  · exact .inr (isDigit_toDigits _ _ hc)

theorem quote_integer (n : Int) :
    quote (String.ofList (integer n)) = '"' :: (integer n ++ ['"']) := by
  refine quote_of_plain fun c hc => ⟨isVisible_integer n c hc, ?_⟩
  rcases mem_integer hc with rfl | hdigit
  · decide
  · constructor
    · rintro rfl
      exact absurd hdigit (by decide)
    · rintro rfl
      exact absurd hdigit (by decide)

end Json
end SchemaStore
