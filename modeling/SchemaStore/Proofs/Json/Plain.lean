import SchemaStore.Json.Writer
import SchemaStore.Proofs.Json.Endings
import SchemaStore.Proofs.Value.Parts

/-!
What is read can be written again.  A text that is read without reviving objects gives a value of
names, numbers, texts, lists and dictionaries with text keys, and a whole number in it has no more
digits than may be written.  Every state of the reader holds only such values, since it holds only
what it has been given as tokens and what it has closed.
-/

namespace SchemaStore

/-- What is inserted into a dictionary replaces a value or comes with its key. -/
theorem Entries.mem_insert {es : Entries} {key value : Value} {e : Value × Value}
    (h : e ∈ es.insert key value) :
    e ∈ es ∨ e.2 = value ∧ (e.1 = key ∨ ∃ old, (e.1, old) ∈ es) := by
  induction es with
  | nil =>
    obtain rfl := List.mem_singleton.mp h
    exact .inr ⟨rfl, .inl rfl⟩
  | cons first es ih =>
    obtain ⟨k, v⟩ := first
    rw [insert] at h
    split at h
    · rcases List.mem_cons.mp h with rfl | h
      · exact .inr ⟨rfl, .inr ⟨v, List.mem_cons_self⟩⟩
      · exact .inl (List.mem_cons_of_mem _ h)
    · rcases List.mem_cons.mp h with rfl | h
      · exact .inl List.mem_cons_self
      · rcases ih h with h | ⟨hvalue, hkey | ⟨old, hold⟩⟩
        · exact .inl (List.mem_cons_of_mem _ h)
        · exact .inr ⟨hvalue, .inl hkey⟩
        · exact .inr ⟨hvalue, .inr ⟨old, List.mem_cons_of_mem _ hold⟩⟩

namespace Json

open Value (Part)

/-- A value that has a JSON form, its items and entries apart. -/
def IsPlain : Value → Prop
  | .null | .bool _ | .float _ | .str _ | .list _ => True
  | .int n => (Nat.toDigits 10 n.natAbs).length ≤ digitLimit
  | .dict es => ∀ e ∈ es, ∃ s, e.1 = .str s
  | _ => False

def AllPlain (v : Value) : Prop := ∀ x, Part x v → IsPlain x

theorem allPlain_leaf_iff {v : Value} (hlist : ∀ xs, v ≠ .list xs) (htuple : ∀ xs, v ≠ .tuple xs)
    (hdict : ∀ es, v ≠ .dict es) : AllPlain v ↔ IsPlain v :=
  Value.forall_part_leaf_iff hlist htuple hdict

theorem allPlain_str (s : String) : AllPlain (.str s) :=
  (allPlain_leaf_iff (by simp) (by simp) (by simp)).mpr trivial

theorem allPlain_list_iff {xs : List Value} : AllPlain (.list xs) ↔ ∀ x ∈ xs, AllPlain x :=
  Value.forall_part_list_iff.trans (and_iff_right trivial)

theorem allPlain_dict_iff {es : Entries} :
    AllPlain (.dict es) ↔ ∀ e ∈ es, (∃ s, e.1 = .str s) ∧ AllPlain e.2 := by
  refine Value.forall_part_dict_iff.trans ⟨fun ⟨hkeys, hparts⟩ e he =>
    ⟨hkeys e he, (hparts e he).2⟩, fun h => ⟨fun e he => (h e he).1, fun e he => ⟨?_, (h e he).2⟩⟩⟩
  obtain ⟨s, hs⟩ := (h e he).1
  rw [hs]
  exact allPlain_str s

/-! ## Writing -/

mutual

/-- A plain value is written, whatever is done with others. -/
theorem exists_write_of_allPlain (foreign : Value → Except WriteFault (List Char)) :
    ∀ v : Value, AllPlain v → ∃ text, write foreign none v = .ok text
  | .null, _ | .bool _, _ | .float _, _ | .str _, _ => ⟨_, rfl⟩
  | .int _, h => ⟨_, wholeNumber_of_le (h _ .self)⟩
  | .list xs, h => by
    obtain ⟨parts, hparts⟩ := exists_writeItems_of_allPlain foreign xs (allPlain_list_iff.mp h)
    rw [write, deeper, Option.map_none, hparts]
    exact ⟨_, rfl⟩
  | .dict es, h => by
    obtain ⟨parts, hparts⟩ := exists_writeEntries_of_allPlain foreign es (allPlain_dict_iff.mp h)
    rw [write, deeper, Option.map_none, hparts]
    exact ⟨_, rfl⟩
  | .fraction _, h | .decimal _, h | .complex _ _, h | .bytes _, h | .date _, h | .dateTime _, h
  | .tuple _, h | .set _, h | .view _, h | .type _, h | .kind _, h => (h _ .self).elim

theorem exists_writeItems_of_allPlain (foreign : Value → Except WriteFault (List Char)) :
    ∀ xs : List Value, (∀ x ∈ xs, AllPlain x) → ∃ parts, writeItems foreign none xs = .ok parts
  | [], _ => ⟨[], rfl⟩
  | x :: xs, h => by
    obtain ⟨part, hpart⟩ := exists_write_of_allPlain foreign x (h x List.mem_cons_self)
    obtain ⟨parts, hparts⟩ := exists_writeItems_of_allPlain foreign xs fun y hy =>
      h y (List.mem_cons_of_mem x hy)
    rw [writeItems, hpart, hparts]
    exact ⟨_, rfl⟩

theorem exists_writeEntries_of_allPlain (foreign : Value → Except WriteFault (List Char)) :
    ∀ es : List (Value × Value), (∀ e ∈ es, (∃ s, e.1 = .str s) ∧ AllPlain e.2) →
      ∃ parts, writeEntries foreign none es = .ok parts
  | [], _ => ⟨[], rfl⟩
  | (k, v) :: es, h => by
    obtain ⟨⟨s, hs⟩, hv⟩ := h _ List.mem_cons_self
    obtain ⟨part, hpart⟩ := exists_write_of_allPlain foreign v hv
    obtain ⟨parts, hparts⟩ := exists_writeEntries_of_allPlain foreign es fun e he =>
      h e (List.mem_cons_of_mem _ he)
    obtain rfl : k = .str s := hs
    rw [writeEntries, hpart, hparts]
    exact ⟨_, rfl⟩

end

/-! ## Tokens -/

/-- Digits that are read as a number are no fewer than those that it is written with. -/
theorem length_toDigits_ofDigitChars_le {ds : List Char} (hne : ds ≠ [])
    (h : ∀ d ∈ ds, d.isDigit = true) :
    (Nat.toDigits 10 (Nat.ofDigitChars 10 ds 0)).length ≤ ds.length := by
  rw [Nat.length_toDigits_le_iff (by decide) (List.length_pos_iff.mpr hne)]
  clear hne
  induction ds with
  | nil => exact Nat.one_pos
  | cons d ds ih =>
    have hd : d.toNat - '0'.toNat ≤ 9 := by
      have hdigit : 48 ≤ d.toNat ∧ d.toNat ≤ 57 := by
        simpa [Char.isDigit, UInt32.le_iff_toNat_le] using h d List.mem_cons_self
      have hzero : '0'.toNat = 48 := rfl
      omega
    have hrest := ih fun c hc => h c (List.mem_cons_of_mem d hc)
    rw [Nat.ofDigitChars_cons, Nat.ofDigitChars_eq_ofDigitChars_zero, Nat.mul_zero, Nat.zero_add,
      List.length_cons, Nat.pow_succ]
    have hfirst := Nat.mul_le_mul_left (10 ^ ds.length) hd
    omega

theorem isDigit_wholeDigits (cs : List Char) : ∀ d ∈ wholeDigits cs, d.isDigit = true := by
  unfold wholeDigits
  split
  · intro d hd
    rw [List.mem_singleton.mp hd]
    rfl
  · exact fun d hd => List.all_eq_true.mp List.all_takeWhile d hd

/-- A token that holds nothing but a plain value. -/
def Token.IsPlain : Token → Prop
  | .scalar v => AllPlain v
  | _ => True

theorem isPlain_number? {cs : List Char} {found : Token × Nat} (h : number? cs = some found) :
    found.1.IsPlain := by
  rw [number?_eq, ofParts] at h
  split at h
  · cases h
  · next hwhole =>
    split at h
    · split at h
      · cases h
        trivial
      · next hlimit =>
        cases h
        refine (allPlain_leaf_iff (by simp) (by simp) (by simp)).mpr ?_
        have hdigits := length_toDigits_ofDigitChars_le
          (fun hnil => hwhole (List.isEmpty_iff.mpr hnil)) (isDigit_wholeDigits (unsignedPart cs))
        have habs : ∀ (negative : Bool) (n : Nat),
            (if negative then -(n : Int) else n).natAbs = n := by
          intro negative n
          cases negative <;> simp
        rw [IsPlain, habs]
        exact Nat.le_trans hdigits (Nat.not_lt.mp hlimit)
    · cases h
      exact (allPlain_leaf_iff (by simp) (by simp) (by simp)).mpr trivial

theorem isPlain_tokenAt (position : Nat) (cs : List Char) : (tokenAt position cs).1.IsPlain := by
  unfold tokenAt
  split
  · trivial
  · trivial
  · trivial
  · trivial
  · trivial
  · trivial
  · split <;> trivial
  · split
    · next name v hfind =>
      have hmem := List.mem_of_find?_eq_some hfind
      simp only [names, List.mem_cons, Prod.mk.injEq, List.not_mem_nil, or_false] at hmem
      rcases hmem with ⟨-, rfl⟩ | ⟨-, rfl⟩ | ⟨-, rfl⟩ | ⟨-, rfl⟩ | ⟨-, rfl⟩ | ⟨-, rfl⟩
      all_goals exact (allPlain_leaf_iff (by simp) (by simp) (by simp)).mpr trivial
    · cases hnumber : number? _ with
      | none => trivial
      | some found => exact isPlain_number? hnumber

theorem isPlain_tokensFrom (position skip : Nat) (cs : List Char) :
    ∀ t ∈ tokensFrom position skip cs, t.token.IsPlain := by
  induction cs generalizing position skip with
  | nil => exact fun t ht => absurd ht List.not_mem_nil
  | cons c cs ih =>
    intro t ht
    cases skip with
    | succ skip => exact ih _ _ t ht
    | zero =>
      rw [tokensFrom] at ht
      split at ht
      · exact ih _ _ t ht
      · split at ht
        · rw [List.mem_singleton.mp ht]
          trivial
        · next token width _ htoken =>
          rcases List.mem_cons.mp ht with rfl | ht
          · have hplain := isPlain_tokenAt position (c :: cs)
            rw [htoken] at hplain
            exact hplain
          · exact ih _ _ t ht

/-! ## Reading -/

/-- The values that the reader holds: what is open and what has been read. -/
def Frame.value : Frame → Value
  | .list done => .list done
  | .member done _ => .dict done

def State.values : State → List Value
  | .value stack | .firstItem stack | .firstName stack => stack.map Frame.value
  | .afterItem done stack => .list done :: stack.map Frame.value
  | .name done stack | .colon done _ stack | .afterMember done stack =>
    .dict done :: stack.map Frame.value
  | .finished v => [v]

def State.IsPlain (s : State) : Prop := ∀ v ∈ s.values, AllPlain v

theorem isPlain_deliver {v : Value} {stack : List Frame} (hv : AllPlain v)
    (hstack : ∀ w ∈ stack.map Frame.value, AllPlain w) : (deliver v stack).IsPlain := by
  cases stack with
  | nil => exact fun w hw => List.mem_singleton.mp hw ▸ hv
  | cons frame stack =>
    obtain ⟨hframe, hrest⟩ := List.forall_mem_cons.mp hstack
    cases frame with
    | list done =>
      refine List.forall_mem_cons.mpr ⟨?_, hrest⟩
      exact allPlain_list_iff.mpr (List.forall_mem_cons.mpr ⟨hv, allPlain_list_iff.mp hframe⟩)
    | member done name =>
      refine List.forall_mem_cons.mpr ⟨allPlain_dict_iff.mpr fun e he => ?_, hrest⟩
      have hdone := allPlain_dict_iff.mp hframe
      rcases Entries.mem_insert he with he | ⟨hvalue, hkey | ⟨old, hold⟩⟩
      · exact hdone e he
      · exact ⟨⟨name, hkey⟩, hvalue ▸ hv⟩
      · exact ⟨(hdone _ hold).1, hvalue ▸ hv⟩

/-- Reading without reviving. -/
def keep (es : Entries) : Except Empty Value := .ok (.dict es)

theorem isPlain_beginValue {stack : List Frame} {t : Placed} {next : State}
    (h : (beginValue stack t : Except (Stop Empty) State) = .ok next) (ht : t.token.IsPlain)
    (hstack : ∀ w ∈ stack.map Frame.value, AllPlain w) : next.IsPlain := by
  unfold beginValue at h
  split at h
  · cases h
    exact hstack
  · cases h
    exact hstack
  · next v htoken =>
    cases h
    rw [htoken] at ht
    exact isPlain_deliver ht hstack
  · cases h
    exact isPlain_deliver (allPlain_str _) hstack
  · cases h
  · cases h
  · cases h

theorem isPlain_beginName {done : Entries} {stack : List Frame} {t : Placed} {next : State}
    (h : (beginName done stack t : Except (Stop Empty) State) = .ok next)
    (hstack : ∀ w ∈ .dict done :: stack.map Frame.value, AllPlain w) : next.IsPlain := by
  unfold beginName at h
  split at h
  · cases h
    exact hstack
  · cases h
  · cases h

theorem isPlain_close {done : Entries} {stack : List Frame} {next : State}
    (h : close keep done stack = .ok next)
    (hstack : ∀ w ∈ .dict done :: stack.map Frame.value, AllPlain w) : next.IsPlain := by
  cases h
  obtain ⟨hdone, hstack⟩ := List.forall_mem_cons.mp hstack
  exact isPlain_deliver hdone hstack

/-- What one step makes of plain values is plain. -/
theorem isPlain_step {s next : State} {t : Placed} (h : step keep s t = .ok next)
    (ht : t.token.IsPlain) (hs : s.IsPlain) : next.IsPlain := by
  have hnil : AllPlain (.list []) := allPlain_list_iff.mpr nofun
  have hempty : AllPlain (.dict []) := allPlain_dict_iff.mpr nofun
  unfold step at h
  split at h
  · exact isPlain_beginValue h ht hs
  · split at h
    · cases h
      exact isPlain_deliver hnil hs
    · exact isPlain_beginValue h ht (List.forall_mem_cons.mpr ⟨hnil, hs⟩)
  · obtain ⟨hdone, hstack⟩ := List.forall_mem_cons.mp hs
    split at h
    · cases h
      refine isPlain_deliver (allPlain_list_iff.mpr fun v hv => ?_) hstack
      exact allPlain_list_iff.mp hdone v (List.mem_reverse.mp hv)
    · cases h
      exact hs
    · cases h
  · split at h
    · exact isPlain_close h (List.forall_mem_cons.mpr ⟨hempty, hs⟩)
    · exact isPlain_beginName h (List.forall_mem_cons.mpr ⟨hempty, hs⟩)
  · exact isPlain_beginName h hs
  · split at h
    · cases h
      exact hs
    · cases h
  · split at h
    · exact isPlain_close h hs
    · cases h
      exact hs
    · cases h
  · cases h

theorem isPlain_steps {ts : List Placed} {s next : State}
    (h : ts.foldlM (step keep) s = .ok next) (hts : ∀ t ∈ ts, t.token.IsPlain)
    (hs : s.IsPlain) : next.IsPlain := by
  induction ts generalizing s with
  | nil =>
    cases h
    exact hs
  | cons t ts ih =>
    obtain ⟨ht, hts⟩ := List.forall_mem_cons.mp hts
    rw [List.foldlM_cons] at h
    obtain ⟨middle, hfirst, hrest⟩ := Except.bind_eq_ok.mp h
    exact ih hrest hts (isPlain_step hfirst ht hs)

/-- A value that is read without reviving is plain. -/
theorem allPlain_of_readPlain {text : List Char} {v : Value} (h : readPlain text = .ok v) :
    AllPlain v := by
  have hread : readOn keep 0 (.value []) text = .ok (.finished v) := (read_eq_ok_iff.mp h).2
  exact isPlain_steps hread (isPlain_tokensFrom 0 0 text) nofun v List.mem_cons_self

end Json

end SchemaStore
