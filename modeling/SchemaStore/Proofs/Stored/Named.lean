import SchemaStore.Proofs.Storage.Pairs
import SchemaStore.Proofs.Stored.RoundTrip

/-!
Dictionaries whose keys are texts, as those of documents are.  They keep their keys in storage, and
they are compared field by field.
-/

namespace SchemaStore

open Stored (restoreWith restoreEntries nameOf)

/-! ## Text keys -/

namespace Entries

/-- No key stands for another. -/
def IsKeyed (es : Entries) : Prop := es.Pairwise fun a b => a.1.standsFor b.1 = false

/-- The keys are texts, and no text is a key twice. -/
def IsNamed (es : Entries) : Prop :=
  ∃ names : List String, names.Nodup ∧ es.map (·.1) = names.map Value.str

variable {es : Entries}

theorem IsNamed.str_nameOf (h : es.IsNamed) {e : Value × Value} (he : e ∈ es) :
    .str (nameOf e.1) = e.1 := by
  obtain ⟨names, -, hkeys⟩ := h
  have hmem : e.1 ∈ names.map Value.str := hkeys ▸ List.mem_map_of_mem he
  obtain ⟨name, -, hname⟩ := List.mem_map.mp hmem
  rw [← hname]
  rfl

theorem IsNamed.isKeyed (h : es.IsNamed) : es.IsKeyed := by
  obtain ⟨names, hnodup, hkeys⟩ := h
  have hpairwise : (es.map (·.1)).Pairwise fun a b => a.standsFor b = false := by
    rw [hkeys, List.pairwise_map]
    apply hnodup.imp
    intro a b hne
    rw [Value.standsFor_str]
    exact beq_eq_false_iff_ne.mpr hne
  exact List.pairwise_map.mp hpairwise

/-- A dictionary with text keys keeps its keys, in their order, when it is read back. -/
theorem IsNamed.ofList_restoreEntries (h : es.IsNamed) (moment : DateTime → DateTime) :
    ofList (restoreEntries moment es) = es.map fun e => (e.1, restoreWith moment e.2) := by
  have hmap : restoreEntries moment es = es.map fun e => (e.1, restoreWith moment e.2) := by
    rw [Stored.restoreEntries_eq_map]
    apply List.map_congr_left
    intro e he
    rw [h.str_nameOf he]
  rw [hmap, ofList_of_pairwise]
  exact List.pairwise_map.mpr h.isKeyed

theorem field?_map (f : Value → Value) (es : Entries) (name : String) :
    field? (es.map fun e => (e.1, f e.2)) name = (es.field? name).map f := by
  induction es with
  | nil => rfl
  | cons e es ih =>
    obtain ⟨k, v⟩ := e
    unfold field? at ih ⊢
    rw [List.map_cons, get?_cons, get?_cons, ih]
    split <;> rfl

theorem field?_insert (es : Entries) (name : String) (v : Value) :
    (es.insert (.str name) v).field? name = some v := by
  rw [field?]
  induction es with
  | nil => rw [insert, get?_cons, if_pos (by simp)]
  | cons e es ih =>
    obtain ⟨k, w⟩ := e
    rw [insert]
    split
    · next hk => rw [get?_cons, if_pos hk]
    · next hk => rw [get?_cons, if_neg hk, ih]

theorem field?_insert_of_ne (es : Entries) {name other : String} (h : other ≠ name) (v : Value) :
    (es.insert (.str other) v).field? name = es.field? name := by
  have hother : (Value.str other).standsFor (.str name) = false := by simpa using h
  rw [field?, field?]
  induction es with
  | nil => rw [insert, get?_cons, hother, if_neg Bool.false_ne_true]
  | cons e es ih =>
    obtain ⟨k, w⟩ := e
    rw [insert]
    split
    · next hk =>
      -- The key that is written again is the other name itself.
      rw [Value.standsFor_str_iff] at hk
      rw [hk, get?_cons, get?_cons, hother, if_neg Bool.false_ne_true, if_neg Bool.false_ne_true]
    · next hk => rw [get?_cons, get?_cons, ih]

theorem IsNamed.exists_eq_str (h : es.IsNamed) {e : Value × Value} (he : e ∈ es) :
    ∃ name, e.1 = .str name := by
  rw [← h.str_nameOf he]
  exact ⟨_, rfl⟩

theorem IsKeyed.field?_of_mem (h : es.IsKeyed) {name : String} {v : Value}
    (hv : (.str name, v) ∈ es) : es.field? name = some v := by
  rw [field?]
  induction es with
  | nil => cases hv
  | cons e es ih =>
    obtain ⟨k, w⟩ := e
    obtain ⟨hfirst, hrest⟩ := List.pairwise_cons.mp h
    rw [get?_cons]
    rcases List.mem_cons.mp hv with heq | hv
    · cases heq
      rw [if_pos (by simp)]
    · have hother : k.standsFor (.str name) = false := hfirst _ hv
      rw [if_neg (by rw [hother]; exact Bool.false_ne_true), ih hrest hv]

end Entries

/-! ## Equality -/

namespace Value

theorem subEntries_iff {es fs : Entries} :
    subEntries es fs = true ↔ ∀ e ∈ es, ∃ f,
      fs.find? (fun f => standsFor e.1 f.1) = some f ∧ standsFor e.2 f.2 = true := by
  induction es with
  | nil => simp [subEntries]
  | cons e es ih =>
    obtain ⟨k, v⟩ := e
    rw [subEntries, Bool.and_eq_true, ih, List.forall_mem_cons]
    refine and_congr_left fun _ => ?_
    simp only [standsFor]
    cases fs.find? (fun f => areStoredNaN k f.1 || same k f.1) with
    | none => simp
    | some f => simp

theorem str_standsFor_iff (s : String) (k : Value) : (str s).standsFor k = true ↔ str s = k := by
  cases k <;> simp [standsFor, areStoredNaN, same]

/-- The first pair under a text key is the one that holds the field. -/
theorem find?_str (fs : Entries) (name : String) :
    (fs.find? fun f => standsFor (str name) f.1) = (fs.field? name).map fun v => (str name, v) := by
  rw [Entries.field?]
  induction fs with
  | nil => rfl
  | cons f fs ih =>
    obtain ⟨k, v⟩ := f
    rw [Entries.get?_cons, List.find?_cons]
    by_cases hk : k = str name
    · subst hk
      simp
    · have hleft : (str name).standsFor k = false := by
        rw [← Bool.not_eq_true, str_standsFor_iff]
        exact Ne.symm hk
      have hright : k.standsFor (str name) = false := by
        rw [← Bool.not_eq_true, standsFor_str_iff]
        exact hk
      simp only [hleft, hright]
      exact ih

/-- Documents that differ in a field are different. -/
theorem same_dict_eq_false {es fs : Entries} {name : String} {a b : Value}
    (ha : es.field? name = some a) (hb : fs.field? name = some b) (hne : a.standsFor b = false) :
    same (dict es) (dict fs) = false := by
  rw [← Bool.not_eq_true]
  intro hsame
  rw [same, entries?, Bool.and_eq_true, subEntries_iff] at hsame
  obtain ⟨f, hfound, hf⟩ := hsame.2 _ (Entries.mem_of_field? ha)
  rw [find?_str, hb, Option.map_some] at hfound
  cases hfound
  rw [hne] at hf
  exact Bool.false_ne_true hf

/-- A dictionary with text keys equals itself if its values do. -/
theorem same_dict_self {es : Entries} (hes : es.IsNamed)
    (h : ∀ e ∈ es, e.2.same e.2 = true) : same (dict es) (dict es) = true := by
  rw [same]
  show (es.length == es.length && subEntries es es) = true
  rw [beq_self_eq_true, Bool.true_and, subEntries_iff]
  intro e he
  obtain ⟨name, hname⟩ := hes.exists_eq_str he
  obtain ⟨k, v⟩ := e
  cases hname
  refine ⟨(.str name, v), ?_, ?_⟩
  · rw [find?_str, hes.isKeyed.field?_of_mem he]
    rfl
  · rw [standsFor, h _ he, Bool.or_true]

end Value

end SchemaStore
