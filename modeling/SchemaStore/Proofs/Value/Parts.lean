import SchemaStore.Value.Entries

/-!
The parts of a value, and what is known of a dictionary that is built from pairs with text keys.
-/

namespace SchemaStore

namespace Value

/-- A value is part of another if it is that value itself, or a part of an item of a list or tuple,
or of a key or a value of a dictionary. -/
inductive Part (x : Value) : Value → Prop where
  | self : Part x x
  | item {y : Value} {xs : List Value} (hy : y ∈ xs) (h : Part x y) : Part x (list xs)
  | tupleItem {y : Value} {xs : List Value} (hy : y ∈ xs) (h : Part x y) : Part x (tuple xs)
  | key {e : Value × Value} {es : Entries} (he : e ∈ es) (h : Part x e.1) : Part x (dict es)
  | entry {e : Value × Value} {es : Entries} (he : e ∈ es) (h : Part x e.2) : Part x (dict es)

theorem Part.trans {x y z : Value} (hxy : Part x y) (hyz : Part y z) : Part x z := by
  induction hyz with
  | self => exact hxy
  | item hy _ ih => exact .item hy ih
  | tupleItem hy _ ih => exact .tupleItem hy ih
  | key he _ ih => exact .key he ih
  | entry he _ ih => exact .entry he ih

theorem part_list_iff {x : Value} {xs : List Value} :
    Part x (list xs) ↔ x = list xs ∨ ∃ y ∈ xs, Part x y := by
  constructor
  · intro h
    cases h with
    | self => exact .inl rfl
    | item hy h => exact .inr ⟨_, hy, h⟩
  · intro h
    rcases h with rfl | ⟨y, hy, h⟩
    · exact .self
    · exact .item hy h

theorem part_tuple_iff {x : Value} {xs : List Value} :
    Part x (tuple xs) ↔ x = tuple xs ∨ ∃ y ∈ xs, Part x y := by
  constructor
  · intro h
    cases h with
    | self => exact .inl rfl
    | tupleItem hy h => exact .inr ⟨_, hy, h⟩
  · intro h
    rcases h with rfl | ⟨y, hy, h⟩
    · exact .self
    · exact .tupleItem hy h

theorem part_dict_iff {x : Value} {es : Entries} :
    Part x (dict es) ↔ x = dict es ∨ ∃ e ∈ es, Part x e.1 ∨ Part x e.2 := by
  constructor
  · intro h
    cases h with
    | self => exact .inl rfl
    | key he h => exact .inr ⟨_, he, .inl h⟩
    | entry he h => exact .inr ⟨_, he, .inr h⟩
  · intro h
    rcases h with rfl | ⟨e, he, h | h⟩
    · exact .self
    · exact .key he h
    · exact .entry he h

/-- What holds neither items nor entries has no part but itself. -/
theorem part_leaf_iff {x v : Value} (hlist : ∀ xs, v ≠ list xs) (htuple : ∀ xs, v ≠ tuple xs)
    (hdict : ∀ es, v ≠ dict es) : Part x v ↔ x = v := by
  constructor
  · intro h
    cases h with
    | self => rfl
    | item => exact absurd rfl (hlist _)
    | tupleItem => exact absurd rfl (htuple _)
    | key => exact absurd rfl (hdict _)
    | entry => exact absurd rfl (hdict _)
  · rintro rfl
    exact .self

section

variable {holds : Value → Prop}

/-- What holds of all parts of a list holds of the list and of all parts of its items. -/
theorem forall_part_list_iff {xs : List Value} :
    (∀ x, Part x (list xs) → holds x) ↔ holds (list xs) ∧ ∀ y ∈ xs, ∀ x, Part x y → holds x := by
  constructor
  · exact fun h => ⟨h _ .self, fun y hy x hx => h x (.item hy hx)⟩
  · rintro ⟨hself, hitems⟩ x hx
    rcases part_list_iff.mp hx with rfl | ⟨y, hy, hx⟩
    · exact hself
    · exact hitems y hy x hx

theorem forall_part_tuple_iff {xs : List Value} :
    (∀ x, Part x (tuple xs) → holds x) ↔ holds (tuple xs) ∧ ∀ y ∈ xs, ∀ x, Part x y → holds x := by
  constructor
  · exact fun h => ⟨h _ .self, fun y hy x hx => h x (.tupleItem hy hx)⟩
  · rintro ⟨hself, hitems⟩ x hx
    rcases part_tuple_iff.mp hx with rfl | ⟨y, hy, hx⟩
    · exact hself
    · exact hitems y hy x hx

theorem forall_part_dict_iff {es : Entries} :
    (∀ x, Part x (dict es) → holds x) ↔ holds (dict es) ∧
      ∀ e ∈ es, (∀ x, Part x e.1 → holds x) ∧ ∀ x, Part x e.2 → holds x := by
  constructor
  · exact fun h => ⟨h _ .self, fun e he => ⟨fun x hx => h x (.key he hx),
      fun x hx => h x (.entry he hx)⟩⟩
  · rintro ⟨hself, hentries⟩ x hx
    rcases part_dict_iff.mp hx with rfl | ⟨e, he, hx | hx⟩
    · exact hself
    · exact (hentries e he).1 x hx
    · exact (hentries e he).2 x hx

theorem forall_part_leaf_iff {v : Value} (hlist : ∀ xs, v ≠ list xs)
    (htuple : ∀ xs, v ≠ tuple xs) (hdict : ∀ es, v ≠ dict es) :
    (∀ x, Part x v → holds x) ↔ holds v := by
  simp only [part_leaf_iff hlist htuple hdict, forall_eq]

end

theorem standsFor_str_iff (k : Value) (s : String) : k.standsFor (str s) = true ↔ k = str s := by
  cases k <;> simp [standsFor, areStoredNaN, same, sameNumber, plane?, entries?]

end Value

namespace Entries

theorem mem_of_field? {es : Entries} {name : String} {v : Value} (h : es.field? name = some v) :
    (.str name, v) ∈ es := by
  unfold field? at h
  induction es with
  | nil => cases h
  | cons e es ih =>
    obtain ⟨k, w⟩ := e
    rw [get?_cons] at h
    split at h
    · next hk =>
      rw [(Value.standsFor_str_iff k name).mp hk, Option.some.inj h]
      exact List.mem_cons_self
    · exact List.mem_cons_of_mem _ (ih h)

theorem mem_keys_insert {es : Entries} {name : String} {value k : Value} :
    k ∈ (es.insert (.str name) value).map (·.1) ↔ k ∈ es.map (·.1) ∨ k = .str name := by
  induction es with
  | nil => simp [insert]
  | cons e es ih =>
    obtain ⟨key, old⟩ := e
    rw [insert]
    by_cases h : key.standsFor (.str name) = true
    · have hkey := (Value.standsFor_str_iff key name).mp h
      rw [if_pos h, List.map_cons, List.map_cons, List.mem_cons, hkey]
      exact ⟨Or.inl, fun h => h.elim id Or.inl⟩
    · rw [if_neg h, List.map_cons, List.map_cons, List.mem_cons, List.mem_cons, ih, or_assoc]

/-- A dictionary that is built from pairs has the keys of the pairs. -/
theorem mem_keys_ofList {pairs : List (String × Value)} {k : Value} :
    k ∈ (ofList (pairs.map fun p => (.str p.1, p.2))).map (·.1) ↔ ∃ p ∈ pairs, k = .str p.1 := by
  suffices h : ∀ done : Entries,
      k ∈ ((pairs.map fun p => (Value.str p.1, p.2)).foldl
        (fun (es : Entries) p => es.insert p.1 p.2) done).map (·.1) ↔
        k ∈ done.map (·.1) ∨ ∃ p ∈ pairs, k = .str p.1 by
    rw [ofList, h]
    simp
  induction pairs with
  | nil => simp
  | cons p pairs ih =>
    intro done
    rw [List.map_cons, List.foldl_cons, ih, mem_keys_insert]
    simp only [List.mem_cons, exists_eq_or_imp, or_assoc]

end Entries

end SchemaStore
