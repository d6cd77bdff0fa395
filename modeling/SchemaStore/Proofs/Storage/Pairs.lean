import SchemaStore.Value.Entries

/-!
Texts under text keys.  The storage engine is used with texts only, and what it keeps for them,
in memory and in tables, is a list of pairs without repeated keys.  This module has the operations
on such lists that the engine's operations on dictionaries amount to, and their laws in terms of
look-up.
-/

namespace SchemaStore

/-- A text that may be missing as a value, null where it is missing. -/
def Value.orNull (found : Option String) : Value :=
  match found with
  | some s => .str s
  | none => .null

/-- Pairs of texts, in the order in which their keys were first written. -/
abbrev Pairs := List (String × String)

namespace Pairs

def keys (m : Pairs) : List String := m.map (·.1)

def entries (m : Pairs) : Entries := m.map fun p => (.str p.1, .str p.2)

/-- Writes a value; a new key comes last. -/
def set (m : Pairs) (key value : String) : Pairs :=
  match m with
  | [] => [(key, value)]
  | (k, v) :: rest => if k = key then (k, value) :: rest else (k, v) :: set rest key value

/-- What a row of writes leaves. -/
def ofWrites (writes : Pairs) : Pairs := writes.foldl (fun m p => m.set p.1 p.2) []

/-- Adds a pair, unless its key is there. -/
def adopt (m : Pairs) (p : String × String) : Pairs :=
  if (m.lookup p.1).isSome then m else m ++ [p]

/-- Adds the pairs whose keys are not there. -/
def overlay (m : Pairs) (below : Pairs) : Pairs := below.foldl adopt m

/-- The pairs of several layers, of which the first hides those behind it. -/
def layered (layers : List Pairs) : Pairs := layers.foldl overlay []

/-- The pairs whose keys start with a text. -/
def startingWith (m : Pairs) (start : String) : Pairs :=
  m.filter fun p => start.toList.isPrefixOf p.1.toList

/-! ## Look-up -/

theorem lookup_cons (k v : String) (m : Pairs) (key : String) :
    List.lookup key ((k, v) :: m) = if k = key then some v else m.lookup key := by
  rw [List.lookup_cons]
  by_cases h : k = key
  · simp [h]
  · have : (key == k) = false := beq_eq_false_iff_ne.mpr (Ne.symm h)
    simp [h, this]

theorem lookup_eq_none_iff {m : Pairs} {key : String} : m.lookup key = none ↔ key ∉ m.keys := by
  induction m with
  | nil => simp [keys]
  | cons p m ih =>
    obtain ⟨k, v⟩ := p
    rw [lookup_cons, keys, List.map_cons, List.mem_cons, ← keys]
    by_cases h : k = key
    · simp [h]
    · simp [h, Ne.symm h, ih]

theorem mem_of_lookup {m : Pairs} {key value : String} (h : m.lookup key = some value) :
    (key, value) ∈ m := by
  induction m with
  | nil => simp at h
  | cons p m ih =>
    obtain ⟨k, v⟩ := p
    rw [lookup_cons] at h
    split at h
    · next hk =>
      obtain rfl := Option.some.inj h
      rw [hk]
      exact List.mem_cons_self
    · exact List.mem_cons_of_mem _ (ih h)

theorem lookup_of_mem {m : Pairs} (hm : m.keys.Nodup) {key value : String}
    (h : (key, value) ∈ m) : m.lookup key = some value := by
  induction m with
  | nil => simp at h
  | cons p m ih =>
    obtain ⟨k, v⟩ := p
    rw [keys, List.map_cons, List.nodup_cons, ← keys] at hm
    rw [lookup_cons]
    rcases List.mem_cons.mp h with heq | hin
    · obtain ⟨rfl, rfl⟩ := Prod.mk.inj heq
      rw [if_pos rfl]
    · have hne : k ≠ key := by
        rintro rfl
        exact hm.1 (List.mem_map.mpr ⟨(k, value), hin, rfl⟩)
      rw [if_neg hne, ih hm.2 hin]

theorem lookup_eq_some_iff {m : Pairs} (hm : m.keys.Nodup) {key value : String} :
    m.lookup key = some value ↔ (key, value) ∈ m :=
  ⟨mem_of_lookup, lookup_of_mem hm⟩

theorem lookup_perm {m n : Pairs} (h : m.Perm n) (hm : m.keys.Nodup) (key : String) :
    m.lookup key = n.lookup key := by
  have hn : n.keys.Nodup := (h.map _).nodup_iff.mp hm
  apply Option.ext
  intro value
  rw [lookup_eq_some_iff hm, lookup_eq_some_iff hn, h.mem_iff]

/-- What look-ups find is all that pairs hold. -/
theorem perm_of_lookup {m n : Pairs} (hm : m.keys.Nodup) (hn : n.keys.Nodup)
    (h : ∀ key, m.lookup key = n.lookup key) : m.Perm n := by
  have hpairs : ∀ {l : Pairs}, l.keys.Nodup → List.Nodup l := fun hl =>
    (List.pairwise_map.mp hl).imp fun hne heq => hne (congrArg Prod.fst heq)
  rw [List.perm_ext_iff_of_nodup (hpairs hm) (hpairs hn)]
  rintro ⟨key, value⟩
  rw [← lookup_eq_some_iff hm, ← lookup_eq_some_iff hn, h]

theorem nodup_keys_startingWith {m : Pairs} (hm : m.keys.Nodup) (start : String) :
    (m.startingWith start).keys.Nodup :=
  (List.filter_sublist.map _).nodup hm

theorem lookup_startingWith (m : Pairs) (start key : String) :
    (m.startingWith start).lookup key
      = if start.toList.isPrefixOf key.toList then m.lookup key else none := by
  induction m with
  | nil => simp [startingWith]
  | cons p m ih =>
    obtain ⟨k, v⟩ := p
    rw [startingWith, List.filter_cons, ← startingWith, lookup_cons]
    by_cases hk : k = key
    · subst hk
      by_cases hs : start.toList.isPrefixOf k.toList
      · simp only [hs, if_true, lookup_cons]
      · simp only [hs, Bool.false_eq_true, if_false, ih]
    · rw [if_neg hk]
      split
      · rw [lookup_cons, if_neg hk, ih]
      · exact ih

/-! ## Writing -/

theorem lookup_set (m : Pairs) (key value other : String) :
    (m.set key value).lookup other = if key = other then some value else m.lookup other := by
  induction m with
  | nil => rw [set, lookup_cons]
  | cons p m ih =>
    obtain ⟨k, v⟩ := p
    rw [set]
    by_cases hk : k = key
    · subst hk
      rw [if_pos rfl, lookup_cons, lookup_cons]
      split <;> rfl
    · rw [if_neg hk, lookup_cons, lookup_cons, ih]
      by_cases hko : k = other
      · rw [if_pos hko, if_pos hko, if_neg (fun h => hk (hko.trans h.symm))]
      · rw [if_neg hko, if_neg hko]

theorem mem_keys_set {m : Pairs} {key value other : String} :
    other ∈ (m.set key value).keys ↔ other = key ∨ other ∈ m.keys := by
  rw [← Decidable.not_iff_not, ← lookup_eq_none_iff, lookup_set, not_or, ← lookup_eq_none_iff]
  by_cases h : key = other
  · simp [h]
  · simp [h, Ne.symm h]

theorem nodup_keys_set {m : Pairs} (hm : m.keys.Nodup) (key value : String) :
    (m.set key value).keys.Nodup := by
  induction m with
  | nil => simp [set, keys]
  | cons p m ih =>
    obtain ⟨k, v⟩ := p
    rw [keys, List.map_cons, List.nodup_cons, ← keys] at hm
    rw [set]
    split
    · rw [keys, List.map_cons, List.nodup_cons, ← keys]
      exact hm
    · next hk =>
      rw [keys, List.map_cons, List.nodup_cons, ← keys]
      refine ⟨fun h => ?_, ih hm.2⟩
      rcases mem_keys_set.mp h with h | h
      · exact hk h
      · exact hm.1 h

theorem set_ne_nil (m : Pairs) (key value : String) : m.set key value ≠ [] := by
  cases m with
  | nil => simp [set]
  | cons p m =>
    rw [set]
    split <;> simp

theorem ofWrites_concat (writes : Pairs) (key value : String) :
    ofWrites (writes ++ [(key, value)]) = (ofWrites writes).set key value := by
  rw [ofWrites, List.foldl_append]
  rfl

theorem nodup_keys_ofWrites (writes : Pairs) : (ofWrites writes).keys.Nodup := by
  suffices h : ∀ m : Pairs, m.keys.Nodup →
      (keys (writes.foldl (fun (m : Pairs) p => m.set p.1 p.2) m)).Nodup from
    h [] List.nodup_nil
  induction writes with
  | nil => exact fun _ hm => hm
  | cons p writes ih => exact fun m hm => ih _ (nodup_keys_set hm p.1 p.2)

/-! ## Layers -/

theorem lookup_adopt (m : Pairs) (p : String × String) (key : String) :
    (m.adopt p).lookup key = (m.lookup key).or (if p.1 = key then some p.2 else none) := by
  obtain ⟨k, v⟩ := p
  rw [adopt]
  split
  · next h =>
    split
    · next hk =>
      obtain rfl : k = key := hk
      obtain ⟨w, hw⟩ := Option.isSome_iff_exists.mp h
      rw [hw]
      rfl
    · simp
  · rw [List.lookup_append, lookup_cons]
    rfl

theorem lookup_overlay (m below : Pairs) (key : String) :
    (m.overlay below).lookup key = (m.lookup key).or (below.lookup key) := by
  induction below generalizing m with
  | nil => simp [overlay]
  | cons p below ih =>
    obtain ⟨k, v⟩ := p
    rw [overlay, List.foldl_cons, ← overlay, ih, lookup_adopt, Option.or_assoc, lookup_cons]
    split <;> simp

/-- A look-up in layers finds what the first layer that has the key holds. -/
theorem lookup_layered (layers : List Pairs) (key : String) :
    (layered layers).lookup key = layers.findSome? fun m => m.lookup key := by
  suffices h : ∀ m : Pairs, (layers.foldl overlay m).lookup key
      = (m.lookup key).or (layers.findSome? fun m => m.lookup key) by
    rw [layered, h]
    rfl
  induction layers with
  | nil => simp
  | cons layer layers ih =>
    intro m
    rw [List.foldl_cons, ih, lookup_overlay, Option.or_assoc, List.findSome?_cons]
    cases layer.lookup key <;> rfl

theorem lookup_layered_cons (m : Pairs) (layers : List Pairs) (key : String) :
    (layered (m :: layers)).lookup key = (m.lookup key).or ((layered layers).lookup key) := by
  rw [lookup_layered, lookup_layered, List.findSome?_cons]
  cases m.lookup key <;> rfl

theorem nodup_keys_adopt {m : Pairs} (hm : m.keys.Nodup) (p : String × String) :
    (m.adopt p).keys.Nodup := by
  rw [adopt]
  split
  · exact hm
  · next h =>
    rw [Option.not_isSome_iff_eq_none, lookup_eq_none_iff] at h
    rw [keys, List.map_append, List.nodup_append, ← keys]
    refine ⟨hm, by simp, fun a ha b hb => ?_⟩
    rw [List.mem_map] at hb
    obtain ⟨q, hq, rfl⟩ := hb
    rw [List.mem_singleton.mp hq]
    exact fun hap => h (hap ▸ ha)

theorem nodup_keys_layered (layers : List Pairs) : (layered layers).keys.Nodup := by
  have hoverlay : ∀ (below m : Pairs), m.keys.Nodup → (m.overlay below).keys.Nodup := by
    intro below
    induction below with
    | nil => exact fun _ hm => hm
    | cons p below ih => exact fun m hm => ih _ (nodup_keys_adopt hm p)
  suffices h : ∀ m : Pairs, m.keys.Nodup → (keys (layers.foldl overlay m)).Nodup from
    h [] List.nodup_nil
  induction layers with
  | nil => exact fun _ hm => hm
  | cons layer layers ih => exact fun m hm => ih _ (hoverlay layer m hm)

end Pairs

/-! ## As entries of a dictionary -/

namespace Entries

theorem insert_of_new {es : Entries} {key : Value} (h : ∀ e ∈ es, e.1.standsFor key = false)
    (value : Value) : es.insert key value = es ++ [(key, value)] := by
  induction es with
  | nil => rfl
  | cons e es ih =>
    obtain ⟨k, v⟩ := e
    have hk : k.standsFor key = false := h _ List.mem_cons_self
    rw [insert, hk, ih fun e he => h e (List.mem_cons_of_mem _ he)]
    rfl

/-- Pairs with new and different keys are added at the end. -/
theorem foldl_insert_of_pairwise {done es : Entries}
    (h : (done ++ es).Pairwise fun a b => a.1.standsFor b.1 = false) :
    es.foldl (fun es p => es.insert p.1 p.2) done = done ++ es := by
  induction es generalizing done with
  | nil => simp
  | cons e es ih =>
    have hnew : ∀ d ∈ done, d.1.standsFor e.1 = false := fun d hd =>
      (List.pairwise_append.mp h).2.2 d hd e List.mem_cons_self
    rw [List.foldl_cons, insert_of_new hnew, ih, List.append_assoc, List.singleton_append]
    rw [List.append_assoc]
    exact h

/-- Pairs with different keys build the dictionary that lists them. -/
theorem ofList_of_pairwise {es : Entries}
    (h : es.Pairwise fun a b => a.1.standsFor b.1 = false) : ofList es = es :=
  @foldl_insert_of_pairwise [] es h

end Entries

namespace Pairs

theorem get?_entries (m : Pairs) (key : String) :
    m.entries.get? (.str key) = (m.lookup key).map .str := by
  induction m with
  | nil => rfl
  | cons p m ih =>
    obtain ⟨k, v⟩ := p
    rw [entries, List.map_cons, Entries.get?_cons, Value.standsFor_str, ← entries, ih, lookup_cons]
    by_cases h : k = key <;> simp [h]

theorem insert_entries (m : Pairs) (key value : String) :
    m.entries.insert (.str key) (.str value) = (m.set key value).entries := by
  induction m with
  | nil => rfl
  | cons p m ih =>
    obtain ⟨k, v⟩ := p
    rw [set, entries, List.map_cons, Entries.insert, Value.standsFor_str, ← entries, ih]
    by_cases h : k = key <;> simp [h, entries]

end Pairs

end SchemaStore
