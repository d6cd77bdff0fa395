import SchemaStore.Proofs.Storage.Atomicity
import SchemaStore.Proofs.Storage.WriteOnce

/-!
Records that stay.  A record is fixed when the engine has it and has no other value for its key
anywhere, be it in memory or in an older table.  A write of a new key makes its record fixed, since
a key without a value is in no place; and then flushing, compacting and opening again, which only
move records or drop those that are covered, cannot bring back anything else.
-/

namespace SchemaStore

theorem Pairs.lookup_of_unique {m : Pairs} {p : String × String} (hmem : p ∈ m)
    (hunique : ∀ value, (p.1, value) ∈ m → value = p.2) : m.lookup p.1 = some p.2 := by
  cases hfound : m.lookup p.1 with
  | none => exact absurd (List.mem_map_of_mem hmem) (lookup_eq_none_iff.mp hfound)
  | some value => rw [hunique value (mem_of_lookup hfound)]

namespace Shelf

variable {s t : Shelf} {n k : Nat} {p q : String × String}

/-- The shelf has the record, no other value for its key, and at most so many characters. -/
structure Fixes (s : Shelf) (n : Nat) (p : String × String) : Prop where
  weight : s.weight ≤ n
  mem : p ∈ s.contents
  unique : ∀ value, (p.1, value) ∈ s.contents → value = p.2

theorem lookup_eq_contents (s : Shelf) (key : String) : s.lookup key = s.contents.lookup key := by
  rw [lookup_eq_findSome?, contents, Pairs.lookup_flatten]

theorem Fixes.lookup (h : s.Fixes n p) : s.lookup p.1 = some p.2 :=
  (s.lookup_eq_contents p.1).trans (Pairs.lookup_of_unique h.mem h.unique)

theorem Fixes.mono (h : s.Fixes n p) (hle : n ≤ k) : s.Fixes k p :=
  ⟨Nat.le_trans h.weight hle, h.mem, h.unique⟩

theorem Fixes.of_perm (h : s.Fixes n p) (hperm : t.contents.Perm s.contents) : t.Fixes n p where
  weight := Nat.le_trans (Nat.le_of_eq (Pairs.weight_perm hperm)) h.weight
  mem := hperm.mem_iff.mpr h.mem
  unique := fun value hvalue => h.unique value (hperm.mem_iff.mp hvalue)

theorem Fixes.flush (h : s.Fixes n p) (name : String) (sample : Value) :
    (s.flush name sample).Fixes n p :=
  h.of_perm (s.perm_contents_flush name sample)

theorem Fixes.reopened (h : s.Fixes n p) : s.reopened.Fixes n p :=
  h.of_perm s.perm_contents_reopened

/-- A write does not touch what is held under other keys. -/
theorem mem_contents_append (s : Shelf) {key : String} (hne : q.1 ≠ key) (value : String) :
    (key, value) ∈ (s.append q).contents ↔ (key, value) ∈ s.contents := by
  have hnodup : (s.memory.set q.1 q.2).keys.Nodup :=
    Pairs.nodup_keys_set s.nodup_keys_memory q.1 q.2
  rw [contents_eq, contents_eq, List.mem_append, List.mem_append, memory_append,
    ← Pairs.lookup_eq_some_iff hnodup, Pairs.lookup_set, if_neg hne,
    Pairs.lookup_eq_some_iff s.nodup_keys_memory]
  rfl

theorem Fixes.append (h : s.Fixes n p) (hne : q.1 ≠ p.1) :
    (s.append q).Fixes (n + Pairs.weight [q]) p where
  weight := Nat.le_trans (s.weight_append_le q) (Nat.add_le_add_right h.weight _)
  mem := (s.mem_contents_append hne p.2).mpr h.mem
  unique := fun value hvalue => h.unique value ((s.mem_contents_append hne value).mp hvalue)

/-- A record with a new key is the only one with it. -/
theorem fixes_append_of_none (hs : s.weight ≤ n) (hnone : s.lookup p.1 = none) :
    (s.append p).Fixes (n + Pairs.weight [p]) p := by
  rw [lookup_eq_contents, Pairs.lookup_eq_none_iff, contents_eq, Pairs.keys, List.map_append,
    List.mem_append, not_or, ← Pairs.keys, ← Pairs.keys] at hnone
  obtain ⟨hmemory, htables⟩ := hnone
  have hcontents : (s.append p).contents = s.memory ++ [p] ++ s.tableLayers.flatten := by
    rw [contents_eq, memory_append, Pairs.set_of_new hmemory]
    rfl
  refine ⟨Nat.le_trans (s.weight_append_le p) (Nat.add_le_add_right hs _), ?_, fun value h => ?_⟩
  · rw [hcontents]
    exact List.mem_append_left _ (List.mem_append_right _ List.mem_cons_self)
  · rw [hcontents, List.mem_append, List.mem_append, List.mem_singleton] at h
    rcases h with (h | h) | h
    · exact absurd (List.mem_map_of_mem h) hmemory
    · rw [← h]
    · exact absurd (List.mem_map_of_mem h) htables

theorem Fixes.put (h : s.Fixes n p) (c : Settings) (name : String) (hne : q.1 ≠ p.1) :
    (s.put c name q).Fixes (n + Pairs.weight [q]) p := by
  rw [Shelf.put]
  split
  · exact (h.append hne).flush name c.indexSample
  · exact h.append hne

theorem fixes_put_of_none (hs : s.weight ≤ n) (hnone : s.lookup p.1 = none) (c : Settings)
    (name : String) : (s.put c name p).Fixes (n + Pairs.weight [p]) p := by
  rw [Shelf.put]
  split
  · exact (fixes_append_of_none hs hnone).flush name c.indexSample
  · exact fixes_append_of_none hs hnone

/-- What is merged is a record of some table, and each key of a table is merged. -/
theorem Fixes.compact (h : s.Fixes n p) (name : String) (sample : Value) :
    (s.compact name sample).Fixes n p := by
  have hweight := s.weight_compact_le name sample
  have htables : ∀ {r : String × String}, r ∈ s.tableLayers.flatten → r ∈ s.contents :=
    fun hr => List.mem_append_right _ hr
  have hmerged : ∀ value, s.merged.lookup p.1 = some value ↔
      List.lookup p.1 s.tableLayers.flatten = some value := by
    intro value
    rw [merged, Pairs.lookup_layered, Pairs.lookup_flatten]
  have hcontents : ∀ value, (p.1, value) ∈ s.memory ++ (s.merged.sorted ++ []) ↔
      (p.1, value) ∈ s.memory ∨ List.lookup p.1 s.tableLayers.flatten = some value := by
    intro value
    rw [List.append_nil, List.mem_append, s.merged.perm_sorted.mem_iff,
      ← Pairs.lookup_eq_some_iff s.nodup_keys_merged, hmerged]
  rw [Shelf.compact] at hweight ⊢
  split
  · exact h
  · next hmany =>
    rw [if_neg hmany] at hweight
    refine ⟨Nat.le_trans hweight h.weight, (hcontents p.2).mpr ?_, fun value hvalue => ?_⟩
    · rcases List.mem_append.mp h.mem with hin | hin
      · exact .inl hin
      · exact .inr (Pairs.lookup_of_unique hin fun value hvalue => h.unique value (htables hvalue))
    · rcases (hcontents value).mp hvalue with hin | hin
      · exact h.unique value (List.mem_append_left _ hin)
      · exact h.unique value (htables (Pairs.mem_of_lookup hin))

end Shelf

namespace Engine

variable {α : Type} {p : String × String} {k : Nat}

/-- Whether it succeeds or fails, the action leaves the record fixed, and at most so much more than
before. -/
def Retains (p : String × String) (k : Nat) (action : Action α) : Prop :=
  ∀ ⦃site : Site⦄ ⦃n : Nat⦄, (site.Bears fun s => s.Fixes n p) → n + k < Sheet.capacity →
    ((action site).left.Bears fun s => s.Fixes (n + k) p) ∧
      (action site).left.engine.directory = site.engine.directory

theorem retains_flush (clock : Int) : Retains p 0 (flush clock) := fun _ _ hsite hsize =>
  bears_flush (fun _ hs => Nat.lt_of_le_of_lt hs.weight hsize)
    (fun _ name sample hs => hs.flush name sample) clock hsite

theorem retains_compact (clock : Int) : Retains p 0 (compact clock) := fun _ _ hsite hsize =>
  bears_compact (fun _ hs => Nat.lt_of_le_of_lt hs.weight hsize)
    (fun _ name sample hs => hs.compact name sample) clock hsite

theorem retains_close (clock : Int) : Retains p 0 (close clock) := fun _ _ hsite hsize =>
  bears_close (fun _ hs => Nat.lt_of_le_of_lt hs.weight hsize)
    (fun _ name sample hs => hs.flush name sample) clock hsite

/-- A key that has a value is not written, so the key of a fixed record never is. -/
theorem retains_putNew (clock : Int) (q : String × String) :
    Retains p (Pairs.weight [q]) (putNew clock (.str q.1) (.str q.2)) := by
  intro site n hsite hsize
  cases hsite with
  | @opened s c files hc hon hs =>
    cases hfound : s.lookup q.1 with
    | some old =>
      rw [putNew_shelf_of_some hon c clock (.str q.2) hfound]
      exact ⟨.opened hc hon (hs.mono (Nat.le_add_right _ _)), rfl⟩
    | none =>
      have hne : q.1 ≠ p.1 := by
        intro heq
        rw [heq, hs.lookup] at hfound
        cases hfound
      have hweight := hs.weight
      obtain ⟨after, hput, hafter⟩ := putNew_shelf_of_none hc hon q (by omega) clock hfound
      rw [hput]
      exact ⟨.opened hc hafter (hs.put c _ hne), rfl⟩
  | closed hempty hon hs =>
    rw [putNew_closed rfl]
    exact ⟨.closed hempty hon (hs.mono (Nat.le_add_right _ _)), rfl⟩

/-- A write that was made because the key was new makes the record fixed. -/
theorem bears_of_putNew {site after : Site} {n : Nat} {clock : Int} (hsite : site.IsWithin n)
    (hsize : n + Pairs.weight [p] < Sheet.capacity)
    (h : putNew clock (.str p.1) (.str p.2) site = .ok true after) :
    (after.Bears fun s => s.Fixes (n + Pairs.weight [p]) p) ∧
      after.engine.directory = site.engine.directory := by
  cases hsite with
  | @opened s c files hc hon hs =>
    cases hfound : s.lookup p.1 with
    | some old =>
      rw [putNew_shelf_of_some hon c clock (.str p.2) hfound] at h
      cases h
    | none =>
      obtain ⟨written, hput, hwritten⟩ := putNew_shelf_of_none hc hon p (by omega) clock hfound
      rw [hput] at h
      cases h
      exact ⟨.opened hc hwritten (Shelf.fixes_put_of_none hs hfound c _), rfl⟩
  | closed hempty hon hs =>
    rw [putNew_closed rfl] at h
    cases h

end Engine
end SchemaStore
