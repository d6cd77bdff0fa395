import SchemaStore.Storage.Directory

/-!
Directories as finite maps.  Every question about a directory is a question about what is read
under a name, and about which names there are.
-/

namespace SchemaStore
namespace Directory

open Utf8 (Bytes)

theorem mem_names_iff {d : Directory} {name : String} :
    name ∈ d.names ↔ (d.read? name).isSome = true := by
  induction d with
  | nil => simp [names]
  | cons f rest ih =>
    obtain ⟨n, content⟩ := f
    rw [names, List.map_cons, List.mem_cons, ← names, ih, read?]
    by_cases h : n = name
    · simp [h]
    · simp [h, Ne.symm h]

theorem mem_names_of_read? {d : Directory} {name : String} {content : Bytes}
    (h : d.read? name = some content) : name ∈ d.names := by
  rw [mem_names_iff, h]
  rfl

theorem read?_write (d : Directory) (name other : String) (content : Bytes) :
    (d.write name content).read? other = if other = name then some content else d.read? other := by
  split
  · next h => rw [h, read?_write_self]
  · next h => exact read?_write_of_ne d content h

theorem mem_names_write {d : Directory} {name other : String} {content : Bytes} :
    other ∈ (d.write name content).names ↔ other = name ∨ other ∈ d.names := by
  rw [mem_names_iff, mem_names_iff, read?_write]
  by_cases h : other = name <;> simp [h]

theorem names_write_of_mem {d : Directory} {name : String} (h : name ∈ d.names)
    (content : Bytes) : (d.write name content).names = d.names := by
  induction d with
  | nil => exact absurd h List.not_mem_nil
  | cons f rest ih =>
    obtain ⟨n, old⟩ := f
    rw [names, List.map_cons, List.mem_cons, ← names] at h
    rw [write]
    split
    · rfl
    · next hn =>
      rw [names, List.map_cons, ← names, ih (h.resolve_left (Ne.symm hn))]
      rfl

theorem write_write (d : Directory) (name : String) (first second : Bytes) :
    (d.write name first).write name second = d.write name second := by
  induction d with
  | nil => simp [write]
  | cons f rest ih =>
    obtain ⟨n, old⟩ := f
    by_cases h : n = name
    · simp [write, h]
    · simp [write, h, ih]

/-- To give a file what it holds changes nothing. -/
theorem write_of_read? {d : Directory} {name : String} {content : Bytes}
    (h : d.read? name = some content) : d.write name content = d := by
  induction d with
  | nil => cases h
  | cons f rest ih =>
    obtain ⟨n, old⟩ := f
    rw [read?] at h
    rw [write]
    split at h
    · next hn =>
      rw [if_pos hn, Option.some.inj h]
    · next hn =>
      rw [if_neg hn, ih h]

theorem nodup_names_write {d : Directory} (h : d.names.Nodup) (name : String) (content : Bytes) :
    (d.write name content).names.Nodup := by
  induction d with
  | nil => simp [write, names]
  | cons f rest ih =>
    obtain ⟨n, old⟩ := f
    rw [names, List.map_cons, List.nodup_cons, ← names] at h
    rw [write]
    split
    · rw [names, List.map_cons, List.nodup_cons, ← names]
      exact h
    · next hn =>
      rw [names, List.map_cons, List.nodup_cons, ← names]
      refine ⟨fun hin => ?_, ih h.2⟩
      rcases mem_names_write.mp hin with hin | hin
      · exact hn hin
      · exact h.1 hin

theorem read?_remove (d : Directory) (name other : String) :
    (d.remove name).read? other = if other = name then none else d.read? other := by
  induction d with
  | nil => simp [remove]
  | cons f rest ih =>
    obtain ⟨n, content⟩ := f
    rw [remove, List.filter_cons, ← remove, read?]
    by_cases hn : n = name
    · rw [if_neg (by simpa using hn), ih]
      by_cases ho : other = name
      · rw [if_pos ho, if_pos ho]
      · rw [if_neg ho, if_neg ho, if_neg (fun h => ho (h.symm.trans hn))]
    · rw [if_pos (by simpa using hn), read?, ih]
      by_cases ho : n = other
      · rw [if_pos ho, if_pos ho, if_neg (fun h => hn (ho.trans h))]
      · rw [if_neg ho, if_neg ho]

theorem nodup_names_remove {d : Directory} (h : d.names.Nodup) (name : String) :
    (d.remove name).names.Nodup := by
  rw [names, remove]
  exact (List.filter_sublist.map _).nodup h

/-- Deletes files one after the other. -/
def removeAll (d : Directory) (removed : List String) : Directory := removed.foldl remove d

theorem read?_removeAll (d : Directory) (removed : List String) (name : String) :
    (d.removeAll removed).read? name = if name ∈ removed then none else d.read? name := by
  induction removed generalizing d with
  | nil => simp [removeAll]
  | cons first rest ih =>
    rw [removeAll, List.foldl_cons, ← removeAll, ih, read?_remove]
    by_cases hrest : name ∈ rest
    · rw [if_pos hrest, if_pos (List.mem_cons_of_mem first hrest)]
    · by_cases hfirst : name = first <;> simp [hrest, hfirst]

theorem nodup_names_removeAll {d : Directory} (h : d.names.Nodup) (removed : List String) :
    (d.removeAll removed).names.Nodup := by
  induction removed generalizing d with
  | nil => exact h
  | cons first rest ih => exact ih (nodup_names_remove h first)

/-- To touch a file that is there changes nothing. -/
theorem touch_of_read? {d : Directory} {name : String} {content : Bytes}
    (h : d.read? name = some content) : d.touch name = d := by
  rw [touch, h]
  rfl

theorem read?_touch_self (d : Directory) (name : String) :
    (d.touch name).read? name = some ((d.read? name).getD []) := by
  cases h : d.read? name with
  | some content => rw [touch_of_read? h, h, Option.getD_some]
  | none =>
    rw [touch, h]
    exact read?_write_self d name []

theorem read?_touch_of_ne {d : Directory} {name other : String} (h : other ≠ name) :
    (d.touch name).read? other = d.read? other := by
  rw [touch]
  split
  · rfl
  · exact read?_write_of_ne d [] h

end Directory
end SchemaStore
