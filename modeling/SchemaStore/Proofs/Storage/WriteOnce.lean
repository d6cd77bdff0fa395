import SchemaStore.Proofs.Storage.Operations

/-!
Engines whose keys are written once.  When no key is written again, each key is held in a single
place, in memory or in one table.  Then it does not matter in which order the tables are asked, and
an engine that is opened again answers as before, whatever the names of its tables are.
-/

namespace SchemaStore

namespace Pairs

/-- Pairs that are held in several places are found in the first of them. -/
theorem lookup_flatten (layers : List Pairs) (key : String) :
    List.lookup key layers.flatten = layers.findSome? fun m => m.lookup key := by
  induction layers with
  | nil => rfl
  | cons layer layers ih =>
    rw [List.flatten_cons, List.lookup_append, ih, List.findSome?_cons]
    cases layer.lookup key <;> rfl

theorem set_of_new {m : Pairs} {key : String} (h : key ∉ m.keys) (value : String) :
    m.set key value = m ++ [(key, value)] := by
  induction m with
  | nil => rfl
  | cons p m ih =>
    rw [keys, List.map_cons, List.mem_cons, not_or, ← keys] at h
    rw [set, if_neg (Ne.symm h.1), ih h.2, List.cons_append]

theorem perm_layered {layers : List Pairs} (h : (keys layers.flatten).Nodup) :
    (layered layers).Perm layers.flatten := by
  refine perm_of_lookup (nodup_keys_layered layers) h fun key => ?_
  rw [lookup_layered, lookup_flatten]

end Pairs

namespace Shelf

variable {s : Shelf} {m : Pairs}

/-- A shelf holds each pair of a plain map in a single place, and nothing else. -/
structure Spreads (s : Shelf) (m : Pairs) : Prop where
  nodup : m.keys.Nodup
  perm : s.contents.Perm m

theorem spreads_empty : empty.Spreads [] := ⟨List.nodup_nil, List.Perm.refl _⟩

theorem Spreads.nodup_contents (h : s.Spreads m) : s.contents.keys.Nodup :=
  (h.perm.map _).nodup_iff.mpr h.nodup

/-- What is spread over a shelf is what the shelf answers. -/
theorem Spreads.holds (h : s.Spreads m) : s.Holds m := by
  refine ⟨h.nodup, fun key => ?_⟩
  rw [lookup_eq_findSome?, ← Pairs.lookup_flatten]
  exact Pairs.lookup_perm h.perm h.nodup_contents key

theorem Spreads.weight_eq (h : s.Spreads m) : s.weight = m.weight := Pairs.weight_perm h.perm

/-! ## What goes on being spread -/

theorem Spreads.reopened (h : s.Spreads m) : s.reopened.Spreads m :=
  ⟨h.nodup, s.perm_contents_reopened.trans h.perm⟩

theorem Spreads.append (h : s.Spreads m) {p : String × String} (hnew : m.lookup p.1 = none) :
    (s.append p).Spreads (m ++ [p]) := by
  have hkey : p.1 ∉ m.keys := Pairs.lookup_eq_none_iff.mp hnew
  have hmemory : p.1 ∉ s.memory.keys := fun hin =>
    hkey ((h.perm.map _).subset (List.map_subset _ (List.subset_append_left _ _) hin))
  constructor
  · have hadopt := Pairs.nodup_keys_adopt h.nodup p
    rw [Pairs.adopt, hnew] at hadopt
    exact hadopt
  · rw [contents_eq, memory_append, Pairs.set_of_new hmemory, List.append_assoc]
    show (s.memory ++ p :: s.tableLayers.flatten).Perm (m ++ [p])
    exact (List.perm_middle.trans (h.perm.cons p)).trans (List.perm_append_singleton p m).symm

theorem Spreads.flush (h : s.Spreads m) (name : String) (sample : Value) :
    (s.flush name sample).Spreads m :=
  ⟨h.nodup, (s.perm_contents_flush name sample).trans h.perm⟩

theorem Spreads.put (h : s.Spreads m) (c : Settings) (name : String) {p : String × String}
    (hnew : m.lookup p.1 = none) : (s.put c name p).Spreads (m ++ [p]) := by
  rw [Shelf.put]
  split
  · exact (h.append hnew).flush name c.indexSample
  · exact h.append hnew

theorem Spreads.compact (h : s.Spreads m) (name : String) (sample : Value) :
    (s.compact name sample).Spreads m := by
  rw [Shelf.compact]
  split
  · exact h
  · refine ⟨h.nodup, List.Perm.trans ?_ h.perm⟩
    -- The tables have no key in common, so merging them drops nothing.
    have htables : (Pairs.keys s.tableLayers.flatten).Nodup :=
      ((List.sublist_append_right s.memory _).map _).nodup h.nodup_contents
    have hmerged : s.merged.sorted.Perm s.tableLayers.flatten :=
      s.merged.perm_sorted.trans (Pairs.perm_layered htables)
    show (s.memory ++ (s.merged.sorted ++ [])).Perm _
    rw [List.append_nil]
    exact hmerged.append_left s.memory

end Shelf

/-! ## Engines that serve a plain map -/

/-- The engine holds the pairs of a plain map, each in a single place.  It is open, or it was closed
after a flush. -/
inductive Site.Serves (m : Pairs) : Site → Prop where
  | opened {s : Shelf} {c : Settings} {files : Directory} (hc : c.IsAccepted) (hon : s.IsOn files)
      (hs : s.Spreads m) : Serves m (s.site c files)
  | closed {s : Shelf} {c : Settings} {files : Directory} (hempty : s.writes = [])
      (hon : s.IsOn files) (hs : s.Spreads m) :
      Serves m { engine := Engine.closedEngine s c, files := files }

theorem Site.serves_iff_bears {m : Pairs} {site : Site} :
    site.Serves m ↔ site.Bears fun s => s.Spreads m := by
  constructor
  · intro h
    cases h with
    | opened hc hon hs => exact .opened hc hon hs
    | closed hempty hon hs => exact .closed hempty hon hs
  · intro h
    cases h with
    | opened hc hon hs => exact .opened hc hon hs
    | closed hempty hon hs => exact .closed hempty hon hs

def Directory.Keeps (files : Directory) (m : Pairs) : Prop :=
  ∃ s : Shelf, s.IsOn files ∧ s.Spreads m

theorem Site.Serves.keeps {m : Pairs} {site : Site} (h : site.Serves m) : site.files.Keeps m :=
  (serves_iff_bears.mp h).exists_shelf

namespace Engine

variable {α : Type} {m : Pairs}

/-- An action that keeps what is held, and where it is held. -/
def Steady (m : Pairs) (action : Action α) : Prop :=
  ∀ site : Site, site.Serves m →
    (action site).left.Serves m ∧ (action site).left.engine.directory = site.engine.directory

theorem IsReading.steady {action : Action α} (h : IsReading action) : Steady m action := by
  intro site hsite
  rw [h site]
  exact ⟨hsite, rfl⟩

theorem weight_lt_of_spreads (hsize : m.weight < Sheet.capacity) (s : Shelf) (hs : s.Spreads m) :
    s.weight < Sheet.capacity := hs.weight_eq ▸ hsize

theorem steady_flush (hsize : m.weight < Sheet.capacity) (clock : Int) :
    Steady m (flush clock) := by
  intro site hsite
  rw [Site.serves_iff_bears] at hsite ⊢
  exact bears_flush (weight_lt_of_spreads hsize)
    (fun _ name sample hs => hs.flush name sample) clock hsite

theorem steady_compact (hsize : m.weight < Sheet.capacity) (clock : Int) :
    Steady m (compact clock) := by
  intro site hsite
  rw [Site.serves_iff_bears] at hsite ⊢
  exact bears_compact (weight_lt_of_spreads hsize) (fun _ name sample hs => hs.compact name sample)
    clock hsite

theorem steady_close (hsize : m.weight < Sheet.capacity) (clock : Int) :
    Steady m (close clock) := by
  intro site hsite
  rw [Site.serves_iff_bears] at hsite ⊢
  exact bears_close (weight_lt_of_spreads hsize)
    (fun _ name sample hs => hs.flush name sample) clock hsite

/-- An engine that is opened on the files serves what was held. -/
theorem openAt_keeps {files : Directory} (h : (files.touch logName).Keeps m)
    (hsize : m.weight < Sheet.capacity) {c : Settings} (hc : c.IsAccepted) :
    ∃ e, openAt c files = (.ok e, files.touch logName) ∧ e.directory = c.dataDir ∧
      e.isClosed = false ∧ Site.Serves m { engine := e, files := files.touch logName } := by
  obtain ⟨s, hon, hs⟩ := h
  simp only [Site.serves_iff_bears]
  exact openAt_bears (weight_lt_of_spreads hsize) (fun _ hs => hs.reopened) hon hs hc

end Engine
end SchemaStore
