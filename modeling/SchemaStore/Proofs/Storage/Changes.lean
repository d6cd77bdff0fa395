import SchemaStore.Proofs.Storage.Shelf

/-!
How the storage engine changes what it holds.  Each operation of the engine on the files of a shelf
succeeds and leaves the files of another shelf, and what the change does to the answers can be
read off the two shelves.
-/

namespace SchemaStore

/-! ## How much is held -/

namespace Pairs

def weight : Pairs → Nat
  | [] => 0
  | p :: rest => (Table.recordText p).length + 1 + weight rest

theorem weight_cons (p : String × String) (m : Pairs) :
    weight (p :: m) = (Table.recordText p).length + 1 + m.weight := rfl

theorem length_textOf (m : Pairs) : (Sheet.textOf m).length = m.weight := by
  induction m with
  | nil => rfl
  | cons p m ih => rw [Sheet.length_textOf_cons, weight_cons, ih]

theorem weight_append (a b : Pairs) : (a ++ b).weight = a.weight + b.weight := by
  induction a with
  | nil => exact (Nat.zero_add _).symm
  | cons p a ih =>
    rw [List.cons_append, weight_cons, weight_cons, ih]
    omega

theorem weight_perm {a b : Pairs} (h : a.Perm b) : a.weight = b.weight := by
  induction h with
  | nil => rfl
  | cons p _ ih => rw [weight_cons, weight_cons, ih]
  | swap p q m =>
    simp only [weight_cons]
    omega
  | trans _ _ hfirst hsecond => exact hfirst.trans hsecond

theorem weight_set_le (m : Pairs) (key value : String) :
    (m.set key value).weight ≤ m.weight + weight [(key, value)] := by
  induction m with
  | nil => exact Nat.le_add_left _ _
  | cons q m ih =>
    obtain ⟨k, v⟩ := q
    rw [set]
    split
    · next h =>
      subst h
      rw [weight_cons, weight_cons, weight_cons]
      omega
    · rw [weight_cons, weight_cons]
      omega

theorem weight_overlay_le (m below : Pairs) :
    (m.overlay below).weight ≤ m.weight + below.weight := by
  induction below generalizing m with
  | nil => exact Nat.le_refl _
  | cons p below ih =>
    have hadopt : (m.adopt p).weight ≤ m.weight + weight [p] := by
      rw [adopt]
      split
      · exact Nat.le_add_right _ _
      · exact Nat.le_of_eq (weight_append m [p])
    have hrest := ih (m.adopt p)
    have hnil : weight [] = 0 := rfl
    rw [weight_cons, hnil] at hadopt
    rw [weight_cons, overlay, List.foldl_cons, ← overlay]
    omega

theorem weight_layered_le (layers : List Pairs) :
    (layered layers).weight ≤ weight layers.flatten := by
  suffices h : ∀ m : Pairs, weight (layers.foldl overlay m) ≤ m.weight + weight layers.flatten by
    have hnil := h []
    rwa [show weight [] = 0 from rfl, Nat.zero_add] at hnil
  induction layers with
  | nil => exact fun m => Nat.le_refl _
  | cons layer layers ih =>
    intro m
    have hfirst := weight_overlay_le m layer
    have hrest := ih (m.overlay layer)
    rw [List.foldl_cons, List.flatten_cons, weight_append]
    omega

theorem weight_le_flatten {layers : List Pairs} {layer : Pairs} (h : layer ∈ layers) :
    layer.weight ≤ weight layers.flatten := by
  obtain ⟨before, behind, hsplit⟩ := List.append_of_mem h
  rw [hsplit, List.flatten_append, List.flatten_cons, weight_append, weight_append]
  omega

end Pairs

namespace Shelf

/-! ## Changes of shelves -/

def append (s : Shelf) (p : String × String) : Shelf := { s with writes := s.writes ++ [p] }

/-- What is in memory becomes the newest table. -/
def flush (s : Shelf) (name : String) (sample : Value) : Shelf :=
  if s.writes = [] then s
  else
    { writes := []
      sheets := s.sheets ++ [Sheet.ofItems name sample s.memory s.nodup_keys_memory] }

/-- A write, which moves what is in memory to a table once there is enough. -/
def put (s : Shelf) (c : Settings) (name : String) (p : String × String) : Shelf :=
  if c.isFull (s.append p).memory.length then (s.append p).flush name c.indexSample
  else s.append p

def compact (s : Shelf) (name : String) (sample : Value) : Shelf :=
  if s.sheets.length < 2 then s
  else { s with sheets := [Sheet.ofItems name sample s.merged s.nodup_keys_merged] }

theorem writes_flush (s : Shelf) (name : String) (sample : Value) :
    (s.flush name sample).writes = [] := by
  rw [flush]
  split
  · assumption
  · rfl

/-- A change leaves tables that were there, or adds one under the name that it is given. -/
def IsFrom (s : Shelf) (name : String) (sample : Value) (sheet : Sheet) : Prop :=
  sheet ∈ s.sheets ∨ sheet.name = name ∧ sheet.isMarked = Table.isInStep sample

theorem isFrom_flush {s : Shelf} {name : String} {sample : Value} {sheet : Sheet}
    (h : sheet ∈ (s.flush name sample).sheets) : s.IsFrom name sample sheet := by
  rw [flush] at h
  split at h
  · exact .inl h
  · rcases List.mem_append.mp h with h | h
    · exact .inl h
    · rw [List.mem_singleton.mp h]
      exact .inr ⟨rfl, rfl⟩

theorem isFrom_put {s : Shelf} {c : Settings} {name : String} {p : String × String} {sheet : Sheet}
    (h : sheet ∈ (s.put c name p).sheets) : s.IsFrom name c.indexSample sheet := by
  rw [put] at h
  split at h
  · exact (isFrom_flush h : (s.append p).IsFrom name c.indexSample sheet)
  · exact .inl h

theorem isFrom_compact {s : Shelf} {name : String} {sample : Value} {sheet : Sheet}
    (h : sheet ∈ (s.compact name sample).sheets) : s.IsFrom name sample sheet := by
  rw [compact] at h
  split at h
  · exact .inl h
  · rw [List.mem_singleton.mp h]
    exact .inr ⟨rfl, rfl⟩

/-- All pairs that are held, from memory and from every table. -/
def contents (s : Shelf) : Pairs := s.layers.flatten

def weight (s : Shelf) : Nat := s.contents.weight

theorem contents_eq (s : Shelf) : s.contents = s.memory ++ s.tableLayers.flatten := rfl

theorem weight_eq (s : Shelf) :
    s.weight = s.memory.weight + Pairs.weight s.tableLayers.flatten :=
  Pairs.weight_append s.memory s.tableLayers.flatten

theorem memory_append (s : Shelf) (p : String × String) :
    (s.append p).memory = s.memory.set p.1 p.2 := Pairs.ofWrites_concat s.writes p.1 p.2

theorem memory_ne_nil {s : Shelf} (h : s.writes ≠ []) : s.memory ≠ [] := by
  obtain ⟨rest, last, hlast⟩ := List.eq_nil_or_concat s.writes |>.resolve_left h
  rw [memory, hlast, List.concat_eq_append, Pairs.ofWrites_concat]
  exact Pairs.set_ne_nil _ _ _

/-- A flush only moves pairs. -/
theorem perm_contents_flush (s : Shelf) (name : String) (sample : Value) :
    (s.flush name sample).contents.Perm s.contents := by
  rw [flush]
  split
  · exact List.Perm.refl _
  · rw [contents_eq, tableLayers, List.reverse_append]
    exact s.memory.perm_sorted.append_right s.tableLayers.flatten

theorem perm_contents_reopened (s : Shelf) : s.reopened.contents.Perm s.contents := by
  have hsheets : (sortSheets s.sheets).reverse.Perm s.sheets.reverse :=
    ((List.reverse_perm _).trans (perm_sortSheets s.sheets)).trans (List.reverse_perm _).symm
  exact (hsheets.map Sheet.records).flatten.append_left s.memory

theorem weight_append_le (s : Shelf) (p : String × String) :
    (s.append p).weight ≤ s.weight + Pairs.weight [p] := by
  have hmemory : (s.memory.set p.1 p.2).weight ≤ s.memory.weight + Pairs.weight [p] :=
    Pairs.weight_set_le s.memory p.1 p.2
  rw [weight_eq, memory_append, weight_eq]
  show _ + Pairs.weight s.tableLayers.flatten ≤ _
  omega

theorem weight_flush (s : Shelf) (name : String) (sample : Value) :
    (s.flush name sample).weight = s.weight :=
  Pairs.weight_perm (s.perm_contents_flush name sample)

theorem weight_put_le (s : Shelf) (c : Settings) (name : String) (p : String × String) :
    (s.put c name p).weight ≤ s.weight + Pairs.weight [p] := by
  rw [put]
  split
  · rw [weight_flush]
    exact s.weight_append_le p
  · exact s.weight_append_le p

theorem weight_merged_le (s : Shelf) : s.memory.weight + s.merged.weight ≤ s.weight := by
  have hmerged : s.merged.weight ≤ Pairs.weight s.tableLayers.flatten :=
    Pairs.weight_layered_le s.tableLayers
  rw [weight_eq]
  omega

theorem weight_compact_le (s : Shelf) (name : String) (sample : Value) :
    (s.compact name sample).weight ≤ s.weight := by
  rw [compact]
  split
  · exact Nat.le_refl _
  · have hsorted : s.merged.sorted.weight = s.merged.weight :=
      Pairs.weight_perm s.merged.perm_sorted
    have hmerged := s.weight_merged_le
    rw [weight_eq { s with sheets := _ }]
    show s.memory.weight + Pairs.weight (s.merged.sorted ++ []) ≤ _
    rw [List.append_nil]
    omega

theorem weight_reopened (s : Shelf) : s.reopened.weight = s.weight :=
  Pairs.weight_perm s.perm_contents_reopened

theorem length_text_le (s : Shelf) {sheet : Sheet} (h : sheet ∈ s.sheets) :
    sheet.text.length ≤ s.weight := by
  have hlayer : sheet.records ∈ s.tableLayers := List.mem_map_of_mem (List.mem_reverse.mpr h)
  have hle := Pairs.weight_le_flatten hlayer
  rw [Sheet.text, Pairs.length_textOf, weight_eq]
  omega

/-! ## Answers after a change -/

theorem lookup_eq_or (s : Shelf) (key : String) :
    s.lookup key = (s.memory.lookup key).or (s.merged.lookup key) :=
  Pairs.lookup_layered_cons s.memory s.tableLayers key

theorem lookup_append (s : Shelf) (p : String × String) (key : String) :
    (s.append p).lookup key = if p.1 = key then some p.2 else s.lookup key := by
  rw [lookup_eq_or, memory_append, Pairs.lookup_set, lookup_eq_or]
  split <;> rfl

theorem lookup_flush (s : Shelf) (name : String) (sample : Value) (key : String) :
    (s.flush name sample).lookup key = s.lookup key := by
  rw [flush]
  split
  · rfl
  · have hsorted : s.memory.sorted.lookup key = s.memory.lookup key :=
      (Pairs.lookup_perm s.memory.perm_sorted.symm s.nodup_keys_memory key).symm
    have hlayers : ∀ t : Sheet, layers { writes := [], sheets := s.sheets ++ [t] }
        = [] :: t.records :: s.tableLayers := by
      intro t
      rw [layers, tableLayers, List.reverse_append]
      rfl
    rw [lookup, hlayers, Pairs.lookup_layered_cons, Pairs.lookup_layered_cons, lookup_eq_or, merged]
    show ((none : Option String).or ((s.memory.sorted.lookup key).or _)) = _
    rw [hsorted, Option.none_or]

theorem lookup_put (s : Shelf) (c : Settings) (name : String) (p : String × String)
    (key : String) :
    (s.put c name p).lookup key = if p.1 = key then some p.2 else s.lookup key := by
  rw [put]
  split
  · rw [lookup_flush, lookup_append]
  · exact s.lookup_append p key

theorem lookup_compact (s : Shelf) (name : String) (sample : Value) (key : String) :
    (s.compact name sample).lookup key = s.lookup key := by
  rw [compact]
  split
  · rfl
  · have hsorted : s.merged.sorted.lookup key = s.merged.lookup key :=
      (Pairs.lookup_perm s.merged.perm_sorted.symm s.nodup_keys_merged key).symm
    rw [lookup_eq_or, lookup_eq_or]
    show (s.memory.lookup key).or ((Pairs.layered [s.merged.sorted]).lookup key) = _
    rw [Pairs.lookup_layered_cons, hsorted, Pairs.layered, List.foldl_nil, List.lookup_nil,
      Option.or_none]

/-! ## Shelves and plain maps -/

/-- A shelf holds what a plain map does. -/
structure Holds (s : Shelf) (m : Pairs) : Prop where
  nodup : m.keys.Nodup
  lookup : ∀ key, s.lookup key = m.lookup key

theorem holds_empty : empty.Holds [] := ⟨List.nodup_nil, fun _ => rfl⟩

theorem Holds.scan {s : Shelf} {m : Pairs} (h : s.Holds m) (start : String) :
    (s.scan start).Perm (m.startingWith start) := by
  refine Pairs.perm_of_lookup (s.nodup_keys_scan start)
    (Pairs.nodup_keys_startingWith h.nodup start) fun key => ?_
  rw [lookup_scan, Pairs.lookup_startingWith, h.lookup]

theorem Holds.put {s : Shelf} {m : Pairs} (h : s.Holds m) (c : Settings) (name : String)
    (p : String × String) : (s.put c name p).Holds (m.set p.1 p.2) := by
  refine ⟨Pairs.nodup_keys_set h.nodup p.1 p.2, fun key => ?_⟩
  rw [lookup_put, Pairs.lookup_set, h.lookup]

/-- Shelves that answer every key alike list the same pairs. -/
theorem perm_scan {s t : Shelf} (h : ∀ key, s.lookup key = t.lookup key) (start : String) :
    (s.scan start).Perm (t.scan start) := by
  apply Pairs.perm_of_lookup (s.nodup_keys_scan start) (t.nodup_keys_scan start)
  intro key
  rw [lookup_scan, lookup_scan, h]

end Shelf

/-! ## Files after a change -/

namespace Sheet

theorem IsIn.congr {t : Sheet} {files after : Directory} (h : t.IsIn files)
    (hdata : after.read? t.name = files.read? t.name)
    (hindex : after.read? (Table.indexName t.name) = files.read? (Table.indexName t.name)) :
    t.IsIn after :=
  ⟨hdata.trans h.data, hindex.trans h.index⟩

theorem read?_addTo {t : Sheet} {files : Directory} {name : String} (hdata : name ≠ t.name)
    (hindex : name ≠ Table.indexName t.name) : (t.addTo files).read? name = files.read? name := by
  rw [addTo, Directory.read?_write, if_neg hindex, Directory.read?_write, if_neg hdata]

theorem mem_names_addTo {t : Sheet} {files : Directory} {name : String} :
    name ∈ (t.addTo files).names ↔
      name = Table.indexName t.name ∨ name = t.name ∨ name ∈ files.names := by
  rw [addTo, Directory.mem_names_write, Directory.mem_names_write]

theorem nodup_names_addTo (t : Sheet) {files : Directory} (h : files.names.Nodup) :
    (t.addTo files).names.Nodup :=
  Directory.nodup_names_write (Directory.nodup_names_write h _ _) _ _

/-- Another table is not affected by one that is written under a new name. -/
theorem IsIn.addTo {t new : Sheet} {files : Directory} (h : t.IsIn files)
    (htable : TableName.isTable t.name = true) (hnew : TableName.isTable new.name = true)
    (hne : t.name ≠ new.name) : t.IsIn (new.addTo files) := by
  refine h.congr (read?_addTo hne (TableName.ne_indexName htable _))
    (read?_addTo (TableName.ne_indexName hnew _).symm ?_)
  exact fun heq => hne (TableName.indexName_injective heq)

theorem read?_logName_addTo {t : Sheet} (htable : TableName.isTable t.name = true)
    (files : Directory) :
    (t.addTo files).read? Engine.logName = files.read? Engine.logName :=
  read?_addTo (TableName.ne_logName htable).symm (TableName.indexName_ne_logName htable).symm

end Sheet

namespace Table

/-- The files of a table, in the order in which they are deleted. -/
def fileNames (t : Table) : List String := [t.name, indexName t.name]

theorem foldl_remove (tables : List Table) (files : Directory) :
    tables.foldl (fun files t => t.remove files) files
      = files.removeAll (tables.flatMap fileNames) := by
  induction tables generalizing files with
  | nil => rfl
  | cons t rest ih =>
    rw [List.foldl_cons, ih, List.flatMap_cons, Directory.removeAll, Directory.removeAll,
      List.foldl_append]
    rfl

end Table

namespace Shelf

variable {s : Shelf} {files : Directory}

theorem name_mem_names (h : s.IsOn files) {t : Sheet} (ht : t ∈ s.sheets) : t.name ∈ files.names :=
  Directory.mem_names_of_read? (h.sheets t ht).data

theorem isOn_write_log (h : s.IsOn files) (writes : Pairs) :
    IsOn { s with writes := writes }
      (files.write Engine.logName (Utf8.encode (Log.textOf writes))) := by
  have hother : ∀ {name : String}, name ≠ Engine.logName →
      (files.write Engine.logName (Utf8.encode (Log.textOf writes))).read? name
        = files.read? name := fun hne => Directory.read?_write_of_ne files _ hne
  refine ⟨Directory.nodup_names_write h.nodup _ _, Directory.read?_write_self _ _ _,
    fun t ht => (h.sheets t ht).congr (hother ?_) (hother ?_), fun name hname htable => ?_,
    h.tables, h.distinct⟩
  · exact TableName.ne_logName (h.tables t ht)
  · exact TableName.indexName_ne_logName (h.tables t ht)
  · rcases Directory.mem_names_write.mp hname with rfl | hname
    · exact absurd rfl (TableName.ne_logName htable)
    · exact h.listed name hname htable

theorem isOn_addTo (h : s.IsOn files) {new : Sheet}
    (htable : TableName.isTable new.name = true) (hnew : new.name ∉ files.names) :
    IsOn { s with sheets := s.sheets ++ [new] } (new.addTo files) := by
  have hne : ∀ t ∈ s.sheets, t.name ≠ new.name :=
    fun t ht heq => hnew (heq ▸ name_mem_names h ht)
  refine ⟨new.nodup_names_addTo h.nodup, (Sheet.read?_logName_addTo htable files).trans h.log,
    fun t ht => ?_, fun name hname hname' => ?_, fun t ht => ?_, ?_⟩
  · rcases List.mem_append.mp ht with ht | ht
    · exact (h.sheets t ht).addTo (h.tables t ht) htable (hne t ht)
    · rw [List.mem_singleton.mp ht]
      exact new.isIn_addTo files
  · rw [List.map_append, List.mem_append]
    rcases Sheet.mem_names_addTo.mp hname with rfl | rfl | hname
    · exact absurd rfl (TableName.ne_indexName hname' _)
    · exact .inr List.mem_cons_self
    · exact .inl (h.listed name hname hname')
  · rcases List.mem_append.mp ht with ht | ht
    · exact h.tables t ht
    · rw [List.mem_singleton.mp ht]
      exact htable
  · rw [List.map_append, List.nodup_append]
    refine ⟨h.distinct, by simp, fun a ha b hb heq => ?_⟩
    obtain ⟨t, ht, rfl⟩ := List.mem_map.mp ha
    exact hne t ht (heq.trans (List.mem_singleton.mp hb))

/-- Tables are gone once their data is deleted: an index that is left over makes no table. -/
theorem isOn_removeAll {gone left : List Sheet}
    (h : IsOn { s with sheets := gone ++ left } files) {removed : List String}
    (hall : ∀ t ∈ gone, t.name ∈ removed)
    (honly : ∀ name ∈ removed, ∃ t ∈ gone, name = t.name ∨ name = Table.indexName t.name) :
    IsOn { s with sheets := left } (files.removeAll removed) := by
  have hgone : ∀ {t : Sheet}, t ∈ gone → TableName.isTable t.name = true :=
    fun ht => h.tables _ (List.mem_append_left left ht)
  have hleft : ∀ {t : Sheet}, t ∈ left → TableName.isTable t.name = true :=
    fun ht => h.tables _ (List.mem_append_right gone ht)
  obtain ⟨-, hnodup, hne⟩ := List.nodup_append.mp (List.map_append ▸ h.distinct)
  have hother : ∀ {t u : Sheet}, t ∈ left → u ∈ gone → t.name ≠ u.name :=
    fun ht hu => (hne _ (List.mem_map_of_mem hu) _ (List.mem_map_of_mem ht)).symm
  -- What is read under a name changes only where the name is one of a table that is gone.
  have hkeep : ∀ {name : String}, (∀ t ∈ gone, name ≠ t.name ∧ name ≠ Table.indexName t.name) →
      (files.removeAll removed).read? name = files.read? name := by
    intro name hname
    rw [Directory.read?_removeAll, if_neg]
    intro hmem
    obtain ⟨t, ht, heq | heq⟩ := honly name hmem
    · exact (hname t ht).1 heq
    · exact (hname t ht).2 heq
  refine ⟨Directory.nodup_names_removeAll h.nodup removed, ?_, fun t ht => ?_,
    fun name hname htable => ?_, fun t ht => hleft ht, hnodup⟩
  · exact (hkeep fun t ht => ⟨(TableName.ne_logName (hgone ht)).symm,
      (TableName.indexName_ne_logName (hgone ht)).symm⟩).trans h.log
  · refine (h.sheets t (List.mem_append_right gone ht)).congr
      (hkeep fun u hu => ⟨hother ht hu, TableName.ne_indexName (hleft ht) _⟩)
      (hkeep fun u hu => ⟨(TableName.ne_indexName (hgone hu) _).symm, fun heq => ?_⟩)
    exact hother ht hu (TableName.indexName_injective heq)
  · rw [Directory.mem_names_iff, Directory.read?_removeAll] at hname
    split at hname
    · exact absurd hname Bool.false_ne_true
    · next hkept =>
      have hlisted := h.listed name (Directory.mem_names_iff.mpr hname) htable
      rw [List.map_append, List.mem_append] at hlisted
      rcases hlisted with hold | hnew
      · obtain ⟨t, ht, rfl⟩ := List.mem_map.mp hold
        exact absurd (hall t ht) hkept
      · exact hnew

end Shelf
end SchemaStore
