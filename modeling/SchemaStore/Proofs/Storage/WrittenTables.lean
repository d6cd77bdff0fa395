import SchemaStore.Proofs.Storage.TornFlushes

/-!
A table answers as the pairs that were written.  A look-up halves the sampled keys, goes to the byte
at which the line of the last one that is not above the key starts, and stops at the first record
with a greater key.  No record before that byte has the key, and none behind the stop, so the answer
is that of all records, wherever the samples are.  Without its index the table is read from its
first record on, which gives the same answer.
-/

namespace SchemaStore

theorem Value.orNull_eq_str_iff {found : Option String} {value : String} :
    orNull found = .str value ↔ found = some value := by
  cases found <;> simp [orNull]

theorem Value.orNull_eq_null_iff {found : Option String} : orNull found = .null ↔ found = none := by
  cases found <;> simp [orNull]

/-- A table whose index has been deleted can be opened. -/
theorem Table.load_bare (directory : Path) (name : String) (files : Directory) :
    load directory name (files.remove (indexName name)) = .ok (unindexed directory name) := by
  refine load_unindexed directory ?_
  rw [Directory.read?_remove, if_pos rfl]

/-- Without its index the table of a sheet answers as with it. -/
theorem Sheet.get_bare {s : Sheet} {files : Directory}
    (hdata : files.read? s.name = some (Utf8.encode s.text)) (directory : Path) (key : String) :
    (Table.unindexed directory s.name).get (files.remove (Table.indexName s.name)) (.str key)
      = .ok (Value.orNull (s.records.lookup key)) := by
  have hbare : (files.remove (Table.indexName s.name)).read? s.name
      = some (Utf8.encode s.text) := by
    rw [Directory.read?_remove, if_neg (indexName_ne s.name).symm]
    exact hdata
  rw [Table.get_unindexed directory hbare (storedLines_textOf s.records),
    Table.readRecords_map_recordText]
  exact find_entries s.ascending key

namespace Table

/-- Pairs with different keys can be written in any order, with any sample that the settings accept;
only a place with more than 4300 digits could not be.  The table that is written has the value of
every key and no other, and its records are the pairs, each once, by the code points of their keys.
When its index is deleted and it is opened again, every key has the answer that it had. -/
theorem write_represents {sample : Value}
    (hsample : Settings.checkLimit "index_sample" sample = .ok ()) (directory : Path)
    (name : String) {items : Pairs} (hitems : items.keys.Nodup) (files : Directory) :
    (items.weight < Sheet.capacity →
      ∃ t after, write directory name items.entries sample files = (.ok t, after)) ∧
    ∀ t after, write directory name items.entries sample files = (.ok t, after) →
      (∀ key, (∀ value, t.get after (.str key) = .ok (.str value) ↔ (key, value) ∈ items) ∧
        (t.get after (.str key) = .ok .null ↔ key ∉ items.keys)) ∧
      (∃ records : Pairs, t.records after = (records.entries, none) ∧ records.Perm items ∧
        records.Pairwise fun a b => a.1 < b.1) ∧
      ∃ bare, load directory name (after.remove (indexName name)) = .ok bare ∧
        ∀ key, bare.get (after.remove (indexName name)) (.str key) = t.get after (.str key) := by
  have hstep := isStep_of_checkLimit hsample
  refine ⟨fun hsize => ?_, fun t after h => ?_⟩
  · have hwritten : (Sheet.textOf items.sorted).length < Sheet.capacity := by
      rw [Pairs.length_textOf, Pairs.weight_perm items.perm_sorted]
      exact hsize
    have hshort := Sheet.isShort_of_lt (s := .ofItems name sample items hitems) hwritten
    exact ⟨_, _, Sheet.write_entries hstep directory name hitems hshort files⟩
  · have hshort := Sheet.isShort_of_write hstep hitems h
    rw [Sheet.write_entries hstep directory name hitems hshort] at h
    obtain ⟨ht, rfl⟩ := Prod.mk.inj h
    obtain rfl := Except.ok.inj ht
    have hdata := ((Sheet.ofItems name sample items hitems).isIn_addTo files).data
    have hget : ∀ key, ((Sheet.ofItems name sample items hitems).table directory).get
        ((Sheet.ofItems name sample items hitems).addTo files) (.str key)
        = .ok (Value.orNull (items.lookup key)) := by
      intro key
      rw [Sheet.get_table hdata, Pairs.lookup_perm items.perm_sorted.symm hitems key]
      rfl
    refine ⟨fun key => ⟨fun value => ?_, ?_⟩,
      ⟨items.sorted, Sheet.records_table hdata, items.perm_sorted, Pairs.ascending_sorted hitems⟩,
      unindexed directory name, load_bare directory name _, fun key => ?_⟩
    · rw [hget, Except.ok.injEq, Value.orNull_eq_str_iff, Pairs.lookup_eq_some_iff hitems]
    · rw [hget, Except.ok.injEq, Value.orNull_eq_null_iff, Pairs.lookup_eq_none_iff]
    · rw [Sheet.get_table hdata]
      exact Sheet.get_bare hdata directory key

/-- A table with every second key in its index.  The empty text, a line break and a quote are
keys. -/
def notes : Pairs := [("z", "last"), ("", "none"), ("a\nb", "two lines"), ("\"", "\n"), ("é", "")]

theorem write_represents_notes :
    Settings.checkLimit "index_sample" (.int 2) = .ok () ∧ notes.keys.Nodup ∧
    ∃ t after, write Disk.workingPath "notes" notes.entries (.int 2) [] = (.ok t, after) ∧
      t.get after (.str "a\nb") = .ok (.str "two lines") ∧
      t.get after (.str "b") = .ok .null ∧
      ∃ bare, load Disk.workingPath "notes" (after.remove (indexName "notes")) = .ok bare ∧
        bare.get (after.remove (indexName "notes")) (.str "") = t.get after (.str "") := by
  have hsample : Settings.checkLimit "index_sample" (.int 2) = .ok () := rfl
  have hitems : notes.keys.Nodup := by decide
  obtain ⟨hwrites, hanswers⟩ := write_represents hsample Disk.workingPath "notes" hitems []
  obtain ⟨t, after, hwrite⟩ := hwrites (Sheet.lt_capacity (by decide))
  obtain ⟨hget, -, bare, hload, hbare⟩ := hanswers t after hwrite
  refine ⟨hsample, hitems, t, after, hwrite, ((hget "a\nb").1 _).mpr (by decide),
    (hget "b").2.mpr (by decide), bare, hload, hbare ""⟩

end Table
end SchemaStore
