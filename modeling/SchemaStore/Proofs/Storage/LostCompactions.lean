import SchemaStore.Proofs.Storage.Recovery
import SchemaStore.Proofs.Storage.Reopening

/-!
Compactions that are lost half-way.  A compaction writes the merged table and then deletes the
files of the old tables one after the other, the oldest table first.  If it is lost in between, the
merged table stands among those that are left, where its name puts it, and that may be anywhere.
Opening the directory gives an engine that answers as before: a table that is left and holds a key
means that the newest table with the key is left as well, and where the merged table is asked first
it has the newest value itself.
-/

namespace SchemaStore
namespace Shelf

variable {s : Shelf} {merged : Sheet}

/-- A merged table beside those of the old tables that are left. -/
def halfCompacted (s : Shelf) (merged : Sheet) (count : Nat) : Shelf :=
  { s with sheets := s.sheets.drop count ++ [merged] }

/-- A table that is left stands behind all that are gone, so a key that it has was last written to
a table that is left. -/
theorem mem_drop_of_last (horder : s.sheets.Pairwise fun a b => a.name < b.name) {count : Nat}
    {last u : Sheet} (hlast : last ∈ s.sheets) (hu : u ∈ s.sheets.drop count)
    (hle : u.name ≤ last.name) : last ∈ s.sheets.drop count := by
  rw [← List.take_append_drop count s.sheets, List.mem_append] at hlast
  rcases hlast with hgone | hleft
  · rw [← List.take_append_drop count s.sheets, List.pairwise_append] at horder
    exact absurd (horder.2.2 last hgone u hu) (String.not_lt.mpr hle)
  · exact hleft

theorem pairwise_of_reopened (hsame : s.reopened = s)
    (hdistinct : (s.sheets.map Sheet.name).Nodup) :
    s.sheets.Pairwise fun a b => a.name < b.name := by
  have hfalling := falling_reverse_sortSheets hdistinct
  rw [show sortSheets s.sheets = s.sheets from congrArg sheets hsame] at hfalling
  exact List.pairwise_reverse.mp hfalling

theorem lookup_merged_eq_none_iff (s : Shelf) (key : String) :
    s.merged.lookup key = none ↔ ∀ t ∈ s.sheets, t.records.lookup key = none := by
  rw [merged, Pairs.lookup_layered, List.findSome?_eq_none_iff, tableLayers]
  simp only [List.mem_map, List.mem_reverse, forall_exists_index, and_imp, forall_apply_eq_imp_iff₂]

/-- Wherever the merged table stands, the tables answer as they did before. -/
theorem lookup_merged_halfCompacted (hsame : s.reopened = s)
    (hdistinct : (s.sheets.map Sheet.name).Nodup) {count : Nat}
    (hnames : ((s.halfCompacted merged count).sheets.map Sheet.name).Nodup)
    (hmerged : ∀ key, merged.records.lookup key = s.merged.lookup key) (key : String) :
    (s.halfCompacted merged count).reopened.merged.lookup key = s.merged.lookup key := by
  have hmem : ∀ {t : Sheet}, t ∈ (s.halfCompacted merged count).sheets ↔
      t ∈ s.sheets.drop count ∨ t = merged := by
    intro t
    show t ∈ s.sheets.drop count ++ [merged] ↔ _
    rw [List.mem_append, List.mem_singleton]
  have hlast : ∀ value, s.merged.lookup key = some value ↔
      ∃ t ∈ s.sheets, t.records.lookup key = some value ∧
        ∀ u ∈ s.sheets, u.records.lookup key ≠ none → u.name ≤ t.name := by
    intro value
    rw [← lookup_merged_reopened hdistinct, hsame]
  cases hold : s.merged.lookup key with
  | none =>
    -- What is found now would be in the merged table or in an old one.
    rw [Option.eq_none_iff_forall_ne_some]
    intro value hvalue
    obtain ⟨t, ht, hfound, -⟩ := (lookup_merged_reopened hnames key value).mp hvalue
    rcases hmem.mp ht with hleft | rfl
    · have hnone := (s.lookup_merged_eq_none_iff key).mp hold t (List.mem_of_mem_drop hleft)
      exact Option.some_ne_none value (hfound.symm.trans hnone)
    · rw [hmerged, hold] at hfound
      exact absurd hfound.symm (Option.some_ne_none value)
  | some value =>
    obtain ⟨last, hin, hfound, hnewest⟩ := (hlast value).mp hold
    rw [lookup_merged_reopened hnames]
    by_cases hfirst : ∃ u ∈ s.sheets.drop count, u.records.lookup key ≠ none ∧ merged.name ≤ u.name
    · -- A table that is left is asked before the merged one.
      obtain ⟨u, hu, hkey, hle⟩ := hfirst
      have hbelow := hnewest u (List.mem_of_mem_drop hu) hkey
      have hleft := mem_drop_of_last (pairwise_of_reopened hsame hdistinct) hin hu hbelow
      refine ⟨last, hmem.mpr (.inl hleft), hfound, fun t ht hkey => ?_⟩
      rcases hmem.mp ht with ht | rfl
      · exact hnewest t (List.mem_of_mem_drop ht) hkey
      · exact String.le_trans hle hbelow
    · refine ⟨merged, hmem.mpr (.inr rfl), (hmerged key).trans hold, fun t ht hkey => ?_⟩
      rcases hmem.mp ht with ht | rfl
      · exact Order.le_of_lt (String.not_le.mp fun hle => hfirst ⟨t, ht, hkey, hle⟩)
      · exact String.le_refl _

/-! ## What is left of the old tables -/

/-- The data of a table goes before its index, so an odd number of deletions leaves an index. -/
theorem take_fileNames (sheets : List Sheet) (count : Nat) :
    let removed := (sheets.flatMap fun t => [t.name, Table.indexName t.name]).take count
    let gone := sheets.take ((count + 1) / 2)
    (∀ t ∈ gone, t.name ∈ removed) ∧
      ∀ name ∈ removed, ∃ t ∈ gone, name = t.name ∨ name = Table.indexName t.name := by
  induction sheets generalizing count with
  | nil => simp
  | cons first rest ih =>
    match count with
    | 0 => simp
    | 1 => simp
    | count + 2 =>
      have hhalf : (count + 2 + 1) / 2 = (count + 1) / 2 + 1 := by omega
      obtain ⟨hall, honly⟩ := ih count
      rw [List.flatMap_cons, hhalf, List.take_succ_cons]
      show (∀ t ∈ first :: rest.take _, t.name ∈ first.name :: Table.indexName first.name ::
          List.take count _) ∧
        ∀ name ∈ first.name :: Table.indexName first.name :: List.take count _, _
      constructor
      · intro t ht
        rcases List.mem_cons.mp ht with rfl | ht
        · exact List.mem_cons_self
        · exact List.mem_cons_of_mem _ (List.mem_cons_of_mem _ (hall t ht))
      · intro name hname
        rcases List.mem_cons.mp hname with rfl | hname
        · exact ⟨first, List.mem_cons_self, .inl rfl⟩
        rcases List.mem_cons.mp hname with rfl | hname
        · exact ⟨first, List.mem_cons_self, .inr rfl⟩
        · obtain ⟨t, ht, h⟩ := honly name hname
          exact ⟨t, List.mem_cons_of_mem first ht, h⟩

end Shelf

namespace Engine

variable {s : Shelf} {d : Settings} {files : Directory}

/-- Deleting some of the files, the oldest tables first, leaves a shelf with the same answers. -/
theorem halfCompacted_mergedSheet (hon : s.IsOn files) (hsame : s.reopened = s)
    (hsize : s.weight < Sheet.capacity) {clock : Int}
    (hbeside : Shelf.IsOn { s with sheets := s.sheets ++ [mergedSheet s d files clock] }
      ((mergedSheet s d files clock).addTo files)) (count : Nat) :
    let left := s.halfCompacted (mergedSheet s d files clock) ((count + 1) / 2)
    left.IsOn (((mergedSheet s d files clock).addTo files).removeAll
        ((s.engine d).tableFiles.take count)) ∧
      (∀ t ∈ left.sheets, t.text.length < Sheet.capacity) ∧
      ∀ key, left.reopened.lookup key = s.lookup key := by
  intro left
  obtain ⟨hall, honly⟩ := Shelf.take_fileNames s.sheets count
  rw [← tableFiles_engine s d] at hall honly
  rw [← List.take_append_drop ((count + 1) / 2) s.sheets, List.append_assoc] at hbeside
  have hleft := Shelf.isOn_removeAll hbeside hall honly
  refine ⟨hleft, fun t ht => ?_, fun key => ?_⟩
  · rcases List.mem_append.mp ht with hold | hnew
    · have hle := s.length_text_le (List.mem_of_mem_drop hold)
      omega
    · have hmerged := s.weight_merged_le
      have hsorted := Pairs.weight_perm s.merged.perm_sorted
      rw [List.mem_singleton.mp hnew, Sheet.text, Pairs.length_textOf]
      show s.merged.sorted.weight < _
      omega
  · have hmerged : ∀ key, (mergedSheet s d files clock).records.lookup key = s.merged.lookup key :=
      fun key => Pairs.lookup_perm s.merged.perm_sorted
        ((s.merged.perm_sorted.map _).nodup_iff.mpr s.nodup_keys_merged) key
    rw [Shelf.lookup_eq_or, Shelf.lookup_eq_or s,
      Shelf.lookup_merged_halfCompacted hsame hon.distinct hleft.distinct hmerged]
    rfl

end Engine

namespace World

/-- A compaction that is lost after any number of deletions loses nothing: its directory opens to
an engine with the same answers, under whatever clock the merged table was named.  After `2 * k`
deletions the first `k` tables are gone, and one deletion earlier the index of the `k`-th is still
there; once all files are deleted the compaction is complete. -/
theorem lost_compaction_faithful {events : List Event} (haccepted : ∀ e ∈ events, e.IsAccepted)
    (hsize : Event.volume events < Sheet.capacity) {e : Engine}
    (hengine : (start.run events).engine = some e) (hopen : e.isClosed = false)
    (horder : e.IsInOrder) (hmany : 2 ≤ e.tables.length) (clock : Int) :
    let files := (start.run events).files
    ∃ merged beside,
      Engine.writeMerged clock { engine := e, files := files }
        = .ok merged { engine := e, files := beside } ∧
      Engine.compact clock { engine := e, files := files }
        = .ok () { engine := { e with tables := [merged] }
                   files := beside.removeAll e.tableFiles } ∧
      ∀ (count : Nat) (c : Settings),
        let lost := beside.removeAll (e.tableFiles.take count)
        ∃ again, Engine.openAt c lost = (.ok again, lost) ∧
          (∀ key, ∃ value,
            Engine.get (.str key) { engine := e, files := files }
              = .ok value { engine := e, files := files } ∧
            Engine.get (.str key) { engine := again, files := lost }
              = .ok value { engine := again, files := lost }) ∧
          ∀ opening, ∃ found foundAgain,
            Engine.scan opening { engine := e, files := files }
              = .ok found { engine := e, files := files } ∧
            Engine.scan opening { engine := again, files := lost }
              = .ok foundAgain { engine := again, files := lost } ∧
            foundAgain.Perm found := by
  obtain ⟨s, d, hd, rfl, hon, hweight⟩ := exists_opened haccepted hsize hengine hopen
  intro files
  obtain ⟨hwrite, hbeside⟩ := Engine.writeMerged_shelf hd hon hweight clock
  refine ⟨_, _, hwrite, Engine.compact_of_writeMerged rfl hmany hwrite, fun count c => ?_⟩
  intro lost
  have hsame := Shelf.reopened_of_isInOrder horder
  obtain ⟨hlost, hfits, hlookup⟩ :=
    Engine.halfCompacted_mergedSheet hon hsame hweight hbeside count
  have hagain := Shelf.isOn_reopened hlost
  refine ⟨_, Engine.openAt_shelf hlost c hfits, fun key => ?_, fun opening => ?_⟩
  · have hget := Engine.get_shelf hagain c key
    rw [hlookup] at hget
    exact ⟨_, Engine.get_shelf hon d key, hget⟩
  · exact ⟨_, _, Engine.scan_shelf hon d opening, Engine.scan_shelf hagain c opening,
      (Shelf.perm_scan hlookup opening).map _⟩

/-- What the engine with two tables is like that `overwriteEvents` leave. -/
theorem exists_engine_overwrite :
    ∃ e, (start.run overwriteEvents).engine = some e ∧ e.isClosed = false ∧ e.IsInOrder ∧
      e.tables.length = 2 ∧ e.memtable.length = 2 := by
  obtain ⟨hclosed, htables, hmemtable⟩ := run_overwrite
  obtain ⟨e, he⟩ : ∃ e, (start.run overwriteEvents).engine = some e := by
    rw [← Option.isSome_iff_exists, ← Option.isSome_map, hclosed]
    rfl
  rw [he] at hclosed htables hmemtable
  have hnames : e.tables.map Table.name = _ := Option.some.inj htables
  have hkeys : e.memtable.map (fun r => r.1.text) = _ := Option.some.inj hmemtable
  refine ⟨e, he, Option.some.inj hclosed, ?_, ?_, ?_⟩
  · have hpairwise : (e.tables.map Table.name).Pairwise (· ≤ ·) := by
      rw [hnames]
      decide
    exact List.pairwise_map.mp hpairwise
  · rw [← List.length_map, hnames]
    rfl
  · rw [← List.length_map, hkeys]
    rfl

theorem isAccepted_overwrite : ∀ e ∈ overwriteEvents, e.IsAccepted := by
  intro e he
  simp only [overwriteEvents, List.mem_cons, List.not_mem_nil, or_false] at he
  rcases he with rfl | rfl | rfl | rfl | rfl | rfl | rfl | rfl
  · exact Settings.isAccepted_of_le (by decide) (by decide) _ _
  all_goals exact trivial

/-- Under a clock that is behind the names of the tables, the merged table has the first name, and
it is lost with the first table when only the index of that table is left. -/
theorem lost_compaction_faithful_overwrite :
    ∃ e merged beside, (start.run overwriteEvents).engine = some e ∧
      Engine.writeMerged 5 { engine := e, files := (start.run overwriteEvents).files }
        = .ok merged { engine := e, files := beside } ∧
      ∃ again, Engine.openAt roomy (beside.removeAll (e.tableFiles.take 1))
        = (.ok again, beside.removeAll (e.tableFiles.take 1)) := by
  obtain ⟨e, he, hclosed, horder, hlength, -⟩ := exists_engine_overwrite
  obtain ⟨merged, beside, hwrite, -, hlost⟩ := lost_compaction_faithful isAccepted_overwrite
    (Sheet.lt_capacity (by decide)) he hclosed horder (by omega) 5
  obtain ⟨again, hagain, -⟩ := hlost 1 roomy
  exact ⟨e, merged, beside, he, hwrite, again, hagain⟩

end World
end SchemaStore
