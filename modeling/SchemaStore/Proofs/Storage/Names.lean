import SchemaStore.Proofs.Storage.Files
import SchemaStore.Storage.Engine
import Std.Data.String.ToInt

/-!
The names of tables.  A name blocks the stamps that it starts with, and it blocks no two stamps
whose texts are equally long.  So a directory blocks fewer stamps than are tried, and the next
table gets a name that no file has.
-/

namespace SchemaStore
namespace TableName

theorem startsWith_iff {start name : String} :
    startsWith start name = true ↔
      ∃ middle, name.toList = start.toList ++ middle ++ ending.toList := by
  have hlength : ∀ s : String, s.length = s.toList.length := fun s => String.length_toList.symm
  rw [startsWith, Bool.and_eq_true, Bool.and_eq_true, List.isPrefixOf_iff_prefix,
    List.isSuffixOf_iff_suffix, decide_eq_true_eq, hlength, hlength, hlength]
  constructor
  · rintro ⟨⟨⟨rest, hrest⟩, ⟨before, hbefore⟩⟩, hlen⟩
    rw [← hrest] at hbefore hlen ⊢
    have hsplit : start.toList <+: before := by
      refine List.prefix_of_prefix_length_le (List.prefix_append start.toList rest) ?_ ?_
      · rw [← hbefore]
        exact List.prefix_append before _
      · have := congrArg List.length hbefore
        rw [List.length_append] at this
        omega
    obtain ⟨middle, rfl⟩ := hsplit
    exact ⟨middle, hbefore.symm⟩
  · rintro ⟨middle, h⟩
    rw [h]
    refine ⟨⟨?_, List.suffix_append _ _⟩, ?_⟩
    · rw [List.append_assoc]
      exact List.prefix_append _ _
    · simp only [List.length_append]
      omega

theorem toList_stampText (stamp : Int) :
    (stampText stamp).toList = opening.toList ++ (toString stamp).toList := by
  rw [stampText, String.toList_append]

theorem isTable_of_startsWith {stamp : Int} {name : String}
    (h : startsWith (stampText stamp) name = true) : isTable name = true := by
  obtain ⟨middle, h⟩ := startsWith_iff.mp h
  rw [toList_stampText] at h
  exact startsWith_iff.mpr ⟨(toString stamp).toList ++ middle, by rw [h]; simp⟩

/-! ## Free stamps -/

/-- What a name blocks, a stamp being told by the length of its text. -/
def blocked (names : List String) : List (String × Nat) :=
  names.flatMap fun name => (List.range name.length).map fun n => (name, n)

theorem length_blocked (names : List String) : (blocked names).length + 1 = bound names := by
  induction names with
  | nil => rfl
  | cons name names ih =>
    rw [blocked, List.flatMap_cons, List.length_append, List.length_map, List.length_range,
      ← blocked, bound, List.map_cons, List.foldr_cons, ← bound, ← ih]
    omega

theorem mem_blocked {names : List String} {name : String} {n : Nat} (h : name ∈ names)
    (hn : n < name.length) : (name, n) ∈ blocked names :=
  List.mem_flatMap.mpr ⟨name, h, List.mem_map.mpr ⟨n, List.mem_range.mpr hn, rfl⟩⟩

/-- Two stamps that a name starts with are the same when their texts are equally long. -/
theorem stamp_eq_of_startsWith {name : String} {a b : Int}
    (ha : startsWith (stampText a) name = true) (hb : startsWith (stampText b) name = true)
    (hlength : (toString a).toList.length = (toString b).toList.length) : a = b := by
  obtain ⟨x, hx⟩ := startsWith_iff.mp ha
  obtain ⟨y, hy⟩ := startsWith_iff.mp hb
  rw [hx, toList_stampText, toList_stampText, List.append_assoc, List.append_assoc,
    List.append_assoc, List.append_assoc] at hy
  have htexts := (List.append_inj (List.append_cancel_left hy) hlength).1
  exact Int.repr_inj.mp (String.toList_inj.mp htexts)

theorem length_lt_of_startsWith {name : String} {stamp : Int}
    (h : startsWith (stampText stamp) name = true) :
    (toString stamp).toList.length < name.length := by
  obtain ⟨middle, h⟩ := startsWith_iff.mp h
  have hopening : opening.toList.length = 4 := by decide
  rw [← String.length_toList, h, toList_stampText]
  simp only [List.length_append, hopening]
  omega

/-- What a blocked stamp takes up: a name that starts with it, and the length of its text. -/
def token (names : List String) (stamp : Int) : String × Nat :=
  ((names.find? (startsWith (stampText stamp))).getD "", (toString stamp).toList.length)

theorem token_spec {names : List String} {stamp : Int} (h : isFree names stamp = false) :
    (token names stamp).1 ∈ names ∧
      startsWith (stampText stamp) (token names stamp).1 = true := by
  rw [isFree, Bool.not_eq_false', List.any_eq_true] at h
  obtain ⟨name, hfind⟩ := Option.isSome_iff_exists.mp (List.find?_isSome.mpr h)
  rw [token, hfind, Option.getD_some]
  exact ⟨List.mem_of_find?_eq_some hfind, List.find?_some hfind⟩

theorem stamp_eq_of_token_eq {names : List String} {a b : Int} (ha : isFree names a = false)
    (hb : isFree names b = false) (h : token names a = token names b) : a = b := by
  have hstarts := (token_spec ha).2
  rw [h] at hstarts
  exact stamp_eq_of_startsWith hstarts (token_spec hb).2 (congrArg Prod.snd h)

/-- The stamps that a directory blocks are fewer than those that are tried. -/
theorem length_lt_bound {names : List String} {stamps : List Int} (hnodup : stamps.Nodup)
    (hblocked : ∀ stamp ∈ stamps, isFree names stamp = false) :
    stamps.length < bound names := by
  have htokens : (stamps.map (token names)).Nodup :=
    List.pairwise_map.mpr (hnodup.imp_of_mem fun ha hb hne hsame =>
      hne (stamp_eq_of_token_eq (hblocked _ ha) (hblocked _ hb) hsame))
  have hsub : stamps.map (token names) ⊆ blocked names := by
    intro p hp
    obtain ⟨stamp, hstamp, rfl⟩ := List.mem_map.mp hp
    obtain ⟨hname, hstarts⟩ := token_spec (hblocked stamp hstamp)
    exact mem_blocked hname (length_lt_of_startsWith hstarts)
  have hle := List.Nodup.length_le_of_subset htokens hsub
  rw [List.length_map] at hle
  rw [← length_blocked]
  omega

/-- Among the stamps that are tried, one is free. -/
theorem exists_isFree (names : List String) (clock : Int) :
    ∃ n < bound names, isFree names (clock + (n : Int)) = true := by
  refine Decidable.byContradiction fun hnone => ?_
  have hnodup : ((List.range (bound names)).map fun n : Nat => clock + (n : Int)).Nodup :=
    List.pairwise_map.mpr (List.nodup_range.imp fun hne => by omega)
  have hblocked : ∀ stamp ∈ (List.range (bound names)).map fun n : Nat => clock + (n : Int),
      isFree names stamp = false := by
    intro stamp hstamp
    obtain ⟨n, hn, rfl⟩ := List.mem_map.mp hstamp
    exact Bool.eq_false_iff.mpr fun hfree => hnone ⟨n, List.mem_range.mp hn, hfree⟩
  have hlt := length_lt_bound hnodup hblocked
  rw [List.length_map, List.length_range] at hlt
  exact Nat.lt_irrefl _ hlt

/-- The stamp that is chosen is free, and it is the first from the clock's reading on. -/
theorem freeStamp_spec (names : List String) (clock : Int) :
    isFree names (freeStamp names clock) = true ∧ clock ≤ freeStamp names clock ∧
      ∀ stamp, clock ≤ stamp → stamp < freeStamp names clock → isFree names stamp = false := by
  obtain ⟨n, hn, hfree⟩ := exists_isFree names clock
  cases hfind : ((List.range (bound names)).map fun n : Nat => clock + (n : Int)).find?
      (isFree names) with
  | none =>
    rw [List.find?_eq_none] at hfind
    exact absurd hfree (hfind _ (List.mem_map.mpr ⟨n, List.mem_range.mpr hn, rfl⟩))
  | some stamp =>
    have hstamp : freeStamp names clock = stamp := by rw [freeStamp, hfind, Option.getD_some]
    rw [hstamp]
    obtain ⟨hfree, i, hi, hget, hbefore⟩ := List.find?_eq_some_iff_getElem.mp hfind
    rw [List.getElem_map, List.getElem_range] at hget
    refine ⟨hfree, by omega, fun other hle hlt => ?_⟩
    have hother := hbefore (other - clock).toNat (by omega)
    rw [List.getElem_map, List.getElem_range, Bool.not_eq_true',
      show clock + ((other - clock).toNat : Int) = other by omega] at hother
    exact hother

/-! ## The name of the next table -/

theorem startsWith_next (names : List String) (clock : Int) (suffix : String) :
    startsWith (stampText (freeStamp names clock)) (next names clock suffix) = true := by
  refine startsWith_iff.mpr ⟨suffix.toList, ?_⟩
  rw [next, String.toList_append, String.toList_append]

theorem isTable_next (names : List String) (clock : Int) (suffix : String) :
    isTable (next names clock suffix) = true :=
  isTable_of_startsWith (startsWith_next names clock suffix)

theorem next_notMem (names : List String) (clock : Int) (suffix : String) :
    next names clock suffix ∉ names := by
  intro hmem
  have hfree := (freeStamp_spec names clock).1
  rw [isFree, Bool.not_eq_true', List.any_eq_false] at hfree
  exact hfree _ hmem (startsWith_next names clock suffix)

/-! ## The files beside a table -/

theorem indexName_injective {a b : String} (h : Table.indexName a = Table.indexName b) : a = b := by
  rw [Table.indexName, Table.indexName, String.ext_iff, String.toList_append,
    String.toList_append] at h
  exact String.toList_inj.mp (List.append_cancel_right h)

theorem getLast?_of_isTable {name : String} (h : isTable name = true) :
    name.toList.getLast? = some 'l' := by
  obtain ⟨middle, h⟩ := startsWith_iff.mp h
  have hending : ending.toList = ['.', 'j', 's', 'o', 'n', 'l'] := by decide
  rw [h, hending, List.getLast?_append]
  rfl

theorem isTable_indexName (name : String) : isTable (Table.indexName name) = false := by
  rw [← Bool.not_eq_true]
  intro h
  have hlast := getLast?_of_isTable h
  have hsuffix : ".idx".toList = ['.', 'i', 'd', 'x'] := by decide
  rw [Table.indexName, String.toList_append, hsuffix, List.getLast?_append] at hlast
  simp at hlast

theorem isTable_logName : isTable Engine.logName = false := by decide

theorem ne_indexName {name : String} (h : isTable name = true) (other : String) :
    name ≠ Table.indexName other := by
  rintro rfl
  rw [isTable_indexName] at h
  exact absurd h Bool.false_ne_true

theorem ne_logName {name : String} (h : isTable name = true) : name ≠ Engine.logName := by
  rintro rfl
  rw [isTable_logName] at h
  exact absurd h Bool.false_ne_true

theorem indexName_ne_logName {name : String} (h : isTable name = true) :
    Table.indexName name ≠ Engine.logName := by
  obtain ⟨middle, h⟩ := startsWith_iff.mp h
  intro heq
  have hhead := congrArg (fun s : String => s.toList.head?) heq
  have hopening : opening.toList = ['s', 's', 't', '_'] := by decide
  simp only [Table.indexName, String.toList_append, h, hopening, List.cons_append,
    List.head?_cons] at hhead
  exact absurd hhead (by decide)

end TableName
end SchemaStore
