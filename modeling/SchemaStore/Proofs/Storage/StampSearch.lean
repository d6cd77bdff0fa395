import Mathlib.Data.Int.Init
import Mathlib.Logic.Relation
import Mathlib.Order.Bounds.Defs
import SchemaStore.Proofs.Storage.Names

/-!
The search for the stamp of a new table.  It starts at the reading of the clock and goes on by one
as long as some table has a name that starts with the stamp; nothing counts its rounds.  It ends
because a name starts with at most one stamp of each length, so that a directory blocks no more
stamps than its names have characters, below zero and above.  Where it ends is the least stamp that
is free, and no table has that stamp.
-/

namespace SchemaStore
namespace TableName

variable {names : List String} {start stamp : Int}

/-! ## Blocked stamps -/

/-- A name that starts with the text of a stamp and ends as the names of tables do. -/
def Blocks (name : String) (stamp : Int) : Prop :=
  (opening ++ toString stamp).toList <+: name.toList ∧ ending.toList <:+ name.toList

theorem ne_dot_of_mem_toString {c : Char} (h : c ∈ (toString stamp).toList) : c ≠ '.' := by
  have hdigits : ∀ n : Nat, c ∈ n.repr.toList → c ≠ '.' := by
    rintro n hc rfl
    rw [Nat.toList_repr] at hc
    exact absurd (Nat.isDigit_of_mem_toDigits (by decide) (by decide) hc) (by decide)
  rw [Int.toString_eq_repr, Int.repr_eq_if] at h
  split at h
  · exact hdigits _ h
  · rw [String.toList_append, List.mem_append] at h
    rcases h with h | h
    · rw [show "-".toList = ['-'] from rfl, List.mem_singleton] at h
      rw [h]
      decide
    · exact hdigits _ h

theorem dot_notMem_stampText (stamp : Int) : '.' ∉ (stampText stamp).toList := by
  rw [toList_stampText, List.mem_append]
  rintro (h | h)
  · exact absurd h (by decide)
  · exact ne_dot_of_mem_toString h rfl

/-- The text of a stamp has no dot, so the ending that a name has cannot begin within it. -/
theorem startsWith_stampText_iff {name : String} :
    startsWith (stampText stamp) name = true ↔ Blocks name stamp := by
  rw [startsWith_iff]
  constructor
  · rintro ⟨middle, h⟩
    rw [Blocks, h]
    exact ⟨⟨middle ++ ending.toList, (List.append_assoc ..).symm⟩, List.suffix_append _ _⟩
  · rintro ⟨⟨rest, hrest⟩, ⟨before, hbefore⟩⟩
    rcases List.append_eq_append_iff.mp (hrest.trans hbefore.symm) with
      ⟨middle, hmiddle, -⟩ | ⟨overlap, hoverlap, hending⟩
    · exact ⟨middle, by rw [← hbefore, hmiddle]; rfl⟩
    · cases overlap with
      | nil =>
        rw [List.append_nil] at hoverlap
        exact ⟨[], by rw [← hbefore, ← hoverlap, List.append_nil]; rfl⟩
      | cons c overlap =>
        -- The ending would begin within the stamp's text, with a dot.
        have hdot : ending.toList = '.' :: ['j', 's', 'o', 'n', 'l'] := by decide
        rw [hdot, List.cons_append] at hending
        obtain ⟨rfl, -⟩ := List.cons.inj hending
        refine absurd ?_ (dot_notMem_stampText stamp)
        rw [stampText, hoverlap]
        exact List.mem_append_right before List.mem_cons_self

theorem isFree_iff : isFree names stamp = true ↔ ∀ name ∈ names, ¬Blocks name stamp := by
  rw [isFree, Bool.not_eq_true', List.any_eq_false]
  exact forall₂_congr fun _ _ => not_congr startsWith_stampText_iff

/-! ## The rounds of the search -/

/-- A round of the search: a stamp that is not free gives way to the next whole number. -/
inductive Round (names : List String) : Int → Int → Prop
  | advance {stamp : Int} (h : isFree names stamp = false) : Round names stamp (stamp + 1)

/-- The search that begins with one stamp ends with another: rounds lead there, and it is free. -/
def EndsAt (names : List String) (start stamp : Int) : Prop :=
  Relation.ReflTransGen (Round names) start stamp ∧ isFree names stamp = true

/-- The rounds come to a halt at a free stamp, however far ahead it is. -/
theorem acc_round_of_isFree {n : Nat} (h : isFree names (start + (n : Int)) = true) :
    Acc (fun later earlier => Round names earlier later) start := by
  -- On the distance to the free stamp, which every round lowers by one.
  induction n generalizing start with
  | zero =>
    refine .intro _ fun later hround => ?_
    obtain ⟨hblocked⟩ := hround
    rw [Int.natCast_zero, Int.add_zero, hblocked] at h
    exact absurd h Bool.false_ne_true
  | succ n ih =>
    refine .intro _ fun later hround => ?_
    obtain ⟨-⟩ := hround
    refine ih ?_
    rwa [Int.add_assoc, Int.add_comm 1, ← Int.natCast_succ]

/-- No search goes on for ever, wherever it starts. -/
theorem wellFounded_round (names : List String) :
    WellFounded fun later earlier => Round names earlier later := by
  refine ⟨fun start => ?_⟩
  obtain ⟨n, -, hfree⟩ := exists_isFree names start
  exact acc_round_of_isFree hfree

/-- Rounds lead as far as the stamps on the way are blocked. -/
theorem rounds_iff :
    Relation.ReflTransGen (Round names) start stamp ↔
      start ≤ stamp ∧ ∀ other, start ≤ other → other < stamp → isFree names other = false := by
  constructor
  · intro h
    induction h with
    | refl => exact ⟨Int.le_refl _, fun other hle hlt => absurd hlt (Int.not_lt.mpr hle)⟩
    | tail _ hround ih =>
      obtain ⟨hblocked⟩ := hround
      refine ⟨by omega, fun other hle hlt => ?_⟩
      rcases Int.lt_or_eq_of_le (Int.lt_add_one_iff.mp hlt) with hlt | rfl
      · exact ih.2 other hle hlt
      · exact hblocked
  · rintro ⟨hle, hblocked⟩
    induction stamp, hle using Int.leInduction with
    | base => exact .refl
    | succ stamp hle ih =>
      have hrounds := ih fun other hfrom hlt => hblocked other hfrom (by omega)
      exact hrounds.tail (.advance (hblocked stamp hle (by omega)))

/-- The search ends, and it ends with the stamp that is computed. -/
theorem endsAt_iff : EndsAt names start stamp ↔ stamp = freeStamp names start := by
  obtain ⟨hfree, hle, hbefore⟩ := freeStamp_spec names start
  constructor
  · rintro ⟨hrounds, hstamp⟩
    obtain ⟨hfrom, hblocked⟩ := rounds_iff.mp hrounds
    refine Int.le_antisymm (Int.not_lt.mp fun hlt => ?_) (Int.not_lt.mp fun hlt => ?_)
    · rw [hblocked _ hle hlt] at hfree
      exact absurd hfree Bool.false_ne_true
    · rw [hbefore _ hfrom hlt] at hstamp
      exact absurd hstamp Bool.false_ne_true
  · rintro rfl
    exact ⟨rounds_iff.mpr ⟨hle, hbefore⟩, hfree⟩

/-! ## The stamp that is found -/

theorem isLeast_freeStamp (names : List String) (clock : Int) :
    IsLeast {stamp | clock ≤ stamp ∧ ∀ name ∈ names, ¬Blocks name stamp}
      (freeStamp names clock) := by
  obtain ⟨hfree, hle, hbefore⟩ := freeStamp_spec names clock
  refine ⟨⟨hle, isFree_iff.mp hfree⟩, fun stamp hstamp => Int.not_lt.mp fun hlt => ?_⟩
  have := hbefore stamp hstamp.1 hlt
  rw [isFree_iff.mpr hstamp.2] at this
  exact absurd this.symm Bool.false_ne_true

theorem bound_eq (names : List String) :
    bound names = (names.flatMap String.toList).length + 1 := by
  induction names with
  | nil => rfl
  | cons name names ih =>
    rw [bound, List.map_cons, List.foldr_cons, ← bound, ih, List.flatMap_cons, List.length_append,
      String.length_toList, Nat.add_assoc]

/-- The search makes no more rounds than the names have characters. -/
theorem freeStamp_le (names : List String) (clock : Int) :
    freeStamp names clock ≤ clock + (names.flatMap String.toList).length := by
  obtain ⟨n, hn, hfree⟩ := exists_isFree names clock
  have hleast := (isLeast_freeStamp names clock).2 ⟨by omega, isFree_iff.mp hfree⟩
  rw [bound_eq] at hn
  omega

theorem blocks_of_eq {name rest : String}
    (h : name = opening ++ toString stamp ++ rest ++ ending) : Blocks name stamp := by
  refine startsWith_stampText_iff.mp (startsWith_iff.mpr ⟨rest.toList, ?_⟩)
  rw [h, String.toList_append, String.toList_append]
  rfl

/-- In every directory and from every reading of the clock the search for a stamp ends, with the
least stamp from the reading on that no name of a table starts with, and after no more rounds than
the names have characters.  The name that is made of it, with any suffix, is no file's name, and
every table there has another stamp. -/
theorem search_ends_fresh (files : Directory) (clock : Int) :
    (WellFounded fun later earlier => Round files.names earlier later) ∧
    ∃ stamp, (∀ last, EndsAt files.names clock last ↔ last = stamp) ∧
      IsLeast {stamp | clock ≤ stamp ∧ ∀ name ∈ files.names, ¬Blocks name stamp} stamp ∧
      stamp ≤ clock + (files.names.flatMap String.toList).length ∧
      (∀ suffix, next files.names clock suffix = opening ++ toString stamp ++ suffix ++ ending ∧
        next files.names clock suffix ∉ files.names) ∧
      ∀ other rest, opening ++ toString other ++ rest ++ ending ∈ files.names → other ≠ stamp := by
  have hleast := isLeast_freeStamp files.names clock
  refine ⟨wellFounded_round files.names, freeStamp files.names clock, fun last => endsAt_iff,
    hleast, freeStamp_le files.names clock,
    fun suffix => ⟨rfl, next_notMem files.names clock suffix⟩, ?_⟩
  rintro other rest hmem rfl
  exact hleast.1.2 _ hmem (blocks_of_eq rfl)

/-- A table blocks every stamp that its name starts with, not only its own. -/
example : next ["sst_-1.jsonl", "sst_0_compacted.jsonl", "sst_17.jsonl"] (-1) ""
    = "sst_2.jsonl" := by decide

end TableName
end SchemaStore
