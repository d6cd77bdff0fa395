import SchemaStore.Proofs.Json.Decimals
import SchemaStore.Proofs.Stored.Codec
import SchemaStore.Proofs.Stored.Named

/-!
Values that come out of storage as they went in, but for their tuples, which come back as lists.
Dictionaries have text keys and do not look like dates, doubles are numbers, and no moment has a
zone or an offset that is lost.
-/

namespace SchemaStore

open Value (Part)
open Stored (normal restoreWith restoreItems restoreEntries)

/-! ## Tuples as lists -/

namespace Value

mutual

/-- The value with lists for its tuples, outside of keys and sets. -/
def listed : Value → Value
  | list xs => list (listedItems xs)
  | tuple xs => list (listedItems xs)
  | dict es => dict (listedEntries es)
  | v => v

def listedItems : List Value → List Value
  | [] => []
  | x :: xs => listed x :: listedItems xs

def listedEntries : List (Value × Value) → List (Value × Value)
  | [] => []
  | (k, v) :: es => (k, listed v) :: listedEntries es

end

theorem listedEntries_eq_map (es : List (Value × Value)) :
    listedEntries es = es.map fun e => (e.1, e.2.listed) := by
  induction es with
  | nil => rfl
  | cons e es ih => rw [listedEntries, List.map_cons, ih]

end Value

namespace Stored

/-- Apart from its parts, nothing about the value is lost or mistaken for something else in
storage. -/
def IsFaithful : Value → Prop
  | .float x => x.IsNumber
  | .dateTime t => t.KeepsOffset ∧ t.fixed = t
  | .dict es => Entries.IsNamed es ∧ ¬LooksTagged es
  | _ => True

/-- The value keeps its form in storage, but for its tuples. -/
def KeepsForm (v : Value) : Prop := ∀ x, Part x v → IsFaithful x

mutual

/-- The normal form of a value that keeps its form only makes lists of tuples. -/
theorem normal_eq_listed : ∀ (v : Value), KeepsForm v → normal v = v.listed
  | .list xs, h => congrArg Value.list
      (restoreItems_eq_listed xs fun _ hx y hy => h y (.item hx hy))
  | .tuple xs, h => congrArg Value.list
      (restoreItems_eq_listed xs fun _ hx y hy => h y (.tupleItem hx hy))
  | .dict es, h => by
    have hes : Entries.IsNamed es := (h _ .self).1
    show Value.dict (Entries.ofList (restoreEntries DateTime.fixed es))
      = .dict (Value.listedEntries es)
    rw [hes.ofList_restoreEntries,
      restoreEntries_eq_listed es fun _ he y hy => h y (.entry he hy)]
  | .dateTime t, h => congrArg Value.dateTime (h _ .self).2
  | .null, _ | .bool _, _ | .int _, _ | .float _, _ | .fraction _, _ | .decimal _, _
  | .complex _ _, _ | .str _, _ | .bytes _, _ | .date _, _ | .set _, _ | .view _, _ | .type _, _
  | .kind _, _ => rfl

theorem restoreItems_eq_listed : ∀ (xs : List Value), (∀ x ∈ xs, KeepsForm x) →
    restoreItems DateTime.fixed xs = Value.listedItems xs
  | [], _ => rfl
  | x :: xs, h => by
    rw [restoreItems, Value.listedItems, ← normal_eq_listed x (h x List.mem_cons_self),
      restoreItems_eq_listed xs fun y hy => h y (List.mem_cons_of_mem x hy)]
    rfl

theorem restoreEntries_eq_listed : ∀ (es : List (Value × Value)), (∀ e ∈ es, KeepsForm e.2) →
    es.map (fun e => (e.1, restoreWith DateTime.fixed e.2)) = Value.listedEntries es
  | [], _ => rfl
  | (k, v) :: es, h => by
    rw [List.map_cons, Value.listedEntries, ← normal_eq_listed v (h _ List.mem_cons_self),
      restoreEntries_eq_listed es fun e he => h e (List.mem_cons_of_mem _ he)]
    rfl

end

theorem keepsForm_leaf_iff {v : Value} (hlist : ∀ xs, v ≠ .list xs) (htuple : ∀ xs, v ≠ .tuple xs)
    (hdict : ∀ es, v ≠ .dict es) : KeepsForm v ↔ IsFaithful v :=
  Value.forall_part_leaf_iff hlist htuple hdict

theorem keepsForm_list_iff {xs : List Value} : KeepsForm (.list xs) ↔ ∀ x ∈ xs, KeepsForm x :=
  Value.forall_part_list_iff.trans (and_iff_right trivial)

theorem keepsForm_tuple_iff {xs : List Value} : KeepsForm (.tuple xs) ↔ ∀ x ∈ xs, KeepsForm x :=
  Value.forall_part_tuple_iff.trans (and_iff_right trivial)

theorem keepsForm_dict_iff {es : Entries} :
    KeepsForm (.dict es) ↔
      (Entries.IsNamed es ∧ ¬LooksTagged es) ∧ ∀ e ∈ es, KeepsForm e.2 := by
  refine Value.forall_part_dict_iff.trans (and_congr_right fun hes => ?_)
  have hkey : ∀ e ∈ es, KeepsForm e.1 := by
    intro e he
    obtain ⟨name, hname⟩ := hes.1.exists_eq_str he
    rw [hname, keepsForm_leaf_iff (by simp) (by simp) (by simp)]
    trivial
  exact ⟨fun h e he => (h e he).2, fun h e he => ⟨hkey e he, h e he⟩⟩

theorem KeepsForm.isLegible {v : Value} (h : KeepsForm v) : IsLegible v where
  floats := fun _ hx => Json.denotes_float revive (h _ hx)
  keys := by
    intro es hes e he x hkey
    obtain ⟨name, hname⟩ := (h _ hes).1.exists_eq_str he
    cases hkey.symm.trans hname
  tags := fun es hes => (h _ hes).2

theorem KeepsForm.decode_encode {v : Value} (h : KeepsForm v) {text : String}
    (htext : encode v = .ok text) : decode (.str text) = .ok v.listed := by
  rw [← normal_eq_listed v h, ← restored_eq_normal fun t ht => (h _ ht).1]
  exact decodeText_encode htext h.isLegible

/-! ## Equality with itself -/

theorem same_ofInt_self (n : ℤ) : (Quantity.ofInt n).same (.ofInt n) = true := by
  simp [Quantity.same, Quantity.ofInt, Ratio.same]

theorem same_quantity {x : Binary64} (h : x.IsNumber) : x.quantity.same x.quantity = true := by
  cases x with
  | nan stored => exact absurd h id
  | _ => simp [Binary64.quantity, Quantity.same, Ratio.same]

theorem isNamed_listedEntries {es : Entries} (h : es.IsNamed) :
    Entries.IsNamed (Value.listedEntries es) := by
  obtain ⟨names, hnodup, hkeys⟩ := h
  refine ⟨names, hnodup, ?_⟩
  rw [Value.listedEntries_eq_map, List.map_map]
  exact hkeys

mutual

/-- What keeps its form equals itself, with lists for tuples. -/
theorem same_listed_self : ∀ (v : Value), AllStorable v → KeepsForm v →
    v.listed.same v.listed = true
  | .null, _, _ => by simp [Value.listed, Value.same]
  | .bool _, _, _ | .int _, _, _ => by
    simp [Value.listed, Value.same, Value.sameNumber, Value.plane?, same_ofInt_self]
  | .str _, _, _ | .date _, _, _ => by simp [Value.listed, Value.same]
  | .dateTime _, _, _ => by simp [Value.listed, Value.same, DateTime.same_self]
  | .float x, _, h => by
    have hsame : x.quantity.same x.quantity = true := same_quantity (h _ .self)
    simp [Value.listed, Value.same, Value.sameNumber, Value.plane?, hsame, same_ofInt_self]
  | .list xs, hall, h => by
    rw [Value.listed, Value.same]
    exact sameItems_listed_self xs (allStorable_list_iff.mp hall) (keepsForm_list_iff.mp h)
  | .tuple xs, hall, h => by
    rw [Value.listed, Value.same]
    exact sameItems_listed_self xs (allStorable_tuple_iff.mp hall) (keepsForm_tuple_iff.mp h)
  | .dict es, hall, h => by
    obtain ⟨⟨hnamed, -⟩, hvalues⟩ := keepsForm_dict_iff.mp h
    rw [Value.listed]
    apply Value.same_dict_self (isNamed_listedEntries hnamed)
    exact same_listedEntries_self es (fun e he => (allStorable_dict_iff.mp hall e he).2) hvalues
  | .fraction _, hall, _ | .decimal _, hall, _ | .complex _ _, hall, _ | .bytes _, hall, _
  | .set _, hall, _ | .view _, hall, _ | .type _, hall, _ | .kind _, hall, _ =>
    absurd (hall _ .self) id

theorem sameItems_listed_self : ∀ (xs : List Value), (∀ x ∈ xs, AllStorable x) →
    (∀ x ∈ xs, KeepsForm x) →
      Value.sameItems (Value.listedItems xs) (Value.listedItems xs) = true
  | [], _, _ => by rw [Value.listedItems, Value.sameItems, List.isEmpty_nil]
  | x :: xs, hall, h => by
    have hx := same_listed_self x (hall x List.mem_cons_self) (h x List.mem_cons_self)
    have hxs := sameItems_listed_self xs (fun y hy => hall y (List.mem_cons_of_mem x hy))
      fun y hy => h y (List.mem_cons_of_mem x hy)
    rw [Value.listedItems, Value.sameItems, hx, hxs, Bool.or_true, Bool.true_and]

theorem same_listedEntries_self : ∀ (es : List (Value × Value)), (∀ e ∈ es, AllStorable e.2) →
    (∀ e ∈ es, KeepsForm e.2) → ∀ e ∈ Value.listedEntries es, e.2.same e.2 = true
  | [], _, _ => fun _ h => absurd h List.not_mem_nil
  | (k, v) :: es, hall, h => by
    rw [Value.listedEntries]
    refine List.forall_mem_cons.mpr ⟨?_, ?_⟩
    · exact same_listed_self v (hall _ List.mem_cons_self) (h _ List.mem_cons_self)
    · exact same_listedEntries_self es (fun e he => hall e (List.mem_cons_of_mem _ he))
        fun e he => h e (List.mem_cons_of_mem _ he)

end

end Stored

end SchemaStore
