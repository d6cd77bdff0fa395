import SchemaStore.Proofs.Stored.Codec
import SchemaStore.Proofs.Stored.Named
import SchemaStore.Validator

/-!
Validating what was stored.  Storing a document turns its tuples into lists and may change the
offset of a moment.  A validator that uses the rules of the kinds only asks for the type of a
value, takes lists and tuples alike, and goes through the fields of an object in an order of its
own, so it comes to the same result before and after: it accepts both documents or refuses both
for the same reason.
-/

namespace SchemaStore

open Value (Part)
open Stored (restoreWith restoreItems restoreEntries)

/-! ## Validators -/

namespace Validator

/-- Every predicate in the validator is the one that a kind is meant for. -/
inductive UsesKinds : Validator → Prop where
  | primitive (path form : String) (k : Kind) : UsesKinds (primitive path form (Predicate.natural k))
  | arrayOf (path form : String) {element : Validator} (h : UsesKinds element) :
      UsesKinds (arrayOf path form element)
  | objectOf (path : String) (exclusive : Bool) {fields : List (String × Validator)}
      (h : ∀ f ∈ fields, UsesKinds f.2) : UsesKinds (objectOf path exclusive fields)

theorem lookup_standard (k : Kind) : Registry.standard.lookup k = some (Predicate.natural k) := by
  cases k <;> rfl

mutual

theorem usesKinds_ofNode : ∀ (node : Node) {path : String} {validator : Validator},
    ofNode Registry.standard path node = .ok validator → UsesKinds validator
  | .primitive k, path, _, h => by
    rw [ofNode, lookup_standard] at h
    cases h
    exact .primitive path k.label k
  | .arrayOf element, path, _, h => by
    rw [ofNode, Except.bind_eq_ok] at h
    obtain ⟨checked, hchecked, h⟩ := h
    cases h
    exact .arrayOf path _ (usesKinds_ofNode element hchecked)
  | .objectOf exclusive fields, path, _, h => by
    rw [ofNode, Except.bind_eq_ok] at h
    obtain ⟨checked, hchecked, h⟩ := h
    cases h
    exact .objectOf path exclusive (usesKinds_ofFields fields hchecked)
  | .foreign _, _, _, h => by cases h

theorem usesKinds_ofFields : ∀ (fields : List (String × Node)) {path : String}
    {checked : List (String × Validator)},
    ofFields Registry.standard path fields = .ok checked → ∀ f ∈ checked, UsesKinds f.2
  | [], _, _, h => by
    cases h
    exact fun _ hf => absurd hf List.not_mem_nil
  | (name, node) :: rest, path, _, h => by
    simp only [ofFields, Except.bind_eq_ok] at h
    obtain ⟨first, hfirst, others, hothers, h⟩ := h
    cases h
    exact List.forall_mem_cons.mpr
      ⟨usesKinds_ofNode node hfirst, usesKinds_ofFields rest hothers⟩

end

theorem checkFields_congr {fields : List (String × Validator)} {es fs : Entries}
    (h : ∀ f ∈ fields, f.2.check ((fs.field? f.1).getD .null)
      = f.2.check ((es.field? f.1).getD .null)) :
    checkFields fields fs = checkFields fields es := by
  induction fields with
  | nil => rfl
  | cons f fields ih =>
    obtain ⟨name, validator⟩ := f
    rw [checkFields, checkFields, h _ List.mem_cons_self,
      ih fun f hf => h f (List.mem_cons_of_mem _ hf)]

theorem forM_restoreItems {element : Validator} {moment : DateTime → DateTime} {xs : List Value}
    (h : ∀ x ∈ xs, element.check (restoreWith moment x) = element.check x) :
    (restoreItems moment xs).forM (check element) = xs.forM (check element) := by
  induction xs with
  | nil => rfl
  | cons x xs ih =>
    have hcons : ∀ (y : Value) (ys : List Value), (y :: ys).forM (check element)
        = (check element y >>= fun _ => ys.forM (check element)) := fun _ _ => rfl
    rw [restoreItems, hcons, hcons, h x List.mem_cons_self,
      ih fun y hy => h y (List.mem_cons_of_mem x hy)]

theorem ofKind_restoreWith (k : Kind) (moment : DateTime → DateTime) (v : Value) :
    Predicate.ofKind k (restoreWith moment v) = Predicate.ofKind k v := by
  cases k <;> cases v <;> rfl

/-- Checking a value comes to the same result before and after it was stored. -/
theorem check_restoreWith {validator : Validator} (huses : UsesKinds validator)
    (moment : DateTime → DateTime) {v : Value}
    (hnamed : ∀ es, Part (.dict es) v → Entries.IsNamed es) :
    validator.check (restoreWith moment v) = validator.check v := by
  induction huses generalizing v with
  | primitive path form k =>
    have hholds : (Predicate.natural k).holds (restoreWith moment v)
        = (Predicate.natural k).holds v := ofKind_restoreWith k moment v
    rw [check, check, hholds]
  | @arrayOf path form element _ ih =>
    cases v with
    | list xs =>
      rw [restoreWith, check, check]
      exact forM_restoreItems fun x hx => ih fun es hes => hnamed es (.item hx hes)
    | tuple xs =>
      rw [restoreWith, check, check]
      exact forM_restoreItems fun x hx => ih fun es hes => hnamed es (.tupleItem hx hes)
    | _ => rfl
  | @objectOf path exclusive fields _ ih =>
    cases v with
    | dict es =>
      have hes : Entries.IsNamed es := hnamed es .self
      -- The same keys in the same order leave the same ones undeclared.
      have hextra : undeclared fields (es.map fun e => (e.1, restoreWith moment e.2))
          = undeclared fields es := by
        rw [undeclared, undeclared, List.map_map]
        rfl
      have hfields : checkFields fields (es.map fun e => (e.1, restoreWith moment e.2))
          = checkFields fields es := by
        apply checkFields_congr
        intro f hf
        rw [Entries.field?_map]
        cases hfield : Entries.field? es f.1 with
        | none => rfl
        | some x =>
          apply ih f hf
          intro inner hinner
          exact hnamed inner (.entry (Entries.mem_of_field? hfield) hinner)
      rw [restoreWith, hes.ofList_restoreEntries, check, check]
      simp only [Value.entries?, hextra, hfields]
    | _ => rfl

end Validator

namespace Schema

/-- A schema with the standard rules comes to the same result for a document and for what is read
back of it: it accepts both, or refuses both at the same place and for the same reason. -/
theorem validate_decodeText {name : String} {description : Value} {schema : Schema}
    (hschema : compile Registry.standard name description = .ok schema) {v : Value}
    {text : String} (htext : Stored.encode v = .ok text)
    (hnamed : ∀ es, Part (.dict es) v → Entries.IsNamed es)
    (hfloats : ∀ x, ¬Part (.float x) v)
    (htags : ∀ es, Part (.dict es) v → ¬Stored.LooksTagged es) :
    ∃ back, Stored.decodeText text = .ok back ∧ schema.validate back = schema.validate v := by
  rw [compile, Except.bind_eq_ok] at hschema
  obtain ⟨node, -, hschema⟩ := hschema
  rw [Except.bind_eq_ok] at hschema
  obtain ⟨validator, hvalidator, hschema⟩ := hschema
  refine ⟨_, Stored.decodeText_encode htext (Stored.isLegible_of_noFloat hfloats htags), ?_⟩
  cases hschema
  exact Validator.check_restoreWith (Validator.usesKinds_ofNode node hvalidator) _ hnamed

/-- An exclusive object of a list of texts and a date. -/
def event : Value :=
  .dict [(.str "_exclusive", .bool true), (.str "tags", .tuple [.type .str]),
    (.str "day", .type .date)]

/-- A document with a key too many. -/
def crowded : Value :=
  .dict [(.str "day", .date { year := 2024, month := 2, day := 29 }),
    (.str "extra", .tuple [.int 1]), (.str "tags", .tuple [.str "a"])]

theorem validate_decodeText_crowded :
    ∃ schema text back, compile Registry.standard "Event" event = .ok schema ∧
      Stored.encode crowded = .ok text ∧ Stored.decodeText text = .ok back ∧
      schema.validate back = schema.validate crowded ∧
      (schema.validate crowded).isOk = false := by
  have hschema : compile Registry.standard "Event" event = .ok _ := rfl
  obtain ⟨text, htext⟩ := (Stored.encode_ok_iff crowded).mpr (by
    simp [crowded, Stored.allStorable_dict_iff, Stored.allStorable_tuple_iff,
      Stored.allStorable_leaf_iff, Stored.IsStorable, Stored.IsKey, Json.digitLimit]
    decide)
  have honly : ∀ es, Part (.dict es) crowded → .dict es = crowded := by
    simp [crowded, Value.part_dict_iff, Value.part_tuple_iff, Value.part_leaf_iff]
  obtain ⟨back, hback, hsame⟩ := validate_decodeText hschema htext
    (fun es hes => by
      cases honly es hes
      exact ⟨["day", "extra", "tags"], by decide, rfl⟩)
    (by simp [crowded, Value.part_dict_iff, Value.part_tuple_iff, Value.part_leaf_iff])
    (fun es hes => by
      cases honly es hes
      exact Stored.not_looksTagged_of_mem List.mem_cons_self (by simp [Stored.dateTag])
        (by simp [Stored.dateTimeTag]))
  exact ⟨_, text, back, hschema, htext, hback, hsame, by decide +kernel⟩

end Schema
end SchemaStore
