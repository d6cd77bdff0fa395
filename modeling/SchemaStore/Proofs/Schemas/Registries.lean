import SchemaStore.Proofs.Schemas.Grammar

/-!
Registries over time, and what is compiled against them.  A kind gets its rule from the first call
that registers one, if that comes before the registry is sealed; no later call takes the rule away
or puts another in its place.  Compiling a node fails exactly if a primitive in it has no rule, with
the place of the first such primitive, and so what once compiles compiles to the same ever after.
-/

namespace Except

variable {ε α β : Type}

def fault? : Except ε α → Option ε
  | .ok _ => none
  | .error e => some e

theorem fault?_eq_some_iff {x : Except ε α} {e : ε} : x.fault? = some e ↔ x = .error e := by
  cases x <;> simp [fault?]

theorem fault?_bind_ok (x : Except ε α) (f : α → β) :
    (x >>= fun a => Except.ok (f a)).fault? = x.fault? := by
  cases x with
  | ok a => rfl
  | error e => rfl

/-- A sequence fails with its first part, or else as its second part does after any result. -/
theorem fault?_bind {x : Except ε α} {f : α → Except ε β} {o : Option ε}
    (hf : ∀ a, (f a).fault? = o) : (x >>= f).fault? = x.fault?.or o := by
  cases x with
  | ok a => exact hf a
  | error e => rfl

end Except

namespace SchemaStore
namespace Registry

/-- What can be asked of a registry while it is being set up, and later. -/
inductive Call where
  | register (kind : Kind) (predicate : Predicate)
  | sealOff

/-- The registry after a call.  A registration that is refused leaves it as it was. -/
def after (r : Registry) : Call → Registry
  | .register k p =>
    match r.register k p with
    | .ok next => next
    | .error _ => r
  | .sealOff => r.sealed

def run (r : Registry) (calls : List Call) : Registry := calls.foldl after r

theorem run_append (r : Registry) (calls more : List Call) :
    r.run (calls ++ more) = (r.run calls).run more := List.foldl_append

/-- A rule for the kind is registered before the first call that seals the registry. -/
def IsGiven (calls : List Call) (k : Kind) : Prop :=
  ∃ early p late, calls = early ++ .register k p :: late ∧ Call.sealOff ∉ early

/-- The first rule for a kind among the calls before the registry is sealed. -/
def given? (k : Kind) : List Call → Option Predicate
  | [] => none
  | .register other p :: rest => if k = other then some p else given? k rest
  | .sealOff :: _ => none

theorem isGiven_iff {calls : List Call} {k : Kind} :
    IsGiven calls k ↔ (given? k calls).isSome = true := by
  constructor
  · rintro ⟨early, p, late, rfl, hearly⟩
    induction early with
    | nil => rw [List.nil_append, given?, if_pos rfl, Option.isSome_some]
    | cons c early ih =>
      rw [List.mem_cons, not_or] at hearly
      cases c with
      | sealOff => exact absurd rfl hearly.1
      | register other q =>
        rw [List.cons_append, given?]
        split
        · exact Option.isSome_some
        · exact ih hearly.2
  · intro h
    induction calls with
    | nil => exact absurd h Bool.false_ne_true
    | cons c rest ih =>
      cases c with
      | sealOff => exact absurd h Bool.false_ne_true
      | register other q =>
        by_cases hkind : k = other
        · exact ⟨[], q, rest, by rw [hkind, List.nil_append], List.not_mem_nil⟩
        · rw [given?, if_neg hkind] at h
          obtain ⟨early, p, late, rfl, hearly⟩ := ih h
          refine ⟨.register other q :: early, p, late, rfl, fun hmem => ?_⟩
          rcases List.mem_cons.mp hmem with heq | hmem
          · cases heq
          · exact hearly hmem

instance (calls : List Call) (k : Kind) : Decidable (IsGiven calls k) :=
  decidable_of_iff _ isGiven_iff.symm

/-! ## A rule stays -/

theorem lookup_register (r : Registry) (k other : Kind) (p : Predicate) :
    (r.after (.register other p)).lookup k
      = (r.lookup k).or (if r.isSealed = false ∧ k = other then some p else none) := by
  rw [after, register]
  by_cases hsealed : r.isSealed = true
  · rw [if_pos hsealed, hsealed, if_neg fun h => Bool.false_ne_true h.1.symm, Option.or_none]
  · rw [if_neg hsealed]
    by_cases htaken : (r.lookup other).isSome = true
    · rw [if_pos htaken]
      by_cases hkind : k = other
      · rw [hkind, Option.or_of_isSome htaken]
      · rw [if_neg fun h => hkind h.2, Option.or_none]
    · rw [if_neg htaken]
      show (r.entries ++ [(other, p)]).lookup k = _
      rw [List.lookup_append, List.lookup_cons, List.lookup_nil]
      by_cases hkind : k = other
      · rw [if_pos ⟨Bool.eq_false_iff.mpr hsealed, hkind⟩, hkind, beq_self_eq_true]
        rfl
      · rw [if_neg fun h => hkind h.2, beq_false_of_ne hkind]
        rfl

theorem isSealed_register (r : Registry) (k : Kind) (p : Predicate) :
    (r.after (.register k p)).isSealed = r.isSealed := by
  rw [after, register]
  by_cases hsealed : r.isSealed = true
  · rw [if_pos hsealed]
  · rw [if_neg hsealed]
    split
    · next h =>
      split at h
      · cases h
      · rw [← Except.ok.inj h]
    · rfl

/-- What a row of calls makes of the rule for a kind: a rule that is there stays, and otherwise the
first one that is given before sealing becomes it. -/
theorem lookup_run (r : Registry) (calls : List Call) (k : Kind) :
    (r.run calls).lookup k = (r.lookup k).or (if r.isSealed then none else given? k calls) := by
  induction calls generalizing r with
  | nil =>
    rw [given?, ite_self, Option.or_none]
    rfl
  | cons c rest ih =>
    rw [run, List.foldl_cons, ← run, ih]
    cases c with
    | sealOff =>
      rw [given?, ite_self]
      rfl
    | register other p =>
      rw [lookup_register, isSealed_register, Option.or_assoc, given?]
      cases r.isSealed with
      | true => rfl
      | false =>
        by_cases hkind : k = other
        · simp only [hkind, and_self, if_true, Option.some_or, Bool.false_eq_true, if_false]
        · simp only [hkind, and_false, if_false, Option.none_or]

theorem isSome_lookup_run_iff {calls : List Call} {k : Kind} :
    ((empty.run calls).lookup k).isSome = true ↔ IsGiven calls k := by
  rw [lookup_run, isGiven_iff]
  exact Iff.rfl

/-- Every rule of the first registry is the rule of the second for that kind. -/
def IsWithin (r s : Registry) : Prop := ∀ k p, r.lookup k = some p → s.lookup k = some p

theorem isWithin_run (r : Registry) (calls : List Call) : r.IsWithin (r.run calls) := by
  intro k p h
  rw [lookup_run, h, Option.some_or]

end Registry

/-! ## The primitives of a node -/

namespace Node

/-- The node is put together from primitives, arrays and objects. -/
inductive IsBuilt : Node → Prop where
  | primitive (k : Kind) : IsBuilt (.primitive k)
  | arrayOf {element : Node} (helement : IsBuilt element) : IsBuilt (.arrayOf element)
  | objectOf {exclusive : Bool} {fields : List (String × Node)}
      (hfields : ∀ f ∈ fields, IsBuilt f.2) : IsBuilt (.objectOf exclusive fields)

mutual

/-- The primitives anywhere in a node, depth first and the fields in their order, each behind the
names of the fields that lead to it. -/
def primitives (trail : List String) : Node → List (List String × Kind)
  | primitive k => [(trail, k)]
  | arrayOf element => primitives trail element
  | objectOf _ fields => fieldPrimitives trail fields
  | foreign _ => []

def fieldPrimitives (trail : List String) : List (String × Node) → List (List String × Kind)
  | [] => []
  | (name, node) :: rest => primitives (trail ++ [name]) node ++ fieldPrimitives trail rest

end

end Node

namespace Validator

open Description (placeOf fieldPath)

/-- What is reported of a primitive, if its kind has no rule. -/
def missing? (rules : Registry) (path : String) (q : List String × Kind) :
    Option (Report SchemaError) :=
  if (rules.lookup q.2).isSome then none else some (.fault (.noRule (placeOf path q.1) q.2))

variable {rules : Registry} {path : String}

mutual

/-- Compiling a node fails at the first primitive without a rule. -/
theorem fault?_ofNode {node : Node} (hbuilt : node.IsBuilt) (trail : List String) :
    (ofNode rules (placeOf path trail) node).fault?
      = (node.primitives trail).findSome? (missing? rules path) := by
  match node with
  | .primitive k =>
    rw [ofNode, Node.primitives, List.findSome?_singleton, missing?]
    cases rules.lookup k with
    | some p => rfl
    | none => rfl
  | .arrayOf element =>
    have helement : element.IsBuilt := by
      cases hbuilt with
      | arrayOf helement => exact helement
    rw [ofNode, Node.primitives, Except.fault?_bind_ok]
    exact fault?_ofNode helement trail
  | .objectOf exclusive fields =>
    have hfields : ∀ f ∈ fields, f.2.IsBuilt := by
      cases hbuilt with
      | objectOf hfields => exact hfields
    rw [ofNode, Node.primitives, Except.fault?_bind_ok]
    exact fault?_ofFields hfields trail
  | .foreign _ => cases hbuilt

theorem fault?_ofFields {fields : List (String × Node)} (hbuilt : ∀ f ∈ fields, f.2.IsBuilt)
    (trail : List String) :
    (ofFields rules (placeOf path trail) fields).fault?
      = (Node.fieldPrimitives trail fields).findSome? (missing? rules path) := by
  match fields with
  | [] => rfl
  | (name, node) :: rest =>
    obtain ⟨hnode, hrest⟩ := List.forall_mem_cons.mp hbuilt
    rw [ofFields, Node.fieldPrimitives, List.findSome?_append, ← fault?_ofNode hnode,
      ← fault?_ofFields hrest trail, Description.placeOf_concat]
    exact Except.fault?_bind fun validator => Except.fault?_bind_ok _ (List.cons (name, validator))

end

mutual

/-- A node that compiles against some rules compiles to the same validator against more. -/
theorem ofNode_of_isWithin {more : Registry} (hwithin : rules.IsWithin more) {path : String}
    {node : Node} {validator : Validator} (h : ofNode rules path node = .ok validator) :
    ofNode more path node = .ok validator := by
  match node with
  | .primitive k =>
    rw [ofNode] at h ⊢
    cases hlookup : rules.lookup k with
    | none =>
      rw [hlookup] at h
      cases h
    | some p =>
      rw [hlookup] at h
      rw [hwithin k p hlookup]
      exact h
  | .arrayOf element =>
    rw [ofNode, Except.bind_eq_ok] at h ⊢
    obtain ⟨inner, hinner, h⟩ := h
    exact ⟨inner, ofNode_of_isWithin hwithin hinner, h⟩
  | .objectOf exclusive fields =>
    rw [ofNode, Except.bind_eq_ok] at h ⊢
    obtain ⟨inner, hinner, h⟩ := h
    exact ⟨inner, ofFields_of_isWithin hwithin hinner, h⟩
  | .foreign _ =>
    rw [ofNode] at h
    cases h

theorem ofFields_of_isWithin {more : Registry} (hwithin : rules.IsWithin more) {path : String}
    {fields : List (String × Node)} {validators : List (String × Validator)}
    (h : ofFields rules path fields = .ok validators) :
    ofFields more path fields = .ok validators := by
  match fields with
  | [] => exact h
  | (name, node) :: rest =>
    obtain ⟨validator, others, hvalidator, hothers, rfl⟩ := ofFields_cons_eq_ok h
    rw [ofFields, ofNode_of_isWithin hwithin hvalidator, Except.ok_bind,
      ofFields_of_isWithin hwithin hothers]
    rfl

end

theorem missing?_eq_some_iff {q : List String × Kind} {r : Report SchemaError} :
    missing? rules path q = some r ↔
      ¬(rules.lookup q.2).isSome = true ∧ r = .fault (.noRule (placeOf path q.1) q.2) := by
  rw [missing?]
  split
  · next h =>
    constructor
    · intro hsome
      cases hsome
    · exact fun hmissing => absurd h hmissing.1
  · next h =>
    rw [Option.some.injEq]
    exact ⟨fun heq => ⟨h, heq.symm⟩, fun hmissing => hmissing.2.symm⟩

theorem missing?_eq_none_iff {q : List String × Kind} :
    missing? rules path q = none ↔ (rules.lookup q.2).isSome = true := by
  rw [missing?]
  split
  · next h => exact ⟨fun _ => h, fun _ => rfl⟩
  · next h =>
    constructor
    · intro hnone
      cases hnone
    · exact fun hsome => absurd hsome h

/-- Whatever calls a registry has seen, a node compiles against it unless some primitive in the node
is of a kind that no call gave a rule before the registry was sealed.  The error names the first
such primitive.  What compiles does so after any further calls, to a validator that agrees with the
first on every value. -/
theorem compile_run (calls : List Registry.Call) (path : String) {node : Node}
    (hbuilt : node.IsBuilt) :
    (∀ r, ofNode (Registry.empty.run calls) path node = .error r ↔
      ∃ before trail k behind, node.primitives [] = before ++ (trail, k) :: behind ∧
        (∀ q ∈ before, Registry.IsGiven calls q.2) ∧ ¬Registry.IsGiven calls k ∧
        r = .fault (.noRule (".".intercalate (path :: trail)) k)) ∧
    ((∃ r, ofNode (Registry.empty.run calls) path node = .error r) ↔
      ∃ q ∈ node.primitives [], ¬Registry.IsGiven calls q.2) ∧
    ∀ validator, ofNode (Registry.empty.run calls) path node = .ok validator → ∀ more,
      ∃ later, ofNode (Registry.empty.run (calls ++ more)) path node = .ok later ∧
        ∀ v, later.check v = validator.check v := by
  have hfault : (ofNode (Registry.empty.run calls) path node).fault?
      = (node.primitives []).findSome? (missing? (Registry.empty.run calls) path) :=
    fault?_ofNode hbuilt []
  refine ⟨fun r => ?_, ?_, fun validator h more => ?_⟩
  · rw [← Except.fault?_eq_some_iff, hfault, List.findSome?_eq_some_iff]
    simp only [missing?_eq_some_iff, missing?_eq_none_iff, Registry.isSome_lookup_run_iff]
    constructor
    · rintro ⟨before, ⟨trail, k⟩, behind, hsplit, ⟨hmissing, he⟩, hbefore⟩
      exact ⟨before, trail, k, behind, hsplit, hbefore, hmissing, he⟩
    · rintro ⟨before, trail, k, behind, hsplit, hbefore, hmissing, he⟩
      exact ⟨before, (trail, k), behind, hsplit, ⟨hmissing, he⟩, hbefore⟩
  · simp only [← Except.fault?_eq_some_iff, hfault]
    rw [← Option.isSome_iff_exists, List.isSome_findSome?, List.any_eq_true]
    refine exists_congr fun q => and_congr_right fun _ => ?_
    rw [← Registry.isSome_lookup_run_iff, ← missing?_eq_none_iff, Option.isSome_iff_ne_none]
  · have hlater : ofNode ((Registry.empty.run calls).run more) path node = .ok validator :=
      ofNode_of_isWithin (Registry.isWithin_run _ more) h
    rw [← Registry.run_append] at hlater
    exact ⟨validator, hlater, fun _ => rfl⟩

/-- The second rule for texts is refused, and so is the one for numbers, which comes too late. -/
def hastyCalls : List Registry.Call :=
  [.register .text Predicate.nonempty, .register .text Predicate.always, .sealOff,
    .register .number (Predicate.natural .number), .sealOff]

/-- A list of objects behind a text. -/
def invoice : Node :=
  .objectOf true [("name", .primitive .text),
    ("lines", .arrayOf (.objectOf false
      [("count", .primitive .number), ("due", .primitive .date)]))]

/-- Of the two primitives without a rule the first is named.  The text alone compiles, and a rule
that is registered later changes nothing about it. -/
theorem compile_run_invoice :
    ofNode (Registry.empty.run hastyCalls) "Invoice" invoice
      = .error (.fault (.noRule "Invoice.lines.count" .number)) ∧
    ∃ validator later,
      ofNode (Registry.empty.run hastyCalls) "Name" (.primitive .text) = .ok validator ∧
      ofNode (Registry.empty.run (hastyCalls ++ [.register .text Predicate.always])) "Name"
        (.primitive .text) = .ok later ∧
      later.check (.str "") = validator.check (.str "") := by
  have hline : (Node.objectOf false
      [("count", .primitive .number), ("due", .primitive .date)]).IsBuilt :=
    .objectOf (by simp [Node.IsBuilt.primitive])
  have hbuilt : invoice.IsBuilt :=
    .objectOf (by simp [Node.IsBuilt.primitive, Node.IsBuilt.arrayOf hline])
  have hvalidator : ofNode (Registry.empty.run hastyCalls) "Name" (.primitive .text)
      = .ok (.primitive "Name" "String" Predicate.nonempty) := rfl
  obtain ⟨later, hlater, hchecks⟩ := (compile_run hastyCalls "Name" (.primitive .text)).2.2 _
    hvalidator [.register .text Predicate.always]
  refine ⟨((compile_run hastyCalls "Invoice" hbuilt).1 _).mpr ?_, _, later, hvalidator, hlater,
    hchecks (.str "")⟩
  exact ⟨[(["name"], .text)], ["lines", "count"], .number, [(["lines", "due"], .date)], rfl,
    by decide, by decide, rfl⟩

end Validator
end SchemaStore
