import Mathlib
import SchemaStore.Proofs.Schemas.Grammar

/-!
Which violation a validation error reports.  `Node.checks` lists what is checked of a document, one
check after the other: the form of a value, then for an exclusive object its keys, then the fields
in the order of the description, or the items in theirs, each with all that is inside it.  A
validator does nothing but go through this list, and so its error is that of the first check that
fails, or there is none because a key that it has to name cannot be shown.
-/

namespace SchemaStore

/-- One check, at the place where the fields of `trail` lead. -/
inductive Check where
  /-- The value has the form that the node asks for, whatever is inside it. -/
  | form (trail : List String) (node : Node) (v : Value)
  /-- The keys of an exclusive object are all declared. -/
  | keys (trail : List String) (fields : List (String × Node)) (es : Entries)

namespace Description

def isDeclared (names : List String) : Value → Bool
  | .str name => names.contains name
  | _ => false

/-- The keys of a mapping that are not among the names, in the order of the mapping. -/
def undeclared (names : List String) (es : Entries) : List Value :=
  (es.map (·.1)).filter fun key => !isDeclared names key

end Description

namespace Check

open Description (placeOf undeclared)

def passes (rules : Registry) : Check → Bool
  | form _ (.primitive k) v => (rules.lookup k).any fun p => p.holds v
  | form _ (.arrayOf _) v => v.items?.isSome
  | form _ (.objectOf _ _) v => v.entries?.isSome
  | form _ (.foreign _) _ => false
  | keys _ fields es => (undeclared (fields.map (·.1)) es).isEmpty

/-- The error that a check gives when it fails. -/
def blame (name : String) : Check → ValidationError
  | form trail node _ => .expected (placeOf name trail) node.form
  | keys trail fields es => .extraKeys (placeOf name trail) (undeclared (fields.map (·.1)) es)

/-- The keys that the error names. -/
def quoted : Check → List Value
  | form _ _ _ => []
  | keys _ fields es => undeclared (fields.map (·.1)) es

/-- An error tells what failed: its path leads to the check, and it has either the form that was
expected or the keys that were not. -/
def Describes (name : String) (e : ValidationError) : Check → Prop
  | form trail node _ =>
    e.path = ".".intercalate (name :: trail) ∧ e.form? = some node.form ∧ e.extra = []
  | keys trail fields es =>
    e.path = ".".intercalate (name :: trail) ∧ e.form? = none ∧
      e.extra = undeclared (fields.map (·.1)) es ∧ e.extra ≠ []

theorem describes_iff {rules : Registry} {c : Check} (h : c.passes rules = false) {name : String}
    {e : ValidationError} : c.Describes name e ↔ e = c.blame name := by
  cases c with
  | form trail node v =>
    constructor
    · rintro ⟨hpath, hform, _⟩
      cases e with
      | expected path form =>
        obtain rfl : path = _ := hpath
        rw [Option.some.inj hform]
        rfl
      | extraKeys path keys => exact absurd hform.symm (Option.some_ne_none _)
    · rintro rfl
      exact ⟨rfl, rfl, rfl⟩
  | keys trail fields es =>
    constructor
    · rintro ⟨hpath, hform, hextra, _⟩
      cases e with
      | expected path form => exact absurd hform (Option.some_ne_none _)
      | extraKeys path keys =>
        obtain rfl : path = _ := hpath
        obtain rfl : keys = _ := hextra
        rfl
    · rintro rfl
      have hne : undeclared (fields.map (·.1)) es ≠ [] := by
        rintro hnil
        rw [passes, hnil] at h
        exact absurd h.symm Bool.false_ne_true
      exact ⟨rfl, rfl, rfl, hne⟩

/-- Goes through checks until one fails. -/
def report (rules : Registry) (name : String) (cs : List Check) :
    Except (Report ValidationError) Unit :=
  match cs.find? fun c => !c.passes rules with
  | some c => .error (.quoting c.quoted (c.blame name))
  | none => .ok ()

variable {rules : Registry} {name : String}

theorem report_nil : report rules name [] = .ok () := rfl

theorem report_append (first second : List Check) :
    report rules name (first ++ second)
      = (report rules name first >>= fun _ => report rules name second) := by
  rw [report, List.find?_append, report]
  cases first.find? fun c => !c.passes rules with
  | some c => rfl
  | none => rfl

theorem report_cons (c : Check) (cs : List Check) :
    report rules name (c :: cs)
      = if c.passes rules = true then report rules name cs
        else .error (.quoting c.quoted (c.blame name)) := by
  rw [report, List.find?_cons]
  cases c.passes rules with
  | true => rfl
  | false => rfl

theorem report_flatMap {α : Type} (f : α → List Check) (xs : List α) :
    report rules name (xs.flatMap f) = xs.forM fun x => report rules name (f x) := by
  induction xs with
  | nil => rfl
  | cons x xs ih =>
    rw [List.flatMap_cons, report_append, ih]
    rfl

/-- `FirstFailure rules cs c`: the check is among the others, it fails, and no check before it
does. -/
def FirstFailure (rules : Registry) (cs : List Check) (c : Check) : Prop :=
  ∃ before behind, cs = before ++ c :: behind ∧ (∀ b ∈ before, b.passes rules = true) ∧
    c.passes rules = false

theorem find?_eq_some_iff {cs : List Check} {c : Check} :
    (cs.find? fun c => !c.passes rules) = some c ↔ FirstFailure rules cs c := by
  rw [List.find?_eq_some_iff_append, Bool.not_eq_true']
  constructor
  · rintro ⟨hfails, before, behind, hsplit, hbefore⟩
    refine ⟨before, behind, hsplit, fun b hb => ?_, hfails⟩
    have hpasses := hbefore b hb
    rwa [Bool.not_not] at hpasses
  · rintro ⟨before, behind, hsplit, hbefore, hfails⟩
    refine ⟨hfails, before, behind, hsplit, fun b hb => ?_⟩
    rw [Bool.not_not]
    exact hbefore b hb

theorem report_eq_error_iff {cs : List Check} {r : Report ValidationError} :
    report rules name cs = .error r ↔
      ∃ c, FirstFailure rules cs c ∧ .quoting c.quoted (c.blame name) = r := by
  rw [report]
  simp only [← find?_eq_some_iff]
  split
  · next c hfirst => simp [hfirst]
  · next hnone => simp [hnone]

/-- An error is that of the first check that fails, as long as the keys that it names can be
shown. -/
theorem report_eq_fault_iff {cs : List Check} {e : ValidationError} :
    report rules name cs = .error (.fault e) ↔
      ∃ c, FirstFailure rules cs c ∧ (∀ key ∈ c.quoted, key.isShowable = true) ∧
        c.Describes name e := by
  rw [report_eq_error_iff]
  refine exists_congr fun c => and_congr_right fun hfirst => ?_
  obtain ⟨_, _, _, _, hfails⟩ := hfirst
  rw [Report.quoting_eq_fault_iff, describes_iff hfails, and_comm, eq_comm]

theorem report_eq_unshowable_iff {cs : List Check} :
    report rules name cs = .error .unshowable ↔
      ∃ c, FirstFailure rules cs c ∧ ∃ key ∈ c.quoted, key.isShowable = false := by
  rw [report_eq_error_iff]
  exact exists_congr fun c => and_congr_right fun _ => Report.quoting_eq_unshowable_iff

end Check

namespace Node

mutual

/-- What is checked of a value, in order.  An absent field counts as null. -/
def checks (trail : List String) : Node → Value → List Check
  | primitive k, v => [.form trail (primitive k) v]
  | arrayOf element, v =>
    .form trail (arrayOf element) v :: (v.items?.getD []).flatMap (checks trail element)
  | objectOf exclusive fields, v =>
    let es := v.entries?.getD []
    .form trail (objectOf exclusive fields) v ::
      ((if exclusive then [.keys trail fields es] else []) ++ fieldChecks trail fields es)
  | foreign x, v => [.form trail (foreign x) v]

def fieldChecks (trail : List String) : List (String × Node) → Entries → List Check
  | [], _ => []
  | (name, node) :: rest, es =>
    checks (trail ++ [name]) node ((es.field? name).getD .null) ++ fieldChecks trail rest es

end

end Node

/-! ## Validators go through the checks -/

open Description

namespace Validator

variable {rules : Registry} {name place : String}

theorem undeclared_eq (fields : List (String × Validator)) (es : Entries) :
    undeclared fields es = Description.undeclared (fields.map (·.1)) es := by
  rw [undeclared, Description.undeclared]
  refine List.filter_congr fun key _ => congrArg _ ?_
  cases key with
  | str s =>
    rw [isDeclared, List.contains_eq_any_beq, List.any_map]
    exact congrArg _ (funext fun f => Value.same_str s f.1)
  | _ =>
    rw [isDeclared]
    · rw [List.any_eq_false]
      intro f _ hsame
      have hkey := (Value.same_str_iff _ _).mp hsame
      cases hkey
    all_goals
      intro _ heq
      cases heq

mutual

/-- A validator reports the checks of its node, one after the other. -/
theorem check_eq_report {node : Node} {trail : List String} {validator : Validator}
    (h : ofNode rules (placeOf name trail) node = .ok validator) (v : Value) :
    validator.check v = Check.report rules name (node.checks trail v) := by
  match node with
  | .primitive k =>
    rw [ofNode] at h
    rw [Node.checks, Check.report_cons, Check.report_nil, Check.passes]
    cases hlookup : rules.lookup k with
    | none =>
      rw [hlookup] at h
      cases h
    | some p =>
      rw [hlookup] at h
      rw [← Except.ok.inj h, check]
      rfl
  | .arrayOf element =>
    rw [ofNode, Except.bind_eq_ok] at h
    obtain ⟨inner, hinner, h⟩ := h
    rw [← Except.ok.inj h, check, Node.checks, Check.report_cons, Check.passes]
    cases hitems : v.items? with
    | none => rfl
    | some xs =>
      have hforM : xs.forM (check inner) =
          xs.forM fun x => Check.report rules name (element.checks trail x) :=
        congrArg _ (funext fun x => check_eq_report hinner x)
      rw [Option.isSome_some, if_pos rfl, Option.getD_some, Check.report_flatMap]
      exact hforM
  | .objectOf exclusive fields =>
    rw [ofNode, Except.bind_eq_ok] at h
    obtain ⟨checked, hchecked, h⟩ := h
    rw [← Except.ok.inj h, check, Node.checks, Check.report_cons, Check.passes]
    cases hentries : v.entries? with
    | none => rfl
    | some es =>
      rw [Option.isSome_some, if_pos rfl, Option.getD_some, Check.report_append,
        ← checkFields_eq_report hchecked es]
      cases exclusive with
      | false => rfl
      | true =>
        simp only [if_pos]
        rw [undeclared_eq, map_fst_ofFields hchecked, Check.report_cons, Check.report_nil,
          Check.passes]
        split <;> rfl
  | .foreign x =>
    rw [ofNode] at h
    cases h

theorem checkFields_eq_report {nodes : List (String × Node)} {trail : List String}
    {fields : List (String × Validator)}
    (h : ofFields rules (placeOf name trail) nodes = .ok fields) (es : Entries) :
    checkFields fields es = Check.report rules name (Node.fieldChecks trail nodes es) := by
  match nodes with
  | [] =>
    rw [ofFields] at h
    rw [← Except.ok.inj h, checkFields, Node.fieldChecks, Check.report_nil]
  | (field, node) :: rest =>
    obtain ⟨validator, checked, hvalidator, hchecked, rfl⟩ := ofFields_cons_eq_ok h
    rw [← placeOf_concat] at hvalidator
    rw [checkFields, Node.fieldChecks, Check.report_append, ← check_eq_report hvalidator,
      ← checkFields_eq_report hchecked]

end

end Validator

namespace Schema

/-- The error of a validation is that of the first check that fails, and there is one exactly if
some check fails and the keys that the error names can be shown.  The checks are those of the node
that mirrors the description. -/
theorem validate_reports_first_failure {rules : Registry} {name : String} {description : Value}
    {schema : Schema} (h : compile rules name description = .ok schema) :
    ∃ node, Node.ofDescription name description = .ok node ∧ Mirrors node description ∧ ∀ v,
      (∀ e, schema.validate v = .error (.fault e) ↔
        ∃ c, Check.FirstFailure rules (node.checks [] v) c ∧
          (∀ key ∈ c.quoted, key.isShowable = true) ∧ c.Describes name e) ∧
      (schema.validate v = .error .unshowable ↔
        ∃ c, Check.FirstFailure rules (node.checks [] v) c ∧
          ∃ key ∈ c.quoted, key.isShowable = false) := by
  obtain ⟨node, hnode, hvalidator⟩ := compile_eq_ok h
  refine ⟨node, hnode, Node.mirrors_of_ofValue (ofValue_of_ofDescription hnode), fun v => ?_⟩
  have hcheck : schema.validate v = Check.report rules name (node.checks [] v) :=
    Validator.check_eq_report hvalidator v
  rw [hcheck]
  exact ⟨fun e => Check.report_eq_fault_iff, Check.report_eq_unshowable_iff⟩

/-- Lines in a list, each closed to further keys, and a field behind them. -/
def order : Value :=
  .dict [(.str "lines", .list [.dict [(.str "_exclusive", .bool true), (.str "item", .type .str),
    (.str "count", .type .int)]]), (.str "total", .type .float)]

/-- A total that is no number, and a second line with two keys too many and no item. -/
def overfullOrder : Value :=
  .dict [(.str "total", .str "much"), (.str "lines", .tuple [
    .dict [(.str "item", .str "tea"), (.str "count", .int 2)],
    .view [(.int 7, .null), (.str "count", .int 1), (.str "gift", .bool true)]])]

/-- The keys of the second line come before its missing item and, in the order of the description,
before the total. -/
theorem validate_reports_first_failure_order :
    ∃ schema node c, compile Registry.standard "Order" order = .ok schema ∧
      Node.ofDescription "Order" order = .ok node ∧
      schema.validate overfullOrder
        = .error (.fault (.extraKeys "Order.lines" [.int 7, .str "gift"])) ∧
      Check.FirstFailure Registry.standard (node.checks [] overfullOrder) c ∧
      c.Describes "Order" (.extraKeys "Order.lines" [.int 7, .str "gift"]) := by
  have hschema : compile Registry.standard "Order" order = .ok _ := rfl
  obtain ⟨node, hnode, _, hreports⟩ := validate_reports_first_failure hschema
  obtain ⟨c, hfirst, -, hdescribes⟩ :=
    ((hreports overfullOrder).1 (.extraKeys "Order.lines" [.int 7, .str "gift"])).mp (by cbv)
  exact ⟨_, node, c, hschema, hnode, by cbv, hfirst, hdescribes⟩

/-- In an object that takes no key at all, the first check that fails of a document with a key is
that of its keys, which cannot be named. -/
theorem validate_reports_first_failure_unshowable :
    compile Registry.standard "Closed" (.dict closed) = .ok closedSchema ∧
      Node.ofDescription "Closed" (.dict closed) = .ok (.objectOf true []) ∧
      Check.FirstFailure Registry.standard
        (Node.checks [] (.objectOf true []) (.dict unshowableKey)) (.keys [] [] unshowableKey) ∧
      ∀ e, closedSchema.validate (.dict unshowableKey) ≠ .error (.fault e) := by
  have hnode : Node.ofDescription "Closed" (.dict closed) = .ok (.objectOf true []) := by
    rw [← isExclusive_closed]
    rfl
  refine ⟨compile_closed _, hnode,
    ⟨[.form [] (.objectOf true []) (.dict unshowableKey)], [], by rw [Node.checks]; rfl, ?_, rfl⟩,
    fun e he => ?_⟩
  · rw [List.forall_mem_singleton]
    rfl
  · rw [validate_unshowableKey] at he
    cases he

end Schema
end SchemaStore
