import SchemaStore.Validator
import SchemaStore.Proofs.Value.Showing

/-!
What a description asks of a document.  `Conforms` says it of the description as it is written,
without nodes, paths or validators.  Compiling a description and running the validator decides
exactly this, for every description that can be compiled.  What the description does not ask for is
reported by an error, unless a key that the error has to name cannot be shown.
-/

namespace SchemaStore

/-- The registry has a rule for the kind, and the value passes it. -/
def Registry.Accepts (rules : Registry) (k : Kind) (v : Value) : Prop :=
  ∃ p, rules.lookup k = some p ∧ p.holds v = true

namespace Description

/-- The field that a pair of an object description declares, unless the pair is an option. -/
def field? : Value × Value → Option (String × Value)
  | (.str name, d) => if isOption name then none else some (name, d)
  | _ => none

def declared (ds : Entries) : List (String × Value) := ds.filterMap field?

/-- A value is as a description asks. -/
inductive Conforms (rules : Registry) : Value → Value → Prop where
  /-- A marker asks for a value that passes the rule of its kind. -/
  | marker {d v : Value} {k : Kind} (hkind : kind? d = some k) (hrule : rules.Accepts k v) :
      Conforms rules d v
  /-- A list or tuple of one description asks for a list or tuple of values as described. -/
  | array {ds d v : Value} {xs : List Value} (hdescription : ds.items? = some [d])
      (hitems : v.items? = some xs) (hall : ∀ x ∈ xs, Conforms rules d x) : Conforms rules ds v
  /-- A dictionary asks for a mapping whose values at the declared fields are as described, null
  standing for what is absent; and if it is exclusive, for no other keys. -/
  | object {ds es : Entries} {v : Value} (hentries : v.entries? = some es)
      (hfields : ∀ f ∈ declared ds, Conforms rules f.2 ((es.field? f.1).getD .null))
      (hkeys : isExclusive ds = true → ∀ e ∈ es, ∃ f ∈ declared ds, e.1 = .str f.1) :
      Conforms rules (.dict ds) v

/-- `Surplus d v key`: where the description asks for an exclusive object, the value has a mapping
with a key that is not declared there. -/
inductive Surplus : Value → Value → Value → Prop where
  | key {ds es : Entries} {v : Value} {e : Value × Value} (hexclusive : isExclusive ds = true)
      (hentries : v.entries? = some es) (he : e ∈ es)
      (hundeclared : ∀ f ∈ declared ds, e.1 ≠ .str f.1) : Surplus (.dict ds) v e.1
  | element {ds d v x key : Value} {xs : List Value} (hdescription : ds.items? = some [d])
      (hitems : v.items? = some xs) (hx : x ∈ xs) (h : Surplus d x key) : Surplus ds v key
  | field {ds es : Entries} {v key : Value} {f : String × Value} (hf : f ∈ declared ds)
      (hentries : v.entries? = some es) (h : Surplus f.2 ((es.field? f.1).getD .null) key) :
      Surplus (.dict ds) v key

variable {rules : Registry}

theorem conforms_marker_iff {d : Value} {k : Kind} (hkind : kind? d = some k) {v : Value} :
    Conforms rules d v ↔ rules.Accepts k v := by
  constructor
  · intro h
    cases h with
    | marker hother hrule =>
      rw [hkind] at hother
      exact Option.some.inj hother ▸ hrule
    | array hdescription _ _ =>
      cases d <;> simp only [Value.items?, kind?, reduceCtorEq] at hdescription hkind
    | object _ _ _ => exact absurd hkind (Option.some_ne_none k).symm
  · exact .marker hkind

theorem conforms_array_iff {ds d : Value} (hdescription : ds.items? = some [d]) {v : Value} :
    Conforms rules ds v ↔ ∃ xs, v.items? = some xs ∧ ∀ x ∈ xs, Conforms rules d x := by
  constructor
  · intro h
    cases h with
    | marker hkind _ =>
      cases ds <;> simp only [Value.items?, kind?, reduceCtorEq] at hdescription hkind
    | array hother hitems hall =>
      rw [hdescription] at hother
      obtain ⟨rfl, -⟩ := List.cons.inj (Option.some.inj hother)
      exact ⟨_, hitems, hall⟩
    | object _ _ _ => exact absurd hdescription (Option.some_ne_none _).symm
  · rintro ⟨xs, hitems, hall⟩
    exact .array hdescription hitems hall

theorem conforms_object_iff {ds : Entries} {v : Value} :
    Conforms rules (.dict ds) v ↔
      ∃ es, v.entries? = some es ∧
        (∀ f ∈ declared ds, Conforms rules f.2 ((es.field? f.1).getD .null)) ∧
        (isExclusive ds = true → ∀ e ∈ es, ∃ f ∈ declared ds, e.1 = .str f.1) := by
  constructor
  · intro h
    cases h with
    | marker hkind _ => exact absurd hkind (Option.some_ne_none _).symm
    | array hdescription _ _ => exact absurd hdescription (Option.some_ne_none _).symm
    | object hentries hfields hkeys => exact ⟨_, hentries, hfields, hkeys⟩
  · rintro ⟨es, hentries, hfields, hkeys⟩
    exact .object hentries hfields hkeys

theorem declared_cons_option {name : String} (h : isOption name = true) (d : Value) (ds : Entries) :
    declared ((.str name, d) :: ds) = declared ds :=
  List.filterMap_cons_none (if_pos h)

theorem declared_cons_field {name : String} (h : isOption name = false) (d : Value) (ds : Entries) :
    declared ((.str name, d) :: ds) = (name, d) :: declared ds :=
  List.filterMap_cons_some (if_neg (by rw [h]; exact Bool.false_ne_true))

theorem sizeOf_lt_of_items {ds d : Value} (h : ds.items? = some [d]) : sizeOf d < sizeOf ds := by
  cases ds with
  | list xs | tuple xs =>
    obtain rfl : xs = [d] := Option.some.inj h
    simp
    omega
  | _ => exact absurd h (Option.some_ne_none _).symm

theorem sizeOf_lt_of_declared {ds : Entries} {f : String × Value} (h : f ∈ declared ds) :
    sizeOf f.2 < sizeOf (Value.dict ds) := by
  obtain ⟨⟨k, d⟩, he, hfield⟩ := List.mem_filterMap.mp h
  have hsize := List.sizeOf_lt_of_mem he
  have hd : f.2 = d := by
    cases k with
    | str name =>
      have hname : (if isOption name = true then none else some (name, d)) = some f := hfield
      split at hname
      · exact absurd hname.symm (Option.some_ne_none f)
      · rw [← Option.some.inj hname]
    | _ => exact absurd hfield.symm (Option.some_ne_none f)
  rw [hd]
  simp at hsize ⊢
  omega

end Description

/-! ## What a validator accepts -/

theorem Value.same_str_iff (k : Value) (s : String) : k.same (.str s) = true ↔ k = .str s := by
  cases k <;> simp [same, sameNumber, plane?, entries?]

namespace Validator

variable {path form : String} {v : Value}

theorem check_primitive_iff {p : Predicate} :
    (primitive path form p).check v = .ok () ↔ p.holds v = true := by
  rw [check]
  split
  · next h => exact ⟨fun _ => h, fun _ => rfl⟩
  · next h =>
    constructor
    · intro hok
      cases hok
    · exact fun hholds => absurd hholds h

theorem check_primitive_ne_unshowable {p : Predicate} :
    (primitive path form p).check v ≠ .error .unshowable := by
  rw [check]
  split <;> nofun

theorem check_arrayOf_iff {element : Validator} :
    (arrayOf path form element).check v = .ok () ↔
      ∃ xs, v.items? = some xs ∧ ∀ x ∈ xs, element.check x = .ok () := by
  rw [check]
  cases hitems : v.items? with
  | none =>
    constructor
    · intro hok
      cases hok
    · rintro ⟨xs, hxs, _⟩
      cases hxs
  | some xs =>
    rw [show xs.forM (check element) = .ok () ↔ _ from Except.forM_eq_ok]
    constructor
    · exact fun hall => ⟨xs, rfl, hall⟩
    · rintro ⟨ys, hys, hall⟩
      rwa [Option.some.inj hys]

theorem exists_of_check_arrayOf {element : Validator}
    (h : (arrayOf path form element).check v = .error .unshowable) :
    ∃ xs, v.items? = some xs ∧ ∃ x ∈ xs, element.check x = .error .unshowable := by
  rw [check] at h
  cases hitems : v.items? with
  | none =>
    rw [hitems] at h
    cases h
  | some xs =>
    rw [hitems] at h
    exact ⟨xs, rfl, Except.exists_of_forM_eq_error h⟩

theorem mem_undeclared_iff {fields : List (String × Validator)} {es : Entries} {key : Value} :
    key ∈ undeclared fields es ↔ (∃ e ∈ es, e.1 = key) ∧ ∀ f ∈ fields, key ≠ .str f.1 := by
  rw [undeclared, List.mem_filter, List.mem_map, Bool.not_eq_true', List.any_eq_false]
  simp only [Value.same_str_iff, ne_eq]

theorem check_objectOf_iff {exclusive : Bool} {fields : List (String × Validator)} :
    (objectOf path exclusive fields).check v = .ok () ↔
      ∃ es, v.entries? = some es ∧ checkFields fields es = .ok () ∧
        (exclusive = true → undeclared fields es = []) := by
  rw [check]
  cases hentries : v.entries? with
  | none =>
    constructor
    · intro hok
      cases hok
    · rintro ⟨es, hes, _⟩
      cases hes
  | some es =>
    have hextra : (if exclusive = true then undeclared fields es else []).isEmpty = true ↔
        (exclusive = true → undeclared fields es = []) := by
      rw [List.isEmpty_iff]
      cases exclusive with
      | false => exact ⟨fun _ h => absurd h Bool.false_ne_true, fun _ => rfl⟩
      | true => exact ⟨fun h _ => h, fun h => h rfl⟩
    simp only
    generalize (if exclusive = true then undeclared fields es else []) = extra at hextra ⊢
    split
    · next h =>
      constructor
      · exact fun hok => ⟨es, rfl, hok, hextra.mp h⟩
      · rintro ⟨_, hes, hok, _⟩
        rwa [Option.some.inj hes]
    · next h =>
      constructor
      · intro hok
        cases hok
      · rintro ⟨_, hes, _, hkeys⟩
        obtain rfl := Option.some.inj hes
        exact absurd (hextra.mpr hkeys) h

/-- A report about an object fails for one of its keys, or inside a field. -/
theorem exists_of_check_objectOf {exclusive : Bool} {fields : List (String × Validator)}
    (h : (objectOf path exclusive fields).check v = .error .unshowable) :
    ∃ es, v.entries? = some es ∧
      ((exclusive = true ∧ ∃ key ∈ undeclared fields es, key.isShowable = false) ∨
        checkFields fields es = .error .unshowable) := by
  rw [check] at h
  cases hentries : v.entries? with
  | none =>
    rw [hentries] at h
    cases h
  | some es =>
    rw [hentries] at h
    simp only at h
    refine ⟨es, rfl, ?_⟩
    cases exclusive with
    | false => exact .inr h
    | true =>
      rw [if_pos rfl] at h
      split at h
      · exact .inr h
      · exact .inl ⟨rfl, Report.quoting_eq_unshowable_iff.mp (Except.error.inj h)⟩

end Validator

/-! ## Compiling -/

open Description

namespace Node

theorem ofElement_eq_ok {path : String} {xs : List Value} {element : Node}
    (h : ofElement path xs = .ok element) :
    ∃ inner, xs = [inner] ∧ ofValue path inner = .ok element := by
  match xs with
  | [inner] => exact ⟨inner, rfl, by rwa [ofElement] at h⟩
  | [] | _ :: _ :: _ =>
    rw [ofElement] at h
    · cases h
    all_goals exact fun _ heq => nomatch heq

/-- What a description can be, when it is understood. -/
theorem ofValue_cases {path : String} {d : Value} {node : Node} (h : ofValue path d = .ok node) :
    (∃ k, kind? d = some k ∧ node = .primitive k) ∨
    (∃ inner element, d.items? = some [inner] ∧ ofValue path inner = .ok element ∧
      node = .arrayOf element) ∨
    ∃ ds fields, d = .dict ds ∧ ofFields path ds = .ok fields ∧
      node = .objectOf (isExclusive ds) fields := by
  cases d with
  | kind k =>
    rw [ofValue] at h
    exact .inl ⟨k, rfl, (Except.ok.inj h).symm⟩
  | type t =>
    rw [ofValue] at h
    cases hkind : t.kind? with
    | none =>
      rw [hkind] at h
      cases h
    | some k =>
      rw [hkind] at h
      exact .inl ⟨k, hkind, (Except.ok.inj h).symm⟩
  | list xs | tuple xs =>
    rw [ofValue, Except.bind_eq_ok] at h
    obtain ⟨element, helement, hnode⟩ := h
    obtain ⟨inner, rfl, hinner⟩ := ofElement_eq_ok helement
    exact .inr (.inl ⟨inner, element, rfl, hinner, (Except.ok.inj hnode).symm⟩)
  | dict ds =>
    rw [ofValue, Except.bind_eq_ok] at h
    obtain ⟨fields, hfields, hnode⟩ := h
    exact .inr (.inr ⟨ds, fields, rfl, hfields, (Except.ok.inj hnode).symm⟩)
  | _ =>
    rw [ofValue] at h
    · cases h
    all_goals exact fun _ heq => nomatch heq

/-- The first pair of an object description is an option, or it declares a field. -/
theorem ofFields_cons_eq_ok {path : String} {e : Value × Value} {ds : Entries}
    {nodes : List (String × Node)} (h : ofFields path (e :: ds) = .ok nodes) :
    (declared (e :: ds) = declared ds ∧ ofFields path ds = .ok nodes) ∨
    ∃ name d node rest, declared (e :: ds) = (name, d) :: declared ds ∧
      ofValue (fieldPath path name) d = .ok node ∧ ofFields path ds = .ok rest ∧
      nodes = (name, node) :: rest := by
  obtain ⟨key, d⟩ := e
  cases key with
  | str name =>
    rw [ofFields] at h
    cases hoption : isOption name with
    | true =>
      rw [hoption] at h
      exact .inl ⟨declared_cons_option hoption d ds, h⟩
    | false =>
      rw [hoption, if_neg Bool.false_ne_true, Except.bind_eq_ok] at h
      obtain ⟨node, hnode, h⟩ := h
      rw [Except.bind_eq_ok] at h
      obtain ⟨rest, hrest, h⟩ := h
      exact .inr ⟨name, d, node, rest, declared_cons_field hoption d ds, hnode, hrest,
        (Except.ok.inj h).symm⟩
  | _ =>
    rw [ofFields] at h
    · cases h
    all_goals exact fun _ heq => nomatch heq

theorem map_fst_ofFields {path : String} {ds : Entries} {nodes : List (String × Node)}
    (h : ofFields path ds = .ok nodes) : nodes.map (·.1) = (declared ds).map (·.1) := by
  induction ds generalizing nodes with
  | nil =>
    rw [ofFields] at h
    rw [← Except.ok.inj h]
    rfl
  | cons e ds ih =>
    rcases ofFields_cons_eq_ok h with
      ⟨hdeclared, hrest⟩ | ⟨name, d, node, rest, hdeclared, _, hrest, rfl⟩
    · rw [hdeclared]
      exact ih hrest
    · rw [hdeclared, List.map_cons, List.map_cons, ih hrest]

end Node

namespace Validator

variable {rules : Registry} {path place : String}

theorem ofFields_cons_eq_ok {name : String} {node : Node} {nodes : List (String × Node)}
    {fields : List (String × Validator)}
    (h : ofFields rules place ((name, node) :: nodes) = .ok fields) :
    ∃ validator rest, ofNode rules (fieldPath place name) node = .ok validator ∧
      ofFields rules place nodes = .ok rest ∧ fields = (name, validator) :: rest := by
  rw [ofFields, Except.bind_eq_ok] at h
  obtain ⟨validator, hvalidator, h⟩ := h
  rw [Except.bind_eq_ok] at h
  obtain ⟨rest, hrest, h⟩ := h
  exact ⟨validator, rest, hvalidator, hrest, (Except.ok.inj h).symm⟩

theorem map_fst_ofFields {nodes : List (String × Node)} {fields : List (String × Validator)}
    (h : ofFields rules place nodes = .ok fields) : fields.map (·.1) = nodes.map (·.1) := by
  induction nodes generalizing fields with
  | nil =>
    rw [ofFields] at h
    rw [← Except.ok.inj h]
    rfl
  | cons f nodes ih =>
    obtain ⟨validator, rest, _, hrest, rfl⟩ := ofFields_cons_eq_ok h
    rw [List.map_cons, List.map_cons, ih hrest]

/-- The keys that the fields of a description leave over are those that it does not declare. -/
theorem mem_undeclared_ofFields {ds : Entries} {nodes : List (String × Node)}
    {fields : List (String × Validator)} (hnodes : Node.ofFields path ds = .ok nodes)
    (hfields : ofFields rules place nodes = .ok fields) {es : Entries} {key : Value} :
    key ∈ undeclared fields es ↔ (∃ e ∈ es, e.1 = key) ∧ ∀ f ∈ declared ds, key ≠ .str f.1 := by
  have hnames : (∀ f ∈ fields, key ≠ .str f.1) ↔ ∀ f ∈ declared ds, key ≠ .str f.1 := by
    rw [← List.forall_mem_map (P := fun name => key ≠ .str name), map_fst_ofFields hfields,
      Node.map_fst_ofFields hnodes, List.forall_mem_map]
  rw [mem_undeclared_iff, hnames]

theorem undeclared_ofFields {ds : Entries} {nodes : List (String × Node)}
    {fields : List (String × Validator)} (hnodes : Node.ofFields path ds = .ok nodes)
    (hfields : ofFields rules place nodes = .ok fields) (es : Entries) :
    undeclared fields es = [] ↔ ∀ e ∈ es, ∃ f ∈ declared ds, e.1 = .str f.1 := by
  rw [List.eq_nil_iff_forall_not_mem]
  simp only [mem_undeclared_ofFields hnodes hfields]
  constructor
  · intro hnone e he
    refine Classical.byContradiction fun hnever => hnone e.1 ⟨⟨e, he, rfl⟩, fun f hf hkey => ?_⟩
    exact hnever ⟨f, hf, hkey⟩
  · rintro hall key ⟨⟨e, he, rfl⟩, hnever⟩
    obtain ⟨f, hf, hkey⟩ := hall e he
    exact hnever f hf hkey

/-- Checking the fields is checking each declared one, if that is so for their descriptions. -/
theorem checkFields_ofFields {ds : Entries} {nodes : List (String × Node)}
    {fields : List (String × Validator)} (hnodes : Node.ofFields path ds = .ok nodes)
    (hfields : ofFields rules place nodes = .ok fields)
    (hinner : ∀ f ∈ declared ds, ∀ {path place : String} {node : Node} {validator : Validator},
      Node.ofValue path f.2 = .ok node → ofNode rules place node = .ok validator →
      ∀ v, validator.check v = .ok () ↔ Conforms rules f.2 v) (es : Entries) :
    checkFields fields es = .ok () ↔
      ∀ f ∈ declared ds, Conforms rules f.2 ((es.field? f.1).getD .null) := by
  induction ds generalizing nodes fields with
  | nil =>
    rw [Node.ofFields] at hnodes
    obtain rfl := Except.ok.inj hnodes
    rw [ofFields] at hfields
    rw [← Except.ok.inj hfields, checkFields]
    exact ⟨fun _ _ h => absurd h List.not_mem_nil, fun _ => rfl⟩
  | cons e ds ih =>
    rcases Node.ofFields_cons_eq_ok hnodes with
      ⟨hdeclared, hrest⟩ | ⟨name, d, node, rest, hdeclared, hnode, hrest, rfl⟩
    · rw [hdeclared] at hinner ⊢
      exact ih hrest hfields hinner
    · obtain ⟨validator, checked, hvalidator, hchecked, rfl⟩ := ofFields_cons_eq_ok hfields
      rw [hdeclared] at hinner ⊢
      rw [List.forall_mem_cons, checkFields, Except.bind_eq_ok,
        ← ih hrest hchecked fun f hf => hinner f (List.mem_cons_of_mem _ hf),
        ← hinner (name, d) List.mem_cons_self hnode hvalidator]
      constructor
      · rintro ⟨_, hfirst, hothers⟩
        exact ⟨hfirst, hothers⟩
      · rintro ⟨hfirst, hothers⟩
        exact ⟨(), hfirst, hothers⟩

/-- What a description can be, when it has been compiled. -/
theorem compiled_cases {d : Value} {path place : String} {node : Node} {validator : Validator}
    (hnode : Node.ofValue path d = .ok node)
    (hvalidator : ofNode rules place node = .ok validator) :
    (∃ k p, kind? d = some k ∧ rules.lookup k = some p ∧ validator = primitive place k.label p) ∨
    (∃ inner element checked, d.items? = some [inner] ∧ Node.ofValue path inner = .ok element ∧
      ofNode rules place element = .ok checked ∧
      validator = arrayOf place (Node.arrayOf element).form checked) ∨
    ∃ ds nodes fields, d = .dict ds ∧ Node.ofFields path ds = .ok nodes ∧
      ofFields rules place nodes = .ok fields ∧
      validator = objectOf place (isExclusive ds) fields := by
  rcases Node.ofValue_cases hnode with
    ⟨k, hkind, rfl⟩ | ⟨inner, element, hitems, helement, rfl⟩ | ⟨ds, nodes, rfl, hnodes, rfl⟩
  · rw [ofNode] at hvalidator
    cases hlookup : rules.lookup k with
    | none =>
      rw [hlookup] at hvalidator
      cases hvalidator
    | some p =>
      rw [hlookup] at hvalidator
      exact .inl ⟨k, p, hkind, hlookup, (Except.ok.inj hvalidator).symm⟩
  · rw [ofNode, Except.bind_eq_ok] at hvalidator
    obtain ⟨checked, hchecked, hvalidator⟩ := hvalidator
    exact .inr (.inl ⟨inner, element, checked, hitems, helement, hchecked,
      (Except.ok.inj hvalidator).symm⟩)
  · rw [ofNode, Except.bind_eq_ok] at hvalidator
    obtain ⟨fields, hfields, hvalidator⟩ := hvalidator
    exact .inr (.inr ⟨ds, nodes, fields, rfl, hnodes, hfields, (Except.ok.inj hvalidator).symm⟩)

theorem check_ofValue {d : Value} {path place : String} {node : Node} {validator : Validator}
    (hnode : Node.ofValue path d = .ok node) (hvalidator : ofNode rules place node = .ok validator)
    (v : Value) : validator.check v = .ok () ↔ Conforms rules d v := by
  rcases compiled_cases hnode hvalidator with
    ⟨k, p, hkind, hlookup, rfl⟩ | ⟨inner, element, checked, hitems, helement, hchecked, rfl⟩ |
      ⟨ds, nodes, fields, rfl, hnodes, hfields, rfl⟩
  · rw [conforms_marker_iff hkind, check_primitive_iff]
    constructor
    · exact fun hholds => ⟨p, hlookup, hholds⟩
    · rintro ⟨q, hq, hholds⟩
      rw [hlookup] at hq
      rwa [Option.some.inj hq]
  · have hsize := sizeOf_lt_of_items hitems
    have hinner : ∀ x, checked.check x = .ok () ↔ Conforms rules inner x :=
      check_ofValue helement hchecked
    rw [conforms_array_iff hitems, check_arrayOf_iff]
    simp only [hinner]
  · have hinner := checkFields_ofFields hnodes hfields fun f hf _ _ _ _ hfield hcompiled => by
      have hsize := sizeOf_lt_of_declared hf
      exact check_ofValue hfield hcompiled
    have hkeys := @undeclared_ofFields rules path place ds nodes fields hnodes hfields
    rw [conforms_object_iff, check_objectOf_iff]
    simp only [hinner, hkeys]
-- The paths change from field to field; only the description gets smaller.
termination_by sizeOf d

/-- A report about the fields of an object fails inside a declared field. -/
theorem exists_of_checkFields {ds : Entries} {nodes : List (String × Node)}
    {fields : List (String × Validator)} (hnodes : Node.ofFields path ds = .ok nodes)
    (hfields : ofFields rules place nodes = .ok fields) {es : Entries}
    (h : checkFields fields es = .error .unshowable) :
    ∃ f ∈ declared ds, ∃ path place node validator, Node.ofValue path f.2 = .ok node ∧
      ofNode rules place node = .ok validator ∧
      validator.check ((es.field? f.1).getD .null) = .error .unshowable := by
  induction ds generalizing nodes fields with
  | nil =>
    rw [Node.ofFields] at hnodes
    obtain rfl := Except.ok.inj hnodes
    rw [ofFields] at hfields
    rw [← Except.ok.inj hfields, checkFields] at h
    cases h
  | cons e ds ih =>
    rcases Node.ofFields_cons_eq_ok hnodes with
      ⟨hdeclared, hrest⟩ | ⟨name, d, node, rest, hdeclared, hnode, hrest, rfl⟩
    · rw [hdeclared]
      exact ih hrest hfields h
    · obtain ⟨validator, checked, hvalidator, hchecked, rfl⟩ := ofFields_cons_eq_ok hfields
      rw [hdeclared]
      rw [checkFields, Except.bind_eq_error] at h
      rcases h with hfirst | ⟨_, -, hothers⟩
      · exact ⟨_, List.mem_cons_self, _, _, node, validator, hnode, hvalidator, hfirst⟩
      · obtain ⟨f, hf, hfails⟩ := ih hrest hchecked hothers
        exact ⟨f, List.mem_cons_of_mem _ hf, hfails⟩

/-- Only a surplus key can keep a validator from its report. -/
theorem exists_surplus {d : Value} {path place : String} {node : Node} {validator : Validator}
    (hnode : Node.ofValue path d = .ok node) (hvalidator : ofNode rules place node = .ok validator)
    {v : Value} (h : validator.check v = .error .unshowable) :
    ∃ key, Surplus d v key ∧ key.isShowable = false := by
  rcases compiled_cases hnode hvalidator with
    ⟨k, p, -, -, rfl⟩ | ⟨inner, element, checked, hitems, helement, hchecked, rfl⟩ |
      ⟨ds, nodes, fields, rfl, hnodes, hfields, rfl⟩
  · exact absurd h check_primitive_ne_unshowable
  · have hsize := sizeOf_lt_of_items hitems
    obtain ⟨xs, hxs, x, hx, hfails⟩ := exists_of_check_arrayOf h
    obtain ⟨key, hkey, hlong⟩ := exists_surplus helement hchecked hfails
    exact ⟨key, .element hitems hxs hx hkey, hlong⟩
  · obtain ⟨es, hes, ⟨hexclusive, key, hkey, hlong⟩ | hfails⟩ := exists_of_check_objectOf h
    · obtain ⟨⟨e, he, rfl⟩, hundeclared⟩ := (mem_undeclared_ofFields hnodes hfields).mp hkey
      exact ⟨e.1, .key hexclusive hes he hundeclared, hlong⟩
    · obtain ⟨f, hf, _, _, _, _, hfield, hcompiled, hfails⟩ :=
        exists_of_checkFields hnodes hfields hfails
      have hsize := sizeOf_lt_of_declared hf
      obtain ⟨key, hkey, hlong⟩ := exists_surplus hfield hcompiled hfails
      exact ⟨key, .field hf hes hkey, hlong⟩
termination_by sizeOf d

end Validator

namespace Schema

theorem ofValue_of_ofDescription {name : String} {description : Value} {node : Node}
    (h : Node.ofDescription name description = .ok node) :
    Node.ofValue name description = .ok node := by
  cases description with
  | dict es =>
    rw [Node.ofValue]
    exact h
  | _ => cases h

theorem compile_eq_ok {rules : Registry} {name : String} {description : Value} {schema : Schema}
    (h : compile rules name description = .ok schema) :
    ∃ node, Node.ofDescription name description = .ok node ∧
      Validator.ofNode rules name node = .ok schema.validator := by
  rw [compile, Except.bind_eq_ok] at h
  obtain ⟨node, hnode, h⟩ := h
  rw [Except.bind_eq_ok] at h
  obtain ⟨validator, hvalidator, h⟩ := h
  rw [← Except.ok.inj h]
  exact ⟨node, hnode, hvalidator⟩

/-- A schema accepts exactly the documents that are as its description asks, and refuses every other
one with a validation error.  Only if a surplus key cannot be shown, there may be no such error. -/
theorem validate_iff_conforms {rules : Registry} {name : String} {description : Value}
    {schema : Schema} (h : compile rules name description = .ok schema) (v : Value) :
    (schema.validate v = .ok () ↔ Conforms rules description v) ∧
      (¬Conforms rules description v → (∃ e, schema.validate v = .error (.fault e)) ∨
        schema.validate v = .error .unshowable ∧
          ∃ key, Surplus description v key ∧ key.isShowable = false) := by
  obtain ⟨node, hnode, hvalidator⟩ := compile_eq_ok h
  have hnode := ofValue_of_ofDescription hnode
  have hcheck : schema.validate v = .ok () ↔ Conforms rules description v :=
    Validator.check_ofValue hnode hvalidator v
  refine ⟨hcheck, fun hnot => ?_⟩
  cases houtcome : schema.validate v with
  | ok _ => exact absurd (hcheck.mp houtcome) hnot
  | error report =>
    cases report with
    | fault e => exact .inl ⟨e, rfl⟩
    | unshowable => exact .inr ⟨rfl, Validator.exists_surplus hnode hvalidator houtcome⟩

/-- An object with a list in it, and an exclusive object within. -/
def address : Value :=
  .dict [(.str "tags", .list [.type .str]),
    (.str "home", .dict [(.str "_exclusive", .bool true), (.str "city", .kind .text),
      (.str "lines", .tuple [.type .str])])]

/-- A field that is absent counts as null, which is no list; and an exclusive object takes no key
beside its fields, be it a text or not. -/
theorem validate_iff_conforms_address :
    ∃ schema, compile Registry.standard "Address" address = .ok schema ∧
      Conforms Registry.standard address
        (.view [(.str "tags", .tuple []),
          (.str "home", .dict [(.str "city", .str "Ulm"), (.str "lines", .list [.str "a"])])]) ∧
      ¬Conforms Registry.standard address
        (.dict [(.str "home", .dict [(.str "city", .str "Ulm"), (.str "lines", .list [])])]) ∧
      ¬Conforms Registry.standard address
        (.dict [(.str "tags", .list []), (.str "home",
          .dict [(.str "city", .str "Ulm"), (.str "lines", .list []), (.int 7, .null)])]) := by
  have hschema : compile Registry.standard "Address" address = .ok _ := rfl
  refine ⟨_, hschema, ?_, fun h => ?_, fun h => ?_⟩
  · exact (validate_iff_conforms hschema _).1.mp (Except.isOk_iff.mp (by decide +kernel))
  · exact absurd (Except.isOk_iff.mpr ((validate_iff_conforms hschema _).1.mpr h))
      (by decide +kernel)
  · exact absurd (Except.isOk_iff.mpr ((validate_iff_conforms hschema _).1.mpr h))
      (by decide +kernel)

/-- The options of an object that takes no key at all. -/
def closed : Entries := [(.str "_exclusive", .bool true)]

def closedSchema : Schema where
  name := "Closed"
  description := .dict closed
  validator := .objectOf "Closed" true []

/-- A document with one key, which cannot be shown. -/
def unshowableKey : Entries := [(.unshowable, .int 1)]

theorem isExclusive_closed : isExclusive closed = true := by decide +kernel

theorem compile_closed (rules : Registry) :
    compile rules "Closed" (.dict closed) = .ok closedSchema := by
  rw [closedSchema, ← isExclusive_closed]
  rfl

theorem validate_unshowableKey :
    closedSchema.validate (.dict unshowableKey) = .error .unshowable := by
  have hreport : (Report.quoting [.unshowable] (.extraKeys "Closed" [.unshowable]) :
      Report ValidationError) = .unshowable :=
    Report.quoting_eq_unshowable_iff.mpr
      ⟨_, List.mem_singleton_self _, Value.isShowable_unshowable⟩
  rw [validate, closedSchema, Validator.check, ← hreport]
  rfl

/-- The document is not as described, yet there is no validation error that says so. -/
theorem validate_iff_conforms_unshowable :
    compile Registry.standard "Closed" (.dict closed) = .ok closedSchema ∧
      ¬Conforms Registry.standard (.dict closed) (.dict unshowableKey) ∧
      ∀ e, closedSchema.validate (.dict unshowableKey) ≠ .error (.fault e) := by
  refine ⟨compile_closed _, fun h => ?_, fun e he => ?_⟩
  · obtain ⟨es, hes, -, hkeys⟩ := conforms_object_iff.mp h
    obtain rfl := Option.some.inj hes
    obtain ⟨f, hf, -⟩ := hkeys isExclusive_closed _ List.mem_cons_self
    cases hf
  · rw [validate_unshowableKey] at he
    cases he

end Schema
end SchemaStore
