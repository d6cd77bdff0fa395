import SchemaStore.Proofs.Schemas.Conformance
import SchemaStore.Proofs.Value.Showing

/-!
The grammar of descriptions.  `WellFormed` says which values describe something, `FirstFault` says
of every other value what is wrong with it first and where, and one of the two holds of any value.
Neither mentions a parser: the description is read depth first, the pairs of a dictionary in their
order.  `Node.ofValue_grammar` is that parsing does the same, so that a description is understood
exactly if it is well formed, and the error names the first fault and the fields that lead to it.
-/

namespace SchemaStore
namespace Description

/-- The types that stand for a kind in a description. -/
def markers : List NamedType := [.bool, .date, .dateTime, .int, .float, .str]

/-- A value describes something: a primitive, an array of one description, or an object.  What
stands under an option's name may be anything. -/
inductive WellFormed : Value → Prop where
  | kind (k : Kind) : WellFormed (.kind k)
  | type {t : NamedType} (hmarker : t ∈ markers) : WellFormed (.type t)
  | array {ds d : Value} (hitems : ds.items? = some [d]) (helement : WellFormed d) : WellFormed ds
  | object {ds : Entries} (hkeys : ∀ e ∈ ds, ∃ name, e.1 = .str name)
      (hfields : ∀ f ∈ declared ds, WellFormed f.2) : WellFormed (.dict ds)

/-- A node says what a description says: the same kind, the same element, or the same fields in the
same order. -/
inductive Mirrors : Node → Value → Prop where
  | primitive {d : Value} {k : Kind} (hkind : kind? d = some k) : Mirrors (.primitive k) d
  | arrayOf {ds d : Value} {element : Node} (hitems : ds.items? = some [d])
      (helement : Mirrors element d) : Mirrors (.arrayOf element) ds
  | objectOf {ds : Entries} {nodes : List (String × Node)}
      (hnames : nodes.map (·.1) = (declared ds).map (·.1))
      (hnodes : ∀ pair ∈ nodes.zip (declared ds), Mirrors pair.1.2 pair.2.2) :
      Mirrors (.objectOf (isExclusive ds) nodes) (.dict ds)

/-- What can be wrong at one place of a description. -/
inductive Fault where
  | notDescription (d : Value)
  | elementCount (items : List Value)
  | fieldName (key : Value)

namespace Fault

/-- What the report of a fault quotes of the description. -/
def quoted : Fault → Value
  | notDescription d => d
  | elementCount items => .list items
  | fieldName key => key

/-- How it is quoted, if it can be shown. -/
def rendered? : Fault → Option String
  | fieldName key => key.shown?
  | fault => render fault.quoted

/-- The error that reports a fault. -/
def error (fault : Fault) (path rendered : String) : SchemaError :=
  match fault with
  | notDescription _ => .notDescription path rendered
  | elementCount _ => .elementCount path rendered
  | fieldName _ => .fieldName path rendered

def report (path : String) (fault : Fault) : Report SchemaError :=
  .ofText fault.rendered? (fault.error path)

theorem path_error (fault : Fault) (path rendered : String) :
    (fault.error path rendered).path = path := by
  cases fault <;> rfl

end Fault

/-- `FirstFault d trail fault`: the fields of `trail` lead, one inside the other, to the first fault
of the description.  Everything that stands before it is well formed. -/
inductive FirstFault : Value → List String → Fault → Prop where
  | notDescription {d : Value} (hkind : kind? d = none) (hitems : d.items? = none)
      (hdict : ∀ ds, d ≠ .dict ds) : FirstFault d [] (.notDescription d)
  | elementCount {ds : Value} {items : List Value} (hitems : ds.items? = some items)
      (hcount : items.length ≠ 1) : FirstFault ds [] (.elementCount items)
  | element {ds d : Value} {trail : List String} {fault : Fault} (hitems : ds.items? = some [d])
      (helement : FirstFault d trail fault) : FirstFault ds trail fault
  | key {before behind : Entries} {e : Value × Value} (hbefore : WellFormed (.dict before))
      (hkey : ∀ name, e.1 ≠ .str name) :
      FirstFault (.dict (before ++ e :: behind)) [] (.fieldName e.1)
  | field {before behind : Entries} {name : String} {d : Value} {trail : List String}
      {fault : Fault} (hbefore : WellFormed (.dict before)) (hname : isOption name = false)
      (hfield : FirstFault d trail fault) :
      FirstFault (.dict (before ++ (.str name, d) :: behind)) (name :: trail) fault

/-- The place to which fields lead from a given one, as messages name it. -/
def placeOf (path : String) (trail : List String) : String := ".".intercalate (path :: trail)

theorem placeOf_cons (path name : String) (trail : List String) :
    placeOf path (name :: trail) = placeOf (fieldPath path name) trail := rfl

theorem placeOf_concat (path : String) (trail : List String) (name : String) :
    placeOf path (trail ++ [name]) = fieldPath (placeOf path trail) name := by
  induction trail generalizing path with
  | nil => rfl
  | cons first trail ih => rw [List.cons_append, placeOf_cons, ih, placeOf_cons]

/-! ## Well formed, or with a first fault -/

theorem isLimited_marker : Json.IsLimited marker := by
  intro v text h
  cases v with
  | kind _ | type _ => rfl
  | _ =>
    rw [marker] at h
    · split at h
      · next hshown => exact (Value.shown?_eq_some_iff.mp hshown).1
      · cases h
    all_goals nofun

/-- What is shown of a description in a message is there if the description can be shown at all:
where its JSON fails, its own text is the last resort. -/
theorem render_eq_none_iff {v : Value} : render v = none ↔ v.isShowable = false := by
  rw [render]
  split
  · next hwrite => simp [Json.isShowable_of_write isLimited_marker v hwrite]
  · exact Value.shown?_eq_none_iff

theorem Fault.rendered?_eq_none_iff {fault : Fault} :
    fault.rendered? = none ↔ fault.quoted.isShowable = false := by
  cases fault with
  | fieldName key => exact Value.shown?_eq_none_iff
  | notDescription _ | elementCount _ => exact render_eq_none_iff

theorem mem_markers_iff {t : NamedType} : t ∈ markers ↔ ∃ k, t.kind? = some k := by
  cases t <;> simp [markers, NamedType.kind?]

theorem wellFormed_dict_iff {ds : Entries} :
    WellFormed (.dict ds) ↔
      (∀ e ∈ ds, ∃ name, e.1 = .str name) ∧ ∀ f ∈ declared ds, WellFormed f.2 := by
  constructor
  · intro h
    cases h with
    | array hitems _ => exact absurd hitems (Option.some_ne_none _).symm
    | object hkeys hfields => exact ⟨hkeys, hfields⟩
  · exact fun ⟨hkeys, hfields⟩ => .object hkeys hfields

theorem wellFormed_append_iff {ds es : Entries} :
    WellFormed (.dict (ds ++ es)) ↔ WellFormed (.dict ds) ∧ WellFormed (.dict es) := by
  have hdeclared : declared (ds ++ es) = declared ds ++ declared es := List.filterMap_append
  simp only [wellFormed_dict_iff, hdeclared, List.forall_mem_append]
  exact and_and_and_comm

theorem wellFormed_nil : WellFormed (.dict []) :=
  .object (fun _ h => absurd h List.not_mem_nil) fun _ h => absurd h List.not_mem_nil

/-- A pair has a key that is no text, or is an option, or declares a field. -/
theorem pair_cases (e : Value × Value) :
    (∀ name, e.1 ≠ .str name) ∨ (∃ name d, e = (.str name, d) ∧ isOption name = true) ∨
      ∃ name d, e = (.str name, d) ∧ isOption name = false := by
  obtain ⟨key, d⟩ := e
  cases key with
  | str name =>
    cases hname : isOption name with
    | true => exact .inr (.inl ⟨name, d, rfl, hname⟩)
    | false => exact .inr (.inr ⟨name, d, rfl, hname⟩)
  | _ =>
    refine .inl fun _ h => ?_
    cases h

theorem wellFormed_option {name : String} (hname : isOption name = true) (d : Value) :
    WellFormed (.dict [(.str name, d)]) := by
  refine .object (fun e he => ⟨name, by rw [List.mem_singleton.mp he]⟩) ?_
  rw [declared_cons_option hname d []]
  exact fun _ h => absurd h List.not_mem_nil

theorem wellFormed_field {name : String} {d : Value} (hname : isOption name = false)
    (h : WellFormed d) : WellFormed (.dict [(.str name, d)]) := by
  refine .object (fun e he => ⟨name, by rw [List.mem_singleton.mp he]⟩) ?_
  rw [declared_cons_field hname d []]
  intro f hf
  rwa [List.mem_singleton.mp hf]

/-- What is well formed does not hide the first fault behind it. -/
theorem FirstFault.cons {e : Value × Value} {ds : Entries} {trail : List String} {fault : Fault}
    (he : WellFormed (.dict [e])) (h : FirstFault (.dict ds) trail fault) :
    FirstFault (.dict (e :: ds)) trail fault := by
  cases h with
  | notDescription _ _ hdict => exact absurd rfl (hdict ds)
  | elementCount hitems _ => exact absurd hitems (Option.some_ne_none _).symm
  | element hitems _ => exact absurd hitems (Option.some_ne_none _).symm
  | key hbefore hkey => exact .key (wellFormed_append_iff.mpr ⟨he, hbefore⟩) hkey
  | field hbefore hname hfield =>
    exact .field (wellFormed_append_iff.mpr ⟨he, hbefore⟩) hname hfield

theorem wellFormed_or_firstFault_dict {ds : Entries}
    (hinner : ∀ f ∈ declared ds, WellFormed f.2 ∨ ∃ trail fault, FirstFault f.2 trail fault) :
    WellFormed (.dict ds) ∨ ∃ trail fault, FirstFault (.dict ds) trail fault := by
  induction ds with
  | nil => exact .inl wellFormed_nil
  | cons e ds ih =>
    have hcons : WellFormed (.dict [e]) →
        WellFormed (.dict ds) ∨ (∃ trail fault, FirstFault (.dict ds) trail fault) →
        WellFormed (.dict (e :: ds)) ∨ ∃ trail fault, FirstFault (.dict (e :: ds)) trail fault := by
      rintro he (hds | ⟨trail, fault, hds⟩)
      · exact .inl (wellFormed_append_iff.mpr ⟨he, hds⟩)
      · exact .inr ⟨trail, fault, hds.cons he⟩
    rcases pair_cases e with hkey | ⟨name, d, rfl, hname⟩ | ⟨name, d, rfl, hname⟩
    · exact .inr ⟨[], .fieldName e.1, .key wellFormed_nil hkey⟩
    · rw [declared_cons_option hname] at hinner
      exact hcons (wellFormed_option hname d) (ih hinner)
    · rw [declared_cons_field hname, List.forall_mem_cons] at hinner
      obtain ⟨hd | ⟨trail, fault, hd⟩, hinner⟩ := hinner
      · exact hcons (wellFormed_field hname hd) (ih hinner)
      · exact .inr ⟨name :: trail, fault, .field wellFormed_nil hname hd⟩

theorem wellFormed_or_firstFault (d : Value) :
    WellFormed d ∨ ∃ trail fault, FirstFault d trail fault := by
  cases hitems : d.items? with
  | some xs =>
    match xs with
    | [inner] =>
      have hsize := sizeOf_lt_of_items hitems
      rcases wellFormed_or_firstFault inner with h | ⟨trail, fault, h⟩
      · exact .inl (.array hitems h)
      · exact .inr ⟨trail, fault, .element hitems h⟩
    | [] => exact .inr ⟨[], _, .elementCount hitems (by decide)⟩
    | _ :: _ :: rest =>
      have hcount : rest.length + 2 ≠ 1 := by omega
      exact .inr ⟨[], _, .elementCount hitems hcount⟩
  | none =>
    cases hkind : kind? d with
    | some k =>
      cases d with
      | kind k => exact .inl (.kind k)
      | type t => exact .inl (.type (mem_markers_iff.mpr ⟨k, hkind⟩))
      | _ => exact absurd hkind (Option.some_ne_none k).symm
    | none =>
      by_cases hdict : ∃ ds, d = .dict ds
      · obtain ⟨ds, rfl⟩ := hdict
        refine wellFormed_or_firstFault_dict fun f hf => ?_
        have hsize := sizeOf_lt_of_declared hf
        exact wellFormed_or_firstFault f.2
      · exact .inr ⟨[], _, .notDescription hkind hitems fun ds h => hdict ⟨ds, h⟩⟩
termination_by sizeOf d

end Description

/-! ## Parsing -/

namespace Node

open Description

variable {path : String}

theorem ofValue_of_kind? {d : Value} {k : Kind} (h : kind? d = some k) :
    ofValue path d = .ok (.primitive k) := by
  cases d with
  | kind l =>
    rw [ofValue]
    rw [Option.some.inj h]
  | type t =>
    have ht : t.kind? = some k := h
    rw [ofValue, ht]
  | _ => exact absurd h (Option.some_ne_none k).symm

theorem ofValue_of_items? {d : Value} {xs : List Value} (h : d.items? = some xs) :
    ofValue path d = (do
      let element ← ofElement path xs
      .ok (arrayOf element)) := by
  cases d with
  | list ys | tuple ys =>
    rw [ofValue]
    rw [Option.some.inj h]
  | _ => exact absurd h (Option.some_ne_none xs).symm

theorem ofValue_of_notDescription {d : Value} (hkind : kind? d = none) (hitems : d.items? = none)
    (hdict : ∀ ds, d ≠ .dict ds) :
    ofValue path d = .error ((Fault.notDescription d).report path) := by
  show ofValue path d = .error (.ofText (render d) (.notDescription path))
  cases d with
  | kind k => exact absurd hkind (Option.some_ne_none k)
  | type t =>
    have ht : t.kind? = none := hkind
    rw [ofValue, ht]
  | list xs | tuple xs => exact absurd hitems (Option.some_ne_none xs)
  | dict ds => exact absurd rfl (hdict ds)
  | _ =>
    rw [ofValue]
    all_goals
      intro _ heq
      cases heq

theorem ofElement_of_length_ne {xs : List Value} (h : xs.length ≠ 1) :
    ofElement path xs = .error ((Fault.elementCount xs).report path) := by
  show ofElement path xs = .error (.ofText (render (.list xs)) (.elementCount path))
  match xs with
  | [_] => exact absurd rfl h
  | [] | _ :: _ :: _ =>
    rw [ofElement]
    intro _ heq
    cases heq

theorem ofFields_cons_option {name : String} (hname : isOption name = true) (d : Value)
    (ds : Entries) : ofFields path ((.str name, d) :: ds) = ofFields path ds := by
  rw [ofFields, if_pos hname]

theorem ofFields_cons_field {name : String} (hname : isOption name = false) (d : Value)
    (ds : Entries) : ofFields path ((.str name, d) :: ds) = (do
      let node ← ofValue (fieldPath path name) d
      let fields ← ofFields path ds
      .ok ((name, node) :: fields)) := by
  rw [ofFields, if_neg (by rw [hname]; exact Bool.false_ne_true)]

theorem ofFields_cons_key {e : Value × Value} (hkey : ∀ name, e.1 ≠ .str name) (ds : Entries) :
    ofFields path (e :: ds) = .error ((Fault.fieldName e.1).report path) := by
  show ofFields path (e :: ds) = .error (.ofText e.1.shown? (.fieldName path))
  obtain ⟨key, d⟩ := e
  rw [ofFields]
  exact fun name heq => hkey name heq

/-- Pairs that are understood let the first error behind them through. -/
theorem ofFields_append_error {before behind : Entries} {nodes : List (String × Node)}
    {r : Report SchemaError} (hbefore : ofFields path before = .ok nodes)
    (hbehind : ofFields path behind = .error r) : ofFields path (before ++ behind) = .error r := by
  induction before generalizing nodes with
  | nil => exact hbehind
  | cons first before ih =>
    rw [List.cons_append]
    rcases pair_cases first with hkey | ⟨name, d, rfl, hname⟩ | ⟨name, d, rfl, hname⟩
    · rw [ofFields_cons_key hkey] at hbefore
      cases hbefore
    · rw [ofFields_cons_option hname] at hbefore ⊢
      exact ih hbefore
    · rw [ofFields_cons_field hname, Except.bind_eq_ok] at hbefore
      obtain ⟨node, hnode, hbefore⟩ := hbefore
      obtain ⟨rest, hrest, _⟩ := Except.bind_eq_ok.mp hbefore
      rw [ofFields_cons_field hname, hnode, ih hrest]
      rfl

theorem exists_ofFields {ds : Entries} (hkeys : ∀ e ∈ ds, ∃ name, e.1 = .str name)
    (hinner : ∀ f ∈ declared ds, ∀ path, ∃ node, ofValue path f.2 = .ok node) :
    ∃ nodes, ofFields path ds = .ok nodes := by
  induction ds with
  | nil => exact ⟨[], by rw [ofFields]⟩
  | cons e ds ih =>
    rw [List.forall_mem_cons] at hkeys
    rcases pair_cases e with hkey | ⟨name, d, rfl, hname⟩ | ⟨name, d, rfl, hname⟩
    · obtain ⟨name, hname⟩ := hkeys.1
      exact absurd hname (hkey name)
    · rw [declared_cons_option hname] at hinner
      rw [ofFields_cons_option hname]
      exact ih hkeys.2 hinner
    · rw [declared_cons_field hname, List.forall_mem_cons] at hinner
      obtain ⟨node, hnode⟩ := hinner.1 (fieldPath path name)
      obtain ⟨rest, hrest⟩ := ih hkeys.2 hinner.2
      rw [ofFields_cons_field hname, hnode, hrest]
      exact ⟨(name, node) :: rest, rfl⟩

theorem exists_ofValue_of_wellFormed {d : Value} (h : WellFormed d) (path : String) :
    ∃ node, ofValue path d = .ok node := by
  induction h generalizing path with
  | kind k => exact ⟨_, ofValue_of_kind? rfl⟩
  | type hmarker =>
    obtain ⟨k, hkind⟩ := mem_markers_iff.mp hmarker
    exact ⟨_, ofValue_of_kind? hkind⟩
  | array hitems _ ih =>
    obtain ⟨element, helement⟩ := ih path
    rw [ofValue_of_items? hitems, ofElement, helement]
    exact ⟨arrayOf element, rfl⟩
  | object hkeys _ ih =>
    obtain ⟨nodes, hnodes⟩ := exists_ofFields hkeys ih
    rw [ofValue, hnodes]
    exact ⟨objectOf _ nodes, rfl⟩

theorem exists_ofFields_of_wellFormed {ds : Entries} (h : WellFormed (.dict ds)) (path : String) :
    ∃ nodes, ofFields path ds = .ok nodes := by
  obtain ⟨hkeys, hfields⟩ := wellFormed_dict_iff.mp h
  exact exists_ofFields hkeys fun f hf => exists_ofValue_of_wellFormed (hfields f hf)

theorem ofValue_of_firstFault {d : Value} {trail : List String} {fault : Fault}
    (h : FirstFault d trail fault) (path : String) :
    ofValue path d = .error (fault.report (placeOf path trail)) := by
  induction h generalizing path with
  | notDescription hkind hitems hdict => exact ofValue_of_notDescription hkind hitems hdict
  | elementCount hitems hcount =>
    rw [ofValue_of_items? hitems, ofElement_of_length_ne hcount]
    rfl
  | element hitems _ ih =>
    rw [ofValue_of_items? hitems, ofElement, ih path]
    rfl
  | @key before behind e hbefore hkey =>
    obtain ⟨nodes, hnodes⟩ := exists_ofFields_of_wellFormed hbefore path
    rw [ofValue, ofFields_append_error hnodes (ofFields_cons_key hkey behind)]
    rfl
  | @field before behind name d trail fault hbefore hname _ ih =>
    obtain ⟨nodes, hnodes⟩ := exists_ofFields_of_wellFormed hbefore path
    have hfield : ofFields path ((.str name, d) :: behind)
        = .error (fault.report (placeOf path (name :: trail))) := by
      rw [ofFields_cons_field hname, ih (fieldPath path name)]
      rfl
    rw [ofValue, ofFields_append_error hnodes hfield]
    rfl

/-! ## What the node says -/

theorem ofValue_of_ofFields {ds : Entries} {nodes : List (String × Node)}
    (h : ofFields path ds = .ok nodes) :
    ∀ pair ∈ nodes.zip (declared ds), pair.2 ∈ declared ds ∧
      ofValue (fieldPath path pair.2.1) pair.2.2 = .ok pair.1.2 := by
  induction ds generalizing nodes with
  | nil =>
    rw [ofFields] at h
    rw [← Except.ok.inj h]
    exact fun _ hpair => absurd hpair List.not_mem_nil
  | cons e ds ih =>
    rcases ofFields_cons_eq_ok h with
      ⟨hdeclared, hrest⟩ | ⟨name, d, node, rest, hdeclared, hnode, hrest, rfl⟩
    · rw [hdeclared]
      exact ih hrest
    · rw [hdeclared, List.zip_cons_cons, List.forall_mem_cons]
      refine ⟨⟨List.mem_cons_self, hnode⟩, fun pair hpair => ?_⟩
      exact ⟨List.mem_cons_of_mem _ (ih hrest pair hpair).1, (ih hrest pair hpair).2⟩

theorem mirrors_of_ofValue {d : Value} {path : String} {node : Node}
    (h : ofValue path d = .ok node) : Mirrors node d := by
  rcases ofValue_cases h with
    ⟨k, hkind, rfl⟩ | ⟨inner, element, hitems, helement, rfl⟩ | ⟨ds, nodes, rfl, hnodes, rfl⟩
  · exact .primitive hkind
  · have hsize := sizeOf_lt_of_items hitems
    exact .arrayOf hitems (mirrors_of_ofValue helement)
  · refine .objectOf (map_fst_ofFields hnodes) fun pair hpair => ?_
    obtain ⟨hfield, hnode⟩ := ofValue_of_ofFields hnodes pair hpair
    have hsize := sizeOf_lt_of_declared hfield
    exact mirrors_of_ofValue hnode
termination_by sizeOf d

theorem ofValue_eq_error_iff {d : Value} {r : Report SchemaError} :
    ofValue path d = .error r ↔
      ∃ trail fault, FirstFault d trail fault ∧ r = fault.report (placeOf path trail) := by
  constructor
  · intro hr
    rcases wellFormed_or_firstFault d with h | ⟨trail, fault, h⟩
    · obtain ⟨node, hnode⟩ := exists_ofValue_of_wellFormed h path
      rw [hnode] at hr
      cases hr
    · rw [ofValue_of_firstFault h path] at hr
      exact ⟨trail, fault, h, (Except.error.inj hr).symm⟩
  · rintro ⟨trail, fault, h, rfl⟩
    exact ofValue_of_firstFault h path

/-- A value is understood exactly if it is a well-formed description, and then its node mirrors it.
Otherwise the first fault is reported: the path of the error joins the names of the fields that lead
there.  Only if what the report quotes cannot be shown, there is no such error. -/
theorem ofValue_grammar (path : String) (d : Value) :
    ((∃ node, ofValue path d = .ok node) ↔ WellFormed d) ∧
    (∀ node, ofValue path d = .ok node → Mirrors node d) ∧
    (∀ e, ofValue path d = .error (.fault e) ↔ ∃ trail fault rendered, FirstFault d trail fault ∧
      e.path = ".".intercalate (path :: trail) ∧ fault.rendered? = some rendered ∧
      e = fault.error e.path rendered) ∧
    (ofValue path d = .error .unshowable ↔
      ∃ trail fault, FirstFault d trail fault ∧ fault.quoted.isShowable = false) := by
  refine ⟨⟨?_, fun h => exists_ofValue_of_wellFormed h path⟩, fun _ => mirrors_of_ofValue,
    fun e => ?_, ?_⟩
  · rintro ⟨node, hnode⟩
    rcases wellFormed_or_firstFault d with h | ⟨trail, fault, h⟩
    · exact h
    · rw [ofValue_of_firstFault h path] at hnode
      cases hnode
  · rw [ofValue_eq_error_iff]
    constructor
    · rintro ⟨trail, fault, h, hreport⟩
      obtain ⟨rendered, hrendered, rfl⟩ := Report.ofText_eq_fault_iff.mp hreport.symm
      rw [Fault.path_error]
      exact ⟨trail, fault, rendered, h, rfl, hrendered, rfl⟩
    · rintro ⟨trail, fault, rendered, h, hpath, hrendered, he⟩
      refine ⟨trail, fault, h, (Report.ofText_eq_fault_iff.mpr ⟨rendered, hrendered, ?_⟩).symm⟩
      rw [placeOf, ← hpath, ← he]
  · rw [ofValue_eq_error_iff]
    refine exists_congr fun trail => exists_congr fun fault => and_congr_right fun _ => ?_
    rw [← Fault.rendered?_eq_none_iff, eq_comm, Fault.report, Report.ofText_eq_unshowable_iff]

/-- A number that is no description, and has too many digits for a message that would say so. -/
theorem ofValue_grammar_unshowable :
    ¬WellFormed Value.unshowable ∧ ∀ e, ofValue "Model" Value.unshowable ≠ .error (.fault e) := by
  have hnot : ¬WellFormed Value.unshowable := by
    intro h
    cases h with
    | array hitems _ => cases hitems
  have hquoted : (Fault.notDescription Value.unshowable).rendered? = none :=
    Fault.rendered?_eq_none_iff.mpr Value.isShowable_unshowable
  have hdict : ∀ ds, Value.unshowable ≠ .dict ds := by
    intro ds heq
    rw [Value.unshowable] at heq
    cases heq
  have hfails : ofValue "Model" Value.unshowable = .error .unshowable := by
    rw [ofValue_of_notDescription rfl rfl hdict, Fault.report, hquoted]
    rfl
  refine ⟨hnot, fun e he => ?_⟩
  rw [hfails] at he
  cases he

/-- Of three faults the one inside the array comes first: options are not looked at, and the array
adds nothing to the path. -/
example : ofValue "Model" (.dict [(.str "_note", .null),
    (.str "rows", .list [.dict [(.str "cells", .tuple [])]]), (.int 7, .null)])
      = .error (.fault (.elementCount "Model.rows.cells" "[]")) := by
  rfl

end Node
end SchemaStore
