import SchemaStore.Failure
import SchemaStore.Proofs.Json.Values
import SchemaStore.Proofs.Sequencing
import SchemaStore.Proofs.Time.Iso
import SchemaStore.Proofs.Value.Parts

/-!
Storing a value and reading it back.  A value can be stored if each of its parts can: of the
types there are, those that JSON has a form for, and dates and moments.  What is read back is the
value again, with tuples as lists and each dictionary rebuilt from the names of its keys.

The stored form does not mark what it adds.  A dictionary of its own whose only key is one of the
tags is taken for a date or a moment, so such dictionaries are left out here.
-/

namespace SchemaStore
namespace Stored

open Value (Part)

/-! ## What is read back -/

/-- The name under which a key is stored. -/
def nameOf : Value → String
  | .str s => s
  | .null => "null"
  | .bool b => if b then "true" else "false"
  | .int n => toString n
  | .float x => String.ofList (x.text Json.numberLayout)
  | _ => ""

mutual

/-- The value that is read back where a moment `t` is read back as `moment t`. -/
def restoreWith (moment : DateTime → DateTime) : Value → Value
  | .dateTime t => .dateTime (moment t)
  | .list xs => .list (restoreItems moment xs)
  | .tuple xs => .list (restoreItems moment xs)
  | .dict es => .dict (Entries.ofList (restoreEntries moment es))
  | v => v

def restoreItems (moment : DateTime → DateTime) : List Value → List Value
  | [] => []
  | x :: xs => restoreWith moment x :: restoreItems moment xs

def restoreEntries (moment : DateTime → DateTime) : List (Value × Value) → List (Value × Value)
  | [] => []
  | (k, v) :: es => (.str (nameOf k), restoreWith moment v) :: restoreEntries moment es

end

/-- The value with tuples as lists, the names of its keys for the keys and fixed offsets for zones,
everything else kept. -/
def normal (v : Value) : Value := restoreWith DateTime.fixed v

/-- The value as it is read back. -/
def restored (v : Value) : Value := restoreWith DateTime.readBack v

theorem restoreEntries_eq_map (moment : DateTime → DateTime) (es : List (Value × Value)) :
    restoreEntries moment es = es.map fun e => (.str (nameOf e.1), restoreWith moment e.2) := by
  induction es with
  | nil => rfl
  | cons e es ih => rw [restoreEntries, List.map_cons, ih]

/-! ## What can be stored -/

def IsKey : Value → Prop
  | .str _ | .null | .bool _ | .int _ | .float _ => True
  | _ => False

/-- A value can be stored if its parts can.  A whole number of too many digits has no text. -/
def IsStorable : Value → Prop
  | .null | .bool _ | .float _ | .str _ | .date _ | .dateTime _ | .list _ | .tuple _ => True
  | .int n => (Nat.toDigits 10 n.natAbs).length ≤ Json.digitLimit
  | .dict es => ∀ e ∈ es, IsKey e.1
  | _ => False

def AllStorable (v : Value) : Prop := ∀ x, Part x v → IsStorable x

theorem wholeNumber_ok_iff (n : Int) :
    (∃ text, Json.wholeNumber n = .ok text) ↔ IsStorable (.int n) := by
  exact ⟨fun ⟨_, h⟩ => (Json.wholeNumber_eq_ok h).1, fun h => ⟨_, Json.wholeNumber_of_le h⟩⟩

theorem allStorable_leaf_iff {v : Value} (hlist : ∀ xs, v ≠ .list xs)
    (htuple : ∀ xs, v ≠ .tuple xs) (hdict : ∀ es, v ≠ .dict es) :
    AllStorable v ↔ IsStorable v :=
  Value.forall_part_leaf_iff hlist htuple hdict

theorem key_ok_iff (k : Value) :
    (∃ text, Json.key k = .ok text) ↔ IsKey k ∧ AllStorable k := by
  cases k with
  | null | bool | float | str =>
    rw [allStorable_leaf_iff (by simp) (by simp) (by simp)]
    simp [Json.key, IsKey, IsStorable]
  | int n =>
    rw [allStorable_leaf_iff (by simp) (by simp) (by simp), ← wholeNumber_ok_iff]
    simp only [Json.key, Except.bind_eq_ok, Except.ok.injEq, IsKey, true_and]
    constructor
    · rintro ⟨_, digits, h, -⟩
      exact ⟨digits, h⟩
    · rintro ⟨digits, h⟩
      exact ⟨_, digits, h, rfl⟩
  | _ => simp [Json.key, IsKey]

theorem allStorable_list_iff {xs : List Value} :
    AllStorable (.list xs) ↔ ∀ x ∈ xs, AllStorable x :=
  Value.forall_part_list_iff.trans (and_iff_right trivial)

theorem allStorable_tuple_iff {xs : List Value} :
    AllStorable (.tuple xs) ↔ ∀ x ∈ xs, AllStorable x :=
  Value.forall_part_tuple_iff.trans (and_iff_right trivial)

theorem allStorable_dict_iff {es : Entries} :
    AllStorable (.dict es) ↔ ∀ e ∈ es, (IsKey e.1 ∧ AllStorable e.1) ∧ AllStorable e.2 := by
  refine Value.forall_part_dict_iff.trans ?_
  constructor
  · rintro ⟨hkeys, hparts⟩ e he
    exact ⟨⟨hkeys e he, (hparts e he).1⟩, (hparts e he).2⟩
  · intro h
    exact ⟨fun e he => (h e he).1.1, fun e he => ⟨(h e he).1.2, (h e he).2⟩⟩

/-- A step that cannot fail does not matter to whether a sequence succeeds. -/
theorem exists_map_ok_iff {ε α β : Type} {x : Except ε α} {f : α → β} :
    (∃ b, (x >>= fun a => .ok (f a)) = .ok b) ↔ ∃ a, x = .ok a := by
  cases x with
  | error e => exact ⟨fun ⟨_, h⟩ => (nomatch h), fun ⟨_, h⟩ => (nomatch h)⟩
  | ok a => exact ⟨fun _ => ⟨a, rfl⟩, fun _ => ⟨f a, rfl⟩⟩

mutual

/-- A value has a stored form exactly if it can be stored with all of its parts. -/
theorem write_ok_iff : ∀ v : Value,
    (∃ text, Json.write foreign none v = .ok text) ↔ AllStorable v
  | .null | .bool _ | .float _ | .str _ | .date _ | .dateTime _ => by
    rw [allStorable_leaf_iff (by simp) (by simp) (by simp)]
    simp [Json.write, foreign, IsStorable]
  | .int n => by
    rw [allStorable_leaf_iff (by simp) (by simp) (by simp)]
    exact wholeNumber_ok_iff n
  | .list xs => by
    rw [allStorable_list_iff, ← writeItems_ok_iff xs]
    exact exists_map_ok_iff
  | .tuple xs => by
    rw [allStorable_tuple_iff, ← writeItems_ok_iff xs]
    exact exists_map_ok_iff
  | .dict es => by
    rw [allStorable_dict_iff, ← writeEntries_ok_iff es]
    exact exists_map_ok_iff
  | .fraction _ | .decimal _ | .complex _ _ | .bytes _ | .set _ | .view _ | .type _ | .kind _ => by
    constructor
    · rintro ⟨text, h⟩
      cases h
    · intro h
      exact absurd (h _ .self) id

theorem writeItems_ok_iff : ∀ xs : List Value,
    (∃ parts, Json.writeItems foreign none xs = .ok parts) ↔ ∀ x ∈ xs, AllStorable x
  | [] => by simp [Json.writeItems]
  | x :: xs => by
    rw [List.forall_mem_cons, ← write_ok_iff x, ← writeItems_ok_iff xs, Json.writeItems]
    simp only [Except.bind_eq_ok, Except.ok.injEq]
    constructor
    · rintro ⟨_, part, hpart, parts, hparts, _⟩
      exact ⟨⟨part, hpart⟩, ⟨parts, hparts⟩⟩
    · rintro ⟨⟨part, hpart⟩, ⟨parts, hparts⟩⟩
      exact ⟨_, part, hpart, parts, hparts, rfl⟩

theorem writeEntries_ok_iff : ∀ es : List (Value × Value),
    (∃ parts, Json.writeEntries foreign none es = .ok parts) ↔
      ∀ e ∈ es, (IsKey e.1 ∧ AllStorable e.1) ∧ AllStorable e.2
  | [] => by simp [Json.writeEntries]
  | (k, v) :: es => by
    rw [List.forall_mem_cons, ← key_ok_iff k, ← write_ok_iff v, ← writeEntries_ok_iff es,
      Json.writeEntries]
    simp only [Except.bind_eq_ok, Except.ok.injEq]
    constructor
    · rintro ⟨_, name, hname, part, hpart, parts, hparts, _⟩
      exact ⟨⟨⟨name, hname⟩, ⟨part, hpart⟩⟩, ⟨parts, hparts⟩⟩
    · rintro ⟨⟨⟨name, hname⟩, ⟨part, hpart⟩⟩, ⟨parts, hparts⟩⟩
      exact ⟨_, name, hname, part, hpart, parts, hparts, rfl⟩

end

/-! ## Names of keys -/

theorem toList_toString (n : Int) : (toString n).toList = Json.integer n := by
  cases n with
  | ofNat m =>
    show (toString m).toList = _
    rw [Nat.toString_eq_repr, Nat.toList_repr]
    rfl
  | negSucc m =>
    show ("-" ++ toString (m + 1)).toList = _
    rw [String.toList_append, Nat.toString_eq_repr, Nat.toList_repr, Json.integer,
      if_pos (Int.negSucc_lt_zero m)]
    rfl

theorem key_eq_quote {k : Value} {text : List Char} (h : Json.key k = .ok text)
    (hfloat : ∀ x, k ≠ .float x) : text = Json.quote (nameOf k) := by
  cases k with
  | null =>
    cases h
    rfl
  | bool b =>
    cases h
    cases b <;> decide
  | int n =>
    simp only [Json.key, Except.bind_eq_ok] at h
    obtain ⟨digits, hdigits, htext⟩ := h
    cases htext
    rw [(Json.wholeNumber_eq_ok hdigits).2, nameOf, ← Json.quote_integer, ← toList_toString,
      String.ofList_toList]
  | str s =>
    cases h
    rfl
  | float x => exact absurd rfl (hfloat x)
  | _ => cases h

/-- A key is a text if its name starts like none of the others. -/
theorem eq_str_of_nameOf {k : Value} {s : String} (hkey : IsKey k) (hfloat : ∀ x, k ≠ .float x)
    {c : Char} (hs : s.toList.head? = some c) (hdigit : c.isDigit = false)
    (hc : c ∉ ['-', 'n', 't', 'f']) (h : nameOf k = s) : k = .str s := by
  subst h
  have hne : ∀ d, (nameOf k).toList.head? = some d → d ∉ ['-', 'n', 't', 'f'] := by
    intro d hd
    rw [Option.some.inj (hd.symm.trans hs)]
    exact hc
  cases k with
  | str s => rfl
  | null => exact absurd (by simp) (hne 'n' rfl)
  | bool b =>
    cases b with
    | false => exact absurd (by simp) (hne 'f' rfl)
    | true => exact absurd (by simp) (hne 't' rfl)
  | int n =>
    rw [nameOf, toList_toString] at hs
    rcases Json.mem_integer (List.mem_of_mem_head? hs) with rfl | hother
    · exact absurd (by simp) hc
    · rw [hdigit] at hother
      exact absurd hother Bool.false_ne_true
  | float x => exact absurd rfl (hfloat x)
  | _ => exact absurd hkey id

/-! ## Reading back -/

/-- A dictionary whose only key is a tag. -/
def LooksTagged (es : Entries) : Prop :=
  es ≠ [] ∧ ∃ tag, (tag = dateTag ∨ tag = dateTimeTag) ∧ ∀ e ∈ es, e.1 = .str tag

/-- Nothing in a value is mistaken for something else when it is read back. -/
structure IsLegible (v : Value) : Prop where
  floats : ∀ x, Part (.float x) v →
    Json.Denotes revive (x.text Json.numberLayout) (.float x)
  keys : ∀ es, Part (.dict es) v → ∀ e ∈ es, ∀ x, e.1 ≠ .float x
  tags : ∀ es, Part (.dict es) v → ¬LooksTagged es

theorem IsLegible.part {v x : Value} (h : IsLegible v) (hx : Part x v) : IsLegible x where
  floats := fun y hy => h.floats y (hy.trans hx)
  keys := fun es hes => h.keys es (hes.trans hx)
  tags := fun es hes => h.tags es (hes.trans hx)

theorem revive_eq_ok {es : Entries}
    (h : ∀ name v, es = [(.str name, v)] → name ≠ dateTag ∧ name ≠ dateTimeTag) :
    revive es = .ok (.dict es) := by
  unfold revive
  split
  · next name v =>
    obtain ⟨hdate, hdateTime⟩ := h name v rfl
    rw [if_neg hdateTime, if_neg hdate]
  · rfl

theorem revive_restored {es : Entries} (hkeys : ∀ e ∈ es, IsKey e.1)
    (hfloat : ∀ e ∈ es, ∀ x, e.1 ≠ .float x) (htag : ¬LooksTagged es)
    (moment : DateTime → DateTime) :
    revive (Entries.ofList (restoreEntries moment es))
      = .ok (.dict (Entries.ofList (restoreEntries moment es))) := by
  apply revive_eq_ok
  intro name v hsingle
  -- The keys that are read back are the names of the keys that were written.
  have hmem : ∀ k : Value, k = .str name ↔ ∃ e ∈ es, k = .str (nameOf e.1) := by
    intro k
    have hkeys := @Entries.mem_keys_ofList
      (es.map fun e => (nameOf e.1, restoreWith moment e.2)) k
    rw [List.map_map, Function.comp_def, ← restoreEntries_eq_map, hsingle, List.map_singleton,
      List.mem_singleton] at hkeys
    rw [hkeys]
    constructor
    · rintro ⟨p, hp, rfl⟩
      obtain ⟨e, he, rfl⟩ := List.mem_map.mp hp
      exact ⟨e, he, rfl⟩
    · rintro ⟨e, he, rfl⟩
      exact ⟨_, List.mem_map.mpr ⟨e, he, rfl⟩, rfl⟩
  have hname : ∀ e ∈ es, nameOf e.1 = name := fun e he =>
    Value.str.inj ((hmem (.str (nameOf e.1))).mpr ⟨e, he, rfl⟩)
  have hne : es ≠ [] := by
    obtain ⟨e, he, -⟩ := (hmem (.str name)).mp rfl
    exact List.ne_nil_of_mem he
  constructor
  · rintro rfl
    exact htag ⟨hne, _, .inl rfl, fun e he =>
      eq_str_of_nameOf (hkeys e he) (hfloat e he) rfl rfl (by decide) (hname e he)⟩
  · rintro rfl
    exact htag ⟨hne, _, .inr rfl, fun e he =>
      eq_str_of_nameOf (hkeys e he) (hfloat e he) rfl rfl (by decide) (hname e he)⟩

theorem revive_date (v : Value) :
    revive [(.str dateTag, v)] = readTag Iso.readDate .date v := by
  have hne : dateTag ≠ dateTimeTag := by decide
  simp only [revive, if_neg hne, if_true]

theorem revive_dateTime (v : Value) :
    revive [(.str dateTimeTag, v)] = readTag Iso.readDateTime .dateTime v := by
  simp only [revive, if_true]

theorem denotes_tagged {tag : String} {iso : List Char} {v : Value}
    (h : revive [(.str tag, .str (String.ofList iso))] = .ok v) :
    Json.Denotes revive (tagged tag iso) v := by
  let m : Json.Member := { name := tag, text := Json.quote (String.ofList iso),
                           value := .str (String.ofList iso) }
  have htext : tagged tag iso = Json.enclose none '{' '}' ([m].map Json.Member.part) := by
    simp [tagged, Json.enclose, Json.Member.part, List.intercalate, m]
  rw [htext]
  apply Json.denotes_object
  · intro m' hm'
    rw [List.mem_singleton.mp hm']
    exact Json.reads_quote revive _
  · exact h

mutual

/-- What is written denotes the value as it is read back. -/
theorem denotes_write : ∀ (v : Value) {text : List Char},
    Json.write foreign none v = .ok text → IsLegible v →
      Json.Denotes revive text (restored v)
  | .null, _, h, _ => by
    cases h
    exact ⟨Json.reads_null revive, Json.startsValue_cons _ rfl (by decide) (by decide)⟩
  | .bool b, _, h, _ => by
    cases h
    exact ⟨Json.reads_boolean revive b, Json.startsValue_boolean b⟩
  | .int n, _, h, _ => by
    rw [Json.write] at h
    obtain ⟨hdigits, rfl⟩ := Json.wholeNumber_eq_ok h
    exact ⟨Json.reads_integer revive hdigits, Json.startsValue_integer n⟩
  | .float x, _, h, hv => by
    cases h
    exact hv.floats x .self
  | .str s, _, h, _ => by
    cases h
    exact ⟨Json.reads_quote revive s, Json.startsValue_quote s⟩
  | .date d, _, h, _ => by
    cases h
    apply denotes_tagged
    rw [revive_date, readTag, Iso.readDate_iso]
    rfl
  | .dateTime t, _, h, _ => by
    cases h
    apply denotes_tagged
    rw [revive_dateTime, readTag, Iso.readDateTime_iso]
    rfl
  | .list xs, _, h, hv => by
    rw [Json.write, Except.bind_eq_ok] at h
    obtain ⟨parts, hparts, htext⟩ := h
    cases htext
    obtain ⟨items, rfl, hvalues, hitems⟩ :=
      denotes_writeItems xs hparts fun x hx => hv.part (.item hx .self)
    have hlist := Json.denotes_list revive hitems
    rwa [hvalues] at hlist
  | .tuple xs, _, h, hv => by
    rw [Json.write, Except.bind_eq_ok] at h
    obtain ⟨parts, hparts, htext⟩ := h
    cases htext
    obtain ⟨items, rfl, hvalues, hitems⟩ :=
      denotes_writeItems xs hparts fun x hx => hv.part (.tupleItem hx .self)
    have hlist := Json.denotes_list revive hitems
    rwa [hvalues] at hlist
  | .dict es, text, h, hv => by
    have hkeys : ∀ e ∈ es, IsKey e.1 :=
      ((write_ok_iff (.dict es)).mp ⟨text, h⟩) (.dict es) .self
    rw [Json.write, Except.bind_eq_ok] at h
    obtain ⟨parts, hparts, htext⟩ := h
    cases htext
    obtain ⟨ms, rfl, hpairs, hms⟩ := reads_writeEntries es hparts (hv.keys es .self)
      fun e he => hv.part (.entry he .self)
    apply Json.denotes_object revive hms
    rw [hpairs]
    exact revive_restored hkeys (hv.keys es .self) (hv.tags es .self) _
  | .fraction _, _, h, _ | .decimal _, _, h, _ | .complex _ _, _, h, _ | .bytes _, _, h, _
  | .set _, _, h, _ | .view _, _, h, _ | .type _, _, h, _ | .kind _, _, h, _ => by cases h

theorem denotes_writeItems : ∀ (xs : List Value) {parts : List (List Char)},
    Json.writeItems foreign none xs = .ok parts → (∀ x ∈ xs, IsLegible x) →
      ∃ items : List (List Char × Value), parts = items.map (·.1) ∧
        items.map (·.2) = restoreItems DateTime.readBack xs ∧
        ∀ i ∈ items, Json.Denotes revive i.1 i.2
  | [], _, h, _ => by
    cases h
    exact ⟨[], rfl, rfl, fun _ h => absurd h List.not_mem_nil⟩
  | x :: xs, _, h, hxs => by
    simp only [Json.writeItems, Except.bind_eq_ok] at h
    obtain ⟨part, hpart, parts, hparts, hall⟩ := h
    cases hall
    have hdenotes := denotes_write x hpart (hxs x List.mem_cons_self)
    obtain ⟨items, rfl, hvalues, hitems⟩ :=
      denotes_writeItems xs hparts fun y hy => hxs y (List.mem_cons_of_mem x hy)
    refine ⟨(part, restored x) :: items, rfl, ?_, List.forall_mem_cons.mpr ⟨hdenotes, hitems⟩⟩
    rw [List.map_cons, hvalues]
    rfl

theorem reads_writeEntries : ∀ (es : List (Value × Value)) {parts : List (List Char)},
    Json.writeEntries foreign none es = .ok parts → (∀ e ∈ es, ∀ x, e.1 ≠ .float x) →
      (∀ e ∈ es, IsLegible e.2) →
      ∃ ms : List Json.Member, parts = ms.map Json.Member.part ∧
        ms.map Json.Member.pair = restoreEntries DateTime.readBack es ∧
        ∀ m ∈ ms, Json.Reads revive m.text m.value
  | [], _, h, _, _ => by
    cases h
    exact ⟨[], rfl, rfl, fun _ h => absurd h List.not_mem_nil⟩
  | (k, v) :: es, _, h, hkeys, hes => by
    simp only [Json.writeEntries, Except.bind_eq_ok] at h
    obtain ⟨name, hname, part, hpart, parts, hparts, hall⟩ := h
    cases hall
    have hquote := key_eq_quote hname (hkeys _ List.mem_cons_self)
    have hdenotes := denotes_write v hpart (hes _ List.mem_cons_self)
    obtain ⟨ms, rfl, hpairs, hms⟩ := reads_writeEntries es hparts
      (fun e he => hkeys e (List.mem_cons_of_mem _ he))
      fun e he => hes e (List.mem_cons_of_mem _ he)
    refine ⟨{ name := nameOf k, text := part, value := restored v } :: ms, ?_, ?_,
      List.forall_mem_cons.mpr ⟨hdenotes.reads, hms⟩⟩
    · rw [List.map_cons, Json.Member.part, ← hquote]
    · rw [List.map_cons, hpairs]
      rfl

end

theorem write_of_encode {v : Value} {text : String} (h : encode v = .ok text) :
    Json.write foreign none v = .ok text.toList := by
  rw [encode] at h
  cases hwrite : Json.write foreign none v with
  | error fault =>
    rw [hwrite] at h
    cases h
  | ok cs =>
    rw [hwrite] at h
    cases h
    rw [String.toList_ofList]

/-- What was encoded is decoded to the value as it is read back. -/
theorem decodeText_encode {v : Value} {text : String} (h : encode v = .ok text)
    (hv : IsLegible v) : decodeText text = .ok (restored v) := by
  rw [decodeText, Json.read_of_denotes revive (denotes_write v (write_of_encode h) hv)]

end Stored
end SchemaStore
