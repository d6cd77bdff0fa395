import SchemaStore.Proofs.Json.Decimals
import SchemaStore.Proofs.Stored.Codec
import SchemaStore.Proofs.Stored.Named

/-!
What becomes of a document in storage, whatever it holds.  The text of a value comes to one result
wherever it stands: to a value, or to the fault of an object that looks like a date and is none.
So a document that decodes is a document again, and each of its fields is what the text of that
field comes to.
-/

namespace SchemaStore

namespace Json

variable {ε : Type} {revive : Entries → Except ε Value}

/-- A text comes to one result. -/
theorem Yields.unique {cs : List Char} {r s : Except ε Value} (hr : Yields revive cs r)
    (hs : Yields revive cs s) : r = s := by
  have hends : EndsNumber [] := by simp [EndsNumber]
  have heq : (do let v ← r.mapError Stop.revived; .ok (State.finished v))
      = (do let v ← s.mapError Stop.revived; .ok (State.finished v)) :=
    (hr 0 [] [] hends).symm.trans (hs 0 [] [] hends)
  cases r <;> cases s <;> cases heq <;> rfl

/-- A field that members of an object have holds what one of them came to. -/
theorem Attempt.exists_field?_collect {name : String} {P : Value → Prop}
    {attempts : List (Attempt ε)} {done fs : Entries} (h : collect done attempts = .ok fs)
    (hP : ∀ a ∈ attempts, a.name = name → ∀ v, a.result = .ok v → P v)
    (hsome : (∃ v, done.field? name = some v ∧ P v) ∨ ∃ a ∈ attempts, a.name = name) :
    ∃ v, fs.field? name = some v ∧ P v := by
  induction attempts generalizing done with
  | nil =>
    cases h
    rcases hsome with hdone | ⟨a, ha, -⟩
    · exact hdone
    · cases ha
  | cons a attempts ih =>
    have hrest : ∀ b ∈ attempts, b.name = name → ∀ v, b.result = .ok v → P v :=
      fun b hb => hP b (List.mem_cons_of_mem a hb)
    rw [collect] at h
    cases hresult : a.result with
    | error e =>
      rw [hresult] at h
      cases h
    | ok v =>
      rw [hresult] at h
      apply ih h hrest
      by_cases hname : a.name = name
      · refine .inl ⟨v, ?_, hP a List.mem_cons_self hname v hresult⟩
        rw [hname, Entries.field?_insert]
      · rcases hsome with ⟨u, hu, hPu⟩ | ⟨b, hb, hbname⟩
        · exact .inl ⟨u, by rw [Entries.field?_insert_of_ne done hname, hu], hPu⟩
        · rcases List.mem_cons.mp hb with rfl | hb
          · exact absurd hbname hname
          · exact .inr ⟨b, hb, hbname⟩

/-- What members of an object are collected in has texts for keys. -/
theorem Attempt.key_of_collect {attempts : List (Attempt ε)} {done fs : Entries}
    (h : collect done attempts = .ok fs) (hdone : ∀ e ∈ done, ∃ s, e.1 = .str s) :
    ∀ e ∈ fs, ∃ s, e.1 = .str s := by
  induction attempts generalizing done with
  | nil =>
    cases h
    exact hdone
  | cons a attempts ih =>
    rw [collect] at h
    cases hresult : a.result with
    | error e =>
      rw [hresult] at h
      cases h
    | ok v =>
      rw [hresult] at h
      refine ih h fun e he => ?_
      rcases Entries.mem_keys_insert.mp (List.mem_map_of_mem he) with hkey | hkey
      · obtain ⟨f, hf, heq⟩ := List.mem_map.mp hkey
        rw [← heq]
        exact hdone f hf
      · exact ⟨_, hkey⟩

end Json

namespace Stored

/-! ## Values of every form -/

theorem isLegible_leaf {v : Value} (hlist : ∀ xs, v ≠ .list xs) (htuple : ∀ xs, v ≠ .tuple xs)
    (hdict : ∀ es, v ≠ .dict es) (hfloat : ∀ x, v ≠ .float x) : IsLegible v := by
  apply isLegible_of_noFloat
  · intro x hx
    rw [Value.part_leaf_iff hlist htuple hdict] at hx
    exact hfloat x hx.symm
  · intro es hes
    rw [Value.part_leaf_iff hlist htuple hdict] at hes
    exact absurd hes.symm (hdict es)

theorem key_eq_quote_nameOf {k : Value} {text : List Char} (h : Json.key k = .ok text) :
    text = Json.quote (nameOf k) := by
  by_cases hfloat : ∃ x, k = .float x
  · obtain ⟨x, rfl⟩ := hfloat
    cases h
    exact (Json.quote_float x).symm
  · exact key_eq_quote h fun x hx => hfloat ⟨x, hx⟩

theorem exists_of_forall₂ {α β : Type} {r : α → β → Prop} {xs : List α} {ys : List β}
    (h : List.Forall₂ r xs ys) {x : α} (hx : x ∈ xs) : ∃ y ∈ ys, r x y := by
  induction h with
  | nil => cases hx
  | cons hfirst _ ih =>
    rcases List.mem_cons.mp hx with rfl | hx
    · exact ⟨_, List.mem_cons_self, hfirst⟩
    · obtain ⟨y, hy, hxy⟩ := ih hx
      exact ⟨y, List.mem_cons_of_mem _ hy, hxy⟩

/-- The member of an object that a pair of a dictionary is written as. -/
structure IsMember (e : Value × Value) (a : Json.Attempt TagFault) : Prop where
  name : a.name = nameOf e.1
  text : Json.write foreign none e.2 = .ok a.text
  yields : Json.Yields revive a.text a.result

mutual

/-- What is written comes to some result, and starts as a value does. -/
theorem exists_yields_write : ∀ (v : Value) {text : List Char},
    Json.write foreign none v = .ok text →
      (∃ r, Json.Yields revive text r) ∧ Json.StartsValue text
  | .float x, _, h => by
    cases h
    obtain ⟨v, hv⟩ := Json.exists_denotes_float revive x
    exact ⟨⟨.ok v, (Json.yields_ok_iff revive).mpr hv.reads⟩, hv.starts⟩
  | .list xs, _, h => by
    rw [Json.write, Except.bind_eq_ok] at h
    obtain ⟨parts, hparts, htext⟩ := h
    cases htext
    obtain ⟨items, rfl, hitems⟩ := exists_yields_writeItems xs hparts
    exact ⟨⟨_, Json.yields_list revive hitems⟩,
      Json.startsValue_enclose _ _ rfl (by decide) (by decide)⟩
  | .tuple xs, _, h => by
    rw [Json.write, Except.bind_eq_ok] at h
    obtain ⟨parts, hparts, htext⟩ := h
    cases htext
    obtain ⟨items, rfl, hitems⟩ := exists_yields_writeItems xs hparts
    exact ⟨⟨_, Json.yields_list revive hitems⟩,
      Json.startsValue_enclose _ _ rfl (by decide) (by decide)⟩
  | .dict es, _, h => by
    rw [Json.write, Except.bind_eq_ok] at h
    obtain ⟨parts, hparts, htext⟩ := h
    cases htext
    obtain ⟨attempts, rfl, hattempts⟩ := exists_members es hparts
    refine ⟨⟨_, Json.yields_object revive fun a ha => ?_⟩,
      Json.startsValue_enclose _ _ rfl (by decide) (by decide)⟩
    obtain ⟨e, -, hmember⟩ := exists_of_forall₂ hattempts.flip ha
    exact hmember.yields
  | .null, _, h | .bool _, _, h | .int _, _, h | .str _, _, h | .date _, _, h
  | .dateTime _, _, h => by
    have hv := denotes_write _ h (isLegible_leaf (by simp) (by simp) (by simp) (by simp))
    exact ⟨⟨_, (Json.yields_ok_iff revive).mpr hv.reads⟩, hv.starts⟩
  | .fraction _, _, h | .decimal _, _, h | .complex _ _, _, h | .bytes _, _, h | .set _, _, h
  | .view _, _, h | .type _, _, h | .kind _, _, h => by cases h

theorem exists_yields_writeItems : ∀ (xs : List Value) {parts : List (List Char)},
    Json.writeItems foreign none xs = .ok parts →
      ∃ items : List (List Char × Except TagFault Value), parts = items.map (·.1) ∧
        ∀ i ∈ items, Json.Yields revive i.1 i.2 ∧ Json.StartsValue i.1
  | [], _, h => by
    cases h
    exact ⟨[], rfl, fun _ h => absurd h List.not_mem_nil⟩
  | x :: xs, _, h => by
    simp only [Json.writeItems, Except.bind_eq_ok] at h
    obtain ⟨part, hpart, parts, hparts, hall⟩ := h
    cases hall
    obtain ⟨⟨r, hr⟩, hstarts⟩ := exists_yields_write x hpart
    obtain ⟨items, rfl, hitems⟩ := exists_yields_writeItems xs hparts
    exact ⟨(part, r) :: items, rfl, List.forall_mem_cons.mpr ⟨⟨hr, hstarts⟩, hitems⟩⟩

theorem exists_members : ∀ (es : List (Value × Value)) {parts : List (List Char)},
    Json.writeEntries foreign none es = .ok parts →
      ∃ attempts, parts = attempts.map Json.Attempt.part ∧ List.Forall₂ IsMember es attempts
  | [], _, h => by
    cases h
    exact ⟨[], rfl, .nil⟩
  | (k, v) :: es, _, h => by
    simp only [Json.writeEntries, Except.bind_eq_ok] at h
    obtain ⟨name, hname, part, hpart, parts, hparts, hall⟩ := h
    cases hall
    obtain ⟨⟨r, hr⟩, -⟩ := exists_yields_write v hpart
    obtain ⟨attempts, rfl, hattempts⟩ := exists_members es hparts
    refine ⟨{ name := nameOf k, text := part, result := r } :: attempts, ?_,
      .cons ⟨rfl, hpart, hr⟩ hattempts⟩
    rw [List.map_cons, Json.Attempt.part, ← key_eq_quote_nameOf hname]

end

/-! ## Documents -/

/-- A key whose name starts with an underscore is a text. -/
theorem eq_str_of_underscore {k : Value} {s : String} (hkey : IsKey k)
    (hs : s.toList.head? = some '_') (h : nameOf k = s) : k = .str s := by
  by_cases hfloat : ∃ x, k = .float x
  · obtain ⟨x, rfl⟩ := hfloat
    rw [← h, nameOf, String.toList_ofList] at hs
    exact absurd (Json.head_text_float hs) (by decide)
  · exact eq_str_of_nameOf hkey (fun x hx => hfloat ⟨x, hx⟩) hs rfl (by decide) h

theorem read_of_decodeText {text : String} {v : Value} (h : decodeText text = .ok v) :
    Json.read revive text.toList = .ok v := by
  rw [decodeText] at h
  split at h
  · next w hread => rw [hread, Except.ok.inj h]
  · cases h
  · cases h

/-- What a value is read back as, if it has a stored form and this decodes. -/
def readBack? (v : Value) : Option Value :=
  match encode v with
  | .ok text => (decodeText text).toOption
  | .error _ => none

theorem decode_of_readBack? {v w : Value} (h : readBack? v = some w) {text : String}
    (htext : encode v = .ok text) : decode (.str text) = .ok w := by
  rw [readBack?, htext] at h
  show decodeText text = .ok w
  cases hdecode : decodeText text with
  | error fault => simp [hdecode, Except.toOption] at h
  | ok doc =>
    have hdoc : doc = w := by simpa [hdecode, Except.toOption] using h
    rw [hdoc]

/-- No tag stands for a dictionary. -/
theorem eq_of_revive_eq_dict {es fs : Entries} (h : revive es = .ok (.dict fs)) : es = fs := by
  have htag : ∀ {α : Type} {read : String → Except Iso.Fault α} {wrap : α → Value} {v : Value},
      (∀ a, wrap a ≠ .dict fs) → readTag read wrap v ≠ .ok (.dict fs) := by
    intro α read wrap v hwrap hread
    unfold readTag at hread
    split at hread
    · split at hread
      · exact hwrap _ (Except.ok.inj hread)
      · cases hread
    · cases hread
  unfold revive at h
  split at h
  · split at h
    · exact absurd h (htag fun _ => by simp)
    · split at h
      · exact absurd h (htag fun _ => by simp)
      · exact Value.dict.inj (Except.ok.inj h)
  · exact Value.dict.inj (Except.ok.inj h)

section

variable {es : Entries} {text : String} {doc : Value}
  (hencode : encode (.dict es) = .ok text) (hdecode : decodeText text = .ok doc)
include hencode hdecode

/-- The members of a document that decodes have all been read. -/
theorem exists_members_of_decode :
    ∃ attempts fs, List.Forall₂ IsMember es attempts ∧
      Json.Attempt.collect [] attempts = .ok fs ∧ revive fs = .ok doc := by
  have hwrite := write_of_encode hencode
  rw [Json.write, Except.bind_eq_ok] at hwrite
  obtain ⟨parts, hparts, htext⟩ := hwrite
  obtain ⟨attempts, rfl, hattempts⟩ := exists_members es hparts
  have hyields : ∀ a ∈ attempts, Json.Yields revive a.text a.result := by
    intro a ha
    obtain ⟨e, -, hmember⟩ := exists_of_forall₂ hattempts.flip ha
    exact hmember.yields
  have hstarts : Json.StartsValue
      (Json.enclose none '\x7b' '\x7d' (attempts.map Json.Attempt.part)) :=
    Json.startsValue_enclose _ _ rfl (by decide) (by decide)
  have hread := Json.read_of_yields revive (Json.yields_object revive hyields) hstarts.head?_ne
  have houtcome : (Json.Attempt.outcome revive attempts).mapError Json.ReadFault.revived
      = .ok doc := by
    rw [← hread, Except.ok.inj htext]
    exact read_of_decodeText hdecode
  rw [Json.Attempt.outcome] at houtcome
  cases hcollect : Json.Attempt.collect [] attempts with
  | error fault =>
    rw [hcollect] at houtcome
    cases houtcome
  | ok fs =>
    refine ⟨attempts, fs, hattempts, hcollect, ?_⟩
    rw [hcollect] at houtcome
    dsimp only at houtcome
    cases hrevive : revive fs with
    | error fault =>
      rw [hrevive] at houtcome
      cases houtcome
    | ok v =>
      rw [hrevive] at houtcome
      cases houtcome
      rfl

/-- A document that comes back as one has texts for keys. -/
theorem key_of_decode {fs : Entries} (hdoc : doc = .dict fs) : ∀ e ∈ fs, ∃ s, e.1 = .str s := by
  obtain ⟨attempts, gs, -, hcollect, hrevive⟩ := exists_members_of_decode hencode hdecode
  have hsame : gs = fs := by
    rw [hdoc] at hrevive
    exact eq_of_revive_eq_dict hrevive
  rw [← hsame]
  exact Json.Attempt.key_of_collect hcollect (List.forall_mem_nil _)

/-- A document with a field that is no tag comes back as a document with that field.  What the
field holds is what the text of one of its own fields of that name comes to. -/
theorem exists_field_of_decode {name : String} (htag : name ≠ dateTag ∧ name ≠ dateTimeTag)
    (hfield : (es.field? name).isSome) {P : Value → Prop}
    (hP : ∀ e ∈ es, nameOf e.1 = name → ∀ part v, Json.write foreign none e.2 = .ok part →
      Json.Yields revive part (.ok v) → P v) :
    ∃ (fs : Entries) (v : Value), doc = .dict fs ∧ fs.field? name = some v ∧ P v := by
  obtain ⟨attempts, fs, hattempts, hcollect, hrevive⟩ := exists_members_of_decode hencode hdecode
  obtain ⟨v, hv, hPv⟩ : ∃ v, fs.field? name = some v ∧ P v := by
    apply Json.Attempt.exists_field?_collect hcollect
    · intro a ha haname v hresult
      obtain ⟨e, he, hmember⟩ := exists_of_forall₂ hattempts.flip ha
      have hyields := hmember.yields
      rw [hresult] at hyields
      exact hP e he (hmember.name.symm.trans haname) a.text v hmember.text hyields
    · obtain ⟨id, hid⟩ := Option.isSome_iff_exists.mp hfield
      obtain ⟨a, ha, hmember⟩ := exists_of_forall₂ hattempts (Entries.mem_of_field? hid)
      exact .inr ⟨a, ha, hmember.name⟩
  refine ⟨fs, v, ?_, hv, hPv⟩
  have hdict : revive fs = .ok (.dict fs) := by
    apply revive_eq_ok
    rintro other w rfl
    -- The only field there is has the name, and so is no tag.
    have hname : other = name := by
      by_contra hne
      rw [Entries.field?, Entries.get?_cons, Value.standsFor_str, beq_false_of_ne hne] at hv
      cases hv
    rwa [hname]
  rw [hdict] at hrevive
  exact (Except.ok.inj hrevive).symm

/-- A field whose value is not mistaken for another holds that value again. -/
theorem field?_of_decode (hes : es.IsKeyed) {name : String} (hname : name.toList.head? = some '_')
    {v : Value} (hv : es.field? name = some v) (hlegible : IsLegible v) :
    ∃ fs : Entries, doc = .dict fs ∧ fs.field? name = some (restored v) := by
  have htag : name ≠ dateTag ∧ name ≠ dateTimeTag := by
    constructor
    · rintro rfl
      exact absurd hname (by decide)
    · rintro rfl
      exact absurd hname (by decide)
  obtain ⟨fs, w, hdoc, hw, rfl⟩ := exists_field_of_decode hencode hdecode htag
    (by rw [hv]; rfl) (P := fun w => w = restored v) (by
      intro e he hkey part w hpart hyields
      have hkeys : IsKey e.1 := (encode_ok_iff _).mp ⟨text, hencode⟩ _ .self e he
      have hstr : e.1 = .str name := eq_str_of_underscore hkeys hname hkey
      obtain ⟨k, u⟩ := e
      cases hstr
      have hsame : u = v := Option.some.inj ((hes.field?_of_mem he).symm.trans hv)
      subst hsame
      have hdenotes := denotes_write u hpart hlegible
      exact Except.ok.inj (hyields.unique ((Json.yields_ok_iff revive).mpr hdenotes.reads)))
  exact ⟨fs, hdoc, hw⟩

end

end Stored
end SchemaStore
