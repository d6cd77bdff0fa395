import SchemaStore.Proofs.Stored.RoundTrip

/-!
What the codec accepts, and what it makes of it.  A value is encoded exactly if all of its parts
can be stored, and anything else is refused as unencodable.  Decoding gives the normal form of the
value: tuples as lists, each dictionary rebuilt in order from the names of its keys, and moments
with fixed offsets.  Two limits belong to it: whole numbers have at most as many digits as are
written and read, and an offset from universal time must not be a mere fraction of a second, because
it is then lost.
-/

namespace SchemaStore

/-- The offset of a moment is none, zero, or at least a second. -/
def DateTime.KeepsOffset (t : DateTime) : Prop :=
  ∀ o ∈ t.offset, o.micros = 0 ∨ 1000000 ≤ o.micros.natAbs

theorem Offset.readBack_eq {o : Offset} (h : o.micros = 0 ∨ 1000000 ≤ o.micros.natAbs) :
    o.readBack = o.fixed := by
  unfold Offset.readBack
  split
  · have hzero : o.micros = 0 := by omega
    obtain ⟨micros, hday, zone⟩ := o
    cases hzero
    rfl
  · rfl

theorem DateTime.readBack_eq {t : DateTime} (h : t.KeepsOffset) : t.readBack = t.fixed := by
  obtain ⟨date, time, offset, fold⟩ := t
  cases offset with
  | none => rfl
  | some o =>
    have ho : o.readBack = o.fixed := Offset.readBack_eq (h o rfl)
    show ({ date := date, time := time, offset := some o.readBack } : DateTime) = _
    rw [ho]
    rfl

namespace Stored

open Value (Part)

mutual

/-- Only what becomes of the moments in a value matters. -/
theorem restoreWith_congr {f g : DateTime → DateTime} : ∀ (v : Value),
    (∀ t, Part (.dateTime t) v → f t = g t) → restoreWith f v = restoreWith g v
  | .dateTime t, h => congrArg Value.dateTime (h t .self)
  | .list xs, h => congrArg Value.list
      (restoreItems_congr xs fun t _ hx ht => h t (.item hx ht))
  | .tuple xs, h => congrArg Value.list
      (restoreItems_congr xs fun t _ hx ht => h t (.tupleItem hx ht))
  | .dict es, h => congrArg (fun es => Value.dict (Entries.ofList es))
      (restoreEntries_congr es fun t _ he ht => h t (.entry he ht))
  | .null, _ | .bool _, _ | .int _, _ | .float _, _ | .fraction _, _ | .decimal _, _
  | .complex _ _, _ | .str _, _ | .bytes _, _ | .date _, _ | .set _, _ | .view _, _ | .type _, _
  | .kind _, _ => rfl

theorem restoreItems_congr {f g : DateTime → DateTime} : ∀ (xs : List Value),
    (∀ t, ∀ x ∈ xs, Part (.dateTime t) x → f t = g t) → restoreItems f xs = restoreItems g xs
  | [], _ => rfl
  | x :: xs, h => by
    rw [restoreItems, restoreItems,
      restoreWith_congr x fun t ht => h t x List.mem_cons_self ht,
      restoreItems_congr xs fun t y hy ht => h t y (List.mem_cons_of_mem x hy) ht]

theorem restoreEntries_congr {f g : DateTime → DateTime} : ∀ (es : List (Value × Value)),
    (∀ t, ∀ e ∈ es, Part (.dateTime t) e.2 → f t = g t) →
      restoreEntries f es = restoreEntries g es
  | [], _ => rfl
  | (k, v) :: es, h => by
    rw [restoreEntries, restoreEntries,
      restoreWith_congr v fun t ht => h t (k, v) List.mem_cons_self ht,
      restoreEntries_congr es fun t e he ht => h t e (List.mem_cons_of_mem _ he) ht]

end

theorem restored_eq_normal {v : Value} (h : ∀ t, Part (.dateTime t) v → t.KeepsOffset) :
    restored v = normal v :=
  restoreWith_congr v fun t ht => DateTime.readBack_eq (h t ht)

theorem encode_ok_iff (v : Value) : (∃ text, encode v = .ok text) ↔ AllStorable v := by
  rw [← write_ok_iff]
  unfold encode
  cases Json.write foreign none v with
  | error fault => exact ⟨fun ⟨_, h⟩ => (nomatch h), fun ⟨_, h⟩ => (nomatch h)⟩
  | ok cs => exact ⟨fun _ => ⟨cs, rfl⟩, fun _ => ⟨_, rfl⟩⟩

theorem not_looksTagged_of_mem {es : Entries} {e : Value × Value} (he : e ∈ es)
    (hdate : e.1 ≠ .str dateTag) (hdateTime : e.1 ≠ .str dateTimeTag) : ¬LooksTagged es := by
  rintro ⟨-, tag, rfl | rfl, htag⟩
  · exact hdate (htag e he)
  · exact hdateTime (htag e he)

theorem isLegible_of_noFloat {v : Value} (hfloats : ∀ x, ¬Part (.float x) v)
    (htags : ∀ es, Part (.dict es) v → ¬LooksTagged es) : IsLegible v where
  floats := fun x hx => absurd hx (hfloats x)
  keys := by
    intro es hes e he x heq
    refine hfloats x (Part.trans (.key he ?_) hes)
    rw [heq]
    exact .self
  tags := htags

/-- A value is encoded exactly if all of its parts can be stored, and is refused otherwise.
Without floats, dictionaries that look like dates and offsets that are lost, it is decoded to its
normal form. -/
theorem encode_decode (v : Value) :
    ((∃ text, encode v = .ok text) ↔ AllStorable v) ∧
      (¬AllStorable v → ∃ fault,
        Failure.lift .ofEncode (encode v) = .error (.store (.unencodable fault))) ∧
      ((∀ x, ¬Part (.float x) v) → (∀ es, Part (.dict es) v → ¬LooksTagged es) →
        (∀ t, Part (.dateTime t) v → t.KeepsOffset) →
        ∀ text, encode v = .ok text → decodeText text = .ok (normal v)) := by
  refine ⟨encode_ok_iff v, fun hnot => ?_, fun hfloats htags hoffsets text htext => ?_⟩
  · cases hencode : encode v with
    | error fault => exact ⟨fault, rfl⟩
    | ok text => exact absurd ((encode_ok_iff v).mp ⟨text, hencode⟩) hnot
  · rw [decodeText_encode htext (isLegible_of_noFloat hfloats htags),
      restored_eq_normal hoffsets]

/-- A document with a tuple, two keys of one name, a moment and a text beyond the first plane. -/
def mixed : Value :=
  .dict [(.int 1, .tuple [.null, .bool true, .str "é𝄞"]), (.str "1", .list []),
    (.null, .dateTime { date := { year := 2024, month := 5, day := 1 },
                        time := { hour := 12, minute := 30, second := 0, micro := 7 },
                        offset := some { micros := -5400000000 } })]

theorem encode_decode_mixed :
    ∃ text, encode mixed = .ok text ∧ decodeText text = .ok (normal mixed) := by
  obtain ⟨hiff, -, hdecode⟩ := encode_decode mixed
  have hstorable : AllStorable mixed := by
    simp [mixed, allStorable_dict_iff, allStorable_tuple_iff, allStorable_list_iff,
      allStorable_leaf_iff, IsStorable, IsKey, Json.digitLimit]
    decide
  obtain ⟨text, htext⟩ := hiff.mpr hstorable
  refine ⟨text, htext, hdecode ?_ (fun es hes => ?_) ?_ text htext⟩
  · simp [mixed, Value.part_dict_iff, Value.part_tuple_iff, Value.part_list_iff,
      Value.part_leaf_iff]
  · have heq : .dict es = mixed := by
      simpa [mixed, Value.part_dict_iff, Value.part_tuple_iff, Value.part_list_iff,
        Value.part_leaf_iff] using hes
    cases heq
    exact not_looksTagged_of_mem List.mem_cons_self (by simp) (by simp)
  · simp [mixed, Value.part_dict_iff, Value.part_tuple_iff, Value.part_list_iff,
      Value.part_leaf_iff, DateTime.KeepsOffset]

/-- A moment whose offset is five microseconds. -/
def slightlyAhead : DateTime where
  date := { year := 2024, month := 5, day := 1 }
  time := { hour := 12, minute := 30, second := 0, micro := 0 }
  offset := some { micros := 5 }

theorem lt_ten_of_encode {n : Nat} {text : String} (h : encode (.int n) = .ok text) :
    n < Power.ten Json.digitLimit := by
  have hall : AllStorable (.int n) := (encode_ok_iff _).mp ⟨text, h⟩
  have hdigits : (Nat.toDigits 10 (n : Int).natAbs).length ≤ Json.digitLimit := hall _ .self
  rw [Int.natAbs_natCast] at hdigits
  exact (Power.length_toDigits_le_iff (by decide)).mp hdigits

/-- The least whole number with too many digits is refused, and a fraction of a second is lost
from an offset. -/
theorem encode_decode_limits :
    (∀ text, encode (.int (Power.ten Json.digitLimit : Nat)) ≠ .ok text) ∧
      ∃ text, encode (.dateTime slightlyAhead) = .ok text ∧
        decodeText text = .ok (.dateTime { slightlyAhead with offset := some .utc }) ∧
        normal (.dateTime slightlyAhead)
          ≠ .dateTime { slightlyAhead with offset := some .utc } := by
  constructor
  · exact fun text htext => Nat.lt_irrefl _ (lt_ten_of_encode htext)
  · obtain ⟨text, htext⟩ := (encode_ok_iff (.dateTime slightlyAhead)).mpr
      ((allStorable_leaf_iff (by simp) (by simp) (by simp)).mpr trivial)
    have hlegible : IsLegible (.dateTime slightlyAhead) := by
      apply isLegible_of_noFloat
      · simp [Value.part_leaf_iff]
      · simp [Value.part_leaf_iff]
    refine ⟨text, htext, decodeText_encode htext hlegible, ?_⟩
    intro heq
    have hoffset : slightlyAhead.offset = some .utc :=
      congrArg DateTime.offset (Value.dateTime.inj heq)
    exact absurd hoffset (by decide)

end Stored
end SchemaStore
