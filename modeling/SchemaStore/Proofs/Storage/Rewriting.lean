import SchemaStore.Proofs.Json.Plain
import SchemaStore.Proofs.Storage.Damage
import SchemaStore.Proofs.Storage.Rearranging
import SchemaStore.Proofs.Storage.Sheets
import SchemaStore.Proofs.Stored.Outcomes

/-!
Writing again what was read from tables.  The records of a table, be it damaged or made by hand,
hold what is read from JSON, and so does what is merged from several tables.  Once such records have
keys that are told apart and sorted, nothing is left that could fail: each has a line, the places of
the lines have few enough digits, and the index that is written beside them is read back with the
names of the keys.
-/

namespace SchemaStore

open Json (AllPlain)

/-! ## Records that were read -/

namespace Record

/-- A part of a plain value is plain. -/
theorem allPlain_member {record x : Value} {name : String} (h : AllPlain record)
    (hx : member record name = .ok x) : AllPlain x := by
  cases hes : record.entries? with
  | none =>
    obtain ⟨m, hm⟩ := exists_member_eq_error hes name
    rw [hm] at hx
    cases hx
  | some es =>
    have hfield := (member_eq_ok_iff hes).mp hx
    cases record with
    | dict entries =>
      cases hes
      exact (Json.allPlain_dict_iff.mp h _ (Entries.mem_of_field? hfield)).2
    | view entries => exact (h _ .self).elim
    | _ => cases hes

end Record

namespace Table

/-- A record that can be written: its parts have a JSON form, and its key can be one. -/
structure IsWritable (record : Value × Value) : Prop where
  key : AllPlain record.1
  value : AllPlain record.2
  hashable : record.1.unhashable? = none

variable {t : Table} {files : Directory}

theorem allPlain_of_readRecord {text : List Char} {record : Value × Value}
    (h : t.readRecord text = .ok record) : AllPlain record.1 ∧ AllPlain record.2 := by
  rw [readRecord] at h
  cases hread : Json.readPlain text with
  | error fault =>
    rw [hread] at h
    cases h
  | ok v =>
    rw [hread] at h
    simp only [Except.bind_eq_ok] at h
    obtain ⟨key, hkey, value, hvalue, h⟩ := h
    cases h
    have hv := Json.allPlain_of_readPlain hread
    exact ⟨Record.allPlain_member hv hkey, Record.allPlain_member hv hvalue⟩

theorem allPlain_of_readRecords {texts : List (List Char)} {records : List (Value × Value)}
    {ending : Option Failure} (h : t.readRecords texts = (records, ending)) :
    ∀ record ∈ records, AllPlain record.1 ∧ AllPlain record.2 := by
  induction texts generalizing records ending with
  | nil =>
    cases h
    exact fun _ h => absurd h List.not_mem_nil
  | cons text texts ih =>
    rw [readRecords] at h
    split at h
    · exact ih h
    · split at h
      · cases h
        exact fun _ h => absurd h List.not_mem_nil
      · next first hread =>
        cases h
        exact List.forall_mem_cons.mpr ⟨allPlain_of_readRecord hread, ih rfl⟩

/-- Whatever a table's file holds, the records that are read from it are plain. -/
theorem allPlain_of_mem_records :
    ∀ record ∈ (t.records files).1, AllPlain record.1 ∧ AllPlain record.2 := by
  intro record hrecord
  rw [records, recordsFrom] at hrecord
  split at hrecord
  · exact absurd hrecord List.not_mem_nil
  · split at hrecord
    · exact absurd hrecord List.not_mem_nil
    · dsimp only at hrecord
      split at hrecord
      · next heq => exact allPlain_of_readRecords heq record hrecord
      · next heq => exact allPlain_of_readRecords heq record hrecord

end Table

/-! ## Merging -/

namespace Engine

open Table (IsWritable)

variable {files : Directory}

theorem isWritable_of_mergeRecords {merged after : Entries} {ending : Option Failure}
    {records : List (Value × Value)} (h : mergeRecords merged ending records = .ok after)
    (hrecords : ∀ r ∈ records, AllPlain r.1 ∧ AllPlain r.2)
    (hmerged : ∀ r ∈ merged, IsWritable r) : ∀ r ∈ after, IsWritable r := by
  induction records generalizing merged with
  | nil =>
    cases ending with
    | none =>
      cases h
      exact hmerged
    | some e => cases h
  | cons record records ih =>
    obtain ⟨k, v⟩ := record
    obtain ⟨⟨hk, hv⟩, hrest⟩ := List.forall_mem_cons.mp hrecords
    rw [mergeRecords, Except.bind_eq_ok] at h
    obtain ⟨_, hcheck, h⟩ := h
    refine ih h hrest fun r hr => ?_
    have hhash : k.unhashable? = none := by
      rw [Record.checkHashable] at hcheck
      cases hk : k.unhashable? with
      | none => rfl
      | some type =>
        rw [hk] at hcheck
        cases hcheck
    split at hr
    · exact hmerged r hr
    · rcases Entries.mem_insert hr with hr | ⟨hvalue, hkey | ⟨old, hold⟩⟩
      · exact hmerged r hr
      · exact ⟨hkey ▸ hk, hvalue ▸ hv, hkey ▸ hhash⟩
      · exact ⟨(hmerged _ hold).key, hvalue ▸ hv, (hmerged _ hold).hashable⟩

/-- What tables are merged into can be written, if they can be merged at all. -/
theorem isWritable_of_mergeTables {merged after : Entries} {tables : List Table}
    (h : mergeTables files merged tables = .ok after) (hmerged : ∀ r ∈ merged, IsWritable r) :
    ∀ r ∈ after, IsWritable r := by
  induction tables generalizing merged with
  | nil =>
    cases h
    exact hmerged
  | cons t tables ih =>
    rw [mergeTables, Except.bind_eq_ok] at h
    obtain ⟨middle, hfirst, h⟩ := h
    exact ih h (isWritable_of_mergeRecords hfirst Table.allPlain_of_mem_records hmerged)

end Engine

/-! ## Lines and places -/

namespace Table

theorem IsWritable.exists_line {record : Value × Value} (h : IsWritable record) :
    ∃ text, line record.1 record.2 = .ok text := by
  have hplain : AllPlain (.dict [(.str Record.keyName, record.1),
      (.str Record.valueName, record.2)]) := by
    refine Json.allPlain_dict_iff.mpr fun e he => ?_
    rcases List.mem_cons.mp he with rfl | he
    · exact ⟨⟨_, rfl⟩, h.key⟩
    · rw [List.mem_singleton.mp he]
      exact ⟨⟨_, rfl⟩, h.value⟩
  obtain ⟨text, htext⟩ := Json.exists_write_of_allPlain
    (fun v => .error (.notSerializable v.className)) _ hplain
  exact ⟨text ++ ['\n'], by rw [line, Json.text, htext]; rfl⟩

/-- How many characters a record takes in a table. -/
def lengthOf (record : Value × Value) : Nat :=
  ((line record.1 record.2).toOption.getD []).length

/-- How many characters records take in a table. -/
def size (records : List (Value × Value)) : Nat := (records.map lengthOf).sum

theorem size_perm {xs ys : List (Value × Value)} (h : xs.Perm ys) : size xs = size ys :=
  (h.map lengthOf).sum_nat

/-- An index of keys that can be written, with places that are not behind a bound. -/
def IsIndexUpTo (bound : Nat) (index : Entries) : Prop :=
  ∀ e ∈ index, (AllPlain e.1 ∧ e.1.unhashable? = none) ∧ ∃ n : Nat, n ≤ bound ∧ e.2 = .int n

theorem IsIndexUpTo.mono {bound other : Nat} {index : Entries} (h : IsIndexUpTo bound index)
    (hle : bound ≤ other) : IsIndexUpTo other index := fun e he => by
  obtain ⟨hkey, n, hn, hvalue⟩ := h e he
  exact ⟨hkey, n, Nat.le_trans hn hle, hvalue⟩

theorem IsIndexUpTo.insert {bound place : Nat} {index : Entries} {key : Value}
    (h : IsIndexUpTo bound index) (hkey : AllPlain key) (hhash : key.unhashable? = none)
    (hplace : place ≤ bound) : IsIndexUpTo bound (index.insert key (.int place)) := by
  intro e he
  rcases Entries.mem_insert he with he | ⟨hvalue, rfl | ⟨old, hold⟩⟩
  · exact h e he
  · exact ⟨⟨hkey, hhash⟩, place, hplace, hvalue⟩
  · exact ⟨(h _ hold).1, place, hplace, hvalue⟩

/-- Records that can be written are written, and the index of what is marked with them. -/
theorem exists_writeRecords {sample : Value} (hstep : IsStep sample) (position : Nat)
    (draft : Draft) {records : List (Value × Value)} (hrecords : ∀ r ∈ records, IsWritable r)
    (hindex : IsIndexUpTo draft.text.length draft.index) :
    ∃ written, writeRecords sample position draft records = (written, none) ∧
      written.text.length = draft.text.length + size records ∧
      IsIndexUpTo written.text.length written.index := by
  induction records generalizing position draft with
  | nil => exact ⟨draft, rfl, rfl, hindex⟩
  | cons record records ih =>
    obtain ⟨k, v⟩ := record
    obtain ⟨hrecord, hrest⟩ := List.forall_mem_cons.mp hrecords
    obtain ⟨text, htext⟩ := hrecord.exists_line
    have hlength : lengthOf (k, v) = text.length := by
      rw [lengthOf, htext]
      rfl
    have hlonger : draft.text.length ≤ (draft.text ++ text).length := by
      rw [List.length_append]
      omega
    rw [writeRecords, htext]
    simp only [isSampled_of_isStep hstep]
    have hsize : size ((k, v) :: records) = text.length + size records := by
      rw [size, List.map_cons, List.sum_cons, hlength, ← size]
    rw [hsize]
    cases hmark : isInStep sample position with
    | false =>
      obtain ⟨written, hwritten, htotal, hmarks⟩ := ih (position + 1)
        { draft with text := draft.text ++ text } hrest (hindex.mono hlonger)
      refine ⟨written, hwritten, ?_, hmarks⟩
      rw [htotal, List.length_append, Nat.add_assoc]
    | true =>
      have hcheck : Record.checkHashable k = .ok () := by
        rw [Record.checkHashable, hrecord.hashable]
      obtain ⟨written, hwritten, htotal, hmarks⟩ := ih (position + 1)
        { text := draft.text ++ text
          index := draft.index.insert k (.int draft.text.length) } hrest
        ((hindex.mono hlonger).insert hrecord.key hrecord.hashable hlonger)
      refine ⟨written, ?_, ?_, hmarks⟩
      · rw [hcheck]
        exact hwritten
      · rw [htotal, List.length_append, Nat.add_assoc]

end Table

/-! ## The index -/

namespace Table

open Stored (nameOf)

/-- A hashable value that JSON has a form for is a key that is written under its name. -/
theorem key_of_hashable {k : Value} (h : AllPlain k) (hhash : k.unhashable? = none) :
    Json.key k = .ok (Json.quote (nameOf k)) := by
  have hkey : ∃ text, Json.key k = .ok text := by
    cases k with
    | null | bool | float | str => exact ⟨_, rfl⟩
    | int n =>
      rw [Json.key, Json.wholeNumber_of_le (h _ .self)]
      exact ⟨_, rfl⟩
    | list | dict => cases hhash
    | _ => exact (h _ .self).elim
  obtain ⟨text, htext⟩ := hkey
  rw [htext, Stored.key_eq_quote_nameOf htext]

/-- An index is written as an object whose members are the places of the keys under their names. -/
theorem exists_members_of_index (foreign : Value → Except Json.WriteFault (List Char)) {bound : Nat}
    (hbound : bound < Sheet.capacity) {index : Entries} (h : IsIndexUpTo bound index) :
    ∃ ms : List Json.Member, Json.writeEntries foreign none index = .ok (ms.map Json.Member.part) ∧
      ∀ m ∈ ms, ∃ n : Nat, (Nat.toDigits 10 n).length ≤ Json.digitLimit ∧
        m.text = Json.integer n ∧ m.value = .int n := by
  induction index with
  | nil => exact ⟨[], rfl, fun _ h => absurd h List.not_mem_nil⟩
  | cons e index ih =>
    obtain ⟨k, v⟩ := e
    obtain ⟨⟨⟨hkey, hhash⟩, n, hn, rfl⟩, hrest⟩ := List.forall_mem_cons.mp h
    obtain ⟨ms, hms, hall⟩ := ih hrest
    have hdigits : (Nat.toDigits 10 n).length ≤ Json.digitLimit :=
      (Power.length_toDigits_le_iff (by decide)).mpr (Nat.lt_of_le_of_lt hn hbound)
    refine ⟨{ name := nameOf k, text := Json.integer n, value := .int n } :: ms, ?_,
      List.forall_mem_cons.mpr ⟨⟨n, hdigits, rfl, rfl⟩, hall⟩⟩
    have hplace : Json.write foreign none (.int n) = .ok (Json.integer n) :=
      Json.wholeNumber_of_le (n := (n : Int)) hdigits
    rw [Json.writeEntries, key_of_hashable hkey hhash, hplace, hms]
    rfl

/-- What is written as an index is read back as a dictionary of text keys. -/
theorem exists_indexText {bound : Nat} (hbound : bound < Sheet.capacity) {index : Entries}
    (h : IsIndexUpTo bound index) :
    ∃ text es, indexText index = (text, none) ∧ readIndex (Utf8.encode text) = .ok (.dict es) ∧
      ∀ e ∈ es, ∃ s, e.1 = .str s := by
  obtain ⟨ms, hms, hall⟩ := exists_members_of_index
    (fun v => .error (.notSerializable v.className)) hbound h
  have htext : Json.text (.dict index)
      = .ok (Json.enclose none '\x7b' '\x7d' (ms.map Json.Member.part)) := by
    rw [Json.text, Json.write, Json.deeper, Option.map_none, hms]
    rfl
  have hreads : ∀ m ∈ ms, @Json.Reads Empty (fun es => .ok (.dict es)) m.text m.value := by
    intro m hm
    obtain ⟨n, hdigits, htext, hvalue⟩ := hall m hm
    rw [htext, hvalue]
    exact Json.reads_integer _ (n := (n : Int)) hdigits
  have hvisible : Text.IsVisible (Json.enclose none '\x7b' '\x7d' (ms.map Json.Member.part)) := by
    refine Json.isVisible_members fun m hm => ?_
    obtain ⟨n, -, htext, -⟩ := hall m hm
    rw [htext]
    exact Json.isVisible_integer n
  refine ⟨_, Entries.ofList (ms.map Json.Member.pair), Sheet.indexText_of_ok htext, ?_, ?_⟩
  · rw [readIndex, Utf8.decode_encode (Text.isAscii_of_isVisible hvisible)]
    show Failure.lift _ (Json.readPlain (Text.unifyBreaks _)) = _
    rw [Text.unifyBreaks_of_isVisible hvisible, Json.readPlain_members hreads]
    rfl
  · intro e he
    have hkeys := @Entries.mem_keys_ofList (ms.map fun m => (m.name, m.value)) e.1
    rw [List.map_map] at hkeys
    obtain ⟨p, -, hp⟩ := hkeys.mp (List.mem_map_of_mem he)
    exact ⟨p.1, hp⟩

theorem sortBy_of_texts {keys : List Value} (h : ∀ k ∈ keys, ∃ s, k = .str s) :
    ∃ sorted, Order.sortBy id keys = .ok sorted := by
  have htexts : (keys.all fun k => (id k).asText?.isSome) = true := by
    refine List.all_eq_true.mpr fun k hk => ?_
    obtain ⟨s, rfl⟩ := h k hk
    rfl
  rw [Order.sortBy, if_pos htexts]
  exact ⟨_, rfl⟩

/-! ## The table -/

/-- Records that can be written and sorted make a table, which is opened again at once. -/
theorem write_of_sorted {sample : Value} (hstep : IsStep sample) (directory : Path) (name : String)
    {items sorted : List (Value × Value)} (hitems : ∀ r ∈ items, IsWritable r)
    (hsize : size items < Sheet.capacity) (hsorted : Order.sortBy (·.1) items = .ok sorted)
    (files : Directory) :
    ∃ t content index, write directory name items sample files
        = (.ok t, (files.write name content).write (indexName name) index) ∧ t.name = name := by
  have hperm := Order.sortBy_perm hsorted
  have hrecords : ∀ r ∈ sorted, IsWritable r := fun r hr => hitems r (hperm.mem_iff.mp hr)
  obtain ⟨written, hwritten, hlength, hindex⟩ := exists_writeRecords hstep 0
    { text := [], index := [] } hrecords nofun
  have hbound : written.text.length < Sheet.capacity := by
    rw [hlength, size_perm hperm]
    simpa using hsize
  obtain ⟨text, es, htext, hread, hkeys⟩ := exists_indexText hbound hindex
  have hopens : Opens name ((files.write name (Utf8.encode written.text)).write (indexName name)
      (Utf8.encode text)) := by
    obtain ⟨keys, hsorts⟩ := @sortBy_of_texts (es.map (·.1)) fun k hk => by
      obtain ⟨e, he, rfl⟩ := List.mem_map.mp hk
      exact hkeys e he
    refine ⟨.dict es, es.map (·.1), keys, ?_, rfl, hsorts⟩
    rw [storedIndex, Directory.read?_write_self]
    exact hread
  obtain ⟨t, ht⟩ := (@exists_load_iff directory name _).mpr hopens
  refine ⟨t, Utf8.encode written.text, Utf8.encode text, ?_, name_of_load ht⟩
  rw [write, hsorted]
  simp only [hwritten, htext]
  rw [ht]

end Table

end SchemaStore
