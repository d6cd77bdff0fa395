import SchemaStore.Proofs.Json.Objects
import SchemaStore.Proofs.Sequencing
import SchemaStore.Proofs.Storage.Pairs

/-!
Records as lines.  The log and the tables hold JSON objects whose members are all texts, one
object a line.  Such a line reads back as the dictionary it was written from.
-/

namespace SchemaStore
namespace Pairs

def members (fields : Pairs) : List Json.Member :=
  fields.map fun f => { name := f.1, text := Json.quote f.2, value := .str f.2 }

def objectText (fields : Pairs) : List Char :=
  Json.enclose none '\x7b' '\x7d' (fields.members.map Json.Member.part)

theorem map_pair_members (fields : Pairs) :
    fields.members.map Json.Member.pair = fields.entries := by
  rw [members, List.map_map]
  rfl

theorem text_entries (fields : Pairs) :
    Json.text (.dict fields.entries) = .ok fields.objectText := by
  rw [← map_pair_members]
  refine Json.text_members fun m hm => ?_
  obtain ⟨f, -, rfl⟩ := List.mem_map.mp hm
  rfl

theorem pairwise_entries {fields : Pairs} (h : fields.keys.Nodup) :
    fields.entries.Pairwise fun a b => a.1.standsFor b.1 = false := by
  rw [entries, List.pairwise_map]
  refine (List.pairwise_map.mp h).imp fun hne => ?_
  rw [Value.standsFor_str]
  exact beq_eq_false_iff_ne.mpr hne

/-- An object of texts reads as its dictionary, whatever stands around it. -/
theorem reads_objectText {fields : Pairs} (h : fields.keys.Nodup) :
    @Json.Reads Empty (fun es => .ok (.dict es)) fields.objectText (.dict fields.entries) := by
  refine Json.reads_object _ (fun m hm => ?_) ?_
  · obtain ⟨f, -, rfl⟩ := List.mem_map.mp hm
    exact Json.reads_quote _ f.2
  · rw [map_pair_members, Entries.ofList_of_pairwise (pairwise_entries h)]

theorem exists_objectText_eq_cons (fields : Pairs) : ∃ rest, fields.objectText = '\x7b' :: rest := by
  rw [objectText]
  cases fields.members.map Json.Member.part with
  | nil => exact ⟨_, rfl⟩
  | cons part parts => exact ⟨_, rfl⟩

theorem readPlain_objectText {fields : Pairs} (h : fields.keys.Nodup) :
    Json.readPlain fields.objectText = .ok (.dict fields.entries) := by
  refine Json.read_of_reads _ (reads_objectText h) ?_
  obtain ⟨rest, hrest⟩ := fields.exists_objectText_eq_cons
  rw [hrest, List.head?_cons]
  decide

theorem entries_injective {a b : Pairs} (h : a.entries = b.entries) : a = b := by
  refine (List.map_inj_right fun p q hpq => ?_).mp h
  exact Prod.ext (Value.str.inj (Prod.mk.inj hpq).1) (Value.str.inj (Prod.mk.inj hpq).2)

theorem objectText_injective {a b : Pairs} (ha : a.keys.Nodup) (hb : b.keys.Nodup)
    (h : a.objectText = b.objectText) : a = b := by
  have hread := readPlain_objectText ha
  rw [h, readPlain_objectText hb] at hread
  exact (entries_injective (Value.dict.inj (Except.ok.inj hread))).symm

theorem isVisible_objectText (fields : Pairs) : Text.IsVisible fields.objectText := by
  refine Json.isVisible_members fun m hm => ?_
  obtain ⟨f, -, rfl⟩ := List.mem_map.mp hm
  exact Json.isVisible_quote f.2

theorem not_isBlank_objectText (fields : Pairs) : fields.objectText.all Text.isBlank = false := by
  obtain ⟨rest, hrest⟩ := fields.exists_objectText_eq_cons
  rw [hrest, List.all_cons]
  rfl

theorem member_entries {fields : Pairs} {name value : String}
    (h : fields.lookup name = some value) :
    Record.member (.dict fields.entries) name = .ok (.str value) := by
  rw [Record.member, Record.subscript, get?_entries, h]
  rfl

end Pairs

/-! ## The lines of tables -/

namespace Table

def fields (p : String × String) : Pairs :=
  [(Record.keyName, p.1), (Record.valueName, p.2)]

theorem nodup_keys_fields (p : String × String) : (fields p).keys.Nodup := by
  show [Record.keyName, Record.valueName].Nodup
  decide

def recordText (p : String × String) : List Char := (fields p).objectText

theorem line_texts (p : String × String) :
    line (.str p.1) (.str p.2) = .ok (recordText p ++ ['\n']) := by
  have htext :
      Json.text (.dict [(.str Record.keyName, .str p.1), (.str Record.valueName, .str p.2)])
        = .ok (recordText p) := (fields p).text_entries
  rw [line, htext]
  rfl

theorem isVisible_recordText (p : String × String) : Text.IsVisible (recordText p) :=
  (fields p).isVisible_objectText

theorem readRecord_recordText (t : Table) (p : String × String) :
    t.readRecord (recordText p) = .ok (.str p.1, .str p.2) := by
  have hkey : (fields p).lookup Record.keyName = some p.1 := rfl
  have hvalue : (fields p).lookup Record.valueName = some p.2 := rfl
  rw [readRecord, recordText, Pairs.readPlain_objectText (nodup_keys_fields p)]
  simp only [Pairs.member_entries hkey, Pairs.member_entries hvalue]
  rfl

theorem recordText_injective {p q : String × String} (h : recordText p = recordText q) : p = q := by
  have hfields := Pairs.objectText_injective (nodup_keys_fields p) (nodup_keys_fields q) h
  injection hfields with hkey hrest
  injection hrest with hvalue
  exact Prod.ext (Prod.mk.inj hkey).2 (Prod.mk.inj hvalue).2

/-- The lines of records read back as the records. -/
theorem readRecords_map_recordText (t : Table) (m : Pairs) :
    t.readRecords (m.map recordText) = (m.entries, none) := by
  induction m with
  | nil => rfl
  | cons p m ih =>
    have hblank : (recordText p).all Text.isBlank = false := (fields p).not_isBlank_objectText
    rw [List.map_cons, readRecords, hblank, readRecord_recordText]
    simp only [ih]
    rfl

end Table

/-! ## The lines of the log -/

namespace Log

def fields (p : String × String) : Pairs :=
  [(Record.operationName, Record.putOperation), (Record.keyName, p.1), (Record.valueName, p.2)]

theorem nodup_keys_fields (p : String × String) : (fields p).keys.Nodup := by
  show [Record.operationName, Record.keyName, Record.valueName].Nodup
  decide

def writeText (p : String × String) : List Char := (fields p).objectText

theorem line_texts (p : String × String) :
    line (.str p.1) (.str p.2) = .ok (writeText p ++ ['\n']) := by
  have htext : Json.text (.dict [(.str Record.operationName, .str Record.putOperation),
      (.str Record.keyName, .str p.1), (.str Record.valueName, .str p.2)])
      = .ok (writeText p) := (fields p).text_entries
  rw [line, htext]
  rfl

theorem isVisible_writeText (p : String × String) : Text.IsVisible (writeText p) :=
  (fields p).isVisible_objectText

theorem writeText_injective {p q : String × String} (h : writeText p = writeText q) : p = q := by
  have hfields := Pairs.objectText_injective (nodup_keys_fields p) (nodup_keys_fields q) h
  injection hfields with _ hrest
  injection hrest with hkey hrest
  injection hrest with hvalue
  exact Prod.ext (Prod.mk.inj hkey).2 (Prod.mk.inj hvalue).2

/-- A line that reads as the record of a write makes the write again. -/
theorem replayLine_of_readPlain (l : Log) (number : Nat) (memory : Entries) {text : List Char}
    {p : String × String} (hblank : text.all Text.isBlank = false)
    (hread : Json.readPlain text = .ok (.dict (fields p).entries)) :
    l.replayLine number memory text = .ok (memory.insert (.str p.1) (.str p.2)) := by
  have hoperation : (fields p).lookup Record.operationName = some Record.putOperation := rfl
  have hkey : (fields p).lookup Record.keyName = some p.1 := rfl
  have hvalue : (fields p).lookup Record.valueName = some p.2 := rfl
  have hfield : ((fields p).entries.field? Record.operationName).getD .null
      = .str Record.putOperation := by
    rw [Entries.field?, Pairs.get?_entries, hoperation]
    rfl
  rw [replayLine, hblank, hread]
  simp only [Bool.false_eq_true, if_false, Value.entries?, hfield, Value.same_str, BEq.rfl, if_true,
    Pairs.member_entries hkey, Pairs.member_entries hvalue]
  rfl

theorem replayLine_writeText (l : Log) (number : Nat) (m : Pairs) (p : String × String) :
    l.replayLine number m.entries (writeText p) = .ok (m.set p.1 p.2).entries := by
  rw [writeText, replayLine_of_readPlain l number _ (fields p).not_isBlank_objectText
    (Pairs.readPlain_objectText (nodup_keys_fields p)), Pairs.insert_entries]

/-- Replaying the lines of writes makes the writes again. -/
theorem replayLines_map_writeText (l : Log) (number : Nat) (m writes : Pairs) :
    l.replayLines number m.entries (writes.map writeText)
      = .ok (Pairs.entries (writes.foldl (fun m p => m.set p.1 p.2) m)) := by
  induction writes generalizing number m with
  | nil => rfl
  | cons p writes ih =>
    rw [List.map_cons, replayLines, replayLine_writeText, List.foldl_cons, ← ih (number + 1)]
    rfl

def textOf (writes : Pairs) : List Char := Text.joined (writes.map writeText)

theorem encode_textOf_concat (writes : Pairs) (p : String × String) :
    Utf8.encode (textOf (writes ++ [p]))
      = Utf8.encode (textOf writes) ++ Utf8.encode (writeText p ++ ['\n']) := by
  rw [textOf, List.map_append, Text.joined_append, Utf8.encode_append, ← textOf]
  simp [Text.joined]

theorem storedLines_textOf (writes : Pairs) :
    Text.storedLines [] (Utf8.encode (textOf writes)) = (writes.map writeText, none) := by
  refine Text.storedLines_joined fun l hl => ?_
  obtain ⟨p, -, rfl⟩ := List.mem_map.mp hl
  exact isVisible_writeText p

/-- Replaying a log of writes leaves what the writes leave. -/
theorem replay_textOf {l : Log} {files : Directory} {writes : Pairs} (hopen : l.isClosed = false)
    (hcontent : l.content files = Utf8.encode (textOf writes)) :
    l.replay files = .ok (Pairs.ofWrites writes).entries := by
  have hmemory : l.replayLines 1 [] (writes.map writeText) = .ok (Pairs.ofWrites writes).entries :=
    l.replayLines_map_writeText 1 [] writes
  rw [replay, checkOpen, hopen, hcontent]
  simp only [Bool.false_eq_true, if_false, Except.ok_bind, storedLines_textOf, hmemory]

end Log
end SchemaStore
