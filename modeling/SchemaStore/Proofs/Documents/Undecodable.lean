import SchemaStore.Collection
import SchemaStore.Proofs.Storage.Damage
import SchemaStore.Proofs.Stored.Tags

/-!
Documents that cannot be decoded.  The store reports a text that is no JSON, and a tagged text that
is no date, as errors of its own; but not what is no text at all, be it the stored form of a
document or what stands under a tag.  Look-ups and searches pass on what decoding ends with.
-/

namespace SchemaStore

open Stored (decode decodeText HasTagOverNoText)

namespace Stored

theorem isStore_ofDecode (fault : DecodeFault) :
    (Failure.ofDecode fault).isStore = false ↔ ∃ m, fault = .misuse m := by
  cases fault with
  | unreadable fault => exact iff_of_false nofun nofun
  | misuse m => exact iff_of_true rfl ⟨m, rfl⟩

/-- Decoding a text reports every defect but one. -/
theorem isReported_decodeText_iff (text : String) :
    IsReported (Failure.lift .ofDecode (decodeText text)) ↔ ¬HasTagOverNoText text := by
  have hmisuse : HasTagOverNoText text ↔ ∃ m, decodeText text = .error (.misuse m) := by
    simp only [decodeText_eq_misuse_iff, exists_eq_left]
  rw [hmisuse]
  cases decodeText text with
  | ok v => exact iff_of_true (isReported_ok v) nofun
  | error fault =>
    show IsReported (.error _) ↔ _
    rw [isReported_error, ← Bool.not_eq_false, isStore_ofDecode]
    simp only [Except.error.injEq]

/-- Nothing but a text is decoded. -/
theorem isReported_decode_iff (v : Value) :
    IsReported (Failure.lift .ofDecode (decode v)) ↔
      ∃ text, v = .str text ∧ ¬HasTagOverNoText text := by
  cases v with
  | str text =>
    rw [decode, isReported_decodeText_iff]
    simp only [Value.str.injEq, exists_eq_left']
  | _ =>
    refine iff_of_false (fun h => ?_) ?_
    · cases isReported_error.mp h
    · rintro ⟨text, heq, -⟩
      cases heq

end Stored

namespace Collection

/-- A stored document is decoded and compared with a filter. -/
def IsDecided (filter : Value) (record : String × Value) : Prop :=
  ∃ doc matched, decode record.2 = .ok doc ∧ Filter.accepts filter doc = .ok matched

theorem isReported_get_iff (c : Collection) (id : String) (site : Site) :
    IsReported (c.get (.str id) site).answer ↔
      IsReported (Engine.get (.str (c.keyOf id)) site).answer ∧
        ∀ stored, (Engine.get (.str (c.keyOf id)) site).answer = .ok stored →
          stored = .null ∨ ∃ text, stored = .str text ∧ ¬HasTagOverNoText text := by
  cases hget : Engine.get (.str (c.keyOf id)) site with
  | error f after =>
    have hfails : c.get (.str id) site = .error f after := bind_of_error hget
    rw [hfails]
    show IsReported (.error f) ↔ IsReported (.error f) ∧ ∀ a, Except.error f = .ok a → _
    simp only [reduceCtorEq, false_implies, implies_true, and_true, isReported_error]
  | ok stored after =>
    have hanswer : IsReported (c.get (.str id) site).answer ↔
        stored = .null ∨ IsReported (Failure.lift .ofDecode (decode stored)) := by
      rw [get, bind_of_ok hget]
      cases stored with
      | null => exact iff_of_true (isReported_ok _) (.inl rfl)
      | _ => simp only [Engine.answer_ofResult, reduceCtorEq, false_or]
    show _ ↔ IsReported (.ok stored) ∧ ∀ other, Except.ok stored = .ok other → _
    rw [hanswer, Stored.isReported_decode_iff, and_iff_right (isReported_ok stored)]
    simp only [Except.ok.injEq, forall_eq']

/-- Searching decodes one document after the other. -/
theorem isReported_find_iff (c : Collection) (filter : Value) (site : Site) :
    IsReported (c.find filter site).answer ↔
      IsReported (Engine.scan c.keyStart site).answer ∧
        ∀ records, (Engine.scan c.keyStart site).answer = .ok records →
          IsReported (select filter records) := by
  cases hscan : Engine.scan c.keyStart site with
  | error f after =>
    have hfails : c.find filter site = .error f after := bind_of_error hscan
    rw [hfails]
    show IsReported (.error f) ↔ IsReported (.error f) ∧ ∀ a, Except.error f = .ok a → _
    simp only [reduceCtorEq, false_implies, implies_true, and_true, isReported_error]
  | ok records after =>
    have hanswer : (c.find filter site).answer = select filter records := by
      rw [find, bind_of_ok hscan, Engine.answer_ofResult]
    show _ ↔ IsReported (.ok records) ∧ ∀ other, Except.ok records = .ok other → _
    rw [hanswer, and_iff_right (isReported_ok records)]
    simp only [Except.ok.injEq, forall_eq']

theorem isReported_select_iff (filter : Value) (records : List (String × Value)) :
    IsReported (select filter records) ↔ FirstIsReported (IsDecided filter)
      (fun record => (∃ text, record.2 = .str text ∧ ¬HasTagOverNoText text) ∧
        ∀ doc, decode record.2 = .ok doc →
          IsReported (Failure.lift (.ofReport .ofFilter) (Filter.accepts filter doc))) records := by
  induction records with
  | nil => exact iff_of_true (isReported_ok _) firstIsReported_nil
  | cons record records ih =>
    obtain ⟨key, stored⟩ := record
    have hdecided : IsDecided filter (key, stored) →
        (∃ text, stored = .str text ∧ ¬HasTagOverNoText text) ∧ ∀ doc, decode stored = .ok doc →
          IsReported (Failure.lift (.ofReport .ofFilter) (Filter.accepts filter doc)) := by
      rintro ⟨doc, matched, hdoc, hmatched⟩
      rw [← Stored.isReported_decode_iff, hdoc]
      refine ⟨isReported_ok doc, fun other hother => ?_⟩
      rw [← Except.ok.inj hother, hmatched]
      exact isReported_ok matched
    rw [firstIsReported_cons, or_iff_right_of_imp hdecided, ← ih, select, isReported_bind,
      Stored.isReported_decode_iff]
    simp only [isReported_bind, Failure.lift_eq_ok_iff, isReported_ok, implies_true, and_true]
    constructor
    · rintro ⟨hstored, hrest⟩
      exact ⟨⟨hstored, fun doc hdoc => (hrest doc hdoc).1⟩,
        fun ⟨doc, matched, hdoc, hmatched⟩ => (hrest doc hdoc).2 matched hmatched⟩
    · rintro ⟨⟨hstored, hfilter⟩, hrest⟩
      exact ⟨hstored, fun doc hdoc => ⟨hfilter doc hdoc, fun matched hmatched =>
        hrest ⟨doc, matched, hdoc, hmatched⟩⟩⟩

/-- An engine that holds a document with a number under a tag. -/
def numberTagged : Site where
  engine :=
    { settings :=
        { dataDir := Disk.workingPath
          memtableLimit := Settings.defaultMemtableLimit
          indexSample := Settings.defaultIndexSample
          forced := Settings.defaultForced }
      log := Engine.openedLog Disk.workingPath
      memtable := [(.str "a:1", .str "\x7b\"$date\": 5\x7d")]
      tables := []
      isClosed := false }
  files := []

end Collection

end SchemaStore
