import SchemaStore.Proofs.Json.Endings
import SchemaStore.Stored

/-!
Tags over something other than a text.  A tag is looked at when its object closes, and what stands
under it may be any value that has been read by then, a date of another tag among them.  Only a text
can be read as a date; anything else under a tag ends the decoding, and in another way than every
other defect of a text does.
-/

namespace SchemaStore

/-- A fold fails at one element, behind others that it gets through. -/
theorem foldlM_eq_error_iff {α σ ε : Type} {f : σ → α → Except ε σ} {s : σ} {xs : List α} {e : ε} :
    xs.foldlM f s = .error e ↔ ∃ before x after middle, xs = before ++ x :: after ∧
      before.foldlM f s = .ok middle ∧ f middle x = .error e := by
  constructor
  · intro h
    induction xs generalizing s with
    | nil => cases h
    | cons x xs ih =>
      rw [List.foldlM_cons] at h
      cases hx : f s x with
      | error first =>
        rw [hx] at h
        exact ⟨[], x, xs, s, rfl, rfl, hx.trans h⟩
      | ok next =>
        rw [hx] at h
        obtain ⟨before, y, after, middle, rfl, hbefore, hy⟩ := ih h
        refine ⟨x :: before, y, after, middle, rfl, ?_, hy⟩
        rw [List.foldlM_cons, hx]
        exact hbefore
  · rintro ⟨before, x, after, middle, rfl, hbefore, hx⟩
    rw [List.foldlM_append, hbefore, Except.ok_bind, List.foldlM_cons, hx]
    rfl

namespace Json

variable {ε : Type} {revive : Entries → Except ε Value}

theorem beginValue_ne_revived (stack : List Frame) (t : Placed) (e : ε) :
    beginValue stack t ≠ .error (.revived e) := by
  unfold beginValue
  split <;> exact nofun

theorem beginName_ne_revived (done : Entries) (stack : List Frame) (t : Placed) (e : ε) :
    beginName done stack t ≠ .error (.revived e) := by
  unfold beginName
  split <;> exact nofun

theorem close_eq_revived_iff {done : Entries} {stack : List Frame} {e : ε} :
    close revive done stack = .error (.revived e) ↔ revive done = .error e := by
  rw [close]
  cases revive done <;> simp

/-- Only an object that closes is revived. -/
theorem step_eq_revived_iff {s : State} {t : Placed} {e : ε} :
    step revive s t = .error (.revived e) ↔ t.token = .endObject ∧ ∃ done stack,
      revive done = .error e ∧
        (s = .afterMember done stack ∨ s = .firstName stack ∧ done = []) := by
  constructor
  · intro h
    unfold step at h
    split at h
    · exact absurd h (beginValue_ne_revived _ _ _)
    · split at h
      · cases h
      · exact absurd h (beginValue_ne_revived _ _ _)
    · split at h <;> cases h
    · next stack =>
      split at h
      · next htoken =>
        exact ⟨htoken, [], stack, close_eq_revived_iff.mp h, .inr ⟨rfl, rfl⟩⟩
      · exact absurd h (beginName_ne_revived _ _ _ _)
    · exact absurd h (beginName_ne_revived _ _ _ _)
    · split at h <;> cases h
    · next done stack =>
      split at h
      · next htoken => exact ⟨htoken, done, stack, close_eq_revived_iff.mp h, .inl rfl⟩
      · cases h
      · cases h
    · cases h
  · rintro ⟨htoken, done, stack, hrevive, rfl | ⟨rfl, rfl⟩⟩
    · simp only [step, htoken]
      exact close_eq_revived_iff.mpr hrevive
    · simp only [step, htoken]
      exact close_eq_revived_iff.mpr hrevive

end Json

namespace Stored

open Json (Placed Frame)

/-- A name that is looked for when an object with one member closes. -/
def IsTag (name : String) : Prop := name = dateTimeTag ∨ name = dateTag

theorem readTag_eq_notText_iff {α : Type} {read : String → Except Iso.Fault α} {wrap : α → Value}
    {v : Value} : readTag read wrap v = .error .notText ↔ v.asText? = none := by
  cases v with
  | str s =>
    rw [readTag]
    cases read s <;> exact iff_of_false (by simp) (by simp [Value.asText?])
  | _ => exact iff_of_true rfl rfl

theorem revive_eq_notText_iff {es : Entries} :
    revive es = .error .notText ↔ ∃ name v, es = [(.str name, v)] ∧ IsTag name ∧
      v.asText? = none := by
  constructor
  · intro h
    unfold revive at h
    split at h
    · next name v =>
      refine ⟨name, v, rfl, ?_⟩
      split at h
      · next htag => exact ⟨.inl htag, readTag_eq_notText_iff.mp h⟩
      · split at h
        · next htag => exact ⟨.inr htag, readTag_eq_notText_iff.mp h⟩
        · cases h
    · cases h
  · rintro ⟨name, v, rfl, rfl | rfl, hv⟩
    · exact readTag_eq_notText_iff.mpr hv
    · exact readTag_eq_notText_iff.mpr hv

/-- Among the objects of a text that close, the first that cannot be decoded has one member, a tag
over something other than a text; and up to there the text is JSON. -/
def HasTagOverNoText (text : String) : Prop :=
  text.toList.head? ≠ some '\ufeff' ∧ ∃ before brace after name v stack,
    Json.tokens text.toList = before ++ brace :: after ∧
    before.foldlM (Json.step revive) (.value []) = .ok (.afterMember [(.str name, v)] stack) ∧
    brace.token = .endObject ∧ IsTag name ∧ v.asText? = none

theorem read_eq_notText_iff {text : String} :
    Json.read revive text.toList = .error (.revived .notText) ↔ HasTagOverNoText text := by
  rw [Json.read_eq_revived_iff, HasTagOverNoText]
  refine and_congr_right fun _ => ?_
  show (Json.tokens text.toList).foldlM _ _ = _ ↔ _
  rw [foldlM_eq_error_iff]
  constructor
  · rintro ⟨before, brace, after, s, htokens, hbefore, hstep⟩
    obtain ⟨hbrace, done, stack, hrevive, hs⟩ := Json.step_eq_revived_iff.mp hstep
    obtain ⟨name, v, rfl, htag, hv⟩ := revive_eq_notText_iff.mp hrevive
    rcases hs with rfl | ⟨-, hdone⟩
    · exact ⟨before, brace, after, name, v, stack, htokens, hbefore, hbrace, htag, hv⟩
    · cases hdone
  · rintro ⟨before, brace, after, name, v, stack, htokens, hbefore, hbrace, htag, hv⟩
    have hrevive := revive_eq_notText_iff.mpr ⟨name, v, rfl, htag, hv⟩
    exact ⟨before, brace, after, _, htokens, hbefore,
      Json.step_eq_revived_iff.mpr ⟨hbrace, _, stack, hrevive, .inl rfl⟩⟩

/-- The one misuse that decoding a text can end with. -/
theorem decodeText_eq_misuse_iff {text : String} {m : Misuse} :
    decodeText text = .error (.misuse m) ↔ m = .isoFromOther ∧ HasTagOverNoText text := by
  rw [← read_eq_notText_iff, decodeText]
  split
  · next v hread => simp [hread]
  · next hread =>
    rw [hread, Except.error.injEq, DecodeFault.misuse.injEq, and_iff_left rfl, eq_comm]
  · next fault hne hread =>
    refine iff_of_false nofun fun h => ?_
    exact hne (Except.error.inj (hread.symm.trans h.2))

end Stored

end SchemaStore
