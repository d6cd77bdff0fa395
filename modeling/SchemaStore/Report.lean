import SchemaStore.Value.Display

/-!
Reports of faults.  What is wrong is said in words that quote values, and a value may be impossible
to show.  Then the report itself fails, and what it was to say is lost.
-/

namespace SchemaStore

/-- What becomes of the report of a fault. -/
inductive Report (ε : Type) where
  | fault (e : ε)
  /-- A value that the report quotes cannot be shown. -/
  | unshowable
deriving DecidableEq

namespace Report

variable {ε : Type}

/-- The report of a fault that is told with a text. -/
def ofText (text : Option String) (tell : String → ε) : Report ε :=
  match text with
  | some s => fault (tell s)
  | none => unshowable

theorem ofText_eq_fault_iff {text : Option String} {tell : String → ε} {e : ε} :
    ofText text tell = fault e ↔ ∃ s, text = some s ∧ e = tell s := by
  cases text <;> simp [ofText, eq_comm]

theorem ofText_eq_unshowable_iff {text : Option String} {tell : String → ε} :
    ofText text tell = unshowable ↔ text = none := by
  cases text <;> simp [ofText]

/-- The report of a fault whose message will quote the values. -/
def quoting (values : List Value) (e : ε) : Report ε :=
  if values.all Value.isShowable then fault e else unshowable

theorem quoting_eq_fault_iff {values : List Value} {e f : ε} :
    quoting values e = fault f ↔ e = f ∧ ∀ v ∈ values, v.isShowable = true := by
  rw [quoting, ← List.all_eq_true]
  split <;> simp [*]

theorem quoting_eq_unshowable_iff {values : List Value} {e : ε} :
    quoting values e = unshowable ↔ ∃ v ∈ values, v.isShowable = false := by
  rw [quoting]
  split <;> simp_all

end Report
end SchemaStore
