import SchemaStore.Proofs.Storage.Recovery

/-!
What a closed engine is.  Closing moves the memtable into a table and empties the log, so that the
tables alone answer as the engine did.  From then on the engine is inert: flushing is not refused,
but it has nothing to flush, closing again does nothing, and everything else is refused.  That the
memtable stays empty is what no call can change, whatever calls came before it.
-/

namespace SchemaStore

/-- What can be asked of an engine, with keys and values of any form.  Where a table may be written,
the call comes with the reading of the clock. -/
inductive LateCall where
  | put (clock : Int) (key value : Value)
  | putNew (clock : Int) (key value : Value)
  | get (key : Value)
  | scan (start : String)
  | compact (clock : Int)
  | flush (clock : Int)
  | close (clock : Int)

namespace LateCall

/-- The call, whose answer is dropped if it has one. -/
def perform (call : LateCall) : Action Unit :=
  match call with
  | put clock key value => Engine.put clock key value
  | putNew clock key value => discard (Engine.putNew clock key value)
  | get key => discard (Engine.get key)
  | scan start => discard (Engine.scan start)
  | compact clock => Engine.compact clock
  | flush clock => Engine.flush clock
  | close clock => Engine.close clock

/-- Whether the call asks for an engine that is open. -/
def needsOpen (call : LateCall) : Bool :=
  match call with
  | flush _ | close _ => false
  | _ => true

/-- What each of a row of calls comes to, with what it leaves for the next. -/
def outcomes (calls : List LateCall) (site : Site) : List (EStateM.Result Failure Site Unit) :=
  match calls with
  | [] => []
  | call :: rest => call.perform site :: outcomes rest (call.perform site).left

/-- What a call comes to that finds an engine closed: it fails if it needs an open one, and nothing
changes in either case. -/
def onClosed (call : LateCall) (site : Site) : EStateM.Result Failure Site Unit :=
  if call.needsOpen then .error (.store (.closed site.engine.directory)) site else .ok () site

end LateCall

/-- The engine is closed and has nothing left to flush. -/
structure Site.IsInert (site : Site) : Prop where
  closed : site.engine.isClosed = true
  memtable : site.engine.memtable = []

namespace LateCall

variable {site : Site}

theorem left_onClosed (call : LateCall) (site : Site) : (call.onClosed site).left = site := by
  rw [onClosed]
  split <;> rfl

theorem perform_of_isInert (h : site.IsInert) (call : LateCall) :
    call.perform site = call.onClosed site := by
  cases call with
  | put clock key value => exact Engine.put_closed h.closed clock key value
  | putNew clock key value => exact bind_of_error (Engine.putNew_closed h.closed clock key value)
  | get key => exact bind_of_error (Engine.get_closed h.closed key)
  | scan start => exact bind_of_error (Engine.scan_closed h.closed start)
  | compact clock => exact Engine.compact_closed h.closed clock
  | flush clock => exact Engine.flush_of_memtable_nil h.memtable clock
  | close clock => exact Engine.close_closed h.closed clock

/-- An inert engine stays as it is, and so every call of a row finds it the same. -/
theorem outcomes_of_isInert (h : site.IsInert) (calls : List LateCall) :
    outcomes calls site = calls.map fun call => call.onClosed site := by
  induction calls with
  | nil => rfl
  | cons call rest ih =>
    rw [outcomes, perform_of_isInert h, left_onClosed, ih, List.map_cons]

end LateCall

/-- With nothing in memory an engine asks its tables only. -/
theorem Engine.lookup_of_memtable_nil {e : Engine} (h : e.memtable = []) (files : Directory)
    (key : String) : e.lookup files (.str key) = findIn files (.str key) e.tables.reverse := by
  have hmissing : e.memtable.get? (.str key) = none := by
    rw [h]
    rfl
  rw [lookup, show Record.checkHashable (.str key) = .ok () from rfl, Except.ok_bind, hmissing]

namespace World

/-- Closing an open engine leaves an empty memtable and an empty log, and tables that give every key
the value it had.  Whatever is asked of the engine afterwards, nothing changes: flushing and closing
succeed, and every other call is refused as one to a closed engine. -/
theorem close_inert {events : List Event} (haccepted : ∀ e ∈ events, e.IsAccepted)
    (hsize : Event.volume events < Sheet.capacity) {e : Engine}
    (hengine : (start.run events).engine = some e) (hopen : e.isClosed = false) (clock : Int) :
    let site : Site := { engine := e, files := (start.run events).files }
    ∃ after, Engine.close clock site = .ok () after ∧
      after.engine.memtable = [] ∧ after.files.read? Engine.logName = some [] ∧
      (∀ key, ∃ value, Engine.get (.str key) site = .ok value site ∧
        Engine.findIn after.files (.str key) after.engine.tables.reverse = .ok value) ∧
      ∀ calls, LateCall.outcomes calls after = calls.map fun call =>
        if call.needsOpen then .error (.store (.closed after.engine.directory)) after
        else .ok () after := by
  obtain ⟨s, c, hc, rfl, hon, hweight⟩ := exists_opened haccepted hsize hengine hopen
  obtain ⟨files, hclose, hflushed⟩ := Engine.close_shelf hc hon hweight clock
  have hlookup := s.lookup_flush (TableName.next (start.run events).files.names clock "")
    c.indexSample
  have hwrites := s.writes_flush (TableName.next (start.run events).files.names clock "")
    c.indexSample
  generalize s.flush _ _ = flushed at hclose hflushed hlookup hwrites
  have hmemtable : (flushed.engine c).memtable = [] := Engine.memtable_closedEngine hwrites c
  refine ⟨_, hclose, hmemtable, ?_, fun key => ?_, fun calls => ?_⟩
  · have hlog := hflushed.log
    rw [hwrites] at hlog
    exact hlog
  · have hanswer := Engine.lookup_shelf hflushed c key
    rw [Engine.lookup_of_memtable_nil hmemtable, hlookup] at hanswer
    exact ⟨_, Engine.get_shelf hon c key, hanswer⟩
  · exact LateCall.outcomes_of_isInert ⟨rfl, hmemtable⟩ calls

/-- A key of a table is written again, and another one for the first time, before the engine is
closed. -/
def unfinishedEvents : List Event :=
  [.start roomy, .put 1700000000000 "b" "1", .flush 1700000000000, .put 1700000000000 "b" "2",
    .putNew 1700000000000 "a" ""]

theorem run_unfinished :
    let engine := (start.run unfinishedEvents).engine
    engine.map Engine.isClosed = some false ∧
      (engine.map fun e => e.memtable.map fun r => r.1.text) = some ["b", "a"] := by
  decide +kernel

/-- A flush after the closing finds nothing, and a write after it is refused as one before it. -/
theorem close_inert_unfinished :
    ∃ e after, (start.run unfinishedEvents).engine = some e ∧ e.memtable.length = 2 ∧
      Engine.close 5 { engine := e, files := (start.run unfinishedEvents).files } = .ok () after ∧
      after.engine.memtable = [] ∧ after.files.read? Engine.logName = some [] ∧
      LateCall.outcomes [.put 6 (.str "c") (.str "3"), .flush 6, .get (.str "b"), .close 7] after
        = [.error (.store (.closed after.engine.directory)) after, .ok () after,
            .error (.store (.closed after.engine.directory)) after, .ok () after] := by
  obtain ⟨hclosed, hmemtable⟩ := run_unfinished
  obtain ⟨e, he⟩ : ∃ e, (start.run unfinishedEvents).engine = some e := by
    rw [← Option.isSome_iff_exists, ← Option.isSome_map, hclosed]
    rfl
  rw [he] at hclosed hmemtable
  have haccepted : ∀ e ∈ unfinishedEvents, e.IsAccepted := by
    intro e he
    simp only [unfinishedEvents, List.mem_cons, List.not_mem_nil, or_false] at he
    rcases he with rfl | rfl | rfl | rfl | rfl
    · exact Settings.isAccepted_of_le (by decide) (by decide) _ _
    all_goals exact trivial
  have hlength : e.memtable.length = 2 := by
    have := congrArg List.length (Option.some.inj hmemtable)
    rwa [List.length_map] at this
  obtain ⟨after, hclose, hempty, hlog, -, hinert⟩ := close_inert haccepted
    (Sheet.lt_capacity (by decide)) he (Option.some.inj hclosed) 5
  exact ⟨e, after, he, hlength, hclose, hempty, hlog, hinert _⟩

end World
end SchemaStore
