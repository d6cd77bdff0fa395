import SchemaStore.Proofs.Json.Endings
import SchemaStore.Proofs.Storage.Opening
import SchemaStore.Proofs.Storage.Recovery
import SchemaStore.Proofs.Text.Appended

/-!
Appending to logs that other hands wrote.  A log may hold blank lines, records of other operations
and records in any spacing, and its last line may lack its ending.  New records are put behind what
is there, so the first of them stands in one line with whatever follows the last line break.  If
these are blanks of JSON, or nothing, it reads as the record it is; behind anything else the two
together are no JSON text, and the log does not open any more.
-/

namespace SchemaStore

/-! ## Replaying what has been appended -/

/-- What memory holds when texts are written under text keys. -/
def Entries.setAll (memory : Entries) (writes : Pairs) : Entries :=
  writes.foldl (fun memory p => memory.insert (.str p.1) (.str p.2)) memory

namespace Entries

theorem length_insert_le (memory : Entries) (key value : Value) :
    (memory.insert key value).length ≤ memory.length + 1 := by
  induction memory with
  | nil => exact Nat.le_refl 1
  | cons record rest ih =>
    obtain ⟨k, v⟩ := record
    rw [insert]
    split
    · exact Nat.le_succ _
    · exact Nat.succ_le_succ ih

theorem length_setAll_le (memory : Entries) (writes : Pairs) :
    (memory.setAll writes).length ≤ memory.length + writes.length := by
  induction writes generalizing memory with
  | nil => exact Nat.le_refl _
  | cons p writes ih =>
    have hone := memory.length_insert_le (.str p.1) (.str p.2)
    have hrest := ih (memory.insert (.str p.1) (.str p.2))
    rw [List.length_cons]
    exact Nat.le_trans hrest (by omega)

end Entries

namespace Log

theorem replayLines_append (l : Log) (number : Nat) (memory : Entries) (a b : List (List Char)) :
    l.replayLines number memory (a ++ b) = (do
      let memory ← l.replayLines number memory a
      l.replayLines (number + a.length) memory b) := by
  induction a generalizing number memory with
  | nil => rfl
  | cons text a ih =>
    rw [List.cons_append, replayLines, replayLines]
    cases l.replayLine number memory text with
    | error e => rfl
    | ok memory =>
      rw [Except.ok_bind, Except.ok_bind, ih, List.length_cons,
        show number + (a.length + 1) = number + 1 + a.length by omega]

theorem replayLines_writes (l : Log) (number : Nat) (memory : Entries) (writes : Pairs) :
    l.replayLines number memory (writes.map writeText) = .ok (memory.setAll writes) := by
  induction writes generalizing number memory with
  | nil => rfl
  | cons p writes ih =>
    have hline : l.replayLine number memory (writeText p)
        = .ok (memory.insert (.str p.1) (.str p.2)) :=
      replayLine_of_readPlain l number memory (fields p).not_isBlank_objectText
        (Pairs.readPlain_objectText (nodup_keys_fields p))
    rw [List.map_cons, replayLines, hline, Except.ok_bind, ih]
    rfl

/-- Of the log and the number of a line only messages speak. -/
theorem replayLine_of_ok {l : Log} {number : Nat} {memory after : Entries} {text : List Char}
    (h : l.replayLine number memory text = .ok after) (again : Log) (other : Nat) :
    again.replayLine other memory text = .ok after := by
  rw [replayLine] at h ⊢
  split at h
  · next hblank => rw [if_pos hblank, h]
  · next hblank =>
    rw [if_neg hblank]
    cases hread : Json.readPlain text with
    | error fault =>
      rw [hread] at h
      cases h
    | ok record =>
      rw [hread] at h
      exact h

theorem replayLines_of_ok {l : Log} {number : Nat} {memory after : Entries}
    {texts : List (List Char)} (h : l.replayLines number memory texts = .ok after) (again : Log)
    (other : Nat) : again.replayLines other memory texts = .ok after := by
  induction texts generalizing number memory other with
  | nil => exact h
  | cons text texts ih =>
    rw [replayLines, Except.bind_eq_ok] at h
    obtain ⟨middle, hline, hrest⟩ := h
    rw [replayLines, replayLine_of_ok hline again other, Except.ok_bind]
    exact ih hrest (other + 1)

/-- A log to which records can be appended: behind its last line break stand JSON blanks at most. -/
def EndsLine (cs : List Char) : Prop := ∀ c ∈ (Text.splitLines cs).2, Json.isBlank c = true

instance (cs : List Char) : Decidable (EndsLine cs) :=
  decidable_of_iff ((Text.splitLines cs).2.all Json.isBlank = true) List.all_eq_true

theorem isBlank_of_json {c : Char} (h : Json.isBlank c = true) : Text.isBlank c = true := by
  simp only [Json.isBlank, Bool.or_eq_true, beq_iff_eq] at h
  rcases h with ((rfl | rfl) | rfl) | rfl <;> rfl

/-- The lines of a text, and what replaying them leaves when the text is accepted: what stands
behind the last line break comes last. -/
theorem replayLines_splitLines {l : Log} {cs : List Char} {memory : Entries}
    (h : l.replayLines 1 [] (Text.lines cs) = .ok memory) :
    ∃ before, l.replayLines 1 [] (Text.splitLines cs).1 = .ok before ∧
      l.replayLine (1 + (Text.splitLines cs).1.length) before (Text.splitLines cs).2
        = .ok memory := by
  have hlines : Text.lines cs = if (Text.splitLines cs).2.isEmpty then (Text.splitLines cs).1
      else (Text.splitLines cs).1 ++ [(Text.splitLines cs).2] := rfl
  rw [hlines] at h
  by_cases htail : (Text.splitLines cs).2 = []
  · rw [htail] at h ⊢
    exact ⟨memory, h, rfl⟩
  · simp only [List.isEmpty_eq_false_iff.mpr htail, Bool.false_eq_true, if_false,
      replayLines_append, Except.bind_eq_ok] at h
    obtain ⟨before, hbefore, h⟩ := h
    refine ⟨before, hbefore, ?_⟩
    simp only [replayLines, Except.bind_eq_ok] at h
    obtain ⟨after, hafter, h⟩ := h
    rw [hafter, h]

/-- The first record that is appended to an accepted log goes on with what stands behind the last
line break.  Behind blanks it is a record; behind anything else the two together are none. -/
theorem replayLine_tail {l : Log} {number : Nat} {before memory : Entries} {tail : List Char}
    (h : l.replayLine number before tail = .ok memory) (p : String × String) :
    l.replayLine number before (tail ++ writeText p)
      = if tail.all Json.isBlank then .ok (memory.insert (.str p.1) (.str p.2))
        else .error (.store (.corruptLog l.path number)) := by
  have hall : (tail ++ writeText p).all Text.isBlank = false := by
    rw [List.all_append, show (writeText p).all Text.isBlank = false from
      (fields p).not_isBlank_objectText, Bool.and_false]
  have hcorrupt : (∃ fault, Json.readPlain (tail ++ writeText p) = .error fault) →
      l.replayLine number before (tail ++ writeText p)
        = .error (.store (.corruptLog l.path number)) := by
    rintro ⟨fault, hfault⟩
    rw [replayLine, hall, hfault]
    rfl
  obtain ⟨rest, hrest⟩ := (fields p).exists_objectText_eq_cons
  by_cases hends : tail.all Json.isBlank = true
  · have hjson : ∀ c ∈ tail, Json.isBlank c = true := List.all_eq_true.mp hends
    have hread : Json.readPlain (tail ++ writeText p) = .ok (.dict (fields p).entries) := by
      refine Json.read_blanks_append hjson (Pairs.reads_objectText (nodup_keys_fields p)) ?_
      rw [writeText, hrest, List.head?_cons]
      decide
    have hblank : tail.all Text.isBlank = true :=
      List.all_eq_true.mpr fun c hc => isBlank_of_json (hjson c hc)
    rw [replayLine, hblank, if_pos rfl] at h
    rw [if_pos hends, ← Except.ok.inj h, replayLine_of_readPlain l number before hall hread]
  · have hjson : ¬∀ c ∈ tail, Json.isBlank c = true := fun h => hends (List.all_eq_true.mpr h)
    rw [if_neg hends]
    refine hcorrupt ?_
    by_cases hblank : tail.all Text.isBlank = true
    · -- The first character that is no blank of JSON starts no token.
      obtain ⟨blanks, c, more, htail, hblanks, hc⟩ : ∃ blanks c more, tail = blanks ++ c :: more ∧
          (∀ d ∈ blanks, Json.isBlank d = true) ∧ Json.isBlank c = false := by
        cases hfind : tail.find? fun c => !Json.isBlank c with
        | none =>
          exact absurd (fun c hc => by simpa using List.find?_eq_none.mp hfind c hc) hjson
        | some c =>
          obtain ⟨hc, blanks, more, htail, hblanks⟩ := List.find?_eq_some_iff_append.mp hfind
          exact ⟨blanks, c, more, htail, fun d hd => by simpa using hblanks d hd, by simpa using hc⟩
      have hspace : Text.isBlank c = true :=
        List.all_eq_true.mp hblank c (htail ▸ List.mem_append_right blanks List.mem_cons_self)
      rw [htail, List.append_assoc, List.cons_append]
      exact Json.exists_read_stray_eq_error hblanks hspace hc _
    · cases hread : Json.readPlain tail with
      | error fault =>
        rw [replayLine, if_neg hblank, hread] at h
        cases h
      | ok record =>
        rw [writeText, hrest]
        exact Json.exists_read_brace_eq_error (.inl rfl) hread rest

/-- Replaying an accepted log to which writes have been appended makes the writes, unless the first
of them stands in one line with something else. -/
theorem replay_appended {l : Log} {files after : Directory} {memory : Entries}
    (h : l.replay files = .ok memory) {cs : List Char}
    (hcs : Utf8.decodeFrom 0 (l.content files) = (cs, none)) {again : Log}
    (hopen : again.isClosed = false)
    {p : String × String} {writes : Pairs}
    (hcontent : again.content after = l.content files ++ Utf8.encode (textOf (p :: writes))) :
    again.replay after = if EndsLine cs then .ok (memory.setAll (p :: writes))
      else .error (.store (.corruptLog again.path (1 + (Text.splitLines cs).1.length))) := by
  have hvisible : ∀ text ∈ writeText p :: writes.map writeText, Text.IsVisible text := by
    intro text htext
    rcases List.mem_cons.mp htext with rfl | htext
    · exact isVisible_writeText p
    · obtain ⟨q, -, rfl⟩ := List.mem_map.mp htext
      exact isVisible_writeText q
  have hne : writeText p ≠ [] := by
    obtain ⟨rest, hrest⟩ := (fields p).exists_objectText_eq_cons
    rw [writeText, hrest]
    exact List.cons_ne_nil _ _
  have hdecode : Utf8.decodeFrom 0 (again.content after) = (cs ++ textOf (p :: writes), none) := by
    rw [hcontent, Utf8.decodeFrom_append hcs, textOf, List.map_cons,
      Utf8.decodeFrom_encode (Text.isAscii_joined hvisible)]
  obtain ⟨-, cs', hcs', hlines⟩ := exists_text_of_replay h
  obtain rfl : cs' = cs := (Prod.mk.inj (hcs'.symm.trans hcs)).1
  obtain ⟨before, hbefore, htail⟩ := replayLines_splitLines hlines
  rw [replay_of_decodes hopen hdecode, textOf, List.map_cons,
    Text.lines_append_joined hvisible hne, replayLines_append,
    replayLines_of_ok hbefore again 1, Except.ok_bind, replayLines,
    replayLine_tail (replayLine_of_ok htail again _) p]
  by_cases hends : EndsLine cs'
  · rw [if_pos (List.all_eq_true.mpr hends), if_pos hends, Except.ok_bind, replayLines_writes]
    rfl
  · rw [if_neg fun h => hends (List.all_eq_true.mp h), if_neg hends]
    rfl

theorem textOf_cons (p : String × String) (writes : Pairs) :
    textOf (p :: writes) = writeText p ++ '\n' :: textOf writes :=
  Text.joined_cons _ _

end Log

namespace Engine

/-! ## Writing below the limit -/

/-- Writes texts under text keys, one after the other, each at a reading of the clock. -/
def putAll (puts : List (Int × String × String)) : Action Unit :=
  puts.forM fun p => put p.1 (.str p.2.1) (.str p.2.2)

/-- An open engine whose log is in its place. -/
structure IsReady (e : Engine) : Prop where
  isOpen : e.isClosed = false
  logIsOpen : e.log.isClosed = false
  attached : e.log.orphan = none
  name : e.log.name = logName

theorem put_below_limit {e : Engine} (he : e.IsReady) {files : Directory} {held : Utf8.Bytes}
    (hheld : files.read? logName = some held) (clock : Int) {p : String × String}
    (hlimit : e.settings.isFull (e.memtable.insert (.str p.1) (.str p.2)).length = false) :
    put clock (.str p.1) (.str p.2) { engine := e, files := files }
      = .ok () { engine := { e with memtable := e.memtable.insert (.str p.1) (.str p.2) }
                 files := files.write logName
                   (held ++ Utf8.encode (Log.writeText p ++ ['\n'])) } := by
  have happend : e.log.append files (.str p.1) (.str p.2)
      = .ok (e.log, files.write logName (held ++ Utf8.encode (Log.writeText p ++ ['\n']))) := by
    rw [Log.append, Log.line_texts p, Failure.lift_ok, Except.ok_bind, Log.checkOpen, he.logIsOpen,
      Log.content, Log.setContent, he.attached, he.name, hheld]
    rfl
  rw [put, checkOpen_bind _ he.isOpen, site_bind, happend, ofResult_bind, setLog_bind]
  show (if e.settings.isFull (e.memtable.insert (.str p.1) (.str p.2)).length then flush clock
    else pure ()) _ = _
  rw [hlimit]
  rfl

/-- Puts that stay below the limit go to the end of the log and into memory. -/
theorem putAll_below_limit {e : Engine} (he : e.IsReady) {files : Directory} {held : Utf8.Bytes}
    (hheld : files.read? logName = some held) {puts : List (Int × String × String)}
    (hlimit : ∀ first, first <+: puts → first ≠ [] →
      e.settings.isFull (e.memtable.setAll (first.map Prod.snd)).length = false) :
    putAll puts { engine := e, files := files }
      = .ok () { engine := { e with memtable := e.memtable.setAll (puts.map Prod.snd) }
                 files := files.write logName
                   (held ++ Utf8.encode (Log.textOf (puts.map Prod.snd))) } := by
  induction puts generalizing e files held with
  | nil =>
    have hsame : files.write logName (held ++ Utf8.encode (Log.textOf [])) = files := by
      rw [show Utf8.encode (Log.textOf []) = [] from rfl, List.append_nil,
        Directory.write_of_read? hheld]
    rw [List.map_nil, hsame]
    rfl
  | cons put puts ih =>
    obtain ⟨clock, p⟩ := put
    have hput := put_below_limit he hheld clock
      (hlimit [(clock, p)] (List.cons_prefix_cons.mpr ⟨rfl, List.nil_prefix⟩)
        (List.cons_ne_nil _ _))
    have hrest := ih (e := { e with memtable := e.memtable.insert (.str p.1) (.str p.2) })
      ⟨he.isOpen, he.logIsOpen, he.attached, he.name⟩
      (Directory.read?_write_self files logName (held ++ Utf8.encode (Log.writeText p ++ ['\n'])))
      fun first hfirst _ => hlimit ((clock, p) :: first) (List.cons_prefix_cons.mpr ⟨rfl, hfirst⟩)
        (List.cons_ne_nil _ _)
    have hsteps : putAll ((clock, p) :: puts) { engine := e, files := files }
        = (Engine.put clock (.str p.1) (.str p.2) >>= fun _ => putAll puts)
          { engine := e, files := files } := rfl
    rw [hsteps, bind_of_ok hput, hrest, Directory.write_write, List.append_assoc,
      ← Utf8.encode_append, List.map_cons, Log.textOf_cons, List.append_assoc]
    rfl

/-! ## Engines on such logs -/

theorem isReady_of_openAt {c : Settings} {files opened : Directory} {e : Engine}
    (h : openAt c files = (.ok e, opened)) : e.IsReady := by
  obtain ⟨-, _, _, -, -, rfl⟩ := openAt_eq_ok_iff.mp h
  exact ⟨rfl, rfl, rfl, rfl⟩

/-- What opening comes to after writes have been appended to the log of files that open.  Where
there was no place for them, the first one makes its line unreadable. -/
theorem openAt_appended {c : Settings} {files opened : Directory} {e : Engine}
    (hopen : openAt c files = (.ok e, opened)) (d : Settings) (writes : Pairs) {after : Directory}
    (hafter : after = opened.write logName
      ((files.read? logName).getD [] ++ Utf8.encode (Log.textOf writes))) :
    (writes = [] ∨ Log.EndsLine files.logText →
        ∃ again, openAt d after = (.ok again, after) ∧ again.memtable = e.memtable.setAll writes) ∧
      (writes ≠ [] → ¬Log.EndsLine files.logText →
        openAt d after = (.error (.store (.corruptLog (d.dataDir.child logName)
          (1 + (Text.splitLines files.logText).1.length))), after)) := by
  have hreopen : ∀ {memory}, (openedLog d.dataDir).replay after = .ok memory →
      ∃ again, openAt d after = (.ok again, after) ∧ again.memtable = memory := by
    intro memory hmemory
    rw [hafter] at hmemory ⊢
    exact exists_openAt_write_log hopen d hmemory
  have hread : after.read? logName
      = some ((files.read? logName).getD [] ++ Utf8.encode (Log.textOf writes)) := by
    rw [hafter, Directory.read?_write_self]
  have hcontent : (openedLog c.dataDir).content opened = (files.read? logName).getD [] := by
    rw [content_openedLog, read?_logName_of_openAt hopen, Option.getD_some]
  have hcontent' : (openedLog d.dataDir).content after
      = (openedLog c.dataDir).content opened ++ Utf8.encode (Log.textOf writes) := by
    rw [content_openedLog, hread, hcontent, Option.getD_some]
  obtain ⟨-, memtable, tables, hreplay, -, rfl⟩ := openAt_eq_ok_iff.mp hopen
  obtain ⟨-, cs, hcs, hlines⟩ := Log.exists_text_of_replay hreplay
  have htext : files.logText = cs := by
    rw [Directory.logText, ← hcontent, hcs]
  rw [htext]
  cases writes with
  | nil =>
    have hsame : (openedLog d.dataDir).content after = (openedLog c.dataDir).content opened :=
      hcontent'.trans (List.append_nil _)
    refine ⟨fun _ => hreopen ?_, fun hne => absurd rfl hne⟩
    rw [Log.replay_of_decodes rfl (hsame ▸ hcs)]
    exact Log.replayLines_of_ok hlines _ 1
  | cons p writes =>
    have hopened : (openedLog d.dataDir).isClosed = false := rfl
    have hagain := Log.replay_appended hreplay hcs hopened hcontent'
    constructor
    · intro hends
      rw [if_pos (hends.resolve_left (List.cons_ne_nil p writes))] at hagain
      exact hreopen hagain
    · intro _ hends
      have htouch : after.touch logName = after := Directory.touch_of_read? hread
      rw [if_neg hends, ← htouch] at hagain
      rw [openAt_of_corruptLog hagain, htouch]
      rfl

/-- Where the limit is not reached, an engine that has been opened takes any texts.  When it is
opened again, it has them all if there was a place for them in the log, and otherwise it does not
open any more. -/
theorem reopen_after_puts {c : Settings} {files opened : Directory} {e : Engine}
    (hopen : openAt c files = (.ok e, opened)) {puts : List (Int × String × String)}
    (hlimit : ∀ first, first <+: puts → first ≠ [] →
      c.isFull (e.memtable.setAll (first.map Prod.snd)).length = false) (d : Settings) :
    ∃ after, putAll puts { engine := e, files := opened } = .ok () after ∧
      (puts = [] ∨ Log.EndsLine files.logText →
        ∃ again, openAt d after.files = (.ok again, after.files) ∧
          again.memtable = e.memtable.setAll (puts.map Prod.snd)) ∧
      (puts ≠ [] → ¬Log.EndsLine files.logText →
        openAt d after.files
          = (.error (.store (.corruptLog (d.dataDir.child logName)
              (1 + (Text.splitLines files.logText).1.length))), after.files)) := by
  have hsettings := settings_of_openAt hopen
  have hputs := putAll_below_limit (isReady_of_openAt hopen) (read?_logName_of_openAt hopen)
    fun first hfirst hne => hsettings ▸ hlimit first hfirst hne
  refine ⟨_, hputs, ?_⟩
  have hagain := openAt_appended hopen d (puts.map Prod.snd) rfl
  simpa only [ne_eq, List.map_eq_nil_iff] using hagain

/-- A log that another hand wrote: a blank line, a record of another operation, a record in its own
spacing, and blanks behind the last line break. -/
def handmadeFiles : Directory :=
  [(logName, Utf8.encode
    "\n\x7b\"op\": \"noop\"\x7d\r\n \x7b \"value\" : \"1\",\"op\":\"put\", \"key\":\"a\" \x7d \n \t".toList)]

def handmadePuts : List (Int × String × String) := [(5, "b", "2"), (6, "a", "3")]

/-- A log whose only record lacks its line ending. -/
def unendedFiles : Directory := [(logName, Utf8.encode (Log.writeText ("a", "1")))]

/-- Puts that are fewer than what the limit leaves do not reach it. -/
theorem isFull_setAll_of_lt {c : Settings} {limit : Int} (hlimit : c.memtableLimit = .int limit)
    {memory : Entries} {puts : List (Int × String × String)}
    (hlt : ((memory.length + puts.length : Nat) : Int) < limit) :
    ∀ first, first <+: puts → first ≠ [] →
      c.isFull (memory.setAll (first.map Prod.snd)).length = false := by
  intro first hfirst _
  have hlength := memory.length_setAll_le (first.map Prod.snd)
  have hle := hfirst.length_le
  rw [List.length_map] at hlength
  exact (Settings.isFull_eq_false_iff hlimit _).mpr (by omega)

theorem openAt_handmade :
    ((openAt World.roomy handmadeFiles).1.toOption.map fun e => e.memtable.length) = some 1 ∧
      Log.EndsLine handmadeFiles.logText := by
  decide +kernel

theorem reopen_after_puts_handmade :
    ∃ e opened, openAt World.roomy handmadeFiles = (.ok e, opened) ∧
      (∀ first, first <+: handmadePuts → first ≠ [] →
        World.roomy.isFull (e.memtable.setAll (first.map Prod.snd)).length = false) ∧
      ∃ after again, putAll handmadePuts { engine := e, files := opened }
          = .ok () after ∧
        openAt World.roomy after.files = (.ok again, after.files) ∧
        again.memtable = e.memtable.setAll (handmadePuts.map Prod.snd) := by
  obtain ⟨hlength, hends⟩ := openAt_handmade
  rcases hopen : openAt World.roomy handmadeFiles with ⟨result, opened⟩
  rw [hopen] at hlength
  cases result with
  | error f => cases hlength
  | ok e =>
    have hone : e.memtable.length = 1 := Option.some.inj hlength
    have hlt : ((e.memtable.length + handmadePuts.length : Nat) : Int) < 100 := by
      rw [hone]
      decide
    have hlimit := isFull_setAll_of_lt (c := World.roomy) rfl hlt
    obtain ⟨after, hputs, hagain, -⟩ := reopen_after_puts hopen hlimit World.roomy
    obtain ⟨again, hagain, hmemory⟩ := hagain (.inr hends)
    exact ⟨e, opened, rfl, hlimit, after, again, hputs, hagain, hmemory⟩

theorem openAt_unended :
    ((openAt World.roomy unendedFiles).1.toOption.map fun e => e.memtable.length) = some 1 ∧
      ¬Log.EndsLine unendedFiles.logText ∧ (Text.splitLines unendedFiles.logText).1 = [] := by
  decide +kernel

/-- The engine opens, a put below the limit succeeds, and the engine does not open any more. -/
theorem reopen_after_puts_unended :
    ∃ e opened after, openAt World.roomy unendedFiles = (.ok e, opened) ∧
      World.roomy.isFull (e.memtable.setAll [("b", "2")]).length = false ∧
      putAll [(5, "b", "2")] { engine := e, files := opened } = .ok () after ∧
      openAt World.roomy after.files
        = (.error (.store (.corruptLog (World.roomy.dataDir.child logName) 1)), after.files) := by
  obtain ⟨hlength, hends, hlines⟩ := openAt_unended
  rcases hopen : openAt World.roomy unendedFiles with ⟨result, opened⟩
  rw [hopen] at hlength
  cases result with
  | error f => cases hlength
  | ok e =>
    have hone : e.memtable.length = 1 := Option.some.inj hlength
    have hlt : ((e.memtable.length + [((5 : Int), "b", "2")].length : Nat) : Int) < 100 := by
      rw [hone]
      decide
    have hlimit := isFull_setAll_of_lt (c := World.roomy) rfl hlt
    have hsettings := settings_of_openAt hopen
    have hputs := putAll_below_limit (isReady_of_openAt hopen) (read?_logName_of_openAt hopen)
      fun first hfirst hne => hsettings ▸ hlimit first hfirst hne
    have hagain := (openAt_appended hopen World.roomy [("b", "2")] rfl).2 (List.cons_ne_nil _ _)
      hends
    rw [hlines] at hagain
    exact ⟨e, opened, _, rfl, hlimit _ (List.prefix_refl _) (List.cons_ne_nil _ _), hputs, hagain⟩

end Engine
end SchemaStore
