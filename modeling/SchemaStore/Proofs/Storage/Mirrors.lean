import SchemaStore.Proofs.Storage.Opening
import SchemaStore.Proofs.Storage.Worlds

/-!
The log and the memtable.  A write is appended to the log before it is made in memory, and the log
is emptied only together with the memtable.  So the log mirrors the memtable, whatever is done and
wherever it fails: a table that cannot be written or read changes neither of them.  No bound on
what is held is needed for this.
-/

namespace SchemaStore

theorem Pairs.ofWrites_eq_nil_iff {writes : Pairs} : ofWrites writes = [] ↔ writes = [] := by
  constructor
  · intro h
    rcases List.eq_nil_or_concat writes with hwrites | ⟨rest, p, rfl⟩
    · exact hwrites
    · rw [List.concat_eq_append, ofWrites_concat] at h
      exact absurd h (set_ne_nil _ _ _)
  · rintro rfl
    rfl

theorem Log.encode_textOf_eq_nil_iff {writes : Pairs} :
    Utf8.encode (textOf writes) = [] ↔ writes = [] := by
  have hascii : Utf8.IsAscii (textOf writes) := by
    refine Text.isAscii_joined fun l hl => ?_
    obtain ⟨p, -, rfl⟩ := List.mem_map.mp hl
    exact isVisible_writeText p
  rw [← List.length_eq_zero_iff, Utf8.length_encode hascii, List.length_eq_zero_iff]
  cases writes with
  | nil => exact ⟨fun _ => rfl, fun _ => rfl⟩
  | cons p rest =>
    rw [textOf, List.map_cons, Text.joined_cons]
    simp

/-! ## What writing a table leaves as it was -/

namespace Table

/-- Writing a table touches its data and its index only, however it ends. -/
theorem write_cases (directory : Path) (name : String) (items : List (Value × Value))
    (sample : Value) (files : Directory) :
    (∃ e, write directory name items sample files = (.error e, files)) ∨
      (∃ e data, write directory name items sample files = (.error e, files.write name data)) ∨
      ∃ result data index,
        write directory name items sample files
            = (result, (files.write name data).write (indexName name) index) ∧
          ∀ t, result = .ok t → t.name = name := by
  rw [write]
  split
  · exact .inl ⟨_, rfl⟩
  · next sorted _ =>
    refine .inr ?_
    generalize writeRecords sample 0 { text := [], index := [] } sorted = outcome
    obtain ⟨draft, failure⟩ := outcome
    cases failure with
    | some e => exact .inl ⟨e, _, rfl⟩
    | none =>
      generalize hwritten : indexText draft.index = written
      obtain ⟨text, fault⟩ := written
      cases fault with
      | some fault =>
        refine .inr ⟨.error (.unwritable fault), Utf8.encode draft.text, Utf8.encode text, ?_, ?_⟩
        · simp only [hwritten]
        · intro t ht
          cases ht
      | none =>
        refine .inr ⟨load directory name ((files.write name (Utf8.encode draft.text)).write
          (indexName name) (Utf8.encode text)), Utf8.encode draft.text, Utf8.encode text, ?_,
          fun t ht => name_of_load ht⟩
        simp only [hwritten]

end Table

/-! ## Engines -/

/-- The log in the directory of an engine holds writes, and the memtable is what they leave. -/
structure Site.Mirrors (site : Site) (writes : Pairs) : Prop where
  held : site.files.read? Engine.logName = some (Utf8.encode (Log.textOf writes))
  memtable : site.engine.memtable = (Pairs.ofWrites writes).entries
  name : site.engine.log.name = Engine.logName
  attached : site.engine.log.orphan = none
  /-- No table has the name of the log. -/
  tables : ∀ t ∈ site.engine.tables, TableName.isTable t.name = true
  accepted : site.engine.settings.IsAccepted

namespace Engine

variable {site : Site} {writes : Pairs}

/-- A table is written or it is not; the engine and the log are as they were. -/
theorem writeTable_cases (clock : Int) (suffix : String) (items : List (Value × Value))
    (site : Site) :
    ∃ files : Directory, files.read? logName = site.files.read? logName ∧
      ((∃ t, TableName.isTable t.name = true ∧
          writeTable clock suffix items site = .ok t { site with files := files }) ∨
        ∃ e, writeTable clock suffix items site = .error e { site with files := files }) := by
  have htable := TableName.isTable_next site.files.names clock suffix
  have hwrite : writeTable clock suffix items site
      = ofResult (Table.write site.engine.directory (TableName.next site.files.names clock suffix)
          items site.engine.settings.indexSample site.files).1
        { site with
            files := (Table.write site.engine.directory
              (TableName.next site.files.names clock suffix) items
              site.engine.settings.indexSample site.files).2 } := by
    rw [writeTable, site_bind]
    rfl
  rw [hwrite]
  generalize TableName.next site.files.names clock suffix = name at htable
  have hdata : logName ≠ name := (TableName.ne_logName htable).symm
  have hfirst : ∀ content, (site.files.write name content).read? logName
      = site.files.read? logName :=
    fun content => Directory.read?_write_of_ne _ content hdata
  have hsecond : ∀ data content,
      ((site.files.write name data).write (Table.indexName name) content).read? logName
        = site.files.read? logName :=
    fun data content => (Directory.read?_write_of_ne _ content
      (TableName.indexName_ne_logName htable).symm).trans (hfirst data)
  rcases Table.write_cases site.engine.directory name items site.engine.settings.indexSample
    site.files with ⟨e, hwrite⟩ | ⟨e, data, hwrite⟩ | ⟨result, data, index, hwrite, hname⟩
  · rw [hwrite]
    exact ⟨_, rfl, .inr ⟨e, rfl⟩⟩
  · rw [hwrite]
    exact ⟨_, hfirst data, .inr ⟨e, rfl⟩⟩
  · rw [hwrite]
    refine ⟨_, hsecond data index, ?_⟩
    cases result with
    | ok t => exact .inl ⟨t, (hname t rfl).symm ▸ htable, rfl⟩
    | error e => exact .inr ⟨e, rfl⟩

end Engine

namespace Site.Mirrors

variable {site : Site} {writes : Pairs}

/-- Whatever changes neither the log nor the memtable leaves them in step. -/
theorem congr (h : site.Mirrors writes) {after : Site}
    (hread : after.files.read? Engine.logName = site.files.read? Engine.logName)
    (hmemtable : after.engine.memtable = site.engine.memtable)
    (hname : after.engine.log.name = site.engine.log.name)
    (horphan : after.engine.log.orphan = site.engine.log.orphan)
    (htables : ∀ t ∈ after.engine.tables, TableName.isTable t.name = true)
    (hsettings : after.engine.settings = site.engine.settings) :
    after.Mirrors writes where
  held := hread.trans h.held
  memtable := hmemtable.trans h.memtable
  name := hname.trans h.name
  attached := horphan.trans h.attached
  tables := htables
  accepted := hsettings ▸ h.accepted

theorem content (h : site.Mirrors writes) :
    site.engine.log.content site.files = Utf8.encode (Log.textOf writes) := by
  rw [Log.content, h.attached, h.name, h.held]
  rfl

theorem setContent (h : site.Mirrors writes) (held : Utf8.Bytes) :
    site.engine.log.setContent site.files held
      = (site.engine.log, site.files.write Engine.logName held) := by
  rw [Log.setContent, h.attached, h.name]

end Site.Mirrors

namespace Engine

variable {site : Site} {writes : Pairs}

/-- A flush empties log and memtable, or it fails and leaves both. -/
theorem flush_cases (h : site.Mirrors writes) (clock : Int) :
    (∃ after, flush clock site = .ok () after ∧ after.Mirrors []) ∨
      ∃ e after, flush clock site = .error e after ∧ after.Mirrors writes := by
  by_cases hempty : site.engine.memtable = []
  · have hmemory := h.memtable
    rw [hempty] at hmemory
    obtain rfl := Pairs.ofWrites_eq_nil_iff.mp (List.map_eq_nil_iff.mp hmemory.symm)
    exact .inl ⟨site, flush_of_memtable_nil hempty clock, h⟩
  · have hfull : (!site.engine.memtable.isEmpty) = true := by
      rw [Bool.not_eq_true', List.isEmpty_eq_false_iff]
      exact hempty
    have hflush : flush clock site
        = (writeTable clock "" site.engine.memtable >>= fun table => do
            modifyEngine fun e => { e with tables := e.tables ++ [table] }
            let site ← MonadState.get
            let emptied ← ofResult (site.engine.log.reset site.files)
            setLog emptied
            modifyEngine fun e => { e with memtable := [] }) site := by
      rw [flush, site_bind]
      exact congrFun (if_pos hfull) site
    obtain ⟨files, hread, ⟨t, htable, hwrite⟩ | ⟨e, hwrite⟩⟩ :=
      writeTable_cases clock "" site.engine.memtable site
    · -- The table is written; the log may still refuse to be emptied.
      have hwritten : Site.Mirrors { engine := { site.engine with tables := site.engine.tables ++ [t] }
                                     files := files } writes := by
        refine h.congr hread rfl rfl rfl (fun u hu => ?_) rfl
        rcases List.mem_append.mp hu with hu | hu
        · exact h.tables u hu
        · rw [List.mem_singleton.mp hu]
          exact htable
      generalize hengine : { site.engine with tables := site.engine.tables ++ [t] } = engine
        at hwritten
      have hreset : flush clock site
          = (ofResult (engine.log.reset files) >>= fun emptied => do
              setLog emptied
              modifyEngine fun e => { e with memtable := [] })
            { engine := engine, files := files } := by
        rw [hflush, bind_of_ok hwrite, ← hengine]
        rfl
      cases hopen : engine.log.isClosed with
      | true =>
        refine .inr ⟨.badValue .logIsClosed, { engine := engine, files := files }, ?_, hwritten⟩
        rw [hreset, Log.reset, Log.checkOpen, hopen]
        rfl
      | false =>
        refine .inl ⟨{ engine := { engine with memtable := [] }
                       files := files.write logName [] }, ?_, ?_⟩
        · have hcontent : engine.log.setContent files []
              = (engine.log, files.write logName []) := hwritten.setContent []
          rw [hreset, Log.reset, Log.checkOpen, hopen, hcontent]
          rfl
        · exact ⟨Directory.read?_write_self _ _ _, rfl, hwritten.name, hwritten.attached,
            hwritten.tables, hwritten.accepted⟩
    · refine .inr ⟨e, { site with files := files }, ?_, h.congr hread rfl rfl rfl h.tables rfl⟩
      rw [hflush]
      exact bind_of_error hwrite

/-- A write that is refused changes nothing.  One that is not refused is in the log and in memory,
and all that is left of it is to flush the memtable if it is full. -/
theorem put_cases (h : site.Mirrors writes) (clock : Int) (key value : String) :
    (∃ e, put clock (.str key) (.str value) site = .error e site) ∨
      ∃ written : Site, written.Mirrors (writes ++ [(key, value)]) ∧
        put clock (.str key) (.str value) site
          = (if site.engine.settings.isFull written.engine.memtable.length then flush clock
              else pure ()) written := by
  cases hclosed : site.engine.isClosed with
  | true => exact .inl ⟨_, put_closed hclosed clock (.str key) (.str value)⟩
  | false =>
    have happend : site.engine.log.append site.files (.str key) (.str value)
        = (do
            site.engine.log.checkOpen
            Except.ok (site.engine.log, site.files.write logName
              (Utf8.encode (Log.textOf (writes ++ [(key, value)]))))) := by
      rw [Log.append, Log.line_texts (key, value), h.content, Failure.lift_ok, Except.ok_bind,
        h.setContent, Log.encode_textOf_concat]
    cases hlog : site.engine.log.isClosed with
    | true =>
      refine .inl ⟨.badValue .logIsClosed, ?_⟩
      rw [put, checkOpen_bind _ hclosed, site_bind, happend, Log.checkOpen, hlog]
      rfl
    | false =>
      refine .inr ⟨{ engine := { site.engine with
                        memtable := site.engine.memtable.insert (.str key) (.str value) }
                     files := site.files.write logName
                        (Utf8.encode (Log.textOf (writes ++ [(key, value)]))) }, ?_, ?_⟩
      · refine ⟨Directory.read?_write_self _ _ _, ?_, h.name, h.attached, h.tables, h.accepted⟩
        show site.engine.memtable.insert (.str key) (.str value) = _
        rw [h.memtable, Pairs.insert_entries, Pairs.ofWrites_concat]
      · rw [put, checkOpen_bind _ hclosed, site_bind, happend, Log.checkOpen, hlog]
        rfl

/-- The memtable is below its limit after a put: where it is full, it is flushed. -/
theorem isFull_of_put (h : site.Mirrors writes) {clock : Int} {key value : String} {after : Site}
    (hput : put clock (.str key) (.str value) site = .ok () after) :
    site.engine.settings.isFull after.engine.memtable.length = false := by
  obtain ⟨e, herror⟩ | ⟨written, hwritten, hrest⟩ := put_cases h clock key value
  · rw [herror] at hput
    cases hput
  · rw [hrest] at hput
    split at hput
    · obtain ⟨flushed, hflush, hflushed⟩ | ⟨e, left, hflush, -⟩ := flush_cases hwritten clock
      · rw [hflush] at hput
        cases hput
        rw [hflushed.memtable]
        exact h.accepted.isFull_zero
      · rw [hflush] at hput
        cases hput
    · next hfull =>
      cases hput
      exact eq_false_of_ne_true hfull

/-! ## Every operation -/

/-- After the action the log mirrors the memtable if it did so before, also where the action
fails. -/
def StaysMirrored {α : Type} (action : Action α) : Prop :=
  ∀ {site : Site} {writes : Pairs}, site.Mirrors writes → ∃ left, (action site).left.Mirrors left

theorem StaysMirrored.bind {α β : Type} {first : Action α} {next : α → Action β}
    (hfirst : StaysMirrored first) (hnext : ∀ a, StaysMirrored (next a)) :
    StaysMirrored (first >>= next) := by
  intro site writes h
  obtain ⟨middle, hmiddle⟩ := hfirst h
  cases houtcome : first site with
  | ok a after =>
    rw [houtcome] at hmiddle
    rw [bind_of_ok houtcome]
    exact hnext a hmiddle
  | error e after =>
    rw [houtcome] at hmiddle
    rw [bind_of_error houtcome]
    exact ⟨middle, hmiddle⟩

theorem staysMirrored_pure {α : Type} (a : α) : StaysMirrored (pure a) := fun h => ⟨_, h⟩

theorem staysMirrored_flush (clock : Int) : StaysMirrored (flush clock) := by
  intro site writes h
  obtain ⟨after, hflush, hafter⟩ | ⟨e, after, hflush, hafter⟩ := flush_cases h clock
  all_goals
    rw [hflush]
    exact ⟨_, hafter⟩

theorem staysMirrored_put (clock : Int) (key value : String) :
    StaysMirrored (put clock (.str key) (.str value)) := by
  intro site writes h
  obtain ⟨e, herror⟩ | ⟨written, hwritten, hrest⟩ := put_cases h clock key value
  · rw [herror]
    exact ⟨writes, h⟩
  · rw [hrest]
    split
    · exact staysMirrored_flush clock hwritten
    · exact ⟨_, hwritten⟩

theorem get_cases (key : Value) (site : Site) :
    (∃ v, get key site = .ok v site) ∨ ∃ e, get key site = .error e site := by
  cases hclosed : site.engine.isClosed with
  | true => exact .inr ⟨_, get_closed hclosed key⟩
  | false =>
    have hget : get key site = ofResult (site.engine.lookup site.files key) site := by
      rw [get, checkOpen_bind _ hclosed]
      rfl
    rw [hget]
    cases site.engine.lookup site.files key with
    | ok v => exact .inl ⟨v, rfl⟩
    | error e => exact .inr ⟨e, rfl⟩

/-- A write under a condition is a put, or it changes nothing. -/
theorem putNew_cases (clock : Int) (key value : Value) (site : Site) :
    putNew clock key value site = .ok false site ∨
      (∃ e, putNew clock key value site = .error e site) ∨
      putNew clock key value site = (put clock key value >>= fun _ => pure true) site := by
  obtain ⟨v, hget⟩ | ⟨e, hget⟩ := get_cases key site
  · cases v with
    | null => exact .inr (.inr (bind_of_ok hget))
    | _ => exact .inl (bind_of_ok hget)
  · exact .inr (.inl ⟨e, bind_of_error hget⟩)

theorem put_of_putNew {clock : Int} {key value : Value} {site after : Site}
    (h : putNew clock key value site = .ok true after) :
    put clock key value site = .ok () after := by
  obtain hput | ⟨e, hput⟩ | hput := putNew_cases clock key value site
  · rw [hput] at h
    cases h
  · rw [hput] at h
    cases h
  · rw [hput] at h
    cases houtcome : put clock key value site with
    | ok a left =>
      rw [bind_of_ok houtcome] at h
      cases h
      rfl
    | error e left =>
      rw [bind_of_error houtcome] at h
      cases h

theorem staysMirrored_putNew (clock : Int) (key value : String) :
    StaysMirrored (putNew clock (.str key) (.str value)) := by
  intro site writes h
  obtain hput | ⟨e, hput⟩ | hput := putNew_cases clock (.str key) (.str value) site
  · rw [hput]
    exact ⟨writes, h⟩
  · rw [hput]
    exact ⟨writes, h⟩
  · rw [hput]
    exact StaysMirrored.bind (staysMirrored_put clock key value) (fun _ => staysMirrored_pure true) h

/-- The files of tables are not the log. -/
theorem read?_logName_remove {tables : List Table}
    (h : ∀ t ∈ tables, TableName.isTable t.name = true) (files : Directory) :
    (tables.foldl (fun files t => t.remove files) files).read? logName = files.read? logName := by
  rw [Table.foldl_remove, Directory.read?_removeAll, if_neg]
  intro hmem
  obtain ⟨t, ht, hname⟩ := List.mem_flatMap.mp hmem
  simp only [Table.fileNames, List.mem_cons, List.not_mem_nil, or_false] at hname
  rcases hname with hname | hname
  · exact TableName.ne_logName (h t ht) hname.symm
  · exact TableName.indexName_ne_logName (h t ht) hname.symm

theorem staysMirrored_compact (clock : Int) : StaysMirrored (compact clock) := by
  intro site writes h
  refine ⟨writes, ?_⟩
  cases hclosed : site.engine.isClosed with
  | true =>
    rw [compact_closed hclosed]
    exact h
  | false =>
    by_cases hmany : 2 ≤ site.engine.tables.length
    · rw [compact_eq_writeMerged clock hclosed hmany]
      have hmerge : writeMerged clock site
          = (ofResult (mergeTables site.files [] site.engine.tables.reverse) >>= fun merged =>
              writeTable clock TableName.compactedSuffix merged) site := by
        rw [writeMerged, site_bind]
      cases hmerged : mergeTables site.files [] site.engine.tables.reverse with
      | error e =>
        -- Nothing has been written when a table turns out to be unreadable.
        have hfailed : writeMerged clock site = .error e site := by
          rw [hmerge, hmerged]
          rfl
        rw [bind_of_error hfailed]
        exact h
      | ok merged =>
        rw [hmerged, ofResult_bind] at hmerge
        obtain ⟨files, hread, ⟨t, htable, hwrite⟩ | ⟨e, hwrite⟩⟩ :=
          writeTable_cases clock TableName.compactedSuffix merged site
        · rw [bind_of_ok (hmerge.trans hwrite)]
          refine h.congr ((read?_logName_remove h.tables files).trans hread) rfl rfl rfl ?_ rfl
          intro u hu
          rw [List.mem_singleton.mp hu]
          exact htable
        · rw [bind_of_error (hmerge.trans hwrite)]
          exact h.congr hread rfl rfl rfl h.tables rfl
    · have hcompact : compact clock site = .ok () site := by
        rw [compact, checkOpen_bind _ hclosed]
        exact congrFun (if_neg hmany) site
      rw [hcompact]
      exact h

theorem staysMirrored_close (clock : Int) : StaysMirrored (close clock) := by
  intro site writes h
  cases hclosed : site.engine.isClosed with
  | true =>
    rw [close_closed hclosed]
    exact ⟨writes, h⟩
  | false =>
    have hclose : close clock site
        = (flush clock >>= fun _ =>
            modifyEngine fun e => { e with log := e.log.close, isClosed := true }) site := by
      rw [close]
      refine congrFun (if_pos ?_) site
      rw [hclosed]
      rfl
    rw [hclose]
    have hmark : StaysMirrored
        (modifyEngine fun e => { e with log := e.log.close, isClosed := true }) :=
      fun hflushed => ⟨_, hflushed.congr rfl rfl rfl rfl hflushed.tables rfl⟩
    exact StaysMirrored.bind (staysMirrored_flush clock) (fun _ => hmark) h

/-! ## Opening -/

/-- Opening replays the log; a table that cannot be opened is all that can go wrong. -/
theorem openAt_mirrors {files : Directory} {writes : Pairs}
    (h : (files.touch logName).read? logName = some (Utf8.encode (Log.textOf writes)))
    {c : Settings} (hc : c.IsAccepted) {e : Engine} (he : (openAt c files).1 = .ok e) :
    Site.Mirrors { engine := e, files := files.touch logName } writes := by
  have hreplay : (openedLog c.dataDir).replay (files.touch logName)
      = .ok (Pairs.ofWrites writes).entries := by
    refine Log.replay_textOf rfl ?_
    show ((files.touch logName).read? logName).getD [] = _
    rw [h]
    rfl
  obtain ⟨-, memtable, tables, hmemtable, htables, rfl⟩ := openAt_eq_ok_iff.mp (Prod.ext he rfl)
  refine ⟨h, ?_, rfl, rfl, isTable_of_openTables htables, hc⟩
  exact Except.ok.inj (hmemtable.symm.trans hreplay)

end Engine

/-! ## Worlds -/

namespace World

/-- The log that the next engine will find holds writes, and the engine that is there mirrors them. -/
structure Mirrors (w : World) (writes : Pairs) : Prop where
  held : (w.files.touch Engine.logName).read? Engine.logName = some (Utf8.encode (Log.textOf writes))
  engine : ∀ e, w.engine = some e → Site.Mirrors { engine := e, files := w.files } writes

theorem mirrors_start : start.Mirrors [] where
  held := rfl
  engine := fun _ h => absurd h.symm (Option.some_ne_none _)

variable {w : World} {writes : Pairs}

theorem mirrors_of_site {files : Directory} {e : Engine} {written : String → Option String}
    (h : Site.Mirrors { engine := e, files := files } writes) :
    Mirrors { files := files, engine := some e, written := written } writes where
  held := by
    show (files.touch Engine.logName).read? Engine.logName = _
    rw [Directory.touch_of_read? h.held]
    exact h.held
  engine := fun _ hother => Option.some.inj hother ▸ h

/-- An action on the engine that is there keeps the world mirrored if it does so for the engine. -/
theorem exists_mirrors_act {α : Type} {action : Action α} (haction : Engine.StaysMirrored action)
    (h : w.Mirrors writes) (written : α → String → Option String) :
    ∃ left, (w.act action written).Mirrors left := by
  cases hengine : w.engine with
  | none =>
    rw [act_of_none action written hengine]
    exact ⟨writes, h⟩
  | some e =>
    obtain ⟨left, hleft⟩ := haction (h.engine e hengine)
    refine ⟨left, ?_⟩
    rw [act, hengine]
    simp only
    cases houtcome : action { engine := e, files := w.files } with
    | ok a site =>
      rw [houtcome] at hleft
      exact mirrors_of_site hleft
    | error failure site =>
      rw [houtcome] at hleft
      exact mirrors_of_site hleft

theorem exists_mirrors_step (h : w.Mirrors writes) {e : Event} (he : e.IsAccepted) :
    ∃ left, (w.step e).Mirrors left := by
  cases e with
  | start c =>
    show ∃ left, Mirrors { files := w.files.touch Engine.logName
                           engine := (Engine.openAt c w.files).1.toOption
                           written := w.written } left
    cases hresult : (Engine.openAt c w.files).1 with
    | error e =>
      refine ⟨writes, ?_, fun _ hnone => absurd hnone.symm (Option.some_ne_none _)⟩
      show ((w.files.touch Engine.logName).touch Engine.logName).read? Engine.logName = _
      rw [Directory.touch_of_read? h.held]
      exact h.held
    | ok e => exact ⟨writes, mirrors_of_site (Engine.openAt_mirrors h.held he hresult)⟩
  | put clock key value => exact exists_mirrors_act (Engine.staysMirrored_put clock key value) h _
  | putNew clock key value =>
    exact exists_mirrors_act (Engine.staysMirrored_putNew clock key value) h _
  | flush clock => exact exists_mirrors_act (Engine.staysMirrored_flush clock) h _
  | compact clock => exact exists_mirrors_act (Engine.staysMirrored_compact clock) h _
  | close clock => exact exists_mirrors_act (Engine.staysMirrored_close clock) h _
  | crash => exact ⟨writes, h.held, fun _ hnone => absurd hnone.symm (Option.some_ne_none _)⟩

theorem exists_mirrors_run (h : w.Mirrors writes) {events : List Event}
    (haccepted : ∀ e ∈ events, e.IsAccepted) : ∃ left, (w.run events).Mirrors left := by
  induction events generalizing w writes with
  | nil => exact ⟨writes, h⟩
  | cons e rest ih =>
    obtain ⟨next, hnext⟩ := exists_mirrors_step h (haccepted e List.mem_cons_self)
    exact ih hnext fun e he => haccepted e (List.mem_cons_of_mem _ he)

/-- In whatever state an engine is, replaying the log gives its memtable, with the keys in their
order, and the log is empty exactly when the memtable is.  A put that succeeds leaves fewer keys in
memory than the limit, however many there were when the engine was opened. -/
theorem log_mirrors_memtable {events : List Event} (haccepted : ∀ e ∈ events, e.IsAccepted)
    {e : Engine} (hengine : (start.run events).engine = some e) :
    let site : Site := { engine := e, files := (start.run events).files }
    (∀ directory, (Log.openAt directory Engine.logName site.files).1.replay site.files
        = .ok e.memtable) ∧
      (∃ content, site.files.read? Engine.logName = some content ∧
        (content = [] ↔ e.memtable = [])) ∧
      ∀ clock key value after,
        (Engine.put clock (.str key) (.str value) site = .ok () after ∨
          Engine.putNew clock (.str key) (.str value) site = .ok true after) →
        e.settings.isFull after.engine.memtable.length = false ∧
          ∀ limit : Int, e.settings.memtableLimit = .int limit →
            (after.engine.memtable.length : Int) < limit := by
  obtain ⟨writes, hrun⟩ := exists_mirrors_run mirrors_start haccepted
  have h := hrun.engine e hengine
  intro site
  refine ⟨fun directory => ?_, ⟨_, h.held, ?_⟩, fun clock key value after hput => ?_⟩
  · rw [h.memtable]
    refine Log.replay_textOf rfl ?_
    show (site.files.read? Engine.logName).getD [] = _
    rw [h.held]
    rfl
  · rw [h.memtable, Log.encode_textOf_eq_nil_iff, Pairs.entries, List.map_eq_nil_iff,
      Pairs.ofWrites_eq_nil_iff]
  · have hbelow : e.settings.isFull after.engine.memtable.length = false :=
      Engine.isFull_of_put h (hput.elim id Engine.put_of_putNew)
    exact ⟨hbelow, fun limit hlimit => (Settings.isFull_eq_false_iff hlimit _).mp hbelow⟩

/-- A key is written again before and after a flush, and the engine is lost with two keys in memory
and opened with a limit of one. -/
def lowerLimitEvents : List Event :=
  [.start { Settings.eager with memtableLimit := .int 100 }, .put 5 "a" "1", .put 5 "a" "2",
    .flush 5, .put 5 "b" "3", .put 5 "a" "4", .put 5 "b" "5", .crash, .start Settings.eager]

theorem run_lowerLimit :
    ((start.run lowerLimitEvents).engine.map fun e => e.memtable.map fun r => r.1.text)
      = some ["b", "a"] := by
  decide +kernel

theorem log_mirrors_memtable_lowerLimit :
    ∃ e, (start.run lowerLimitEvents).engine = some e ∧ e.memtable.length = 2 ∧
      (∀ directory, (Log.openAt directory Engine.logName
          (start.run lowerLimitEvents).files).1.replay (start.run lowerLimitEvents).files
        = .ok e.memtable) ∧
      ∀ clock key value after,
        Engine.put clock (.str key) (.str value)
            { engine := e, files := (start.run lowerLimitEvents).files } = .ok () after →
        e.settings.isFull after.engine.memtable.length = false := by
  have haccepted : ∀ e ∈ lowerLimitEvents, e.IsAccepted := by
    intro e he
    simp only [lowerLimitEvents, List.mem_cons, List.not_mem_nil, or_false] at he
    rcases he with rfl | rfl | rfl | rfl | rfl | rfl | rfl | rfl | rfl
    any_goals exact trivial
    · exact Settings.isAccepted_of_le (by decide) (by decide) _ _
    · exact Settings.eager_isAccepted
  have hkeys := run_lowerLimit
  cases hengine : (start.run lowerLimitEvents).engine with
  | none =>
    rw [hengine] at hkeys
    exact absurd hkeys (Option.some_ne_none _).symm
  | some e =>
    rw [hengine] at hkeys
    have hlength := congrArg List.length (Option.some.inj hkeys)
    rw [List.length_map] at hlength
    obtain ⟨hreplay, -, hput⟩ := log_mirrors_memtable haccepted hengine
    exact ⟨e, rfl, hlength, hreplay, fun clock key value after h =>
      (hput clock key value after (.inl h)).1⟩

end World
end SchemaStore
