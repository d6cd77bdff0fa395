import SchemaStore.Proofs.Storage.Operations

/-!
All or nothing.  While an engine holds no more than its tables can index, each of its operations
either succeeds or leaves the engine and its files as they were: all that can fail in a write comes
before the log is touched, also where the write is the one that fills the memtable.
-/

namespace SchemaStore

/-- The engine holds texts of at most so many characters, and its files are those that it left.  It
is open, or it was closed after a flush. -/
inductive Site.IsWithin (n : Nat) : Site → Prop where
  | opened {s : Shelf} {c : Settings} {files : Directory} (hc : c.IsAccepted) (hon : s.IsOn files)
      (hs : s.weight ≤ n) : IsWithin n (s.site c files)
  | closed {s : Shelf} {c : Settings} {files : Directory} (hempty : s.writes = [])
      (hon : s.IsOn files) (hs : s.weight ≤ n) :
      IsWithin n { engine := Engine.closedEngine s c, files := files }

theorem Site.isWithin_iff_bears {site : Site} {n : Nat} :
    site.IsWithin n ↔ site.Bears fun s => s.weight ≤ n := by
  constructor
  · intro h
    cases h with
    | opened hc hon hs => exact .opened hc hon hs
    | closed hempty hon hs => exact .closed hempty hon hs
  · intro h
    cases h with
    | opened hc hon hs => exact .opened hc hon hs
    | closed hempty hon hs => exact .closed hempty hon hs

theorem Site.IsWithin.mono {site : Site} {n m : Nat} (h : site.IsWithin n) (hle : n ≤ m) :
    site.IsWithin m :=
  isWithin_iff_bears.mpr ((isWithin_iff_bears.mp h).imp fun _ hs => Nat.le_trans hs hle)

namespace Engine

variable {α : Type} {k : Nat}

/-- The action succeeds, and then the engine holds at most so much more than before in the same
place; or it fails and changes nothing. -/
def IsAtomic (k : Nat) (action : Action α) : Prop :=
  ∀ {site : Site} {n : Nat}, site.IsWithin n → n + k < Sheet.capacity →
    (∃ a after, action site = .ok a after ∧ after.IsWithin (n + k) ∧
      after.engine.directory = site.engine.directory) ∨
    ∃ failure, action site = .error failure site

theorem isAtomic_put (clock : Int) (p : String × String) :
    IsAtomic (Pairs.weight [p]) (put clock (.str p.1) (.str p.2)) := by
  intro site n hsite hsize
  cases hsite with
  | @opened s c files hc hon hs =>
    obtain ⟨after, hput, hafter⟩ := put_shelf hc hon p (by omega) clock
    have hweight := s.weight_put_le c (TableName.next files.names clock "") p
    exact .inl ⟨_, _, hput, .opened hc hafter (by omega), rfl⟩
  | closed hempty hon hs => exact .inr ⟨_, put_closed rfl _ _ _⟩

theorem isAtomic_putNew (clock : Int) (p : String × String) :
    IsAtomic (Pairs.weight [p]) (putNew clock (.str p.1) (.str p.2)) := by
  intro site n hsite hsize
  cases hsite with
  | @opened s c files hc hon hs =>
    cases hfound : s.lookup p.1 with
    | some old =>
      have hput := putNew_shelf_of_some hon c clock (.str p.2) hfound
      exact .inl ⟨_, _, hput, .opened hc hon (by omega), rfl⟩
    | none =>
      obtain ⟨after, hput, hafter⟩ := putNew_shelf_of_none hc hon p (by omega) clock hfound
      have hweight := s.weight_put_le c (TableName.next files.names clock "") p
      exact .inl ⟨_, _, hput, .opened hc hafter (by omega), rfl⟩
  | closed hempty hon hs => exact .inr ⟨_, putNew_closed rfl _ _ _⟩

theorem isAtomic_flush (clock : Int) : IsAtomic 0 (flush clock) := by
  intro site n hsite hsize
  cases hsite with
  | @opened s c files hc hon hs =>
    obtain ⟨after, hflush, hafter⟩ := flush_shelf hc hon (by omega) clock
    exact .inl ⟨_, _, hflush, .opened hc hafter ((s.weight_flush _ _).symm ▸ hs), rfl⟩
  | @closed s c files hempty hon hs =>
    have hflush : flush clock { engine := closedEngine s c, files := files } = _ :=
      flush_of_memtable_nil (memtable_closedEngine hempty c) clock
    exact .inl ⟨_, _, hflush, .closed hempty hon hs, rfl⟩

theorem isAtomic_compact (clock : Int) : IsAtomic 0 (compact clock) := by
  intro site n hsite hsize
  cases hsite with
  | @opened s c files hc hon hs =>
    obtain ⟨after, hcompact, hafter⟩ := compact_shelf hc hon (by omega) clock
    exact .inl ⟨_, _, hcompact, .opened hc hafter (Nat.le_trans (s.weight_compact_le _ _) hs), rfl⟩
  | closed hempty hon hs => exact .inr ⟨_, compact_closed rfl _⟩

theorem isAtomic_close (clock : Int) : IsAtomic 0 (close clock) := by
  intro site n hsite hsize
  cases hsite with
  | @opened s c files hc hon hs =>
    obtain ⟨after, hclose, hafter⟩ := close_shelf hc hon (by omega) clock
    have hclosed := Site.IsWithin.closed (c := c) (s.writes_flush _ _) hafter
      ((s.weight_flush _ _).symm ▸ hs)
    exact .inl ⟨_, _, hclose, hclosed, rfl⟩
  | closed hempty hon hs =>
    exact .inl ⟨_, _, close_closed rfl clock, .closed hempty hon hs, rfl⟩

end Engine
end SchemaStore
