import SchemaStore.Proofs.Sequencing
import SchemaStore.Storage.Order

/-!
Sorting loses no items and makes none.  The order of keys that are no texts need not be an order at
all, so nothing can be said of where an item ends up; but every step of the sorting only moves
items, and so what it ends with, if no comparison fails, is a rearrangement of what it was given.
-/

namespace SchemaStore

open scoped List

variable {α : Type}

/-! ## Merging two runs -/

namespace Merging

/-- The items that are being merged. -/
def items (m : Merging α) : List α := m.merged ++ (m.first ++ m.second)

def Progress.items : Progress α → List α
  | .done xs => xs
  | .more m => m.items

theorem rest_perm (m : Merging α) : m.rest.Perm m.items := by
  rw [rest, items, List.append_assoc]
  exact (List.reverse_perm m.merged).append List.perm_append_comm

theorem settle_perm (m : Merging α) : m.settle.items.Perm m.items := by
  unfold settle
  split
  · exact m.rest_perm
  · exact m.rest_perm
  · exact m.rest_perm
  · exact List.Perm.refl _

theorem takeFirst_perm (m : Merging α) (count : Nat) : (m.takeFirst count).items.Perm m.items := by
  classical
  refine List.perm_iff_count.mpr fun x => ?_
  have hfirst : (m.first.take count).count x + (m.first.drop count).count x = m.first.count x := by
    rw [← List.count_append, List.take_append_drop]
  simp only [items, takeFirst, List.count_append, List.count_reverse]
  omega

theorem takeSecond_perm (m : Merging α) (count : Nat) :
    (m.takeSecond count).items.Perm m.items := by
  classical
  refine List.perm_iff_count.mpr fun x => ?_
  have hsecond : (m.second.take count).count x + (m.second.drop count).count x
      = m.second.count x := by
    rw [← List.count_append, List.take_append_drop]
  simp only [items, takeSecond, List.count_append, List.count_reverse]
  omega

variable {less : α → α → Except Misuse Bool} {isBackward : Bool}

theorem gallopFirst_perm {m : Merging α} {count : Nat} {progress : Progress α}
    (h : gallopFirst less isBackward m = .ok (count, progress)) :
    progress.items.Perm m.items := by
  unfold gallopFirst at h
  split at h
  · cases h
    exact m.settle_perm
  · obtain ⟨taken, -, h⟩ := Except.bind_eq_ok.mp h
    have htaken := ((m.takeFirst taken).settle_perm).trans (m.takeFirst_perm taken)
    split at h
    · next items hsettle =>
      cases h
      exact hsettle ▸ htaken
    · next left hsettle =>
      cases h
      rw [hsettle] at htaken
      exact (settle_perm _).trans ((takeSecond_perm left 1).trans htaken)

theorem gallopSecond_perm {m : Merging α} {count : Nat} {progress : Progress α}
    (h : gallopSecond less isBackward m = .ok (count, progress)) :
    progress.items.Perm m.items := by
  unfold gallopSecond at h
  split at h
  · cases h
    exact m.settle_perm
  · obtain ⟨taken, -, h⟩ := Except.bind_eq_ok.mp h
    have htaken := ((m.takeSecond taken).settle_perm).trans (m.takeSecond_perm taken)
    split at h
    · next items hsettle =>
      cases h
      exact hsettle ▸ htaken
    · next left hsettle =>
      cases h
      rw [hsettle] at htaken
      exact (settle_perm _).trans ((takeFirst_perm left 1).trans htaken)

theorem gallopBoth_perm {m : Merging α} {pays : Bool} {progress : Progress α}
    (h : gallopBoth less isBackward m = .ok (pays, progress)) : progress.items.Perm m.items := by
  -- Either way round, both halves of the round only move items.
  have hone : ∀ {m count p}, (if isBackward then gallopSecond less isBackward
      else gallopFirst less isBackward) m = .ok (count, p) → p.items.Perm m.items := by
    intro m count p h
    cases isBackward with
    | true => exact gallopSecond_perm h
    | false => exact gallopFirst_perm h
  have hother : ∀ {m count p}, (if isBackward then gallopFirst less isBackward
      else gallopSecond less isBackward) m = .ok (count, p) → p.items.Perm m.items := by
    intro m count p h
    cases isBackward with
    | true => exact gallopFirst_perm h
    | false => exact gallopSecond_perm h
  unfold gallopBoth at h
  obtain ⟨⟨count, found⟩, hfound, h⟩ := Except.bind_eq_ok.mp h
  cases found with
  | done items =>
    cases h
    exact hone hfound
  | more left =>
    obtain ⟨⟨otherCount, found⟩, hrest, h⟩ := Except.bind_eq_ok.mp h
    cases h
    exact (hother hrest).trans (hone hfound)

theorem run_perm {fuel : Nat} {mode : Mode} {patience left : Nat} {m : Merging α} {items : List α}
    (h : run less isBackward fuel mode patience m = .ok (items, left)) : items.Perm m.items := by
  induction fuel generalizing mode patience m with
  | zero =>
    cases h
    exact m.rest_perm
  | succ fuel ih =>
    -- After one item has been taken the merge is settled or goes on.
    have hstep : ∀ {taken : Merging α} {wins : Nat} {mode : Mode}, taken.items.Perm m.items →
        (match taken.settle with
          | .done items => .ok (items, patience)
          | .more m =>
            if patience ≤ wins then run less isBackward fuel .galloping (patience + 1) m
            else run less isBackward fuel mode patience m) = Except.ok (items, left) →
        items.Perm m.items := by
      intro taken wins mode htaken hrun
      have hsettled := (taken.settle_perm).trans htaken
      cases hsettle : taken.settle with
      | done settled =>
        rw [hsettle] at hrun hsettled
        cases hrun
        exact hsettled
      | more rest =>
        rw [hsettle] at hrun hsettled
        dsimp only at hrun
        split at hrun
        · exact (ih hrun).trans hsettled
        · exact (ih hrun).trans hsettled
    unfold run at h
    split at h
    · next heq _ _ =>
      obtain rfl := Nat.succ.inj heq
      obtain ⟨goes, -, h⟩ := Except.bind_eq_ok.mp h
      split at h
      · exact hstep (m.takeSecond_perm 1) h
      · exact hstep (m.takeFirst_perm 1) h
    · next heq =>
      obtain rfl := Nat.succ.inj heq
      obtain ⟨⟨pays, progress⟩, hboth, h⟩ := Except.bind_eq_ok.mp h
      have hprogress := gallopBoth_perm hboth
      cases progress with
      | done settled =>
        cases h
        exact hprogress
      | more rest =>
        cases pays with
        | true => exact (ih h).trans hprogress
        | false => exact (ih h).trans hprogress
    · cases h
      exact m.rest_perm

theorem ofRuns_perm {patience left : Nat} {first second items : List α}
    (h : ofRuns less isBackward patience first second = .ok (items, left)) :
    items.Perm (first ++ second) := by
  let start : Merging α := { merged := [], first := first, second := second }
  have htaken := ((start.takeSecond 1).settle_perm).trans (start.takeSecond_perm 1)
  rw [ofRuns] at h
  split at h
  · next settled hsettle =>
    cases h
    rw [hsettle] at htaken
    exact htaken
  · next rest hsettle =>
    rw [hsettle] at htaken
    exact (run_perm h).trans htaken

end Merging

variable {below : α → α → Except Misuse Bool}

theorem mergeRuns_perm {patience left : Nat} {xs ys items : List α}
    (h : mergeRuns below patience xs ys = .ok (items, left)) : items.Perm (xs ++ ys) := by
  unfold mergeRuns at h
  split at h
  · obtain ⟨kept, -, h⟩ := Except.bind_eq_ok.mp h
    dsimp only at h
    split at h
    · cases h
      exact List.Perm.refl _
    · obtain ⟨moved, -, h⟩ := Except.bind_eq_ok.mp h
      -- What stays at the two ends frames what is merged.
      have hframe : ∀ {merged : List α}, merged.Perm (xs.drop kept ++ ys.take moved) →
          (xs.take kept ++ merged ++ ys.drop moved).Perm (xs ++ ys) := by
        intro merged hmerged
        have hinner := (hmerged.append_left (xs.take kept)).append_right (ys.drop moved)
        simpa only [← List.append_assoc, List.take_append_drop,
          List.append_assoc _ (ys.take moved)] using hinner
      split at h
      · cases h
        exact List.Perm.refl _
      · split at h
        · obtain ⟨⟨merged, rest⟩, hmerged, h⟩ := Except.bind_eq_ok.mp h
          cases h
          exact hframe (Merging.ofRuns_perm hmerged)
        · obtain ⟨⟨merged, rest⟩, hmerged, h⟩ := Except.bind_eq_ok.mp h
          cases h
          refine hframe ((List.reverse_perm merged).trans ((Merging.ofRuns_perm hmerged).trans ?_))
          rw [← List.reverse_append]
          exact List.reverse_perm _
  · cases h
    exact List.Perm.refl _

/-! ## Runs -/

namespace Order

theorem takeRun_perm {isDescending : Bool} {run rest taken left : List α}
    (h : takeRun below isDescending run rest = .ok (taken, left)) :
    (taken ++ left).Perm (run ++ rest) := by
  induction rest generalizing run with
  | nil =>
    unfold takeRun at h
    cases h
    exact List.Perm.refl _
  | cons x rest ih =>
    have hmove : ∀ run : List α, (x :: run ++ rest).Perm (run ++ x :: rest) := fun run =>
      List.perm_middle.symm
    cases run with
    | nil => exact (ih h).trans (hmove [])
    | cons last run =>
      unfold takeRun at h
      obtain ⟨goesDown, -, h⟩ := Except.bind_eq_ok.mp h
      split at h
      · exact (ih h).trans (hmove (last :: run))
      · cases h
        exact List.Perm.refl _

theorem firstRun_perm {xs run rest : List α} (h : firstRun below xs = .ok (run, rest)) :
    (run ++ rest).Perm xs := by
  unfold firstRun at h
  split at h
  · obtain ⟨isDescending, -, h⟩ := Except.bind_eq_ok.mp h
    obtain ⟨⟨taken, left⟩, htaken, h⟩ := Except.bind_eq_ok.mp h
    cases h
    have hperm := takeRun_perm htaken
    split
    · exact hperm
    · exact ((List.reverse_perm taken).append_right _).trans hperm
  · cases h
    rw [List.append_nil]

theorem insertAll_perm {done xs items : List α} (h : insertAll below done xs = .ok items) :
    items.Perm (done ++ xs) := by
  induction xs generalizing done with
  | nil =>
    cases h
    rw [List.append_nil]
  | cons x xs ih =>
    unfold insertAll at h
    obtain ⟨place, -, h⟩ := Except.bind_eq_ok.mp h
    have hinsert : (done.take place ++ x :: done.drop place ++ xs).Perm (done ++ x :: xs) := by
      have hmiddle : (done.take place ++ x :: done.drop place).Perm (x :: done) := by
        have hperm := @List.perm_middle _ x (done.take place) (done.drop place)
        rwa [List.take_append_drop] at hperm
      exact (hmiddle.append_right xs).trans List.perm_middle.symm
    exact (ih h).trans hinsert

theorem length_le_takeRun {isDescending : Bool} {run rest taken left : List α}
    (h : takeRun below isDescending run rest = .ok (taken, left)) : run.length ≤ taken.length := by
  induction rest generalizing run with
  | nil =>
    unfold takeRun at h
    cases h
    exact Nat.le_refl _
  | cons x rest ih =>
    cases run with
    | nil => exact Nat.zero_le _
    | cons last run =>
      unfold takeRun at h
      obtain ⟨goesDown, -, h⟩ := Except.bind_eq_ok.mp h
      split at h
      · exact Nat.le_of_succ_le (ih h)
      · cases h
        exact Nat.le_refl _

/-- At the front of items there is a run of at least one. -/
theorem length_lt_firstRun {x : α} {xs run rest : List α}
    (h : firstRun below (x :: xs) = .ok (run, rest)) : rest.length < (x :: xs).length := by
  have hlength := (firstRun_perm h).length_eq
  rw [List.length_append] at hlength
  have hrun : 1 ≤ run.length := by
    cases xs with
    | nil =>
      cases h
      exact Nat.le_refl 1
    | cons y xs =>
      unfold firstRun at h
      obtain ⟨isDescending, -, h⟩ := Except.bind_eq_ok.mp h
      obtain ⟨⟨taken, left⟩, htaken, h⟩ := Except.bind_eq_ok.mp h
      cases h
      have htaken : 1 ≤ taken.length := length_le_takeRun htaken
      split
      · exact htaken
      · rwa [List.length_reverse]
  omega

/-! ## All runs -/

/-- The items of runs. -/
def itemsOf (runs : List (Run α)) : List α := runs.flatMap Run.items

theorem itemsOf_cons (run : Run α) (runs : List (Run α)) :
    itemsOf (run :: runs) = run.items ++ itemsOf runs := List.flatMap_cons

theorem joinRuns_perm {patience left : Nat} {first second joined : Run α}
    (h : joinRuns below patience first second = .ok (joined, left)) :
    joined.items.Perm (second.items ++ first.items) := by
  unfold joinRuns at h
  obtain ⟨⟨items, rest⟩, hitems, h⟩ := Except.bind_eq_ok.mp h
  cases h
  exact (mergeRuns_perm hitems).trans List.perm_append_comm

theorem mergeDeeper_perm {depth patience left : Nat} {last : Run α} {runs joined : List (Run α)}
    (h : mergeDeeper below depth patience last runs = .ok (joined, left)) :
    (itemsOf joined).Perm (last.items ++ itemsOf runs) := by
  induction runs generalizing patience last with
  | nil =>
    cases h
    exact List.Perm.refl _
  | cons run runs ih =>
    unfold mergeDeeper at h
    split at h
    · obtain ⟨⟨both, rest⟩, hboth, h⟩ := Except.bind_eq_ok.mp h
      have hjoined := (joinRuns_perm hboth).append_right (itemsOf runs)
      rw [List.append_assoc] at hjoined
      exact (ih h).trans hjoined
    · cases h
      exact List.Perm.refl _

theorem addRun_perm {count patience left : Nat} {items : List α} {runs added : List (Run α)}
    (h : addRun below count patience items runs = .ok (added, left)) :
    (itemsOf added).Perm (items ++ itemsOf runs) := by
  cases runs with
  | nil =>
    cases h
    exact List.Perm.refl _
  | cons last runs =>
    unfold addRun at h
    obtain ⟨⟨joined, rest⟩, hjoined, h⟩ := Except.bind_eq_ok.mp h
    cases h
    exact (mergeDeeper_perm hjoined).append_left items

theorem mergeAll_perm {fuel patience : Nat} {runs : List (Run α)} {items : List α}
    (h : mergeAll below fuel patience runs = .ok items) (hfuel : runs.length ≤ fuel + 1) :
    items.Perm (itemsOf runs) := by
  induction fuel generalizing patience runs with
  | zero =>
    match runs, hfuel with
    | [], _ =>
      cases h
      exact List.Perm.refl _
    | [run], _ =>
      cases h
      rw [itemsOf_cons]
      exact (List.append_nil _).symm ▸ List.Perm.refl _
  | succ fuel ih =>
    match runs, hfuel with
    | [], _ =>
      cases h
      exact List.Perm.refl _
    | [run], _ =>
      cases h
      rw [itemsOf_cons]
      exact (List.append_nil _).symm ▸ List.Perm.refl _
    | [last, run], hfuel =>
      unfold mergeAll at h
      obtain ⟨⟨joined, rest⟩, hjoined, h⟩ := Except.bind_eq_ok.mp h
      refine (ih h (Nat.le_of_succ_le_succ hfuel)).trans ?_
      simp only [itemsOf_cons]
      rw [← List.append_assoc]
      exact (joinRuns_perm hjoined).append_right _
    | last :: run :: third :: runs, hfuel =>
      unfold mergeAll at h
      split at h
      · obtain ⟨⟨joined, rest⟩, hjoined, h⟩ := Except.bind_eq_ok.mp h
        refine (ih h (Nat.le_of_succ_le_succ hfuel)).trans ?_
        simp only [itemsOf_cons]
        have hmiddle := (joinRuns_perm hjoined).append_right (itemsOf runs)
        rw [List.append_assoc] at hmiddle
        exact hmiddle.append_left _
      · obtain ⟨⟨joined, rest⟩, hjoined, h⟩ := Except.bind_eq_ok.mp h
        refine (ih h (Nat.le_of_succ_le_succ hfuel)).trans ?_
        simp only [itemsOf_cons]
        rw [← List.append_assoc last.items]
        exact (joinRuns_perm hjoined).append_right _

theorem sortRuns_perm {count fuel patience : Nat} {runs : List (Run α)} {rest items : List α}
    (h : sortRuns below count fuel patience runs rest = .ok items) (hfuel : rest.length ≤ fuel) :
    items.Perm (itemsOf runs ++ rest) := by
  induction fuel generalizing patience runs rest with
  | zero =>
    obtain rfl := List.length_eq_zero_iff.mp (Nat.le_zero.mp hfuel)
    rw [List.append_nil]
    exact mergeAll_perm h (Nat.le_succ _)
  | succ fuel ih =>
    cases rest with
    | nil =>
      rw [List.append_nil]
      exact mergeAll_perm h (Nat.le_succ _)
    | cons x xs =>
      unfold sortRuns at h
      obtain ⟨⟨run, left⟩, hrun, h⟩ := Except.bind_eq_ok.mp h
      obtain ⟨filled, hfilled, h⟩ := Except.bind_eq_ok.mp h
      obtain ⟨⟨added, patience⟩, hadded, h⟩ := Except.bind_eq_ok.mp h
      have hlength := length_lt_firstRun hrun
      have hrest : (left.drop (leastRun count 0 - run.length)).length ≤ fuel := by
        rw [List.length_drop]
        omega
      refine (ih h hrest).trans ?_
      -- The run takes its items from the front of the row, and joins the runs before it.
      have hitems := firstRun_perm hrun
      have htaken := (insertAll_perm hfilled).append_right
        (left.drop (leastRun count 0 - run.length))
      rw [List.append_assoc, List.take_append_drop] at htaken
      calc itemsOf added ++ left.drop (leastRun count 0 - run.length)
          _ ~ filled ++ itemsOf runs ++ left.drop (leastRun count 0 - run.length) :=
            (addRun_perm hadded).append_right _
          _ ~ itemsOf runs ++ filled ++ left.drop (leastRun count 0 - run.length) :=
            List.perm_append_comm.append_right _
          _ ~ itemsOf runs ++ (x :: xs) := by
            rw [List.append_assoc]
            exact (htaken.trans hitems).append_left _

theorem sortBy_perm {keyOf : α → Value} {xs ys : List α} (h : sortBy keyOf xs = .ok ys) :
    ys.Perm xs := by
  unfold sortBy at h
  split at h
  · cases h
    exact List.mergeSort_perm _ _
  · exact sortRuns_perm h (Nat.le_refl _)

end Order

end SchemaStore
