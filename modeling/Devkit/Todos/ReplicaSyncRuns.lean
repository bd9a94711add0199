import Devkit.Todos.ReplicaSync

/-!
# No mark of a replica is lost

Only the lock's holder clears the mark, at the start of a pass, and it lets the lock go before it looks
for a mark the last time. So a mark that a background run left behind, to the lock's holder or to a
recent failure, is still there until a later pass starts, and someone looks unless the last sync failed.
-/

namespace Devkit.Todos.ReplicaSync

open Devkit.Library
open Std

/-- A run that is about to take the lock or to look for a mark once more. -/
def Watching (s : ReplicaSync) : Prop :=
  ∃ (process : ℕ) (run : SyncRun) (place : Waiting),
    s.waiting[process]? = some (run, place) ∧ place ≠ .failedRecently

/-- What every step keeps: marks set since the last clearing are still there, the last clearing began a
pass that succeeded unless a later one failed, and while a mark is left from before a background run
that ended, a run still holds the lock or will look for it. -/
structure Sound (s : ReplicaSync) : Prop where
  began : ∀ (process : ℕ) (entry : SyncRun × Waiting), s.waiting[process]? = some entry → entry.1.began ≤ s.marks
  began_holder : ∀ process run place, s.holder = some (process, run, place) → run.began ≤ s.marks
  ended : ∀ began ∈ s.ended, began ≤ s.marks
  cleared_le : s.cleared ≤ s.marks
  cleared : s.pending = false → s.marks ≤ s.cleared
  started : ∀ process run started, s.holder = some (process, run, .syncOnce started) → s.cleared ≤ started
  synced : s.lastSucceeded = true → 0 < s.cleared →
    (∃ process run started, s.holder = some (process, run, .syncOnce started)) ∨
      ∃ started ∈ s.passes, s.cleared ≤ started
  failing : ∀ process run, s.holder = some (process, run, .recordFailure) ∨
    s.holder = some (process, run, .release false) → s.lastSucceeded = false
  marked : s.fileError = false → s.failed = true → s.lastSucceeded = false ∨
    ∃ process run, s.holder = some (process, run, .forgetFailure)
  watched : s.fileError = false → s.lastSucceeded = true → (∃ began ∈ s.ended, s.cleared < began) →
    s.holder.isSome ∨ s.Watching

/-- A replica with no marker and no run is sound. -/
theorem sound_start : start.Sound where
  began := fun process entry h => by simp [start] at h
  began_holder := fun _ _ _ h => nomatch h
  ended := fun _ h => absurd h List.not_mem_nil
  cleared_le := Nat.zero_le _
  cleared := fun _ => Nat.zero_le _
  started := fun _ _ _ h => nomatch h
  synced := fun h => nomatch h
  failing := fun _ _ _ => rfl
  marked := fun _ h => nomatch h
  watched := fun _ h => nomatch h

/-- A mark leaves the replica sound. -/
theorem Sound.markPending {s : ReplicaSync} (h : s.Sound) : s.markPending.Sound where
  began := fun process entry hentry => Nat.le_succ_of_le (h.began process entry hentry)
  began_holder := fun process run place hholder => Nat.le_succ_of_le (h.began_holder process run place hholder)
  ended := fun began hbegan => Nat.le_succ_of_le (h.ended began hbegan)
  cleared_le := Nat.le_succ_of_le h.cleared_le
  cleared := fun hpending => nomatch hpending
  started := h.started
  synced := h.synced
  failing := h.failing
  marked := h.marked
  watched := h.watched

/-- A file operation that failed leaves the replica sound. -/
theorem Sound.fails {s : ReplicaSync} (h : s.Sound) : ({ s with fileError := true } : ReplicaSync).Sound where
  began := h.began
  began_holder := h.began_holder
  ended := h.ended
  cleared_le := h.cleared_le
  cleared := h.cleared
  started := h.started
  synced := h.synced
  failing := h.failing
  marked := fun hok => nomatch hok
  watched := fun hok => nomatch hok

/-- A run that goes on without the lock leaves the replica sound, if who would have looked for a mark
still does. -/
theorem Sound.waits {s : ReplicaSync} (h : s.Sound) (process : ℕ) (run : SyncRun) (place : Waiting)
    (hbegan : run.began ≤ s.marks)
    (hwatch : s.Watching → ({ s with waiting := s.waiting.insert process (run, place) } : ReplicaSync).Watching) :
    ({ s with waiting := s.waiting.insert process (run, place) } : ReplicaSync).Sound where
  began := fun other entry hentry => by
    rw [getElem?_insert_eq] at hentry
    split at hentry
    · cases hentry
      exact hbegan
    · exact h.began other entry hentry
  began_holder := h.began_holder
  ended := h.ended
  cleared_le := h.cleared_le
  cleared := h.cleared
  started := h.started
  synced := h.synced
  failing := h.failing
  marked := h.marked
  watched := fun hok hsucceeded hleft => (h.watched hok hsucceeded hleft).imp_right hwatch

/-- A process that was put where it looks for a mark is one that looks. -/
theorem watching_insert (s : ReplicaSync) (process : ℕ) (run : SyncRun) {place : Waiting}
    (hplace : place ≠ .failedRecently) :
    ({ s with waiting := s.waiting.insert process (run, place) } : ReplicaSync).Watching :=
  ⟨process, run, place, ExtTreeMap.getElem?_insert_self, hplace⟩

/-- A run may leave the waiting ones and end when the mark it saw is for the lock's holder, or there is
none since the last clearing. -/
theorem Sound.finish {s : ReplicaSync} (h : s.Sound) (process : ℕ) {run : SyncRun}
    (hbegan : run.began ≤ s.marks)
    (hleft : s.fileError = false → s.lastSucceeded = true → s.cleared < s.marks → s.holder.isSome) :
    (s.finish process run).Sound := by
  have hended : ∀ began ∈ (s.finish process run).ended, began ≤ s.marks := by
    intro began hmem
    change began ∈ (if run.background then s.ended ++ [run.began] else s.ended) at hmem
    split at hmem
    · cases List.mem_append.mp hmem with
      | inl hmem => exact h.ended began hmem
      | inr hmem => exact (List.mem_singleton.mp hmem) ▸ hbegan
    · exact h.ended began hmem
  exact {
    began := fun other entry hentry => by
      change (s.waiting.erase process)[other]? = some entry at hentry
      rw [getElem?_erase_eq] at hentry
      split at hentry
      · cases hentry
      · exact h.began other entry hentry
    began_holder := h.began_holder
    ended := hended
    cleared_le := h.cleared_le
    cleared := h.cleared
    started := h.started
    synced := h.synced
    failing := h.failing
    marked := h.marked
    watched := fun hok hsucceeded ⟨began, hmem, hbefore⟩ =>
      Or.inl (hleft hok hsucceeded (Nat.lt_of_lt_of_le hbefore (hended began hmem))) }

/-- Under the lock's holder a waiting process may leave. -/
theorem Sound.leaves {s : ReplicaSync} (h : s.Sound) (process : ℕ) (hholder : s.holder.isSome) :
    ({ s with waiting := s.waiting.erase process } : ReplicaSync).Sound where
  began := fun other entry hentry => by
    rw [getElem?_erase_eq] at hentry
    split at hentry
    · cases hentry
    · exact h.began other entry hentry
  began_holder := h.began_holder
  ended := h.ended
  cleared_le := h.cleared_le
  cleared := h.cleared
  started := h.started
  synced := h.synced
  failing := h.failing
  marked := h.marked
  watched := fun _ _ _ => Or.inl hholder

/-- Between passes, the lock's holder goes on where its failure and the failure marker are accounted
for. -/
theorem Sound.holds {s : ReplicaSync} (h : s.Sound) (process : ℕ) {run : SyncRun} {place : Locked}
    (failed : Bool) (hbegan : run.began ≤ s.marks)
    (hbefore : ∀ other run started, s.holder ≠ some (other, run, .syncOnce started))
    (hplace : ∀ started, place ≠ .syncOnce started)
    (hfailing : place = .recordFailure ∨ place = .release false → s.lastSucceeded = false)
    (hmarked : s.fileError = false → failed = true → s.lastSucceeded = false ∨ place = .forgetFailure) :
    ({ s with holder := some (process, run, place), failed } : ReplicaSync).Sound where
  began := h.began
  began_holder := fun _ _ _ hholder => by cases hholder; exact hbegan
  ended := h.ended
  cleared_le := h.cleared_le
  cleared := h.cleared
  started := fun _ _ started hholder => by cases hholder; exact absurd rfl (hplace started)
  synced := fun hsucceeded hpositive => by
    cases h.synced hsucceeded hpositive with
    | inl hholder =>
      obtain ⟨other, run, started, hholder⟩ := hholder
      exact absurd hholder (hbefore other run started)
    | inr hpass => exact Or.inr hpass
  failing := fun _ _ hholder => hfailing <| by
    cases hholder with
    | inl hholder => cases hholder; exact Or.inl rfl
    | inr hholder => cases hholder; exact Or.inr rfl
  marked := fun hok hfailed => (hmarked hok hfailed).imp_right fun hplace => ⟨process, run, by rw [hplace]⟩
  watched := fun _ _ _ => Or.inl rfl

/-- A pass starts and clears the mark, unless the file cannot be removed. -/
theorem Sound.clears {s : ReplicaSync} (h : s.Sound) {process : ℕ} {run : SyncRun}
    (hholder : s.holder = some (process, run, .clear)) (turn : Turn) :
    (s.stepLocked process run turn .clear).Sound := by
  have hmarked : s.fileError = false → s.failed = true → s.lastSucceeded = false := by
    intro hok hfailed
    cases h.marked hok hfailed with
    | inl hlast => exact hlast
    | inr hforget =>
      obtain ⟨other, run, hforget⟩ := hforget
      rw [hholder] at hforget
      cases hforget
  have hbegan := h.began_holder process run .clear hholder
  change Sound (ite _ _ _)
  split
  · exact {
      began := h.began
      began_holder := fun _ _ _ hnew => by cases hnew; exact hbegan
      ended := h.ended
      cleared_le := h.cleared_le
      cleared := h.cleared
      started := fun _ _ _ hnew => by cases hnew; exact h.cleared_le
      synced := fun _ _ => Or.inl ⟨process, run, s.marks, rfl⟩
      failing := fun _ _ hnew => by cases hnew with | inl hnew => cases hnew | inr hnew => cases hnew
      marked := fun hok hfailed => Or.inl (hmarked hok hfailed)
      watched := fun _ _ _ => Or.inl rfl }
  · exact {
      began := h.began
      began_holder := fun _ _ _ hnew => by cases hnew; exact hbegan
      ended := h.ended
      cleared_le := Nat.le_refl _
      cleared := fun _ => Nat.le_refl _
      started := fun _ _ _ hnew => by cases hnew; exact Nat.le_refl _
      synced := fun _ _ => Or.inl ⟨process, run, s.marks, rfl⟩
      failing := fun _ _ hnew => by cases hnew with | inl hnew => cases hnew | inr hnew => cases hnew
      marked := fun hok hfailed => Or.inl (hmarked hok hfailed)
      watched := fun _ _ _ => Or.inl rfl }

/-- The sync of a pass succeeds or fails. -/
theorem Sound.syncs {s : ReplicaSync} (h : s.Sound) {process : ℕ} {run : SyncRun} {started : ℕ}
    (hholder : s.holder = some (process, run, .syncOnce started)) (turn : Turn) :
    (s.stepLocked process run turn (.syncOnce started)).Sound := by
  have hbegan := h.began_holder process run (.syncOnce started) hholder
  change Sound (ite _ _ _)
  split
  · exact {
      began := h.began
      began_holder := fun _ _ _ hnew => by cases hnew; exact hbegan
      ended := h.ended
      cleared_le := h.cleared_le
      cleared := h.cleared
      started := fun _ _ _ hnew => nomatch hnew
      synced := fun hsucceeded => nomatch hsucceeded
      failing := fun _ _ _ => rfl
      marked := fun _ _ => Or.inl rfl
      watched := fun _ hsucceeded => nomatch hsucceeded }
  · exact {
      began := h.began
      began_holder := fun _ _ _ hnew => by cases hnew; exact hbegan
      ended := h.ended
      cleared_le := h.cleared_le
      cleared := h.cleared
      started := fun _ _ _ hnew => nomatch hnew
      synced := fun _ _ => Or.inr ⟨started, List.mem_append_right _ (List.mem_singleton_self _),
        h.started process run started hholder⟩
      failing := fun _ _ hnew => by cases hnew with | inl hnew => cases hnew | inr hnew => cases hnew
      marked := fun _ _ => Or.inr ⟨process, run, rfl⟩
      watched := fun _ _ _ => Or.inl rfl }

/-- The lock is let go between passes, after a failure or by a run that will look once more. -/
theorem Sound.lets_go {s : ReplicaSync} (h : s.Sound)
    (hholder : ∀ other run started, s.holder ≠ some (other, run, .syncOnce started))
    (hmarked : s.fileError = false → s.failed = true → s.lastSucceeded = false)
    (hwatched : s.lastSucceeded = true → s.Watching) :
    ({ s with holder := none } : ReplicaSync).Sound where
  began := h.began
  began_holder := fun _ _ _ hnew => nomatch hnew
  ended := h.ended
  cleared_le := h.cleared_le
  cleared := h.cleared
  started := fun _ _ _ hnew => nomatch hnew
  synced := fun hsucceeded hpositive => by
    cases h.synced hsucceeded hpositive with
    | inl hsync =>
      obtain ⟨other, run, started, hsync⟩ := hsync
      exact absurd hsync (hholder other run started)
    | inr hpass => exact Or.inr hpass
  failing := fun _ _ hnew => by cases hnew with | inl hnew => cases hnew | inr hnew => cases hnew
  marked := fun hok hfailed => Or.inl (hmarked hok hfailed)
  watched := fun _ hsucceeded _ => Or.inr (hwatched hsucceeded)

/-- A run that begins leaves the replica sound. -/
theorem Sound.begin {s : ReplicaSync} (h : s.Sound) (process : ℕ) (background : Bool) :
    (s.begin process background).Sound := by
  unfold ReplicaSync.begin
  split
  · exact h
  next hbusy =>
    refine h.waits process _ _ (Nat.le_refl _) fun ⟨other, run, place, hother, hplace⟩ => ?_
    refine ⟨other, run, place, ?_, hplace⟩
    rw [getElem?_insert_eq, if_neg]
    · exact hother
    · intro hsame
      apply hbusy
      rw [busy, hsame, ExtTreeMap.contains_eq_isSome_getElem?, hother]
      rfl

/-- A step without the sync lock leaves the replica sound. -/
theorem Sound.stepWaiting {s : ReplicaSync} (h : s.Sound) {process : ℕ} {run : SyncRun} {place : Waiting}
    (hprocess : s.waiting[process]? = some (run, place)) (turn : Turn) :
    (s.stepWaiting process run turn place).Sound := by
  have hbegan : run.began ≤ s.marks := h.began process (run, place) hprocess
  cases place with
  | failedRecently =>
    change Sound (ite _ _ _)
    split
    next hyoung =>
      refine h.finish process hbegan fun hok hsucceeded _ => ?_
      cases h.marked hok hyoung.1 with
      | inl hlast => rw [hlast] at hsucceeded; cases hsucceeded
      | inr hholder =>
        obtain ⟨other, otherRun, hholder⟩ := hholder
        rw [hholder]
        rfl
    · exact h.waits process run .lock hbegan fun _ => watching_insert s process run nofun
  | lock =>
    change Sound (ite _ _ _)
    split
    · exact h.fails.finish process hbegan fun hok => nomatch hok
    · split
      next hholder =>
        have hnone : ∀ other run place, s.holder ≠ some (other, run, place) := by
          intro other run place hsome
          rw [hholder] at hsome
          cases hsome
        have hclear : ({ s with holder := some (process, run, .clear) } : ReplicaSync).Sound := by
          refine h.holds process s.failed hbegan (fun other run started => hnone other run _) nofun nofun
            fun hok hfailed => (h.marked hok hfailed).imp_right fun hforget => ?_
          obtain ⟨other, otherRun, hforget⟩ := hforget
          exact absurd hforget (hnone other otherRun .forgetFailure)
        exact hclear.leaves process rfl
      next holder hholder =>
        split
        · refine h.finish process hbegan fun _ _ _ => ?_
          rw [hholder]
          rfl
        · exact h
  | recheck =>
    change Sound (ite _ _ _)
    split
    · exact h.fails.finish process hbegan fun hok => nomatch hok
    · split
      · exact h.waits process run .lock hbegan fun _ => watching_insert s process run nofun
      next hpending =>
        refine h.finish process hbegan fun _ _ hmark => ?_
        exact absurd (h.cleared (Bool.eq_false_iff.mpr hpending)) (Nat.not_le_of_lt hmark)

/-- A step of the run that holds the sync lock leaves the replica sound. -/
theorem Sound.stepLocked {s : ReplicaSync} (h : s.Sound) {process : ℕ} {run : SyncRun} {place : Locked}
    (hholder : s.holder = some (process, run, place)) (turn : Turn) :
    (s.stepLocked process run turn place).Sound := by
  have hbegan := h.began_holder process run place hholder
  -- the holder is where the step starts, and nowhere else
  have hplace : ∀ other otherRun otherPlace, s.holder = some (other, otherRun, otherPlace) → otherPlace = place := by
    intro other otherRun otherPlace hother
    rw [hholder] at hother
    cases hother
    rfl
  have hmarked : place ≠ .forgetFailure → s.fileError = false → s.failed = true → s.lastSucceeded = false := by
    intro hforget hok hfailed
    cases h.marked hok hfailed with
    | inl hlast => exact hlast
    | inr hother =>
      obtain ⟨other, otherRun, hother⟩ := hother
      exact absurd (hplace _ _ _ hother).symm hforget
  have hbetween : (∀ started, place ≠ .syncOnce started) →
      ∀ other otherRun started, s.holder ≠ some (other, otherRun, .syncOnce started) :=
    fun hsync other otherRun started hother => hsync started (hplace _ _ _ hother).symm
  cases place with
  | clear => exact h.clears hholder turn
  | syncOnce started => exact h.syncs hholder turn
  | recordFailure =>
    have hlast := h.failing process run (Or.inl hholder)
    exact h.holds process _ hbegan (hbetween nofun) nofun (fun _ => hlast) fun _ _ => Or.inl hlast
  | forgetFailure =>
    change Sound (ite _ _ _)
    split
    · exact h.fails.holds process s.failed hbegan (hbetween nofun) nofun nofun fun hok => nomatch hok
    · exact h.holds process false hbegan (hbetween nofun) nofun nofun fun _ hfailed => nomatch hfailed
  | drain =>
    have hcheck : ({ s with holder := some (process, run, .check) } : ReplicaSync).Sound :=
      h.holds process s.failed hbegan (hbetween nofun) nofun nofun fun hok hfailed =>
        Or.inl (hmarked nofun hok hfailed)
    change Sound (ite _ _ _)
    split
    · exact hcheck.markPending
    · exact hcheck
  | check =>
    change Sound (ite _ _ _)
    split
    · exact h.fails.holds process s.failed hbegan (hbetween nofun) nofun nofun fun hok => nomatch hok
    · split
      · exact h.holds process s.failed hbegan (hbetween nofun) nofun nofun fun hok hfailed =>
          Or.inl (hmarked nofun hok hfailed)
      · exact h.holds process s.failed hbegan (hbetween nofun) nofun nofun fun hok hfailed =>
          Or.inl (hmarked nofun hok hfailed)
  | release succeeded =>
    cases succeeded with
    | true =>
      have hrecheck := h.waits process run .recheck hbegan fun _ => watching_insert s process run nofun
      exact hrecheck.lets_go (hbetween nofun) (hmarked nofun)
        fun _ => watching_insert { s with holder := none } process run nofun
    | false =>
      have hlast := h.failing process run (Or.inr hholder)
      have hfree : ({ s with holder := none } : ReplicaSync).Sound :=
        h.lets_go (hbetween nofun) (hmarked nofun) fun hsucceeded => by rw [hlast] at hsucceeded; cases hsucceeded
      refine hfree.finish process hbegan fun _ hsucceeded _ => ?_
      change s.lastSucceeded = true at hsucceeded
      rw [hlast] at hsucceeded
      cases hsucceeded

/-- Every step leaves the replica sound. -/
theorem Sound.step {s : ReplicaSync} (h : s.Sound) (label : ReplicaLabel) : (s.step label).Sound := by
  cases label with
  | markPending => exact h.markPending
  | begin process background => exact h.begin process background
  | waiting process turn =>
    dsimp only [ReplicaSync.step]
    cases hprocess : s.waiting[process]? with
    | none => exact h
    | some entry => exact h.stepWaiting hprocess turn
  | locked turn =>
    dsimp only [ReplicaSync.step]
    cases hholder : s.holder with
    | none => exact h
    | some holder => exact h.stepLocked hholder turn

/-- The replica is sound after every run. -/
theorem sound_run (labels : List ReplicaLabel) : (runFrom ReplicaSync.step start labels).Sound :=
  runFrom_invariant Sound (fun _ label h => h.step label) sound_start labels

/-- A run of one sync whose file operations and sync succeed. -/
def cleanSync (process : ℕ) (background : Bool) : List ReplicaLabel :=
  .begin process background :: (if background then [.waiting process .plain] else []) ++
    [.waiting process .plain, .locked .plain, .locked .plain, .locked .plain, .locked .plain, .locked .plain,
      .locked .plain, .waiting process .plain]

/-- Once no run is under way, the last sync succeeded and no file operation failed, every mark set before
a background run that ended was followed by a pass that succeeded. -/
theorem mark_is_synced (labels : List ReplicaLabel) :
    let s := runFrom ReplicaSync.step start labels
    s.Quiet → s.lastSucceeded = true → s.fileError = false →
      ∀ began ∈ s.ended, ∀ mark < began, ∃ started ∈ s.passes, mark < started := by
  intro s hquiet hsucceeded hok began hbegan mark hmark
  have h : s.Sound := sound_run labels
  have hnobody : ¬ (s.holder.isSome ∨ s.Watching) := by
    intro hsome
    cases hsome with
    | inl hholder => rw [hquiet.1] at hholder; cases hholder
    | inr hwatching =>
      obtain ⟨process, run, place, hprocess, _⟩ := hwatching
      rw [hquiet.2] at hprocess
      simp at hprocess
  have hcleared : began ≤ s.cleared := by
    by_contra hleft
    exact hnobody (h.watched hok hsucceeded ⟨began, hbegan, Nat.lt_of_not_le hleft⟩)
  cases h.synced hsucceeded (by omega) with
  | inl hsync =>
    obtain ⟨process, run, started, hsync⟩ := hsync
    rw [hquiet.1] at hsync
    cases hsync
  | inr hpass =>
    obtain ⟨started, hmem, hstarted⟩ := hpass
    exact ⟨started, hmem, by omega⟩

/-- A background run is past the clearing of its first pass when another mark is set, whose own background run gives up
at the lock. -/
def markedMeanwhile : List ReplicaLabel :=
  [.markPending, .begin 1 true, .waiting 1 .plain, .waiting 1 .plain, .locked .plain,
    .markPending, .begin 2 true, .waiting 2 .plain, .locked .plain, .waiting 2 .plain,
    .locked .plain, .locked .plain, .locked .plain, .locked .plain, .locked .plain, .locked .plain, .locked .plain,
    .locked .plain, .locked .plain, .waiting 1 .plain]

/-- The mark that was set meanwhile is synced by the second pass of the run that was under way. -/
theorem mark_is_synced_sample :
    let s := runFrom ReplicaSync.step start markedMeanwhile
    s.ended = [2, 1] ∧ s.passes = [1, 2] ∧ ∀ began ∈ s.ended, ∀ mark < began, ∃ started ∈ s.passes, mark < started :=
  ⟨by decide +kernel, by decide +kernel, mark_is_synced markedMeanwhile ⟨by decide +kernel, by decide +kernel⟩
    (by decide +kernel) (by decide +kernel)⟩

/-- A mark is left behind, although the last sync succeeded, by a background run that cannot open its
lock, and by one that finds the failure marker which that sync could not remove. -/
theorem mark_left_behind :
    let unopened := runFrom ReplicaSync.step start
      (cleanSync 0 false ++ [.markPending, .begin 1 true, .waiting 1 .plain, .waiting 1 .ioError])
    let unremoved := runFrom ReplicaSync.step start
      ([.begin 0 false, .waiting 0 .plain, .locked .plain, .locked .failed, .locked .plain, .locked .plain,
        .begin 0 false, .waiting 0 .plain, .locked .plain, .locked .plain, .locked .ioError, .locked .plain,
        .locked .plain, .locked .plain, .waiting 0 .plain, .markPending, .begin 1 true, .waiting 1 .young])
    (unopened.Quiet ∧ unopened.lastSucceeded = true ∧ unopened.failed = false ∧ unopened.ended = [1] ∧
      unopened.passes = [0]) ∧
    unremoved.Quiet ∧ unremoved.lastSucceeded = true ∧ unremoved.ended = [1] ∧ unremoved.passes = [0] := by
  refine ⟨⟨⟨?_, ?_⟩, ?_⟩, ⟨?_, ?_⟩, ?_⟩ <;> decide +kernel

end Devkit.Todos.ReplicaSync
