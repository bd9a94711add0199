import Devkit.Locks.Exclusion

/-!
# Protection after a granted write

A granted write rests on a row at or above the path, held by the writer or an ancestor.
While that row is neither released nor expired it outlives every mutation, and it denies
other sessions every write and every batch that overlaps the path.

A write first drops the dead rows. Of the others it changes at most the stamps, to its own clock reading,
and a granted one leaves a covering row stamped with it.
-/

namespace Devkit.Locks

open Devkit.Common
open Devkit.Library

/-- The row permits `writer` to write `path` under `root`, and reserves it. -/
structure Covers (root : Root) (path writer : String) (e : LockEntry) : Prop where
  root_eq : e.root = root
  above : e.path = "." ∨ Ancestor e.path path
  holder_above : Ancestor e.holder writer

/-- A covering row after its lease changed hands or length still covers. -/
theorem Covers.same {root : Root} {path writer : String} {e e' : LockEntry}
    (h : Covers root path writer e) (hsame : SameClaim e e') : Covers root path writer e' := by
  obtain ⟨hroot, hpath, hholder⟩ := hsame
  exact ⟨hroot.trans h.root_eq, hpath ▸ h.above, hholder ▸ h.holder_above⟩

/-- Whoever is on one line with a covering row's holder is of the writer's session. -/
theorem Covers.session_eq {root : Root} {path writer other : String} {e : LockEntry}
    (h : Covers root path writer e) (hline : OneLine e.holder other) : session other = session writer :=
  hline.session_eq.symm.trans (OneLine.session_eq (Or.inl h.holder_above))

/-- A granted write leaves a covering row with a fresh lease. -/
theorem decideWrite_covers (m : Moment) (d : Data) (root : Root) (path writer : String)
    (pid : Option ℕ) (note : Option String) (ttl : ℕ)
    (hgranted : (d.decideWrite m root path writer pid note ttl).2 = .acquired ∨
      (d.decideWrite m root path writer pid note ttl).2 = .allowedByOwnership) :
    ∃ k e, (d.decideWrite m root path writer pid note ttl).1.Row k e ∧
      Covers root path writer e ∧ e.ts = m.now := by
  rcases Data.decideWrite_cases m root path writer pid note ttl d with
    ⟨_, hd⟩ | ⟨hblock, ⟨k, e, hrow, hconcerns, hcovers⟩, hd⟩ | ⟨_, _, hd⟩
  · simp [hd] at hgranted
  · obtain ⟨hroot, hlive, hover⟩ := (Data.concerns_iff m root path).mp hconcerns
    rw [hd]
    refine ⟨k, { e with ts := m.now }, (Data.row_renewed m root path).mpr ⟨e, hrow, ?_⟩, ?_, rfl⟩
    · rw [if_pos hconcerns]
    · exact ⟨hroot, coversChildren_iff.mp hcovers,
        Data.writeBlockers_eq_nil_iff.mp hblock k e hrow hlive hroot hover⟩
  · rw [hd]
    refine ⟨keyFor root path, Data.ownRow m root writer pid note ttl path, ?_, ?_, rfl⟩
    · rw [Data.Row, getElem?_insert_eq, if_pos rfl]
    · exact ⟨rfl, Or.inr (AtOrAbove.refl '/' _), AtOrAbove.refl '/' _⟩

/-- The row under `key` is live when the mutation runs, and the mutation does not release it. -/
def Undisturbed (key : String) (d : Data) (step : Step) : Prop :=
  (∀ e, d.Row key e → Live step.moment e) ∧
    (step.op.isRelease = true → (∃ e, d.Row key e) → ∃ e, (apply d step).Row key e)

/-- A release leaves the rows it keeps as they were. -/
theorem row_of_row_release {d : Data} {step : Step} (hstep : step.op.isRelease = true)
    {k : String} {e : LockEntry} (h : (apply d step).Row k e) : d.Row k e := by
  obtain ⟨m, op⟩ := step
  cases op with
  | acquire | writeDecide | prune => simp [Op.isRelease] at hstep
  | release root holder paths force => exact Data.row_of_row_doRelease h
  | releaseAll holder => exact (Data.row_releaseAll.mp h).1
  | releasePrefix top => exact (Data.row_releasePrefix.mp h).1

/-- An undisturbed row outlives a mutation as the same claim. -/
theorem Undisturbed.survives {d : Data} (hd : Keyed d) {key : String} {step : Step}
    (h : Undisturbed key d step) {e : LockEntry} (hrow : d.Row key e) :
    ∃ e', (apply d step).Row key e' ∧ SameClaim e e' := by
  cases hrel : step.op.isRelease with
  | false => exact apply_survives hd hrel hrow (h.1 e hrow)
  | true =>
    obtain ⟨e', he'⟩ := h.2 hrel ⟨e, hrow⟩
    obtain rfl : e = e' := hrow.unique (row_of_row_release hrel he')
    exact ⟨e, he', rfl, rfl, rfl⟩

/-- A row undisturbed along a run is in the registry at its end, as the same claim. -/
theorem survives_run {d : Data} (hd : Keyed d) {key : String} {e : LockEntry} (hrow : d.Row key e)
    {later : List Step} (h : Along apply (Undisturbed key) d later) :
    ∃ e', (run d later).Row key e' ∧ SameClaim e e' := by
  refine (Along.invariant (fun d => Keyed d ∧ ∃ e', d.Row key e' ∧ SameClaim e e') ?_ h
    ⟨hd, e, hrow, rfl, rfl, rfl⟩).2
  rintro d step ⟨hkeyed, e', hrow', hsame⟩ hstep
  obtain ⟨e'', hrow'', hsame'⟩ := hstep.survives hkeyed hrow'
  exact ⟨hkeyed.apply step, e'', hrow'', hsame'.1.trans hsame.1, hsame'.2.1.trans hsame.2.1,
    hsame'.2.2.trans hsame.2.2⟩

section Denial

variable {m : Moment} {d : Data} {root : Root} {path writer other name key : String} {e : LockEntry}

/-- A live covering row denies another session a write, and the registry stays as it was. -/
theorem decideWrite_denied (hrow : d.Row key e) (hcovers : Covers root path writer e) (hlive : Live m e)
    (hsession : session other ≠ session writer) (hover : Overlap name path) (pid : Option ℕ)
    (note : Option String) (ttl : ℕ) :
    ∃ conflicts, conflicts ≠ [] ∧
      d.decideWrite m root name other pid note ttl = (d, .denied conflicts) := by
  rcases Data.decideWrite_cases m root name other pid note ttl d with
    ⟨hblock, hd⟩ | ⟨hblock, _⟩ | ⟨hblock, _⟩
  · exact ⟨_, hblock, hd⟩
  all_goals
    have hancestor := Data.writeBlockers_eq_nil_iff.mp hblock key e hrow hlive hcovers.root_eq
      (Overlap.of_covers hcovers.above hover.symm)
    exact absurd (hcovers.session_eq (Or.inl hancestor)) hsession

/-- A live covering row fails another session's batch, and the registry stays as it was. -/
theorem tryAcquire_denied (hrow : d.Row key e) (hcovers : Covers root path writer e) (hlive : Live m e)
    (hsession : session other ≠ session writer) (hover : Overlap name path) {paths : List String}
    (hname : name ∈ paths) (pid : Option ℕ) (note : Option String) (ttl : ℕ) :
    ∃ conflicts, conflicts ≠ [] ∧
      d.tryAcquire m root paths other pid note ttl = (d, ⟨[], [], conflicts⟩) := by
  have hconflict : d.check m root paths other ≠ [] := fun hclean =>
    hsession (hcovers.session_eq (Data.check_eq_nil_iff.mp hclean name hname key e hrow hlive
      hcovers.root_eq (Overlap.of_covers hcovers.above hover.symm)))
  exact ⟨_, hconflict, Data.tryAcquire_of_conflict m root other pid note ttl hconflict⟩

end Denial

/-- After a granted write in a reachable registry some row covers the path, and while such a
row is undisturbed no other session writes or acquires anything that overlaps the path. -/
theorem granted_write_stays_protected (before : List Step) (m : Moment) (root : Root)
    (path writer : String) (pid : Option ℕ) (note : Option String) (ttl : ℕ)
    (hgranted :
      ((run Data.empty before).decideWrite m root path writer pid note ttl).2 = .acquired ∨
      ((run Data.empty before).decideWrite m root path writer pid note ttl).2 = .allowedByOwnership) :
    let written := ((run Data.empty before).decideWrite m root path writer pid note ttl).1
    (∃ k e, written.Row k e ∧ Covers root path writer e ∧ e.ts = m.now) ∧
      ∀ k e, written.Row k e → Covers root path writer e →
        ∀ later, Along apply (Undisturbed k) written later →
        ∀ m', (∀ e', (run written later).Row k e' → Live m' e') →
        ∀ other name, session other ≠ session writer → Overlap name path →
        ∀ (pid' : Option ℕ) (note' : Option String) (ttl' : ℕ),
          (∃ conflicts, conflicts ≠ [] ∧
            (run written later).writeDecideWith m' root other name pid' note' ttl' =
              (((run written later).pruneDead m').1, .denied conflicts)) ∧
          ∀ paths, name ∈ paths → ∃ conflicts, conflicts ≠ [] ∧
            (run written later).acquireWith m' root other paths pid' note' ttl' =
              (((run written later).pruneDead m').1, ⟨[], [], conflicts⟩) := by
  intro written
  refine ⟨decideWrite_covers m _ root path writer pid note ttl hgranted, ?_⟩
  intro k e hrow hcovers later hlater m' hunexpired other name hsession hover pid' note' ttl'
  have hkeyed : Keyed written :=
    (keyed_run before).admits (Data.decideWrite_admits m root path writer pid note ttl _)
  obtain ⟨e', hrow', hsame⟩ := survives_run hkeyed hrow hlater
  have hlive := hunexpired e' hrow'
  have hpruned := (Data.row_pruneDead m' _ k e').mpr ⟨hrow', hlive⟩
  exact ⟨decideWrite_denied hpruned (hcovers.same hsame) hlive hsession hover pid' note' ttl',
    fun paths hname =>
      tryAcquire_denied hpruned (hcovers.same hsame) hlive hsession hover hname pid' note' ttl'⟩

section Example

/-- What happens after an agent's write to a file: its session claims the file's directory,
and a stranger asks to release the file. -/
def laterSteps : List Step :=
  [⟨allAlive 20, .acquire sampleRoot "s" ["src"] none none 60⟩,
   ⟨allAlive 30, .release sampleRoot "t" ["src/lib.rs"] false⟩]

/-- The registry right after that write. -/
def writtenSample : Data :=
  (Data.empty.decideWrite (allAlive 10) sampleRoot "src/lib.rs" "s/agent" none none 60).1

/-- The row the write left. -/
def agentRow : LockEntry := ⟨"src/lib.rs", sampleRoot, "s/agent", none, none, 10, 60⟩

/-- The stranger may not write the directory meanwhile. -/
theorem granted_write_stays_protected_sample :
    ∃ conflicts, conflicts ≠ [] ∧
      (run writtenSample laterSteps).writeDecideWith (allAlive 40) sampleRoot "t" "src" none none 60 =
        (((run writtenSample laterSteps).pruneDead (allAlive 40)).1, .denied conflicts) := by
  have hkept : Along apply (Undisturbed (keyFor sampleRoot "src/lib.rs")) writtenSample laterSteps := by
    refine ⟨⟨fun e hrow => ?_, fun h => by cases h⟩, ⟨fun e hrow => ?_, fun _ _ => ?_⟩, trivial⟩
    · obtain rfl : agentRow = e := Data.Row.unique (by decide +kernel) hrow
      decide
    · obtain rfl : agentRow = e := Data.Row.unique (by decide +kernel) hrow
      decide
    · exact ⟨agentRow, by decide +kernel⟩
  refine ((granted_write_stays_protected [] (allAlive 10) sampleRoot "src/lib.rs" "s/agent" none none 60
    (Or.inl (by decide +kernel))).2 (keyFor sampleRoot "src/lib.rs") agentRow (by decide +kernel)
    ⟨rfl, Or.inr (AtOrAbove.refl '/' _), AtOrAbove.refl '/' _⟩ laterSteps hkept (allAlive 40) ?_
    "t" "src" (by decide) (pathsOverlap_iff.mp (by decide)) none none 60).1
  intro e hrow
  obtain rfl : agentRow = e := Data.Row.unique (by decide +kernel) hrow
  decide

end Example

/-- A row is live while its lease runs and its anchor process, if it has one, is alive. -/
theorem live_iff {m : Moment} {e : LockEntry} : Live m e ↔
    (e.ttl = 0 ∨ m.now - e.ts < e.ttl) ∧ ∀ pid, e.pid = some pid → m.pidAlive pid = true := by
  unfold Live entryDead
  by_cases hlapsed : (e.ttl != 0 && decide (e.ttl ≤ m.now - e.ts)) = true
  · rw [if_pos hlapsed]
    simp only [Bool.and_eq_true, bne_iff_ne, decide_eq_true_eq] at hlapsed
    refine iff_of_false (by simp) fun h => ?_
    omega
  · rw [if_neg hlapsed]
    simp only [Bool.and_eq_true, bne_iff_ne, decide_eq_true_eq, not_and, Nat.not_le] at hlapsed
    have hleased : e.ttl = 0 ∨ m.now - e.ts < e.ttl := or_iff_not_imp_left.mpr hlapsed
    cases hpid : e.pid with
    | none => simp [hleased]
    | some pid => simp [hleased]

/-- The same row, perhaps with another stamp. -/
def Restamped (e e' : LockEntry) : Prop := e' = { e with ts := e'.ts }

/-- A row is itself, restamped. -/
theorem Restamped.refl (e : LockEntry) : Restamped e e := rfl

/-- Restamping twice is restamping. -/
theorem Restamped.trans {e e' e'' : LockEntry} (h : Restamped e e') (h' : Restamped e' e'') : Restamped e e'' := by
  rw [Restamped, h', h]

/-- A renewed row is restamped. -/
theorem Renewed.restamped {m : Moment} {e e' : LockEntry} (h : Renewed m e e') : Restamped e e' := by
  cases h with
  | inl heq => exact heq ▸ Restamped.refl e
  | inr hren =>
    rw [hren.2]
    rfl

/-- A restamped row is the same claim. -/
theorem Restamped.same {e e' : LockEntry} (h : Restamped e e') : SameClaim e e' := by
  rw [h]
  exact ⟨rfl, rfl, rfl⟩

/-- A live row stays live with a later stamp. -/
theorem Live.restamp {m : Moment} {e e' : LockEntry} (hsame : Restamped e e') (hts : e.ts ≤ e'.ts)
    (h : Live m e) : Live m e' := by
  obtain ⟨hlease, hpid⟩ := live_iff.mp h
  have httl : e'.ttl = e.ttl := by rw [hsame]
  have hanchor : e'.pid = e.pid := by rw [hsame]
  rw [live_iff, httl, hanchor]
  exact ⟨hlease.imp_right fun hlt => by omega, hpid⟩

namespace Data

section Write

variable (m : Moment) (d : Data) (root : Root) (holder path : String) (pid : Option ℕ) (note : Option String)
  (ttl : ℕ)

/-- A row after a write was there before, perhaps restamped, or is the one the write made. -/
theorem row_writeDecideWith {k : String} {e' : LockEntry}
    (h : (d.writeDecideWith m root holder path pid note ttl).1.Row k e') :
    (∃ e, d.Row k e ∧ Restamped e e') ∨ e' = ownRow m root holder pid note ttl path := by
  refine (row_decideWrite m root path holder pid note ttl h).imp_left fun hold => ?_
  obtain ⟨e, hrow, hren⟩ := hold
  exact ⟨e, ((row_pruneDead m d k e).mp hrow).1, hren.restamped⟩

/-- A row live at a write and stamped before it is there afterwards, stamped no later than the write. -/
theorem writeDecideWith_keeps (hd : Keyed d) {k : String} {e : LockEntry} (hrow : d.Row k e) (hlive : Live m e)
    (hts : e.ts ≤ m.now) : ∃ e', (d.writeDecideWith m root holder path pid note ttl).1.Row k e' ∧
      Restamped e e' ∧ e.ts ≤ e'.ts ∧ e'.ts ≤ m.now := by
  obtain ⟨e', hrow', hren⟩ := decideWrite_renews m root path holder pid note ttl (d.pruneDead m).1
    (hd k e hrow) ((row_pruneDead m d k e).mpr ⟨hrow, hlive⟩) hlive
  refine ⟨e', hrow', hren.restamped, ?_⟩
  cases hren with
  | inl heq =>
    rw [heq]
    exact ⟨le_rfl, hts⟩
  | inr hstamp =>
    rw [hstamp.2]
    exact ⟨hts, le_rfl⟩

/-- A write that names no conflict leaves a covering row stamped with its clock reading. -/
theorem writeDecideWith_covers
    (hgranted : ∀ conflicts, (d.writeDecideWith m root holder path pid note ttl).2 = .denied conflicts →
      conflicts = []) :
    ∃ k e, (d.writeDecideWith m root holder path pid note ttl).1.Row k e ∧ Covers root path holder e ∧
      e.ts = m.now := by
  refine decideWrite_covers m (d.pruneDead m).1 root path holder pid note ttl ?_
  rcases decideWrite_cases m root path holder pid note ttl (d.pruneDead m).1 with
    ⟨hblock, hd⟩ | ⟨_, _, hd⟩ | ⟨_, _, hd⟩
  · exact absurd (hgranted _ (congrArg Prod.snd hd)) hblock
  · exact Or.inr (congrArg Prod.snd hd)
  · exact Or.inl (congrArg Prod.snd hd)

end Write

end Data

end Devkit.Locks
