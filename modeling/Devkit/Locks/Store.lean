import Devkit.Library.Runs
import Devkit.Locks.Grants

/-!
# Operations on the stored registry

Every mutation of the registry is one critical section. Acquiring and writing prune dead
rows first; releases do not. A prune commits only when an earlier snapshot showed a dead
row, so it carries that snapshot. A run is a list of such sections, each at its moment.
-/

namespace Devkit.Locks

open Devkit.Library

/-- Later moments have later clocks, and a process once seen dead stays dead. -/
instance : Preorder Moment where
  le i j := i.now ≤ j.now ∧ ∀ pid, j.pidAlive pid = true → i.pidAlive pid = true
  le_refl _ := ⟨le_rfl, fun _ h => h⟩
  le_trans _ _ _ hij hjk := ⟨hij.1.trans hjk.1, fun pid h => hij.2 pid (hjk.2 pid h)⟩

namespace Data

/-- Prune dead rows, then the all-or-nothing acquire. -/
def acquireWith (m : Moment) (d : Data) (root : Root) (holder : String) (paths : List String)
    (pid : Option ℕ) (note : Option String) (ttl : ℕ) : Data × AcquireOutcome :=
  (d.pruneDead m).1.tryAcquire m root paths holder pid note ttl

/-- Prune dead rows, then decide one write. -/
def writeDecideWith (m : Moment) (d : Data) (root : Root) (holder path : String)
    (pid : Option ℕ) (note : Option String) (ttl : ℕ) : Data × WriteDecision :=
  (d.pruneDead m).1.decideWrite m root path holder pid note ttl

/-- Drop dead rows, unless the snapshot read before the critical section showed none. -/
def pruneWith (m : Moment) (d snapshot : Data) : Data × ℕ :=
  if (snapshot.deadKeys m).isEmpty then (d, 0) else d.pruneDead m

end Data

/-- One mutation of the registry, as a client asks for it. -/
inductive Op
  | acquire (root : Root) (holder : String) (paths : List String) (pid : Option ℕ)
      (note : Option String) (ttl : ℕ)
  | writeDecide (root : Root) (holder path : String) (pid : Option ℕ) (note : Option String) (ttl : ℕ)
  | release (root : Root) (holder : String) (paths : List String) (force : Bool)
  | releaseAll (holder : String)
  | releasePrefix (top : String)
  | prune (snapshot : Data)

/-- A mutation and the moment of its critical section. -/
structure Step where
  moment : Moment
  op : Op

/-- The registry a mutation leaves. -/
def apply (d : Data) (step : Step) : Data :=
  match step.op with
  | .acquire root holder paths pid note ttl =>
    (d.acquireWith step.moment root holder paths pid note ttl).1
  | .writeDecide root holder path pid note ttl =>
    (d.writeDecideWith step.moment root holder path pid note ttl).1
  | .release root holder paths force => (d.doRelease root paths holder force).1
  | .releaseAll holder => (d.releaseAll holder).1
  | .releasePrefix top => (d.releasePrefix top).1
  | .prune snapshot => (d.pruneWith step.moment snapshot).1

/-- The operations that give rows up on request, rather than because they died. -/
def Op.isRelease : Op → Bool
  | .release .. | .releaseAll _ | .releasePrefix _ => true
  | _ => false

/-- The registry after a run of mutations. -/
def run (d : Data) (steps : List Step) : Data := runFrom apply d steps

/-- The run starts no earlier than `start`, its moments never go back, and it is over by `finish`. -/
def Chronological (start : Moment) (steps : List Step) (finish : Moment) : Prop :=
  List.IsChain (· ≤ ·) (start :: steps.map Step.moment ++ [finish])

/-- A row live later was live before. -/
theorem Live.of_le {i j : Moment} (hij : i ≤ j) {e : LockEntry} (h : Live j e) : Live i e := by
  unfold Live entryDead at h ⊢
  have hlapse : ¬ (e.ttl != 0 && decide (e.ttl ≤ j.now - e.ts)) = true := by
    intro hl
    rw [if_pos (by simpa using hl)] at h
    contradiction
  have hfresh : ¬ (e.ttl != 0 && decide (e.ttl ≤ i.now - e.ts)) = true := by
    have := hij.1
    simp only [Bool.and_eq_true, bne_iff_ne, ne_eq, decide_eq_true_eq, not_and] at hlapse ⊢
    intro hne
    have := hlapse hne
    omega
  rw [if_neg (by simpa using hlapse)] at h
  rw [if_neg (by simpa using hfresh)]
  cases hpid : e.pid with
  | none => rfl
  | some pid =>
    simp only [hpid, Bool.not_eq_false'] at h ⊢
    exact hij.2 pid h

/-- Pruning and then operating admits what the operation admits. -/
theorem Admits.after_prune {m : Moment} {d d' : Data} (h : Admits m (d.pruneDead m).1 d') :
    Admits m d d' := by
  obtain ⟨holder, h⟩ := h
  refine ⟨holder, fun k e' hrow => ?_⟩
  rcases h k e' hrow with ⟨e, he, hren⟩ | ⟨hholder, hkey, hfree⟩
  · exact Or.inl ⟨e, ((Data.row_pruneDead m d k e).mp he).1, hren⟩
  · exact Or.inr ⟨hholder, hkey, fun k e he hlive =>
      hfree k e ((Data.row_pruneDead m d k e).mpr ⟨he, hlive⟩) hlive⟩

/-- Every mutation admits only rows that nothing obstructs. -/
theorem apply_admits (d : Data) (step : Step) : Admits step.moment d (apply d step) := by
  obtain ⟨m, op⟩ := step
  cases op with
  | acquire root holder paths pid note ttl =>
    exact (Data.tryAcquire_admits m root holder pid note ttl _ paths).after_prune
  | writeDecide root holder path pid note ttl =>
    exact (Data.decideWrite_admits m root path holder pid note ttl _).after_prune
  | release root holder paths force => exact Admits.of_subset fun _ _ => Data.row_of_row_doRelease
  | releaseAll holder => exact Admits.of_subset fun _ _ h => (Data.row_releaseAll.mp h).1
  | releasePrefix top => exact Admits.of_subset fun _ _ h => (Data.row_releasePrefix.mp h).1
  | prune snapshot =>
    refine Admits.of_subset fun k e h => ?_
    simp only [apply, Data.pruneWith] at h
    split at h
    · exact h
    · exact ((Data.row_pruneDead m d k e).mp h).1

/-- Every row is stored under the key of its own root and path. -/
def Keyed (d : Data) : Prop := ∀ k e, d.Row k e → k = keyFor e.root e.path

/-- Rows that were renewed or admitted are under their keys. -/
theorem Keyed.admits {m : Moment} {d d' : Data} (h : Keyed d) (hadmits : Admits m d d') : Keyed d' := by
  obtain ⟨holder, hadmits⟩ := hadmits
  intro k e' hrow
  rcases hadmits k e' hrow with ⟨e, he, hren⟩ | ⟨_, hkey, _⟩
  · obtain ⟨hroot, hpath, _⟩ := hren.same
    rw [hroot, hpath]
    exact h k e he
  · exact hkey

/-- A mutation keeps rows under their keys. -/
theorem Keyed.apply {d : Data} (h : Keyed d) (step : Step) : Keyed (apply d step) :=
  h.admits (apply_admits d step)

/-- In every reachable registry, rows are under their keys. -/
theorem keyed_run (steps : List Step) : Keyed (run Data.empty steps) :=
  runFrom_invariant Keyed (fun _ step h => h.apply step)
    (fun k e hrow => by simp [Data.Row, Data.empty] at hrow) steps

/-- A mutation that is not a release keeps every row live at its moment, as the same claim. -/
theorem apply_survives {d : Data} (hd : Keyed d) {step : Step} (hstep : step.op.isRelease = false)
    {k : String} {e : LockEntry} (hrow : d.Row k e) (hlive : Live step.moment e) :
    ∃ e', (apply d step).Row k e' ∧ SameClaim e e' := by
  obtain ⟨m, op⟩ := step
  have hpruned : (d.pruneDead m).1.Row k e := (Data.row_pruneDead m d k e).mpr ⟨hrow, hlive⟩
  cases op with
  | acquire root holder paths pid note ttl =>
    exact Data.tryAcquire_survives m root holder pid note ttl _ paths (hd k e hrow) hpruned hlive
  | writeDecide root holder path pid note ttl =>
    exact Data.decideWrite_survives m root path holder pid note ttl _ (hd k e hrow) hpruned hlive
  | release | releaseAll | releasePrefix => simp [Op.isRelease] at hstep
  | prune snapshot =>
    refine ⟨e, ?_, rfl, rfl, rfl⟩
    simp only [apply, Data.pruneWith]
    split
    · exact hrow
    · exact hpruned

end Devkit.Locks
