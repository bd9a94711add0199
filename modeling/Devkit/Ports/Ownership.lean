import Devkit.Ports.Clients

/-!
# Who owns a row

Reserving keeps at most one row per owner. Recording a process writes the recorder's row at
a port whatever is there, so it keeps ownership exactly when the port carries the recorder's
own row, or is free while the recorder has no other.
-/

namespace Devkit.Ports

open Devkit.Library
open Std

/-- Every owner has at most one row. -/
def Data.OneEach (d : Data) : Prop :=
  ∀ port port' e e', d.Row port e → d.Row port' e' → e.owner = e'.owner → port = port'

/-- The step leaves at most one row per owner, and recording a process overwrites no other
owner's row. -/
def KeepsOwners (s : Clients) (label : Label) : Prop :=
  (s.step label).registry.OneEach ∧
    match label with
    | .recordPid _ _ port owner _ _ => ∀ e, s.registry.Row port e → e.owner = owner
    | _ => True

/-- A process is recorded at a port with the recorder's own row, or at a free one while the
recorder has no row. -/
def RecordsOwn (s : Clients) : Label → Prop
  | .recordPid _ _ port owner _ _ =>
    (∃ e, s.registry.Row port e ∧ e.owner = owner) ∨
      s.registry.Free port ∧ ∀ other e, s.registry.Row other e → e.owner ≠ owner
  | _ => True

/-- Processes are recorded only for ports an earlier allocation returned to the recorder. -/
def RecordsGranted (s : Clients) : Label → Prop
  | .recordPid client _ port owner _ _ => ⟨client, owner, port⟩ ∈ s.grants
  | _ => True

/-- Removing rows keeps at most one per owner. -/
theorem Data.OneEach.subset {d d' : Data} (h : d.OneEach) (hsub : ∀ port e, d'.Row port e → d.Row port e) :
    d'.OneEach :=
  fun port port' e e' hrow hrow' => h port port' e e' (hsub port e hrow) (hsub port' e' hrow')

/-- Reserving keeps at most one row per owner. -/
theorem Data.OneEach.reserves {world : World} {owner : Owner} {d d' : Data} (h : d.OneEach)
    (hreserves : Reserves world owner d d') : d'.OneEach := by
  rcases hreserves with ⟨_, _, rfl⟩ | ⟨port, hnone, _, rfl⟩
  · exact h
  · intro port₁ port₂ e₁ e₂ h₁ h₂ howner
    rw [Data.row_reserve] at h₁ h₂
    split at h₁ <;> split at h₂
    · rename_i heq₁ heq₂
      exact heq₁.symm.trans heq₂
    · subst h₁
      exact absurd howner.symm (Data.not_row_of_holds_eq_none hnone h₂)
    · subst h₂
      exact absurd howner (Data.not_row_of_holds_eq_none hnone h₁)
    · exact h port₁ port₂ e₁ e₂ h₁ h₂ howner

/-- Recording a process keeps ownership exactly when it records the recorder's own row. -/
theorem keepsOwners_recordPid_iff {s : Clients} (h : s.registry.OneEach) {client : ℕ} {world : World}
    {port : UInt16} {owner : Owner} {pid : ℕ} {logfile : String} :
    KeepsOwners s (.recordPid client world port owner pid logfile) ↔
      RecordsOwn s (.recordPid client world port owner pid logfile) := by
  obtain ⟨new, hnew⟩ := Data.exists_row_recordPid world s.registry port owner pid logfile
  have hnewOwner := (Data.owner_recordPid hnew).1
  constructor
  · rintro ⟨hone, hown⟩
    cases hrow : s.registry.entries[port]? with
    | some e => exact Or.inl ⟨e, hrow, hown e hrow⟩
    | none =>
      refine Or.inr ⟨hrow, fun other e hother howner => ?_⟩
      have hne : port ≠ other := by
        rintro rfl
        rw [Data.Row, hrow] at hother
        contradiction
      exact hne (hone port other new e hnew ((Data.row_recordPid hne).mpr hother)
        (hnewOwner.trans howner.symm))
  · intro hrecords
    have hown : ∀ e, s.registry.Row port e → e.owner = owner := by
      intro e hrow
      rcases hrecords with ⟨e', hrow', howner⟩ | ⟨hfree, _⟩
      · exact hrow.unique hrow' ▸ howner
      · rw [Data.Row, hfree] at hrow
        contradiction
    have hothers : ∀ other e, port ≠ other → s.registry.Row other e → e.owner ≠ owner := by
      intro other e hne hother howner
      rcases hrecords with ⟨e', hrow', howner'⟩ | ⟨_, hnone⟩
      · exact hne (h port other e' e hrow' hother (howner'.trans howner.symm))
      · exact hnone other e hother howner
    refine ⟨fun port₁ port₂ e₁ e₂ h₁ h₂ howner => ?_, hown⟩
    by_cases heq₁ : port = port₁ <;> by_cases heq₂ : port = port₂
    · exact heq₁.symm.trans heq₂
    · subst heq₁
      have h₂' := (Data.row_recordPid heq₂).mp h₂
      exact absurd (howner.symm.trans (Data.owner_recordPid h₁).1) (hothers port₂ e₂ heq₂ h₂')
    · subst heq₂
      have h₁' := (Data.row_recordPid heq₁).mp h₁
      exact absurd (howner.trans (Data.owner_recordPid h₂).1) (hothers port₁ e₁ heq₁ h₁')
    · exact h port₁ port₂ e₁ e₂ ((Data.row_recordPid heq₁).mp h₁) ((Data.row_recordPid heq₂).mp h₂) howner

/-- Every section but the recording of a process keeps at most one row per owner. -/
theorem Data.OneEach.step {s : Clients} (h : s.registry.OneEach) (label : Label)
    (hlabel : ∀ client world port owner pid logfile,
      label ≠ .recordPid client world port owner pid logfile) : (s.step label).registry.OneEach := by
  cases label with
  | allocRead client world holder role reqs =>
    simp only [Clients.step]
    split <;> exact h
  | pruneProbe client world =>
    simp only [Clients.step]
    split <;> exact h
  | commit client world =>
    simp only [Clients.step, Clients.commit]
    split
    · exact h
    · split
      · exact h
      · rename_i hcommit
        exact commitAlloc_invariant Data.OneEach (fun _ _ _ hd => hd.reserves) hcommit h
    · exact h.subset fun _ _ hrow => (Data.row_removePorts.mp hrow).2
  | giveUp client => exact h
  | recordPid client world port owner pid logfile => exact absurd rfl (hlabel client world port owner pid logfile)
  | release holder role => exact h.subset fun _ _ => Data.row_of_row_release
  | releasePorts ports => exact h.subset fun _ _ => Data.row_of_row_releasePorts

/-- A section keeps ownership exactly when, if it records a process, it records the recorder's
own row. -/
theorem keepsOwners_iff {s : Clients} (h : s.registry.OneEach) (label : Label) :
    KeepsOwners s label ↔ RecordsOwn s label := by
  cases label with
  | recordPid => exact keepsOwners_recordPid_iff h
  | allocRead | pruneProbe | commit | giveUp | release | releasePorts =>
    refine iff_of_true ⟨h.step _ fun _ _ _ _ _ _ => ?_, trivial⟩ trivial
    exact Label.noConfusion

/-- In every run from the empty registry: each state reached has at most one row per owner and
no recording overwrites another owner's row, exactly when each process is recorded at a port
with the recorder's own row, or at a free one while the recorder has no row. -/
theorem rows_stay_owned_iff (labels : List Label) :
    Along Clients.step KeepsOwners (Clients.start Data.empty) labels ↔
      Along Clients.step RecordsOwn (Clients.start Data.empty) labels := by
  have hempty : (Clients.start Data.empty).registry.OneEach := fun _ _ _ _ hrow => by
    simp [Data.Row, Clients.start, Data.empty] at hrow
  exact along_congr (fun s : Clients => s.registry.OneEach) (fun s label h => keepsOwners_iff h label)
    (fun s label _ hkeeps => hkeeps.1) hempty

section Example

/-- Everything lives and nothing listens. -/
def quietWorld : World := ⟨0, fun _ => true, fun _ => true, fun _ => false⟩

/-- One worktree's server and another's. -/
def firstOwner : Owner := ⟨"/w1", "api", .workspace⟩

/-- The server of another worktree. -/
def secondOwner : Owner := ⟨"/w2", "web", .workspace⟩

/-- A port is handed to one worktree, released, handed to another, and then the first records
the process it has started meanwhile. -/
def lateRecordLabels : List Label :=
  [.allocRead 1 quietWorld "/w1" .workspace [⟨"api", 4000⟩], .commit 1 quietWorld,
   .release "/w1" none,
   .allocRead 2 quietWorld "/w2" .workspace [⟨"web", 4000⟩], .commit 2 quietWorld,
   .recordPid 1 quietWorld 4000 firstOwner 7 "/w1/api.log"]

/-- The late recording, for a port granted to the recorder, overwrites the other worktree's row. -/
theorem late_record_not_keepsOwners :
    Along Clients.step RecordsGranted (Clients.start Data.empty) lateRecordLabels ∧
      ¬ Along Clients.step KeepsOwners (Clients.start Data.empty) lateRecordLabels := by
  refine ⟨⟨trivial, trivial, trivial, trivial, trivial, ?_, trivial⟩, fun h => ?_⟩
  · change (⟨1, firstOwner, 4000⟩ : Grant) ∈ _
    decide +kernel
  · have hrecord := Along.at_step (lateRecordLabels.take 5) []
      (.recordPid 1 quietWorld 4000 firstOwner 7 "/w1/api.log") h
    have hrow : (runFrom Clients.step (Clients.start Data.empty) (lateRecordLabels.take 5)).registry.Row
        4000 (secondOwner.reservation 0) := by decide +kernel
    exact absurd (hrecord.2 _ hrow) (by decide)

end Example

end Devkit.Ports
