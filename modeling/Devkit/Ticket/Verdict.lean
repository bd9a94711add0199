import Devkit.Ticket.Status

/-!
# The deletion gate

Every gate of the verdict only adds reasons, so a row is finished exactly when none of them adds one.
-/

namespace Devkit.Ticket

namespace Reasons

/-- A reason that holds the row is one. -/
@[simp] theorem held_hold (reasons : Reasons) (reason : String) : (reasons.hold reason).held ≠ [] :=
  List.append_ne_nil_of_right_ne_nil _ (List.cons_ne_nil _ _)

/-- An input not read is a reason. -/
@[simp] theorem held_doubt (reasons : Reasons) (reason : String) : (reasons.doubt reason).held ≠ [] :=
  List.append_ne_nil_of_right_ne_nil _ (List.cons_ne_nil _ _)

end Reasons

/-- The pull request does not keep a landed branch from being deleted. -/
def PrStatus.Closed : PrStatus → Prop
  | .none | .untracked _ => True
  | .unique _ state _ _ _ => state ≠ "OPEN"
  | .ambiguous _ | .unknown _ => False

/-- The pull request shows the branch's commits to be kept elsewhere. -/
def PrStatus.Keeps : PrStatus → Prop
  | .unique _ state _ _ ahead => state = "MERGED" ∧ ahead = some 0
  | .untracked pushed => pushed = true
  | .none | .ambiguous _ | .unknown _ => False

/-- The tree gate adds no reason to a clean tree only. -/
theorem treeGate_held {row : IssueWorktree} {reasons : Reasons} :
    (treeGate row reasons).held = [] ↔ row.tree = .clean ∧ reasons.held = [] := by
  unfold treeGate
  cases row.tree with
  | clean => simp
  | dirty | unknown => simp

/-- What the state gate waits for. -/
def StateSettled (row : IssueWorktree) (tracker : TrackerInfo) (prOnly : Bool) : Prop :=
  prOnly = true ∨ row.issueId = .noIssue ∨ row.issueId = .unknown ∨
    (tracker.kind = .none ∧ tracker.declared = true) ∨ ∃ s, row.state = some s ∧ s.kind = .completed

/-- The state gate adds no reason once the state is settled, and only then. -/
theorem stateGate_held {row : IssueWorktree} {tracker : TrackerInfo} {prOnly : Bool} {reasons : Reasons} :
    (stateGate row tracker prOnly reasons).held = [] ↔ StateSettled row tracker prOnly ∧ reasons.held = [] := by
  unfold stateGate StateSettled
  by_cases hgate : (!prOnly && !(row.issueId == .noIssue || row.issueId == .unknown ||
      (tracker.kind == .none && tracker.declared))) = true
  · rw [if_pos hgate]
    simp only [Bool.and_eq_true, Bool.not_eq_true', Bool.or_eq_false_iff, beq_eq_false_iff_ne] at hgate
    obtain ⟨rfl, ⟨hno, hunknown⟩, hdeclared⟩ := hgate
    have hwaits : ¬ (tracker.kind = .none ∧ tracker.declared = true) := fun h => by simp [h.1, h.2] at hdeclared
    cases hstate : row.state with
    | none => cases tracker.ready <;> simp [hno, hunknown, hwaits]
    | some s => by_cases hdone : s.kind = .completed <;> simp [hno, hunknown, hwaits, hdone]
  · rw [if_neg hgate]
    have hsettled : prOnly = true ∨ row.issueId = .noIssue ∨ row.issueId = .unknown ∨
        (tracker.kind = .none ∧ tracker.declared = true) := by
      by_contra hwaits
      simp only [not_or, not_and, Bool.not_eq_true] at hwaits
      obtain ⟨hall, hno, hunknown, hdeclared⟩ := hwaits
      refine hgate ?_
      by_cases hkind : tracker.kind = .none
      · simp [hall, hno, hunknown, hdeclared hkind]
      · simp [hall, hno, hunknown, hkind]
    tauto

/-- The landing gate adds no reason to a landed row without an open or unknown pull request. -/
theorem landingGate_held {row : IssueWorktree} {reasons : Reasons} :
    (landingGate row reasons).held = [] ↔ row.pr.Closed ∧ row.landed = .yes ∧ reasons.held = [] := by
  unfold landingGate PrStatus.Closed
  cases row.landed with
  | no | unknown => simp
  | yes =>
    cases row.pr with
    | none | untracked | ambiguous | unknown => simp
    | unique number state url isDraft ahead => by_cases hopen : state = "OPEN" <;> simp [hopen]

/-- The merge gate adds no reason where the pull request keeps the commits. -/
theorem mergeGate_held {row : IssueWorktree} {reasons : Reasons} :
    (mergeGate row reasons).held = [] ↔ row.pr.Keeps ∧ reasons.held = [] := by
  unfold mergeGate PrStatus.Keeps
  cases row.pr with
  | none | ambiguous | unknown => simp
  | untracked pushed => cases pushed <;> simp
  | unique number state url isDraft ahead =>
    by_cases hmerged : state = "MERGED"
    · cases ahead with
      | none => simp [hmerged]
      | some n => cases n <;> simp [hmerged]
    · simp [hmerged]

/-- A finished row had its record and tree read, its work kept, and its issue's state settled. -/
theorem verdict_finished {row : IssueWorktree} {tracker : TrackerInfo} {prOnly : Bool}
    (h : verdict row tracker prOnly = .finished) :
    row.recordUnreadable = false ∧ row.tree = .clean ∧ StateSettled row tracker prOnly ∧
      ((prOnly = false ∧ row.provesLanding = true ∧ row.pr.Closed ∧ row.landed = .yes) ∨ row.pr.Keeps) := by
  unfold verdict at h
  dsimp only at h
  split at h
  · cases h
  · split at h
    · rename_i hnone
      obtain ⟨htree, hgates⟩ := treeGate_held.mp (List.isEmpty_iff.mp hnone)
      obtain ⟨hstate, hkept⟩ := stateGate_held.mp hgates
      have hwork : ((prOnly = false ∧ row.provesLanding = true ∧ row.pr.Closed ∧ row.landed = .yes) ∨ row.pr.Keeps) ∧
          (if row.recordUnreadable = true then Reasons.doubt ⟨[], false⟩ "issue record unreadable"
            else ⟨[], false⟩).held = [] := by
        split at hkept
        · rename_i hlanding
          obtain ⟨hclosed, hlanded, hread⟩ := landingGate_held.mp hkept
          rw [Bool.and_eq_true, Bool.not_eq_true'] at hlanding
          exact ⟨Or.inl ⟨hlanding.1, hlanding.2, hclosed, hlanded⟩, hread⟩
        · exact (mergeGate_held.mp hkept).imp_left Or.inr
      refine ⟨?_, htree, hstate, hwork.1⟩
      by_contra hunreadable
      rw [Bool.not_eq_false] at hunreadable
      rw [if_pos hunreadable] at hwork
      exact Reasons.held_doubt _ _ hwork.2
    · split at h <;> cases h

end Devkit.Ticket
