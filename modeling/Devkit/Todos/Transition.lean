import Devkit.Todos.Holder

/-!
# Status changes

The one rule every status change goes through, and the take-over of a silent holder's
claim. The lemmas say who may move a claim, and that a refusal names the claimant.
-/

namespace Devkit.Todos

open Devkit.Common

/-- The status of a todo and who claimed or ended it. -/
inductive Status
  | pending
  | inProgress (holder : Holder)
  | completed (holder : Option Holder)
  | cancelled (holder : Option Holder)
deriving DecidableEq

/-- A status without its holder. -/
inductive StatusKind
  | pending
  | inProgress
  | completed
  | cancelled
deriving DecidableEq

/-- A todo of this kind is still to be done. -/
def StatusKind.isOpen : StatusKind → Bool
  | .pending | .inProgress => true
  | .completed | .cancelled => false

/-- The kind of a status. -/
def Status.kind : Status → StatusKind
  | .pending => .pending
  | .inProgress _ => .inProgress
  | .completed _ => .completed
  | .cancelled _ => .cancelled

/-- A status change refused because another holder has the todo in progress. -/
structure Claimed where
  holder : Holder
deriving DecidableEq

/-- The status a change leads to once nobody's claim stands in its way. -/
def moved (target : StatusKind) (actor : Holder) (claimant : Option Holder) : Status :=
  match target with
  | .pending => .pending
  | .inProgress => .inProgress actor
  | .completed => .completed (some (claimant.getD actor))
  | .cancelled => .cancelled (some (claimant.getD actor))

/-- The status a todo moves to when `actor` asks for `target`, or none when nothing changes. -/
def transition (current : Status) (target : StatusKind) (actor : Holder) : Except Claimed (Option Status) :=
  match current with
  | .inProgress holder =>
    if target = .inProgress ∧ holder.isTracker ∧ !actor.isTracker then .ok (some (.inProgress actor))
    else if target = .inProgress ∧ actor.covers holder then .ok none
    else if target = .inProgress ∧ !holder.isHuman ∧ holder.covers actor then .ok (some (.inProgress actor))
    else if !actor.covers holder then .error ⟨holder⟩
    else .ok (some (moved target actor (some holder)))
  | other => if other.kind = target then .ok none else .ok (some (moved target actor none))

/-- The status a todo moves to when `actor` takes over the claim `source` held. -/
def takeOver (current : Status) (source actor : Holder) : Except Claimed (Option Status) :=
  match current with
  | .inProgress holder =>
    if holder = source ∧ !holder.isHuman ∧ !actor.covers holder then .ok (some (.inProgress actor))
    else transition current .inProgress actor
  | _ => transition current .inProgress actor

/-- A status somebody moves a todo to is of the kind asked for. -/
@[simp] theorem kind_moved (target : StatusKind) (actor : Holder) (claimant : Option Holder) :
    (moved target actor claimant).kind = target := by
  cases target <;> rfl

/-- A change of status leads to the kind asked for. -/
theorem transition_kind {current next : Status} {target : StatusKind} {actor : Holder}
    (h : transition current target actor = .ok (some next)) : next.kind = target := by
  unfold transition at h
  split at h
  · split at h
    · rename_i hstart
      obtain rfl := Option.some.inj (Except.ok.inj h)
      exact hstart.1.symm
    · split at h
      · cases h
      · split at h
        · rename_i hbelow
          obtain rfl := Option.some.inj (Except.ok.inj h)
          exact hbelow.1.symm
        · split at h
          · contradiction
          · obtain rfl := Option.some.inj (Except.ok.inj h)
            exact kind_moved target actor _
  · split at h
    · cases h
    · obtain rfl := Option.some.inj (Except.ok.inj h)
      exact kind_moved target actor none

/-- A status somebody need not change is already of the kind asked for. -/
theorem transition_none_kind {current : Status} {target : StatusKind} {actor : Holder}
    (h : transition current target actor = .ok none) : current.kind = target := by
  unfold transition at h
  split at h
  · split at h
    · cases h
    · split at h
      · rename_i hown
        exact hown.1.symm
      · split at h
        · cases h
        · split at h <;> cases h
  · split at h
    · assumption
    · cases h

/-- A claim that is not the tracker's is refused to whoever neither covers the claimant nor,
starting the todo below an agent's claim, is covered by it. -/
theorem transition_refused {holder actor : Holder} {target : StatusKind}
    (htracker : holder.isTracker = false) (hcovers : actor.covers holder = false)
    (hbelow : target = .inProgress → holder.isHuman = false → holder.covers actor = false) :
    transition (.inProgress holder) target actor = .error ⟨holder⟩ := by
  simp only [transition, htracker, hcovers]
  simpa using hbelow

/-- A claim of an agent moves only for who covers it, or to a descendant that starts the todo. -/
theorem transition_moves {holder actor : Holder} {target : StatusKind} {next : Status}
    (hagent : ¬ holder.Overrides) (h : transition (.inProgress holder) target actor = .ok (some next)) :
    actor.covers holder = true ∨ target = .inProgress ∧ holder.covers actor = true := by
  have htracker : holder.isTracker = false := by
    rw [← Bool.not_eq_true, Holder.isTracker_iff]
    exact fun heq => hagent (Or.inr heq)
  by_contra hnot
  obtain ⟨hcovers, hbelow⟩ := not_or.mp hnot
  have hrefused := transition_refused htracker (Bool.not_eq_true _ ▸ hcovers) fun htarget _ =>
    Bool.not_eq_true _ ▸ fun hcovered => hbelow ⟨htarget, hcovered⟩
  rw [hrefused] at h
  contradiction

/-- A person's claim moves only for who overrides every claim. -/
theorem transition_moves_human {actor : Holder} {target : StatusKind} {next : Status}
    (h : transition (.inProgress .human) target actor = .ok (some next)) : actor.Overrides := by
  by_contra hnot
  rw [← Holder.covers_human_iff, Bool.not_eq_true] at hnot
  have hrefused : transition (.inProgress .human) target actor = .error ⟨.human⟩ :=
    transition_refused (by decide) hnot fun _ hhuman => absurd hhuman (by decide)
  rw [hrefused] at h
  contradiction

/-- A take-over moves an agent's claim from the named holder, or as a change to in progress does. -/
theorem takeOver_moves {holder source actor : Holder} {next : Status} (hagent : ¬ holder.Overrides)
    (h : takeOver (.inProgress holder) source actor = .ok (some next)) :
    source = holder ∨ actor.covers holder = true ∨ holder.covers actor = true := by
  rw [takeOver] at h
  split at h
  · rename_i htaken
    exact Or.inl htaken.1.symm
  · exact Or.inr ((transition_moves hagent h).imp id And.right)

/-- A person's claim is never taken over. -/
theorem takeOver_moves_human {source actor : Holder} {next : Status}
    (h : takeOver (.inProgress .human) source actor = .ok (some next)) : actor.Overrides := by
  rw [takeOver, if_neg (fun htaken => absurd htaken.2.1 (by decide))] at h
  exact transition_moves_human h

end Devkit.Todos
