import Devkit.Todos.Builtin

/-!
# Claims are respected over runs

Three edits move claims: a status change, a take-over and a release of all a holder's
todos. Along any run of them a claim first moves by an edit entitled to move it.
-/

namespace Devkit.Todos

open Devkit.Common
open Devkit.Library
open Std

/-- An edit that may move a claim. -/
inductive ClaimEdit
  | setStatus (id : String) (target : StatusKind) (actor : Holder)
  | takeOver (id : String) (source actor : Holder)
  | releaseAll (holder : Holder)
deriving DecidableEq

namespace ClaimEdit

/-- The store's edit. -/
def toEdit : ClaimEdit → Edit
  | setStatus id target actor => .setStatus id target actor
  | takeOver id source actor => .takeOver id source actor
  | releaseAll holder => .releaseAll holder

/-- Who asks for the edit. -/
def actor : ClaimEdit → Holder
  | setStatus _ _ actor | takeOver _ _ actor | releaseAll actor => actor

/-- The edit names the todo under a key; a release names every todo. -/
def Names (key : ℕ) : ClaimEdit → Prop
  | setStatus id _ _ | takeOver id _ _ => parseKey id = some key
  | releaseAll _ => True

/-- The edit starts the todo for an actor below the claimant. -/
def StartsBelow (claimant : Holder) : ClaimEdit → Prop
  | setStatus _ target actor => target = .inProgress ∧ Ancestor claimant.text actor.text
  | takeOver _ _ actor => Ancestor claimant.text actor.text
  | releaseAll _ => False

/-- The edit takes the claim over from the claimant by name. -/
def TakesOverFrom (claimant : Holder) : ClaimEdit → Prop
  | takeOver _ source _ => source = claimant
  | _ => False

/-- The edit may move an agent's claim: its actor overrides every claim or is the claimant or
above it, or it starts the todo below the claimant, or takes the claim over by name. -/
def MayMove (claimant : Holder) (edit : ClaimEdit) : Prop :=
  edit.actor.Overrides ∨ Ancestor edit.actor.text claimant.text ∨ edit.StartsBelow claimant ∨
    edit.TakesOverFrom claimant

end ClaimEdit

/-- A claim edit and the reading of the clock it is applied at. -/
structure ClaimStep where
  now : Instant
  edit : ClaimEdit
deriving DecidableEq

/-- The answer of the store to a claim edit. -/
def answer (doc : Doc) (step : ClaimStep) : Except StoreError (Doc × List StatusChange) :=
  doc.apply step.now step.edit.toEdit

/-- The document after a claim edit. -/
def claimStep (doc : Doc) (step : ClaimStep) : Doc := doc.withDoc (answer doc step)

/-- The document holds this todo under this key. -/
def Doc.Holds (key : ℕ) (todo : Todo) (doc : Doc) : Prop := doc.todos[key]? = some todo

instance (key : ℕ) (todo : Todo) (doc : Doc) : Decidable (doc.Holds key todo) :=
  inferInstanceAs (Decidable (doc.todos[key]? = some todo))

variable {doc : Doc} {key : ℕ} {todo : Todo}

/-- A status change that changes a todo names it, and its rule gives a new status. -/
theorem moves_of_changeStatus (rule : Status → Except Claimed (Option Status)) {now : Instant}
    {id : String} (hholds : doc.Holds key todo)
    (hchanged : ¬ (doc.withDoc (doc.changeStatus now id rule)).Holds key todo) :
    parseKey id = some key ∧ ∃ next, rule todo.status = .ok (some next) := by
  cases hnamed : doc.todoMut id with
  | error refusal =>
    rw [Doc.changeStatus, hnamed] at hchanged
    exact absurd hholds hchanged
  | ok named =>
    obtain ⟨key', todo'⟩ := named
    obtain ⟨hkey, htodo⟩ := Doc.todoMut_eq_ok.mp hnamed
    rw [Doc.changeStatus, hnamed] at hchanged
    cases hrule : rule todo'.status with
    | error claim =>
      simp only [hrule] at hchanged
      exact absurd hholds hchanged
    | ok next =>
      simp only [hrule] at hchanged
      cases next with
      | none => exact absurd hholds hchanged
      | some status =>
        by_cases heq : key' = key
        · subst heq
          obtain rfl : todo' = todo := Option.some.inj (htodo.symm.trans hholds)
          exact ⟨hkey, status, hrule⟩
        · refine absurd ?_ hchanged
          change (doc.put key' _).todos[key]? = _
          rw [Doc.getElem?_put, if_neg heq]
          exact hholds

/-- A release that changes a todo is not a person's and covers the todo's claimant. -/
theorem released_of_changed {now : Instant} {holder : Holder} (hholds : doc.Holds key todo)
    (hchanged : ¬ (doc.withDoc (doc.apply now (.releaseAll holder))).Holds key todo) :
    holder.isHuman = false ∧ released holder todo = true := by
  by_contra hnot
  refine hchanged ?_
  by_cases hhuman : holder.isHuman = true
  · simpa [Doc.apply, hhuman, Doc.withDoc] using hholds
  · rw [Bool.not_eq_true] at hhuman
    have hkept : released holder todo = false := by simpa [hhuman] using hnot
    rw [Doc.Holds] at hholds
    simp [Doc.apply, hhuman, Doc.withDoc, Doc.Holds, ExtTreeMap.getElem?_map, hholds, giveBack, hkept]

/-- An edit that changes a todo names it. -/
theorem names_of_changed {step : ClaimStep} (hholds : doc.Holds key todo)
    (hchanged : ¬ (claimStep doc step).Holds key todo) : step.edit.Names key := by
  obtain ⟨now, edit⟩ := step
  cases edit with
  | setStatus id target actor =>
    exact (moves_of_changeStatus (transition · target actor) hholds hchanged).1
  | takeOver id source actor =>
    exact (moves_of_changeStatus (takeOver · source actor) hholds hchanged).1
  | releaseAll holder => trivial

/-- An edit that changes a person's todo is by an actor that overrides every claim. -/
theorem overrides_of_changed {step : ClaimStep} (hholds : doc.Holds key todo)
    (hstatus : todo.status = .inProgress .human) (hchanged : ¬ (claimStep doc step).Holds key todo) :
    step.edit.actor.Overrides := by
  obtain ⟨now, edit⟩ := step
  cases edit with
  | setStatus id target actor =>
    obtain ⟨_, next, hnext⟩ := moves_of_changeStatus (transition · target actor) hholds hchanged
    rw [hstatus] at hnext
    exact transition_moves_human hnext
  | takeOver id source actor =>
    obtain ⟨_, next, hnext⟩ := moves_of_changeStatus (takeOver · source actor) hholds hchanged
    rw [hstatus] at hnext
    exact takeOver_moves_human hnext
  | releaseAll holder =>
    obtain ⟨_, hreleased⟩ := released_of_changed hholds hchanged
    rw [released, hstatus] at hreleased
    exact Holder.covers_human_iff.mp hreleased

/-- An actor that covers an agent may move its claim. -/
theorem ClaimEdit.mayMove_of_covers {edit : ClaimEdit} {claimant : Holder}
    (h : edit.actor.covers claimant = true) : edit.MayMove claimant := by
  rcases Holder.covers_iff.mp h with hover | habove
  · exact Or.inl hover
  · exact Or.inr (Or.inl habove)

/-- An edit that changes an agent's todo may move the agent's claim. -/
theorem mayMove_of_changed {step : ClaimStep} {claimant : Holder} (hagent : ¬ claimant.Overrides)
    (hholds : doc.Holds key todo) (hstatus : todo.status = .inProgress claimant)
    (hchanged : ¬ (claimStep doc step).Holds key todo) : step.edit.MayMove claimant := by
  have hbelow : ∀ actor : Holder, claimant.covers actor = true → Ancestor claimant.text actor.text :=
    fun actor hcovers => (Holder.covers_iff.mp hcovers).resolve_left hagent
  obtain ⟨now, edit⟩ := step
  cases edit with
  | setStatus id target actor =>
    obtain ⟨_, next, hnext⟩ := moves_of_changeStatus (transition · target actor) hholds hchanged
    rw [hstatus] at hnext
    rcases transition_moves hagent hnext with hcovers | ⟨htarget, hcovered⟩
    · exact ClaimEdit.mayMove_of_covers hcovers
    · exact Or.inr (Or.inr (Or.inl ⟨htarget, hbelow actor hcovered⟩))
  | takeOver id source actor =>
    obtain ⟨_, next, hnext⟩ := moves_of_changeStatus (takeOver · source actor) hholds hchanged
    rw [hstatus] at hnext
    rcases takeOver_moves hagent hnext with hsource | hcovers | hcovered
    · exact Or.inr (Or.inr (Or.inr hsource))
    · exact ClaimEdit.mayMove_of_covers hcovers
    · exact Or.inr (Or.inr (Or.inl (hbelow actor hcovered)))
  | releaseAll holder =>
    obtain ⟨_, hreleased⟩ := released_of_changed hholds hchanged
    rw [released, hstatus] at hreleased
    exact ClaimEdit.mayMove_of_covers hreleased

/-- Along any run of claim edits from any document, a todo in progress that does not stay as it
was is first changed by an edit that names it; a person's by an actor that overrides every
claim, an agent's by an edit that may move the agent's claim. A refused edit changes nothing. -/
theorem claims_respected (start : Doc) (steps : List ClaimStep) (key : ℕ) (todo : Todo)
    (claimant : Holder) (hholds : start.Holds key todo) (hstatus : todo.status = .inProgress claimant) :
    (¬ (runFrom claimStep start steps).Holds key todo →
      ∃ before step after, steps = before ++ step :: after ∧
        (runFrom claimStep start before).Holds key todo ∧ step.edit.Names key ∧
        (claimant = .human → step.edit.actor.Overrides) ∧
        (¬ claimant.Overrides → step.edit.MayMove claimant)) ∧
    ∀ step refusal, answer (runFrom claimStep start steps) step = .error refusal →
      claimStep (runFrom claimStep start steps) step = runFrom claimStep start steps := by
  refine ⟨fun hend => ?_, fun step refusal hrefused => ?_⟩
  · obtain ⟨before, step, after, hsteps, hbefore, hbroken⟩ :=
      exists_breaking_step (Doc.Holds key todo) hholds hend
    refine ⟨before, step, after, hsteps, hbefore, names_of_changed hbefore hbroken, ?_, ?_⟩
    · rintro rfl
      exact overrides_of_changed hbefore hstatus hbroken
    · exact fun hagent => mayMove_of_changed hagent hbefore hstatus hbroken
  · rw [claimStep, hrefused]
    rfl

section Example

/-- A clock reading. -/
def sampleInstant : Instant := ⟨0, "2026-10-01T00:00:00Z"⟩

/-- A todo in progress by a session. -/
def sampleTodo : Todo :=
  ⟨"1", "Write the parser", .inProgress ⟨"S"⟩, none, some 1024, none, none, none, [], none⟩

/-- A store that holds it. -/
def sampleDoc : Doc := ⟨2, (∅ : ExtTreeMap ℕ Todo).insert 1 sampleTodo⟩

/-- A stranger fails to end the todo, then the session's agent starts it. -/
def sampleSteps : List ClaimStep :=
  [⟨sampleInstant, .setStatus "1" .completed ⟨"T"⟩⟩, ⟨sampleInstant, .setStatus "1" .inProgress ⟨"S/a"⟩⟩]

/-- The claim moves, so some edit of the run was entitled to move it. -/
theorem claims_respected_sample :
    ∃ before step after, sampleSteps = before ++ step :: after ∧
      (runFrom claimStep sampleDoc before).Holds 1 sampleTodo ∧ step.edit.Names 1 ∧
      (Holder.mk "S" = .human → step.edit.actor.Overrides) ∧
      (¬ (Holder.mk "S").Overrides → step.edit.MayMove ⟨"S"⟩) :=
  (claims_respected sampleDoc sampleSteps 1 sampleTodo ⟨"S"⟩ (by decide +kernel) rfl).1 (by decide +kernel)

end Example

end Devkit.Todos
