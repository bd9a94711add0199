import Mathlib.Data.List.Basic

/-!
# Runs of a machine and what holds along them

A machine is a state type with a total step function; a label that is not enabled leaves
the state alone, so every list of labels is a run and every interleaving is one of them.
A step condition may be required along a run, and an invariant kept by every step that
meets the condition holds in every state the run reaches.
-/

namespace Devkit.Library

variable {S L : Type*}

/-- The state a run of labels ends in. -/
def runFrom (step : S → L → S) (start : S) (labels : List L) : S := labels.foldl step start

/-- Every step of the run meets the condition in the state it is taken from. -/
def Along (step : S → L → S) (good : S → L → Prop) : S → List L → Prop
  | _, [] => True
  | s, label :: rest => good s label ∧ Along step good (step s label) rest

/-- Whether a decidable condition is met along a run is decided step by step. -/
instance decidableAlong {step : S → L → S} {good : S → L → Prop} [∀ s label, Decidable (good s label)] :
    ∀ (s : S) (labels : List L), Decidable (Along step good s labels)
  | _, [] => isTrue trivial
  | s, label :: rest =>
    have : Decidable (Along step good (step s label) rest) := decidableAlong (step s label) rest
    inferInstanceAs (Decidable (good s label ∧ Along step good (step s label) rest))

@[simp] theorem runFrom_nil (step : S → L → S) (s : S) : runFrom step s [] = s := rfl

@[simp] theorem runFrom_cons (step : S → L → S) (s : S) (label : L) (rest : List L) :
    runFrom step s (label :: rest) = runFrom step (step s label) rest := rfl

/-- A run of two parts continues where the first part ended. -/
theorem runFrom_append (step : S → L → S) (s : S) (first second : List L) :
    runFrom step s (first ++ second) = runFrom step (runFrom step s first) second :=
  List.foldl_append

/-- A condition along a run of two parts holds along each of them. -/
theorem along_append {step : S → L → S} {good : S → L → Prop} {s : S} {first second : List L} :
    Along step good s (first ++ second) ↔
      Along step good s first ∧ Along step good (runFrom step s first) second := by
  induction first generalizing s with
  | nil => simp [Along]
  | cons label rest ih => simp [Along, ih, and_assoc]

/-- The condition holds at every step: the part before it is a run of its own. -/
theorem Along.at_step {step : S → L → S} {good : S → L → Prop} {s : S} (before after : List L)
    (label : L) (h : Along step good s (before ++ label :: after)) :
    good (runFrom step s before) label :=
  (along_append.mp h).2.1

/-- Two conditions met along a run are met together. -/
theorem Along.and {step : S → L → S} {good other : S → L → Prop} {s : S} {labels : List L}
    (h : Along step good s labels) (hother : Along step other s labels) :
    Along step (fun s label => good s label ∧ other s label) s labels := by
  induction labels generalizing s with
  | nil => trivial
  | cons label rest ih => exact ⟨⟨h.1, hother.1⟩, ih h.2 hother.2⟩

/-- Steps that keep an invariant keep it to the end of the run. -/
theorem Along.invariant {step : S → L → S} {good : S → L → Prop} (inv : S → Prop)
    (hstep : ∀ s label, inv s → good s label → inv (step s label)) {s : S} {labels : List L}
    (h : Along step good s labels) (hs : inv s) : inv (runFrom step s labels) := by
  induction labels generalizing s with
  | nil => exact hs
  | cons label rest ih => exact ih h.2 (hstep s label hs h.1)

/-- A condition met in every state that keeps the invariant is met along the whole run. -/
theorem Along.strengthen {step : S → L → S} {good better : S → L → Prop} (inv : S → Prop)
    (hstep : ∀ s label, inv s → good s label → inv (step s label))
    (hbetter : ∀ s label, inv s → good s label → better s label) {s : S} {labels : List L}
    (h : Along step good s labels) (hs : inv s) : Along step better s labels := by
  induction labels generalizing s with
  | nil => trivial
  | cons label rest ih => exact ⟨hbetter s label hs h.1, ih h.2 (hstep s label hs h.1)⟩

/-- Two conditions that agree wherever the invariant holds hold along the same runs, when the
first keeps the invariant. -/
theorem along_congr {step : S → L → S} {good better : S → L → Prop} (inv : S → Prop)
    (hiff : ∀ s label, inv s → (good s label ↔ better s label))
    (hstep : ∀ s label, inv s → good s label → inv (step s label)) {s : S} (hs : inv s)
    {labels : List L} : Along step good s labels ↔ Along step better s labels := by
  constructor
  · intro h
    exact h.strengthen inv hstep (fun s label hs => (hiff s label hs).mp) hs
  · intro h
    exact h.strengthen inv (fun s label hs hbetter => hstep s label hs ((hiff s label hs).mpr hbetter))
      (fun s label hs => (hiff s label hs).mpr) hs

/-- Without a condition, an invariant kept by every step holds after every run. -/
theorem runFrom_invariant {step : S → L → S} (inv : S → Prop)
    (hstep : ∀ s label, inv s → inv (step s label)) {s : S} (hs : inv s) (labels : List L) :
    inv (runFrom step s labels) :=
  List.foldlRecOn labels step hs fun s hs label _ => hstep s label hs

/-- The property holds in every state the run reaches, its first and last included. -/
def Throughout (step : S → L → S) (inv : S → Prop) (s : S) (labels : List L) : Prop :=
  ∀ before, before <+: labels → inv (runFrom step s before)

/-- A property that follows from one that holds throughout a run holds throughout it. -/
theorem Throughout.imp {step : S → L → S} {inv weaker : S → Prop} {s : S} {labels : List L}
    (h : Throughout step inv s labels) (himp : ∀ s, inv s → weaker s) : Throughout step weaker s labels :=
  fun before hbefore => himp _ (h before hbefore)

/-- Steps that keep an invariant keep it throughout the run. -/
theorem Along.throughout {step : S → L → S} {good : S → L → Prop} (inv : S → Prop)
    (hstep : ∀ s label, inv s → good s label → inv (step s label)) {s : S} {labels : List L}
    (h : Along step good s labels) (hs : inv s) : Throughout step inv s labels := by
  intro before hbefore
  obtain ⟨after, rfl⟩ := hbefore
  exact (along_append.mp h).1.invariant inv hstep hs

/-- Where a step keeps a property exactly when it meets a condition, the property holds throughout a
run exactly when the condition is met along it. -/
theorem throughout_iff_along {step : S → L → S} {good : S → L → Prop} (aux inv : S → Prop)
    (haux : ∀ s label, aux s → aux (step s label))
    (hiff : ∀ s label, aux s → inv s → (inv (step s label) ↔ good s label)) {s : S} (hs : aux s) (hinv : inv s)
    (labels : List L) : Throughout step inv s labels ↔ Along step good s labels := by
  induction labels generalizing s with
  | nil =>
    refine ⟨fun _ => trivial, fun _ before hbefore => ?_⟩
    rw [List.prefix_nil.mp hbefore]
    exact hinv
  | cons label rest ih =>
    constructor
    · intro h
      have hstep : inv (step s label) := h [label] (List.prefix_append [label] rest)
      exact ⟨(hiff s label hs hinv).mp hstep, (ih (haux s label hs) hstep).mp fun before hbefore =>
        h (label :: before) (List.prefix_cons_inj label |>.mpr hbefore)⟩
    · intro h before hbefore
      have hstep := (hiff s label hs hinv).mpr h.1
      cases before with
      | nil => exact hinv
      | cons first before =>
        obtain ⟨rfl, hrest⟩ := List.cons_prefix_cons.mp hbefore
        exact (ih (haux s first hs) hstep).mpr h.2 before hrest

/-- A property that holds at the start of a run and not at its end is broken by one of its steps. -/
theorem exists_breaking_step {step : S → L → S} (inv : S → Prop) {s : S} {labels : List L}
    (hs : inv s) (hend : ¬ inv (runFrom step s labels)) :
    ∃ before label after, labels = before ++ label :: after ∧ inv (runFrom step s before) ∧
      ¬ inv (step (runFrom step s before) label) := by
  induction labels generalizing s with
  | nil => exact absurd hs hend
  | cons label rest ih =>
    by_cases hstep : inv (step s label)
    · obtain ⟨before, broken, after, hlabels, hbefore, hbroken⟩ := ih hstep hend
      exact ⟨label :: before, broken, after, by rw [hlabels]; rfl, hbefore, hbroken⟩
    · exact ⟨[], label, rest, rfl, hs, hstep⟩

end Devkit.Library
