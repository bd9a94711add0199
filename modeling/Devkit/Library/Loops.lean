import Mathlib.Data.Nat.Init

/-!
# Loops that end

A loop takes steps until none is enabled. Where every step lowers a measure the loop is total;
where it does so only under an invariant, the loop is bounded and the bound is shown to suffice.
-/

namespace Devkit.Library

variable {S : Type*}

/-- Take steps, each of which lowers the measure, until there is none. -/
def loop (step : S → Option S) (measure : S → ℕ)
    (hlower : ∀ s s', step s = some s' → measure s' < measure s) (s : S) : S :=
  match _hstep : step s with
  | none => s
  | some s' => loop step measure hlower s'
termination_by measure s
decreasing_by exact hlower s s' _hstep

/-- A loop ends where no step is enabled. -/
theorem step_loop (step : S → Option S) (measure : S → ℕ)
    (hlower : ∀ s s', step s = some s' → measure s' < measure s) (s : S) :
    step (loop step measure hlower s) = none := by
  induction s using loop.induct step measure hlower with
  | case1 s hstep =>
    rw [loop]
    split
    · exact hstep
    · rename_i s' hsome
      rw [hstep] at hsome
      contradiction
  | case2 s s' hstep ih =>
    rw [loop]
    split
    · rename_i hnone
      rw [hstep] at hnone
      contradiction
    · rename_i next hnext
      obtain rfl := Option.some.inj (hstep.symm.trans hnext)
      exact ih

/-- An invariant kept by every step holds where the loop ends. -/
theorem loop_invariant {step : S → Option S} {measure : S → ℕ}
    {hlower : ∀ s s', step s = some s' → measure s' < measure s} (inv : S → Prop)
    (hkeep : ∀ s s', inv s → step s = some s' → inv s') {s : S} (hs : inv s) :
    inv (loop step measure hlower s) := by
  induction s using loop.induct step measure hlower with
  | case1 s hstep =>
    rw [loop]
    split
    · exact hs
    · rename_i s' hsome
      rw [hstep] at hsome
      contradiction
  | case2 s s' hstep ih =>
    rw [loop]
    split
    · exact hs
    · rename_i next hnext
      obtain rfl := Option.some.inj (hstep.symm.trans hnext)
      exact ih (hkeep s s' hs hstep)

/-- Take at most so many steps. -/
def steps (step : S → Option S) : ℕ → S → S
  | 0, s => s
  | bound + 1, s =>
    match step s with
    | none => s
    | some s' => steps step bound s'

/-- Steps that keep an invariant under which they lower a measure end within the measure. -/
theorem steps_done {step : S → Option S} (inv : S → Prop) (measure : S → ℕ)
    (hkeep : ∀ s s', inv s → step s = some s' → inv s' ∧ measure s' < measure s) {s : S} (hs : inv s)
    {bound : ℕ} (hbound : measure s ≤ bound) :
    inv (steps step bound s) ∧ step (steps step bound s) = none := by
  induction bound generalizing s with
  | zero =>
    refine ⟨hs, ?_⟩
    cases hstep : step s with
    | none => exact hstep
    | some s' =>
      have hlower := (hkeep s s' hs hstep).2
      omega
  | succ bound ih =>
    rw [steps]
    split
    · rename_i hstep
      exact ⟨hs, hstep⟩
    · rename_i s' hstep
      obtain ⟨hs', hlower⟩ := hkeep s s' hs hstep
      exact ih hs' (by omega)

end Devkit.Library
