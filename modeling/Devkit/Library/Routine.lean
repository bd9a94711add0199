import Mathlib.Order.Basic

/-!
# Routines that may break off

A routine works on a state by acts. What becomes of an act is decided from outside, one outcome for each: the routine
goes on with an answer, fails, or stops there with the state as the act left it. What a routine meets says what
holds when it is done, and what holds however it breaks off.
-/

namespace Devkit.Library

/-- What an act comes to. -/
inductive Reply (E A : Type)
  | go (answer : A)
  | fail (problem : E)
  | stop

/-- The act goes on as wanted, or else it is as feared. -/
def Reply.Holds {E A : Type} (broken : Prop) (after : A → Prop) : Reply E A → Prop
  | go answer => after answer
  | fail _ => broken
  | stop => broken

/-- How a routine ends, and how many outcomes it has used where that still matters. -/
inductive Ending (S E A : Type)
  | done (answer : A) (state : S) (used : ℕ)
  | failed (problem : E) (state : S) (used : ℕ)
  | stopped (state : S)

/-- A routine, run on the outcomes of its acts, how many of them are used, and a state. -/
def Routine (S O E A : Type) := (ℕ → O) → ℕ → S → Ending S E A

/-- The state a routine leaves. -/
def Ending.state {S E A : Type} : Ending S E A → S
  | done _ state _ => state
  | failed _ state _ => state
  | stopped state => state

/-- The state is as wanted when the routine is done, and as feared when it has broken off. -/
def Ending.Holds {S E A : Type} (broken : S → Prop) (after : A → S → Prop) : Ending S E A → Prop
  | done answer state _ => after answer state
  | failed _ state _ => broken state
  | stopped state => broken state

/-- Less is needed of a state that an ending leaves. -/
theorem Ending.Holds.imp {S E A : Type} {broken broken' : S → Prop} {after after' : A → S → Prop}
    {ending : Ending S E A} (h : ending.Holds broken after) (hbroken : ∀ state, broken state → broken' state)
    (hafter : ∀ answer state, after answer state → after' answer state) : ending.Holds broken' after' := by
  cases ending with
  | done answer state used => exact hafter answer state h
  | failed problem state used => exact hbroken state h
  | stopped state => exact hbroken state h

namespace Routine

variable {S T O E A B : Type}

instance : Monad (Routine S O E) where
  pure answer := fun _ used state => .done answer state used
  bind first rest := fun fate used state =>
    match first fate used state with
    | .done answer state used => rest answer fate used state
    | .failed problem state used => .failed problem state used
    | .stopped state => .stopped state

/-- Looks something up. -/
def read (look : S → A) : Routine S O E A := fun _ used state => .done (look state) state used

/-- Looks something up that may not be there. -/
def ask (look : S → Except E A) : Routine S O E A := fun _ used state =>
  match look state with
  | .ok answer => .done answer state used
  | .error problem => .failed problem state used

/-- Gives up. -/
def fail (problem : E) : Routine S O E A := fun _ used state => .failed problem state used

/-- Acts on the state, as the next outcome has it. -/
def act (effect : O → S → Reply E A × S) : Routine S O E A := fun fate used state =>
  match effect (fate used) state with
  | (.go answer, state) => .done answer state (used + 1)
  | (.fail problem, state) => .failed problem state (used + 1)
  | (.stop, state) => .stopped state

/-- Keeps a failure as an answer. -/
def attempt (c : Routine S O E A) : Routine S O E (Except E A) := fun fate used state =>
  match c fate used state with
  | .done answer state used => .done (.ok answer) state used
  | .failed problem state used => .done (.error problem) state used
  | .stopped state => .stopped state

/-- Works on a part of the state. -/
def focus (part : S → T) (put : T → S → S) (c : Routine T O E A) : Routine S O E A := fun fate used state =>
  match c fate used (part state) with
  | .done answer small used => .done answer (put small state) used
  | .failed problem small used => .failed problem (put small state) used
  | .stopped small => .stopped (put small state)

/-- From a state that holds what comes before, the routine meets what comes after, or breaks off in a state that is
as feared. -/
def Meets (fate : ℕ → O) (broken before : S → Prop) (c : Routine S O E A) (after : A → S → Prop) : Prop :=
  ∀ used state, before state → (c fate used state).Holds broken after

section Rules

variable {fate : ℕ → O} {broken before : S → Prop} {c : Routine S O E A} {after : A → S → Prop}

/-- An answer given at once. -/
theorem meets_pure {answer : A} (h : ∀ state, before state → after answer state) :
    Meets fate broken before (pure answer : Routine S O E A) after :=
  fun _ state hbefore => h state hbefore

/-- What comes of an act, by its outcome. -/
theorem meets_act {effect : O → S → Reply E A × S}
    (h : ∀ step state, before state →
      (effect (fate step) state).1.Holds (broken (effect (fate step) state).2)
        fun answer => after answer (effect (fate step) state).2) :
    Meets fate broken before (act effect : Routine S O E A) after := by
  intro used state hbefore
  have hreply := h used state hbefore
  rw [act]
  generalize effect (fate used) state = outcome at hreply
  obtain ⟨reply, state'⟩ := outcome
  cases reply with
  | go answer => exact hreply
  | fail problem => exact hreply
  | stop => exact hreply

/-- One routine after another. -/
theorem Meets.bind {middle : A → S → Prop} {rest : A → Routine S O E B} {last : B → S → Prop}
    (h : Meets fate broken before c middle) (hrest : ∀ answer, Meets fate broken (middle answer) (rest answer) last) :
    Meets fate broken before (c >>= rest) last := by
  intro used state hbefore
  have hfirst := h used state hbefore
  change (Ending.Holds broken last (match c fate used state with
    | .done answer state used => rest answer fate used state
    | .failed problem state used => .failed problem state used
    | .stopped state => .stopped state))
  cases hend : c fate used state with
  | done answer state' used' =>
    rw [hend] at hfirst
    exact hrest answer used' state' hfirst
  | failed problem state' used' =>
    rw [hend] at hfirst
    exact hfirst
  | stopped state' =>
    rw [hend] at hfirst
    exact hfirst

/-- What follows a look at the state knows what was seen. -/
theorem meets_read_bind {look : S → A} {rest : A → Routine S O E B} {last : B → S → Prop}
    (h : ∀ seen, Meets fate broken (fun state => before state ∧ seen = look state) (rest seen) last) :
    Meets fate broken before (read look >>= rest) last :=
  fun used state hbefore => h (look state) used state ⟨hbefore, rfl⟩

/-- What follows a look at something that is there knows what was seen. -/
theorem meets_ask_bind {look : S → Except E A} {rest : A → Routine S O E B} {last : B → S → Prop}
    (hthere : ∀ state, before state → ∃ seen, look state = .ok seen)
    (h : ∀ seen, Meets fate broken (fun state => before state ∧ look state = .ok seen) (rest seen) last) :
    Meets fate broken before (ask look >>= rest) last := by
  have hask : Meets fate broken before (ask look) fun seen state => before state ∧ look state = .ok seen := by
    intro used state hbefore
    obtain ⟨seen, hseen⟩ := hthere state hbefore
    rw [ask, hseen]
    exact ⟨hbefore, hseen⟩
  exact hask.bind h

/-- Giving up. -/
theorem meets_fail {problem : E} (h : ∀ state, before state → broken state) :
    Meets fate broken before (fail problem : Routine S O E A) after :=
  fun _ state hbefore => h state hbefore

/-- More is known before, less is needed after. -/
theorem Meets.mono {before' : S → Prop} {after' : A → S → Prop} (h : Meets fate broken before c after)
    (hbefore : ∀ state, before' state → before state)
    (hafter : ∀ answer state, after answer state → after' answer state) : Meets fate broken before' c after' :=
  fun used state hstate => (h used state (hbefore state hstate)).imp (fun _ => id) hafter

/-- Less is needed where the routine breaks off. -/
theorem Meets.weaken {broken' : S → Prop} (h : Meets fate broken before c after)
    (hbroken : ∀ state, broken state → broken' state) : Meets fate broken' before c after :=
  fun used state hstate => (h used state hstate).imp hbroken fun _ _ => id

/-- Each state before may be taken by itself. -/
theorem meets_of_state (h : ∀ state, before state → Meets fate broken (fun start => start = state) c after) :
    Meets fate broken before c after :=
  fun used state hbefore => h state hbefore used state rfl

/-- What every state before tells may be used. -/
theorem meets_of_fact {P : Prop} (hfact : ∀ state, before state → P) (h : P → Meets fate broken before c after) :
    Meets fate broken before c after :=
  fun used state hbefore => h (hfact state hbefore) used state hbefore

/-- A loop, by what holds while so much of the list is left. -/
theorem meets_foldlM {step : B → A → Routine S O E B} (invariant : List A → B → S → Prop)
    (h : ∀ item rest value, Meets fate broken (invariant (item :: rest) value) (step value item) (invariant rest))
    (items : List A) (value : B) :
    Meets fate broken (invariant items value) (items.foldlM step value) (invariant []) := by
  induction items generalizing value with
  | nil => exact meets_pure fun _ => id
  | cons item rest ih => exact (h item rest value).bind fun value => ih value

/-- A failure that is kept. -/
theorem Meets.attempt (h : Meets fate broken before c after) :
    Meets fate broken before (attempt c) fun result state =>
      (∃ answer, result = .ok answer ∧ after answer state) ∨ (∃ problem, result = .error problem ∧ broken state) := by
  intro used state hbefore
  have hends := h used state hbefore
  rw [Routine.attempt]
  cases hend : c fate used state with
  | done answer state' used' =>
    rw [hend] at hends
    exact Or.inl ⟨answer, rfl, hends⟩
  | failed problem state' used' =>
    rw [hend] at hends
    exact Or.inr ⟨problem, rfl, hends⟩
  | stopped state' =>
    rw [hend] at hends
    exact hends

/-- What a routine meets on a part of the state, the rest of it stays beside. -/
theorem Meets.focus {small : Routine T O E A} {part : S → T} {put : T → S → S} {fragile held : T → Prop}
    {kept : A → T → Prop} (h : Meets fate fragile held small kept) (hbefore : ∀ state, before state → held (part state))
    (hafter : ∀ answer state t, before state → kept answer t → after answer (put t state))
    (hbroken : ∀ state t, before state → fragile t → broken (put t state)) :
    Meets fate broken before (focus part put small) after := by
  intro used state hstate
  have hends := h used (part state) (hbefore state hstate)
  rw [Routine.focus]
  cases hend : small fate used (part state) with
  | done answer t used' =>
    rw [hend] at hends
    exact hafter answer state t hstate hends
  | failed problem t used' =>
    rw [hend] at hends
    exact hbroken state t hstate hends
  | stopped t =>
    rw [hend] at hends
    exact hbroken state t hstate hends

/-- What holds at the end and however a routine breaks off holds of the state it leaves. -/
theorem Meets.state {kept : S → Prop} (h : Meets fate broken before c after)
    (hafter : ∀ answer state, after answer state → kept state) (hbroken : ∀ state, broken state → kept state)
    {state : S} (hbefore : before state) (used : ℕ) : kept (c fate used state).state := by
  have hends := h used state hbefore
  cases hend : c fate used state with
  | done answer final last =>
    rw [hend] at hends
    exact hafter answer final hends
  | failed problem final last =>
    rw [hend] at hends
    exact hbroken final hends
  | stopped final =>
    rw [hend] at hends
    exact hbroken final hends

end Rules

end Routine

end Devkit.Library
