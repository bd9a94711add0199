import Mathlib.Data.List.Basic

/-!
# Computations that may fail

A computation that succeeds has every part of it succeed. A fold that succeeds took a step at every item,
and one that fails failed at an item its steps had reached.

A fold whose step may have no result has none as soon as one step has none. What a run of it keeps is kept by each
step, and a run has a result exactly when each step that is reached has one.
-/

namespace Devkit.Library

section Outcomes

universe u

variable {E : Type*} {A B : Type u}

/-- A sequence that succeeds ran its first part to a value and the rest from it. -/
theorem bind_eq_ok {first : Except E A} {rest : A → Except E B} {value : B} :
    first >>= rest = .ok value ↔ ∃ middle, first = .ok middle ∧ rest middle = .ok value := by
  cases first with
  | error failure => exact iff_of_false (fun h => by cases h) (fun ⟨_, h, _⟩ => by cases h)
  | ok middle => exact ⟨fun h => ⟨middle, rfl, h⟩, fun ⟨_, h, hrest⟩ => by cases h; exact hrest⟩

/-- A failure put into other words is a failure still. -/
theorem mapError_eq_ok {F : Type*} {f : E → F} {outcome : Except E A} {value : A} :
    outcome.mapError f = .ok value ↔ outcome = .ok value := by
  cases outcome with
  | error failure => exact iff_of_false (fun h => by cases h) (fun h => by cases h)
  | ok found => exact ⟨fun h => by cases h; rfl, fun h => by cases h; rfl⟩

section Fold

variable {State : Type u} {Item : Type*} {f : State → Item → Except E State}

/-- What relates a state to the next one, counting steps, relates the ends of a whole fold. -/
theorem foldlM_counted {R : ℕ → State → State → Prop} (hrefl : ∀ s, R 0 s s)
    (htrans : ∀ m n s s' s'', R m s s' → R n s' s'' → R (m + n) s s'')
    (hstep : ∀ s x s', f s x = .ok s' → R 1 s s') {xs : List Item} {s s' : State}
    (h : xs.foldlM f s = .ok s') : R xs.length s s' := by
  induction xs generalizing s with
  | nil =>
    cases h
    exact hrefl _
  | cons x rest ih =>
    rw [List.foldlM_cons] at h
    obtain ⟨middle, hfirst, hrest⟩ := bind_eq_ok.mp h
    rw [List.length_cons, Nat.add_comm]
    exact htrans 1 rest.length s middle s' (hstep s x middle hfirst) (ih hrest)

/-- A fold that succeeds took its step at each place, from where the steps before it led. -/
theorem foldlM_split {xs : List Item} {s s' : State} {i : ℕ} {x : Item} (hget : xs[i]? = some x)
    (h : xs.foldlM f s = .ok s') : ∃ before after, (xs.take i).foldlM f s = .ok before ∧
      f before x = .ok after ∧ (xs.drop (i + 1)).foldlM f after = .ok s' := by
  induction xs generalizing s i with
  | nil => cases hget
  | cons first rest ih =>
    rw [List.foldlM_cons] at h
    obtain ⟨middle, hfirst, hrest⟩ := bind_eq_ok.mp h
    cases i with
    | zero =>
      obtain rfl := Option.some.inj hget
      exact ⟨s, middle, rfl, hfirst, hrest⟩
    | succ i =>
      obtain ⟨before, after, htake, hat, hdrop⟩ := ih (i := i) hget hrest
      refine ⟨before, after, ?_, hat, hdrop⟩
      rw [List.take_succ_cons, List.foldlM_cons]
      exact bind_eq_ok.mpr ⟨middle, hfirst, htake⟩

/-- A fold that fails failed at a place, from where the steps before it led. -/
theorem foldlM_error {xs : List Item} {s : State} {failure : E} (h : xs.foldlM f s = .error failure) :
    ∃ i x before, xs[i]? = some x ∧ (xs.take i).foldlM f s = .ok before ∧ f before x = .error failure := by
  induction xs generalizing s with
  | nil => cases h
  | cons first rest ih =>
    rw [List.foldlM_cons] at h
    cases hfirst : f s first with
    | error reason =>
      rw [hfirst] at h
      obtain rfl : reason = failure := Except.error.inj h
      exact ⟨0, first, s, rfl, rfl, hfirst⟩
    | ok middle =>
      rw [hfirst] at h
      obtain ⟨i, x, before, hget, htake, hat⟩ := ih (s := middle) h
      refine ⟨i + 1, x, before, hget, ?_, hat⟩
      rw [List.take_succ_cons, List.foldlM_cons]
      exact bind_eq_ok.mpr ⟨middle, hfirst, htake⟩

end Fold

end Outcomes

variable {S A : Type*} {f : S → A → Option S}

/-- What holds at the start and is kept by each step holds at the end, told with the items taken so far. -/
theorem foldlM_of_step (inv : List A → S → Prop) {s t : S} {items : List A} (hstart : inv [] s)
    (hstep : ∀ before s x t, inv before s → f s x = some t → inv (before ++ [x]) t)
    (hrun : items.foldlM f s = some t) : inv items t := by
  suffices hgeneral : ∀ before s, inv before s → items.foldlM f s = some t → inv (before ++ items) t from
    hgeneral [] s hstart hrun
  clear hrun hstart
  induction items with
  | nil =>
    intro before s hs heq
    obtain rfl := Option.some.inj heq
    rwa [List.append_nil]
  | cons x rest ih =>
    intro before s hs heq
    rw [List.foldlM_cons] at heq
    obtain ⟨next, hnext, hrest⟩ := Option.bind_eq_some_iff.mp heq
    have hlast := ih (before ++ [x]) next (hstep before s x next hs hnext) hrest
    rwa [List.append_assoc] at hlast

/-- A fold has a result exactly when each step has one from where the steps before it lead. -/
theorem foldlM_isSome_iff {s : S} {items : List A} :
    (items.foldlM f s).isSome ↔ ∀ before x after, items = before ++ x :: after →
      ∀ t, before.foldlM f s = some t → (f t x).isSome := by
  induction items generalizing s with
  | nil =>
    refine ⟨fun _ before x after heq => ?_, fun _ => rfl⟩
    exact absurd heq.symm (List.append_ne_nil_of_right_ne_nil before (List.cons_ne_nil x after))
  | cons x rest ih =>
    rw [List.foldlM_cons]
    constructor
    · intro hsome before y after heq t ht
      obtain ⟨last, hlast⟩ := Option.isSome_iff_exists.mp hsome
      obtain ⟨next, hnext, hrest⟩ := Option.bind_eq_some_iff.mp hlast
      cases before with
      | nil =>
        obtain ⟨rfl, -⟩ := List.cons.inj heq
        obtain rfl := Option.some.inj ht
        exact Option.isSome_iff_exists.mpr ⟨next, hnext⟩
      | cons z before =>
        obtain ⟨rfl, hsplit⟩ := List.cons.inj heq
        rw [List.foldlM_cons, hnext] at ht
        exact ih.mp (Option.isSome_iff_exists.mpr ⟨last, hrest⟩) before y after hsplit t ht
    · intro hall
      obtain ⟨next, hnext⟩ := Option.isSome_iff_exists.mp (hall [] x rest rfl s rfl)
      rw [hnext]
      refine ih.mpr fun before y after heq t ht => hall (x :: before) y after (by rw [heq]; rfl) t ?_
      rw [List.foldlM_cons, hnext]
      exact ht

/-- Items that all have results have a list of results. -/
theorem mapM_exists {B : Type*} {f : A → Option B} {items : List A} (hall : ∀ a ∈ items, ∃ b, f a = some b) :
    ∃ results, items.mapM f = some results := by
  induction items with
  | nil => exact ⟨[], rfl⟩
  | cons a rest ih =>
    obtain ⟨first, hfirst⟩ := hall a List.mem_cons_self
    obtain ⟨more, hmore⟩ := ih fun other hother => hall other (List.mem_cons_of_mem a hother)
    exact ⟨first :: more, by simp [List.mapM_cons, hfirst, hmore]⟩

/-- Each result of a list that all has results is the result of an item. -/
theorem exists_of_mem_mapM {B : Type*} {f : A → Option B} {items : List A} {results : List B}
    (hrun : items.mapM f = some results) {b : B} (hb : b ∈ results) : ∃ a ∈ items, f a = some b := by
  induction items generalizing results with
  | nil =>
    obtain rfl := Option.some.inj hrun
    contradiction
  | cons a rest ih =>
    rw [List.mapM_cons] at hrun
    obtain ⟨first, hfirst, hrun⟩ := Option.bind_eq_some_iff.mp hrun
    obtain ⟨more, hmore, hresults⟩ := Option.bind_eq_some_iff.mp hrun
    obtain rfl := Option.some.inj hresults
    rcases List.mem_cons.mp hb with rfl | hb
    · exact ⟨a, List.mem_cons_self, hfirst⟩
    · obtain ⟨other, hother, heq⟩ := ih hmore hb
      exact ⟨other, List.mem_cons_of_mem a hother, heq⟩

end Devkit.Library
