import Mathlib.Algebra.BigOperators.Group.List.Basic
import Mathlib.Algebra.GroupWithZero.Nat

/-!
# Draining to a budget

Items are drained in their order, each freeing some weight, until the total is within a budget.
An item is drained exactly when the total less what the items before it free is over the budget.
-/

namespace Devkit.Library

variable {A B : Type*}

section Weight

/-- What the items weigh together. -/
def weight (measure : A → ℕ) (items : List A) : ℕ := (items.map measure).sum

variable {measure : A → ℕ}

theorem weight_cons (a : A) (rest : List A) : weight measure (a :: rest) = measure a + weight measure rest := by
  rw [weight, List.map_cons, List.sum_cons, weight]

theorem weight_append (front back : List A) : weight measure (front ++ back) =
    weight measure front + weight measure back := by
  rw [weight, List.map_append, List.sum_append, weight, weight]

theorem weight_map (f : B → A) (items : List B) : weight measure (items.map f) =
    weight (fun b => measure (f b)) items := by
  rw [weight, List.map_map]
  rfl

/-- Items that weigh the same one by one weigh the same together. -/
theorem weight_congr {other : A → ℕ} {items : List A} (h : ∀ a ∈ items, measure a = other a) :
    weight measure items = weight other items :=
  congrArg List.sum (List.map_congr_left h)

/-- The kept and the dropped items weigh what all do. -/
theorem weight_filter_add (keep : A → Bool) (items : List A) :
    weight measure (items.filter keep) + weight measure (items.filter fun a => !keep a) = weight measure items := by
  induction items with
  | nil => rfl
  | cons a rest ih =>
    rw [weight_cons, ← ih]
    cases hkeep : keep a with
    | true =>
      rw [List.filter_cons_of_pos hkeep, List.filter_cons_of_neg (by rw [hkeep]; decide), weight_cons, Nat.add_assoc]
    | false =>
      rw [List.filter_cons_of_neg (Bool.not_eq_true _ ▸ hkeep), List.filter_cons_of_pos (by rw [hkeep]; rfl),
        weight_cons]
      omega

/-- What weighs nothing one by one weighs nothing together. -/
theorem weight_eq_zero {items : List A} (h : ∀ a ∈ items, measure a = 0) : weight measure items = 0 := by
  rw [weight, List.sum_eq_zero]
  intro n hn
  obtain ⟨a, ha, rfl⟩ := List.mem_map.mp hn
  exact h a ha

/-- Weights add up item by item. -/
theorem weight_add (measure other : A → ℕ) (items : List A) :
    weight (fun a => measure a + other a) items = weight measure items + weight other items := by
  induction items with
  | nil => rfl
  | cons a rest ih =>
    rw [weight_cons, weight_cons, weight_cons, ih]
    omega

end Weight

section Drain

variable (budget : ℕ) (act : A → A) (free : A → ℕ)

/-- Drain the items in order while the total is over the budget. -/
def drain : ℕ → List A → List A × ℕ
  | total, [] => ([], total)
  | total, a :: rest =>
    if total ≤ budget then (a :: rest, total)
    else (act a :: (drain (total - free a) rest).1, (drain (total - free a) rest).2)

variable {budget act free}

/-- Within the budget nothing is drained. -/
theorem drain_within {total : ℕ} (htotal : total ≤ budget) (items : List A) :
    drain budget act free total items = (items, total) := by
  cases items with
  | nil => rfl
  | cons a rest => rw [drain, if_pos htotal]

/-- As long as the total is over the budget every item is drained. -/
theorem drain_over {total : ℕ} {passed : List A} (hover : budget < total - weight free passed) (rest : List A) :
    drain budget act free total (passed ++ rest) =
      (passed.map act ++ (drain budget act free (total - weight free passed) rest).1,
        (drain budget act free (total - weight free passed) rest).2) := by
  induction passed generalizing total with
  | nil => rfl
  | cons a passed ih =>
    rw [weight_cons, ← Nat.sub_sub] at hover
    have hfirst : ¬ total ≤ budget := fun hle => by omega
    rw [List.cons_append, drain, if_neg hfirst, ih hover, weight_cons, Nat.sub_sub, List.map_cons, List.cons_append]

/-- Once the total is within the budget what follows stays. -/
theorem drain_stop {total : ℕ} {passed : List A} (hwithin : total - weight free passed ≤ budget) (rest : List A) :
    ∃ front, front.length = passed.length ∧ (drain budget act free total (passed ++ rest)).1 = front ++ rest := by
  induction passed generalizing total with
  | nil => exact ⟨[], rfl, congrArg Prod.fst (drain_within hwithin rest)⟩
  | cons a passed ih =>
    rw [weight_cons, ← Nat.sub_sub] at hwithin
    rw [List.cons_append, drain]
    split
    · exact ⟨a :: passed, rfl, rfl⟩
    · obtain ⟨front, hlength, hfront⟩ := ih hwithin
      exact ⟨act a :: front, congrArg Nat.succ hlength, by rw [hfront, List.cons_append]⟩

/-- The drain ends within the budget exactly when draining everything would. -/
theorem drain_total_le_iff (total : ℕ) (items : List A) :
    (drain budget act free total items).2 ≤ budget ↔ total - weight free items ≤ budget := by
  induction items generalizing total with
  | nil => exact Iff.rfl
  | cons a rest ih =>
    rw [drain, weight_cons, ← Nat.sub_sub]
    split
    · rename_i hwithin
      exact iff_of_true hwithin (by omega)
    · exact ih _

/-- What no step changes of an item the drain does not change. -/
theorem drain_map {f : A → B} (hact : ∀ a, f (act a) = f a) (total : ℕ) (items : List A) :
    (drain budget act free total items).1.map f = items.map f := by
  induction items generalizing total with
  | nil => rfl
  | cons a rest ih =>
    rw [drain]
    split
    · rfl
    · rw [List.map_cons, List.map_cons, hact, ih]

/-- The running total stays what the items weigh. -/
theorem drain_total {measure : A → ℕ} (hact : ∀ a, measure (act a) + free a = measure a) (items : List A) :
    (drain budget act free (weight measure items) items).2 =
      weight measure (drain budget act free (weight measure items) items).1 := by
  have hrun (ahead : ℕ) : (drain budget act free (ahead + weight measure items) items).2 =
      ahead + weight measure (drain budget act free (ahead + weight measure items) items).1 := by
    induction items generalizing ahead with
    | nil => rfl
    | cons a rest ih =>
      rw [drain]
      split
      · rfl
      · have ha := hact a
        have htotal : ahead + weight measure (a :: rest) - free a = ahead + measure (act a) + weight measure rest := by
          rw [weight_cons]
          omega
        rw [htotal, ih, weight_cons, Nat.add_assoc]
  have hstart := hrun 0
  rwa [Nat.zero_add, Nat.zero_add] at hstart

end Drain

end Devkit.Library
