import Mathlib.Data.List.Basic

/-!
# Members picked from a list

A partial function picks members of a list in order. Where a member stands among those picked is known
from how many were picked before it.
-/

namespace Devkit.Library

/-- A member of a filtered list comes from no earlier place of the list. -/
theorem getElem?_filterMap_eq_some {A B : Type*} {f : A → Option B} {l : List A} {i : ℕ} {b : B}
    (h : (l.filterMap f)[i]? = some b) : ∃ (p : ℕ) (a : A), i ≤ p ∧ l[p]? = some a ∧ f a = some b := by
  induction l generalizing i with
  | nil => simp at h
  | cons first rest ih =>
    rw [List.filterMap_cons] at h
    cases hfirst : f first with
    | none =>
      rw [hfirst] at h
      obtain ⟨p, a, hle, ha, hb⟩ := ih h
      exact ⟨p + 1, a, by omega, ha, hb⟩
    | some value =>
      rw [hfirst] at h
      cases i with
      | zero => exact ⟨0, first, Nat.le_refl 0, rfl, hfirst.trans h⟩
      | succ i =>
        obtain ⟨p, a, hle, ha, hb⟩ := ih h
        exact ⟨p + 1, a, by omega, ha, hb⟩

/-- A filter that keeps a name of its members keeps their names' order. -/
theorem sublist_map_filterMap {A B C : Type*} {f : A → Option B} {nameOf : A → C} {nameAfter : B → C}
    (hname : ∀ a b, f a = some b → nameAfter b = nameOf a) (l : List A) :
    List.Sublist ((l.filterMap f).map nameAfter) (l.map nameOf) := by
  induction l with
  | nil => exact List.Sublist.refl []
  | cons first rest ih =>
    rw [List.filterMap_cons, List.map_cons]
    cases hfirst : f first with
    | none => exact ih.cons (nameOf first)
    | some value =>
      rw [List.map_cons, hname first value hfirst]
      exact ih.cons_cons (nameOf first)

/-- A member that is picked stands after those picked before it. -/
theorem getElem?_filterMap_of_getElem? {A B : Type*} {f : A → Option B} {l : List A} {i : ℕ} {a : A} {b : B}
    (h : l[i]? = some a) (hf : f a = some b) : (l.filterMap f)[((l.take i).filterMap f).length]? = some b := by
  induction l generalizing i with
  | nil => cases h
  | cons first rest ih =>
    cases i with
    | zero =>
      obtain rfl := Option.some.inj h
      rw [List.filterMap_cons, hf]
      rfl
    | succ i =>
      have hrest := ih (i := i) h
      rw [List.take_succ_cons, List.filterMap_cons, List.filterMap_cons]
      cases f first with
      | none => exact hrest
      | some value => exact hrest

/-- Lists of the same members have the same greatest one. -/
theorem max?_congr {A : Type*} [Max A] [LE A] [Std.IsLinearOrder A] [Std.LawfulOrderMax A] {xs ys : List A}
    (h : ∀ x, x ∈ xs ↔ x ∈ ys) : xs.max? = ys.max? := by
  cases hmax : ys.max? with
  | none =>
    rw [List.max?_eq_none_iff] at hmax ⊢
    rw [List.eq_nil_iff_forall_not_mem]
    intro x hx
    rw [h, hmax] at hx
    contradiction
  | some x =>
    rw [List.max?_eq_some_iff] at hmax ⊢
    exact ⟨(h x).mpr hmax.1, fun y hy => hmax.2 y ((h y).mp hy)⟩

end Devkit.Library
