import Mathlib.Data.List.Basic

/-!
# Walks in a tree of names

A place is the list of names from the top of a tree down to it, and the top is its own
parent. A walk that climbs above where it started loses that many names of its starting
place, and otherwise does what it would have done from the top.
-/

namespace Devkit.Library

variable {A : Type*}

/-- One move: down to a named child, or up to the parent. -/
inductive Move (A : Type*)
  | down (name : A)
  | up

/-- The place one move leads to. -/
def Move.from (place : List A) : Move A → List A
  | .down name => place ++ [name]
  | .up => place.dropLast

/-- The place a walk leads to. -/
def walk (place : List A) (moves : List (Move A)) : List A := moves.foldl Move.from place

/-- How far above its start a walk climbs. -/
def climb : List (Move A) → ℕ
  | [] => 0
  | .down _ :: rest => climb rest - 1
  | .up :: rest => climb rest + 1

@[simp] theorem walk_nil (place : List A) : walk place [] = place := rfl

@[simp] theorem walk_cons (place : List A) (move : Move A) (rest : List (Move A)) :
    walk place (move :: rest) = walk (move.from place) rest := rfl

/-- Walking on from where a walk ended. -/
theorem walk_append (place : List A) (first second : List (Move A)) :
    walk place (first ++ second) = walk (walk place first) second :=
  List.foldl_append

/-- A walk keeps the part of its start it does not climb out of, then goes as from the top. -/
theorem walk_eq (place : List A) (moves : List (Move A)) :
    walk place moves = place.take (place.length - climb moves) ++ walk [] moves := by
  induction moves generalizing place with
  | nil => simp [climb]
  | cons move rest ih =>
    cases move with
    | up =>
      rw [walk_cons, walk_cons, ih]
      simp only [Move.from, List.dropLast_eq_take, List.length_take, List.take_take, climb, List.take_nil]
      congr 2
      omega
    | down name =>
      rw [walk_cons, walk_cons, ih (Move.from place _), ih (Move.from [] _)]
      simp only [Move.from, climb, List.length_append, List.length_singleton, List.nil_append,
        ← List.append_assoc]
      congr 1
      cases hclimb : climb rest with
      | zero =>
        rw [List.take_of_length_le (by simp)]
        simp
      | succ n =>
        rw [List.take_append_of_le_length (by omega)]
        simp

/-- A walk that never climbs above its start goes as from the top. -/
theorem walk_of_climb_eq_zero (place : List A) {moves : List (Move A)} (h : climb moves = 0) :
    walk place moves = place ++ walk [] moves := by
  rw [walk_eq, h]
  simp

/-- Names a walk from the top ends with were moved down into. -/
theorem mem_walk {place : List A} {moves : List (Move A)} {name : A} (h : name ∈ walk place moves) :
    name ∈ place ∨ .down name ∈ moves := by
  induction moves generalizing place with
  | nil => exact Or.inl h
  | cons move rest ih =>
    rcases ih h with hplace | hrest
    · cases move with
      | up => exact Or.inl ((List.dropLast_sublist place).subset hplace)
      | down other =>
        rcases List.mem_append.mp hplace with hold | hnew
        · exact Or.inl hold
        · rw [List.mem_singleton.mp hnew]
          exact Or.inr List.mem_cons_self
    · exact Or.inr (List.mem_cons_of_mem _ hrest)

end Devkit.Library
