import Devkit.Library.Unvisited
import Mathlib.Data.List.Dedup
import Mathlib.Data.Option.Basic
import Mathlib.Logic.Relation

/-!
# Queries

A query compares values that may be missing, and a comparison with a missing value is neither
true nor false. A condition holds when it is true; unknown does not pass.

A recursive query starts from some rows and adds, round by round, what its recursive term makes of
the rows the last round found, without a row it has already. It ends with what the rows it
started from reach.
-/

namespace Devkit.Library

open Relation

/-- The truth of a condition, or none where it is unknown. -/
abbrev Truth := Option Bool

namespace Truth

/-- The condition holds: it is true, and not unknown. -/
def holds (truth : Truth) : Bool := truth == some true

/-- Either condition: true when one is true, unknown when neither is and one is unknown. -/
def or : Truth → Truth → Truth
  | some true, _ => some true
  | _, some true => some true
  | some false, some false => some false
  | _, _ => none

/-- Both conditions: false when one is false, unknown when neither is and one is unknown. -/
def and : Truth → Truth → Truth
  | some false, _ => some false
  | _, some false => some false
  | some true, some true => some true
  | _, _ => none

/-- The negation of a condition; unknown stays unknown. -/
def not : Truth → Truth
  | some value => some !value
  | none => none

/-- Two values are equal; unknown when one is missing. -/
def equal {A : Type*} [DecidableEq A] : Option A → Option A → Truth
  | some a, some b => some (a == b)
  | _, _ => none

/-- The value is one of the list; unknown when it is missing. -/
def among {A : Type*} [DecidableEq A] (value : Option A) (list : List A) : Truth := value.map (· ∈ list)

@[simp] theorem holds_some (value : Bool) : holds (some value) = value := by cases value <;> rfl

@[simp] theorem holds_none : holds none = false := rfl

@[simp] theorem or_some (a b : Bool) : or (some a) (some b) = some (a || b) := by cases a <;> cases b <;> rfl

@[simp] theorem and_some (a b : Bool) : and (some a) (some b) = some (a && b) := by cases a <;> cases b <;> rfl

@[simp] theorem not_some (a : Bool) : not (some a) = some !a := rfl

@[simp] theorem equal_some {A : Type*} [DecidableEq A] (a b : A) : equal (some a) (some b) = some (a == b) := rfl

@[simp] theorem among_some {A : Type*} [DecidableEq A] (a : A) (list : List A) :
    among (some a) list = some (decide (a ∈ list)) := rfl

/-- A true condition decides an alternative, whatever the other is. -/
@[simp] theorem true_or (truth : Truth) : or (some true) truth = some true := rfl

/-- A false condition decides a conjunction, whatever the other is. -/
@[simp] theorem false_and (truth : Truth) : and (some false) truth = some false := rfl

end Truth

variable {A : Type*} [DecidableEq A]

/-- The rows of a recursive query, from those found so far and those the last round found. -/
def recursiveUnion (term : List A → List A) (bound : List A) (hterm : ∀ working, term working ⊆ bound)
    (result working : List A) : List A :=
  match _hfresh : (term working).dedup.filter (· ∉ result) with
  | [] => result
  | first :: rest => recursiveUnion term bound hterm (result ++ first :: rest) (first :: rest)
termination_by unvisited bound result
decreasing_by
  have hmem : first ∈ (term working).dedup.filter (· ∉ result) := by
    rw [_hfresh]
    exact List.mem_cons_self
  obtain ⟨hfound, hnew⟩ := List.mem_filter.mp hmem
  exact unvisited_lt (List.subset_append_left result _) (hterm working (List.mem_dedup.mp hfound))
    (of_decide_eq_true hnew) (List.mem_append_right result List.mem_cons_self)

/-- A recursive query finds what the rows found so far reach, where the term follows a relation and
all rows but those of the last round were followed before. -/
theorem mem_recursiveUnion {term : List A → List A} {bound : List A}
    {hterm : ∀ working, term working ⊆ bound} {R : A → A → Prop}
    (hfollow : ∀ working b, b ∈ term working ↔ ∃ a ∈ working, R a b) {result working : List A}
    (hworking : working ⊆ result) (hfollowed : ∀ a ∈ result, a ∉ working → ∀ b, R a b → b ∈ result) {b : A} :
    b ∈ recursiveUnion term bound hterm result working ↔ ∃ a ∈ result, ReflTransGen R a b := by
  induction result, working using recursiveUnion.induct term bound hterm with
  | case1 result working hfresh =>
    have hend : recursiveUnion term bound hterm result working = result := by
      rw [recursiveUnion]
      split
      · rfl
      · rename_i hmore
        rw [hfresh] at hmore
        cases hmore
    have hclosed : ∀ a ∈ result, ∀ b, R a b → b ∈ result := by
      intro a ha b hedge
      by_cases hlast : a ∈ working
      · by_contra hnew
        have hmem : b ∈ (term working).dedup.filter (· ∉ result) :=
          List.mem_filter.mpr ⟨List.mem_dedup.mpr ((hfollow working b).mpr ⟨a, hlast, hedge⟩),
            decide_eq_true hnew⟩
        rw [hfresh] at hmem
        exact List.not_mem_nil hmem
      · exact hfollowed a ha hlast b hedge
    rw [hend]
    constructor
    · exact fun hb => ⟨b, hb, .refl⟩
    · intro hreach
      obtain ⟨a, ha, hway⟩ := hreach
      induction hway with
      | refl => exact ha
      | tail _ hedge ih => exact hclosed _ ih _ hedge
  | case2 result working first rest hfresh ih =>
    have hnext : recursiveUnion term bound hterm result working =
        recursiveUnion term bound hterm (result ++ first :: rest) (first :: rest) := by
      rw [recursiveUnion]
      split
      · rename_i hnone
        rw [hfresh] at hnone
        cases hnone
      · rename_i other more hmore
        rw [hfresh] at hmore
        cases hmore
        rfl
    have hfound : ∀ b, b ∈ first :: rest ↔ (∃ a ∈ working, R a b) ∧ b ∉ result := by
      intro b
      rw [← hfresh, List.mem_filter, List.mem_dedup, hfollow, decide_eq_true_eq]
    rw [hnext, ih (List.subset_append_right result _) fun a ha hold b hedge => ?_]
    · constructor
      · intro hreach
        obtain ⟨a, ha, hway⟩ := hreach
        cases List.mem_append.mp ha with
        | inl hold => exact ⟨a, hold, hway⟩
        | inr hnew =>
          obtain ⟨⟨start, hstart, hedge⟩, _⟩ := (hfound a).mp hnew
          exact ⟨start, hworking hstart, .head hedge hway⟩
      · exact fun ⟨a, ha, hway⟩ => ⟨a, List.mem_append_left _ ha, hway⟩
    · have ha := (List.mem_append.mp ha).resolve_right hold
      by_cases hlast : a ∈ working
      · by_cases hb : b ∈ result
        · exact List.mem_append_left _ hb
        · exact List.mem_append_right result ((hfound b).mpr ⟨⟨a, hlast, hedge⟩, hb⟩)
      · exact List.mem_append_left _ (hfollowed a ha hlast b hedge)

/-- The rows of a recursive query that starts from the given ones. -/
def recursiveQuery (term : List A → List A) (bound : List A) (hterm : ∀ working, term working ⊆ bound)
    (start : List A) : List A :=
  recursiveUnion term bound hterm start.dedup start.dedup

/-- A recursive query finds what its first rows reach. -/
theorem mem_recursiveQuery {term : List A → List A} {bound : List A}
    {hterm : ∀ working, term working ⊆ bound} {R : A → A → Prop}
    (hfollow : ∀ working b, b ∈ term working ↔ ∃ a ∈ working, R a b) {start : List A} {b : A} :
    b ∈ recursiveQuery term bound hterm start ↔ ∃ a ∈ start, ReflTransGen R a b := by
  rw [recursiveQuery, mem_recursiveUnion hfollow (List.Subset.refl _) fun a ha hnot => absurd ha hnot]
  simp only [List.mem_dedup]

end Devkit.Library
