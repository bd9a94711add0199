import Mathlib.Data.List.Basic
import Mathlib.Order.Lattice

/-!
# Lines and what ends them

A list is cut after each separator: into the lines that a separator ends, and what follows the last one. Cutting a
list in two steps, with what the first leaves put before the rest, cuts it as one step does.
-/

namespace Devkit.Library

variable {A : Type*} [DecidableEq A] {sep : A}

/-- The lines that a separator ends, and what follows the last of them. -/
def cutLines (sep : A) : List A → List (List A) × List A
  | [] => ([], [])
  | a :: list =>
    if a = sep then ([] :: (cutLines sep list).1, (cutLines sep list).2)
    else
      match cutLines sep list with
      | ([], rest) => ([], a :: rest)
      | (line :: lines, rest) => ((a :: line) :: lines, rest)

/-- The lines of a list, one that no separator ends among them. -/
def linesOf (sep : A) (list : List A) : List (List A) :=
  (cutLines sep list).1 ++ if (cutLines sep list).2 = [] then [] else [(cutLines sep list).2]

/-- How much follows the last separator. -/
def sinceLast (sep : A) (list : List A) : ℕ := (cutLines sep list).2.length

/-- Without a separator no line is ended. -/
theorem cutLines_of_notMem {list : List A} (h : sep ∉ list) : cutLines sep list = ([], list) := by
  induction list with
  | nil => rfl
  | cons a list ih =>
    rw [List.mem_cons, not_or] at h
    rw [cutLines, if_neg (Ne.symm h.1), ih h.2]

/-- The first separator ends the first line. -/
theorem cutLines_append_cons {line : List A} (h : sep ∉ line) (list : List A) :
    cutLines sep (line ++ sep :: list) = (line :: (cutLines sep list).1, (cutLines sep list).2) := by
  induction line with
  | nil =>
    rw [List.nil_append, cutLines, if_pos rfl]
  | cons a line ih =>
    rw [List.mem_cons, not_or] at h
    rw [List.cons_append, cutLines, if_neg (Ne.symm h.1), ih h.2]

/-- What follows the last separator has none. -/
theorem notMem_cutLines_snd (sep : A) (list : List A) : sep ∉ (cutLines sep list).2 := by
  induction list with
  | nil => exact List.not_mem_nil
  | cons a list ih =>
    rw [cutLines]
    split
    · exact ih
    · rename_i hother
      split
      · rename_i rest hcut
        rw [hcut] at ih
        rw [List.mem_cons, not_or]
        exact ⟨Ne.symm hother, ih⟩
      · rename_i line lines rest hcut
        rw [hcut] at ih
        exact ih

/-- A list is cut as it is in two steps, with what the first leaves put before the rest. -/
theorem cutLines_append (sep : A) (list more : List A) : cutLines sep (list ++ more) =
    ((cutLines sep list).1 ++ (cutLines sep ((cutLines sep list).2 ++ more)).1,
      (cutLines sep ((cutLines sep list).2 ++ more)).2) := by
  induction hlength : list.length using Nat.strong_induction_on generalizing list with
  | _ n ih =>
    by_cases hsep : sep ∈ list
    · obtain ⟨line, rest, hlist, hline⟩ := List.eq_append_cons_of_mem hsep
      have hshort : rest.length < n := by
        rw [← hlength, hlist, List.length_append, List.length_cons]
        omega
      rw [hlist, List.append_assoc, List.cons_append, cutLines_append_cons hline, cutLines_append_cons hline,
        ih rest.length hshort rest rfl, List.cons_append]
    · rw [cutLines_of_notMem hsep, List.nil_append]

/-- The lines with their separators and what follows them are the list. -/
theorem flatten_cutLines (sep : A) (list : List A) :
    ((cutLines sep list).1.map (· ++ [sep])).flatten ++ (cutLines sep list).2 = list := by
  induction hlength : list.length using Nat.strong_induction_on generalizing list with
  | _ n ih =>
    by_cases hsep : sep ∈ list
    · obtain ⟨line, rest, hlist, hline⟩ := List.eq_append_cons_of_mem hsep
      have hshort : rest.length < n := by
        rw [← hlength, hlist, List.length_append, List.length_cons]
        omega
      rw [hlist, cutLines_append_cons hline, List.map_cons, List.flatten_cons, List.append_assoc,
        ih rest.length hshort rest rfl, List.append_assoc, List.singleton_append]
    · rw [cutLines_of_notMem hsep]
      rfl

/-- At most the whole list follows the last separator. -/
theorem sinceLast_le_length (sep : A) (list : List A) : sinceLast sep list ≤ list.length := by
  induction list with
  | nil => exact Nat.le_refl _
  | cons a list ih =>
    rw [sinceLast] at ih ⊢
    rw [cutLines, List.length_cons]
    split
    · exact Nat.le_succ_of_le ih
    · split
      · rename_i rest hcut
        rw [hcut] at ih
        exact Nat.succ_le_succ ih
      · rename_i line lines rest hcut
        rw [hcut] at ih
        exact Nat.le_succ_of_le ih

theorem linesOf_append (sep : A) (list more : List A) :
    linesOf sep (list ++ more) = (cutLines sep list).1 ++ linesOf sep ((cutLines sep list).2 ++ more) := by
  rw [linesOf, linesOf, cutLines_append]
  exact List.append_assoc ..

theorem sinceLast_append (sep : A) (list more : List A) :
    sinceLast sep (list ++ more) = sinceLast sep ((cutLines sep list).2 ++ more) := by
  rw [sinceLast, sinceLast, cutLines_append]

theorem linesOf_of_notMem {list : List A} (h : sep ∉ list) : linesOf sep list = if list = [] then [] else [list] := by
  rw [linesOf, cutLines_of_notMem h, List.nil_append]

/-- A start without a separator makes the first line longer and no more of them. -/
theorem length_linesOf_append {start list : List A} (h : sep ∉ start) (hlist : list ≠ []) :
    (linesOf sep (start ++ list)).length = (linesOf sep list).length := by
  by_cases hsep : sep ∈ list
  · obtain ⟨line, rest, rfl, hline⟩ := List.eq_append_cons_of_mem hsep
    have hfirst : sep ∉ start ++ line := by
      rw [List.mem_append, not_or]
      exact ⟨h, hline⟩
    rw [← List.append_assoc, linesOf, linesOf, cutLines_append_cons hline, cutLines_append_cons hfirst]
    rfl
  · have hboth : sep ∉ start ++ list := by
      rw [List.mem_append, not_or]
      exact ⟨h, hsep⟩
    rw [linesOf_of_notMem hsep, linesOf_of_notMem hboth, if_neg hlist,
      if_neg fun hnil => hlist (List.append_eq_nil_iff.mp hnil).2]
    rfl

end Devkit.Library
