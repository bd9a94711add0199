import Mathlib.Data.List.TakeWhile
import Mathlib.Data.List.Basic

/-!
# Ancestry of separator-delimited names

A name is a list of characters cut into segments by a separator. One name is at or
above another when it is that name or a run of its leading segments. The relation is a
partial order, two names above a common one are comparable, and names on one line of
ancestry share their first segment.
-/

namespace Devkit.Library

variable {A : Type*}

/-- `top` is `name`, or a proper run of its leading segments. -/
def AtOrAbove (sep : A) (top name : List A) : Prop := top = name ∨ top ++ [sep] <+: name

/-- The two names lie on one line of ancestry. -/
def OnOneLine (sep : A) (a b : List A) : Prop := AtOrAbove sep a b ∨ AtOrAbove sep b a

/-- The leading segment of a name. -/
def firstSegment [DecidableEq A] (sep : A) (name : List A) : List A := name.takeWhile (· ≠ sep)

/-- Every name is at or above itself. -/
@[simp] theorem AtOrAbove.refl (sep : A) (name : List A) : AtOrAbove sep name name := Or.inl rfl

/-- A name above another is a prefix of it. -/
theorem AtOrAbove.isPrefix {sep : A} {top name : List A} (h : AtOrAbove sep top name) :
    top <+: name := by
  rcases h with rfl | h
  · exact List.prefix_rfl
  · exact (List.prefix_append top [sep]).trans h

/-- Ancestry composes along a line. -/
theorem AtOrAbove.trans {sep : A} {a b c : List A} (hab : AtOrAbove sep a b)
    (hbc : AtOrAbove sep b c) : AtOrAbove sep a c := by
  rcases hab with rfl | hab
  · exact hbc
  · exact Or.inr (hab.trans hbc.isPrefix)

/-- Being on one line does not depend on the order of the names. -/
theorem OnOneLine.symm {sep : A} {a b : List A} (h : OnOneLine sep a b) : OnOneLine sep b a := Or.symm h

/-- A name is on one line with itself. -/
@[simp] theorem OnOneLine.refl (sep : A) (name : List A) : OnOneLine sep name name :=
  Or.inl (AtOrAbove.refl sep name)

/-- Two names above a common one are comparable. -/
theorem AtOrAbove.onOneLine {sep : A} {a b c : List A} (hac : AtOrAbove sep a c)
    (hbc : AtOrAbove sep b c) : OnOneLine sep a b := by
  rcases hac with rfl | hac
  · exact Or.inr hbc
  rcases hbc with rfl | hbc
  · exact Or.inl (Or.inr hac)
  rcases List.prefix_or_prefix_of_prefix hac hbc with h | h
  · rcases List.prefix_concat_iff.mp h with heq | hlt
    · exact Or.inl (Or.inl (List.append_left_injective [sep] heq))
    · exact Or.inl (Or.inr hlt)
  · rcases List.prefix_concat_iff.mp h with heq | hlt
    · exact Or.inr (Or.inl (List.append_left_injective [sep] heq))
    · exact Or.inr (Or.inr hlt)

/-- A name above a second one lies on one line with every name on a line with the second. -/
theorem AtOrAbove.onOneLine_of_onOneLine {sep : A} {top name other : List A}
    (h : AtOrAbove sep top name) (hline : OnOneLine sep name other) : OnOneLine sep top other := by
  rcases hline with hbelow | habove
  · exact Or.inl (h.trans hbelow)
  · exact h.onOneLine habove

/-- The first segment stops at the first separator. -/
theorem firstSegment_append_sep [DecidableEq A] (sep : A) (top rest : List A) :
    firstSegment sep (top ++ [sep] ++ rest) = firstSegment sep top := by
  induction top with
  | nil => simp [firstSegment]
  | cons a top ih =>
    by_cases ha : a = sep
    · simp [firstSegment, ha]
    · simpa [firstSegment, ha] using ih

/-- A text free of the separator is its own first segment. -/
theorem firstSegment_eq_self [DecidableEq A] {sep : A} {text : List A} (h : sep ∉ text) :
    firstSegment sep text = text := by
  refine List.takeWhile_eq_self_iff.mpr fun a ha => ?_
  simpa using fun heq : a = sep => h (heq ▸ ha)

/-- Cutting at the first separator recovers both parts. -/
theorem append_sep_inj [DecidableEq A] {sep : A} {left left' right right' : List A}
    (hleft : sep ∉ left) (hleft' : sep ∉ left')
    (h : left ++ sep :: right = left' ++ sep :: right') : left = left' ∧ right = right' := by
  have hfirst := congrArg (firstSegment sep) h
  rw [List.append_cons, List.append_cons left', firstSegment_append_sep,
    firstSegment_append_sep, firstSegment_eq_self hleft, firstSegment_eq_self hleft'] at hfirst
  subst hfirst
  exact ⟨rfl, by simpa using h⟩

/-- Names above each other share their first segment. -/
theorem AtOrAbove.firstSegment_eq [DecidableEq A] {sep : A} {top name : List A}
    (h : AtOrAbove sep top name) : firstSegment sep top = firstSegment sep name := by
  rcases h with rfl | ⟨rest, rfl⟩
  · rfl
  · exact (firstSegment_append_sep sep top rest).symm

/-- Names on one line share their first segment. -/
theorem OnOneLine.firstSegment_eq [DecidableEq A] {sep : A} {a b : List A}
    (h : OnOneLine sep a b) : firstSegment sep a = firstSegment sep b := by
  rcases h with hab | hba
  · exact hab.firstSegment_eq
  · exact hba.firstSegment_eq.symm

end Devkit.Library
