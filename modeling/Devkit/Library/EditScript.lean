import Mathlib.Data.List.Basic

/-!
# Edit scripts of two lists

A walk over the table of longest common subsequences keeps what both lists have next and otherwise drops
or adds an element. Keeping and dropping gives the old list, keeping and adding the new one, and nothing
is both dropped and added between two elements kept.
-/

namespace Devkit.Library

variable {A : Type*} [DecidableEq A]

section Table

/-- A row of the table: the lengths for one more element of the old list, from those without it. -/
def lcsRow (a : A) (below : List A → ℕ) : List A → ℕ
  | [] => 0
  | b :: new => if a = b then below new + 1 else max (below (b :: new)) (lcsRow a below new)

/-- The length of a longest common subsequence. -/
def lcs : List A → List A → ℕ
  | [], _ => 0
  | a :: old, new => lcsRow a (lcs old) new

/-- Nothing is common with no elements. -/
theorem lcs_nil (old : List A) : lcs old [] = 0 := by
  cases old <;> rfl

/-- A common first element counts, and otherwise one of the two is passed. -/
theorem lcs_cons (a b : A) (old new : List A) :
    lcs (a :: old) (b :: new) = if a = b then lcs old new + 1 else max (lcs old (b :: new)) (lcs (a :: old) new) := rfl

/-- One more element on either side counts for at most one. -/
theorem lcs_step (old new : List A) :
    (∀ a, lcs old new ≤ lcs (a :: old) new ∧ lcs (a :: old) new ≤ lcs old new + 1) ∧
      ∀ b, lcs old new ≤ lcs old (b :: new) ∧ lcs old (b :: new) ≤ lcs old new + 1 := by
  induction old generalizing new with
  | nil =>
    have hnone : ∀ (a : A) (new : List A), lcs [a] new ≤ 1 := by
      intro a new
      induction new with
      | nil => exact Nat.zero_le 1
      | cons b new ih =>
        rw [lcs_cons]
        split
        · exact Nat.le_refl 1
        · exact Nat.max_le.mpr ⟨Nat.zero_le 1, ih⟩
    exact ⟨fun a => ⟨Nat.zero_le _, hnone a new⟩, fun b => ⟨Nat.le_refl _, Nat.zero_le _⟩⟩
  | cons c old ih =>
    induction new with
    | nil =>
      refine ⟨fun a => ⟨Nat.le_refl _, Nat.zero_le _⟩, fun b => ?_⟩
      have hrest := ((ih []).2 b).2
      have hnone := lcs_nil (c :: old)
      rw [lcs_nil] at hrest
      rw [hnone, lcs_cons, lcs_nil]
      split
      · omega
      · omega
    | cons d new ihnew =>
      have hright : ∀ b, lcs (c :: old) (d :: new) ≤ lcs (c :: old) (b :: d :: new) ∧
          lcs (c :: old) (b :: d :: new) ≤ lcs (c :: old) (d :: new) + 1 := by
        intro b
        have hold := (ih (d :: new)).1 c
        have hnew := (ih (d :: new)).2 b
        rw [lcs_cons c b]
        split
        · omega
        · omega
      refine ⟨fun a => ?_, hright⟩
      have hold := (ihnew.1 a)
      have hnew := ihnew.2 d
      rw [lcs_cons a d]
      split
      · omega
      · omega

/-- What is common to ends of two lists is common to the lists. -/
theorem lcs_suffix {old new longer other : List A} (hold : old <:+ longer) (hnew : new <:+ other) :
    lcs old new ≤ lcs longer other := by
  obtain ⟨before, rfl⟩ := hold
  obtain ⟨first, rfl⟩ := hnew
  have hleft : lcs old new ≤ lcs (before ++ old) new := by
    induction before with
    | nil => exact Nat.le_refl _
    | cons a before ih => exact Nat.le_trans ih ((lcs_step _ _).1 a).1
  refine Nat.le_trans hleft ?_
  induction first with
  | nil => exact Nat.le_refl _
  | cons b first ih => exact Nat.le_trans ih ((lcs_step _ _).2 b).1

end Table

/-- An element of an edit script. -/
inductive Edit (A : Type*)
  | keep (a : A)
  | drop (a : A)
  | add (a : A)
deriving DecidableEq

/-- The element an edit takes from the old list. -/
def Edit.old : Edit A → Option A
  | .keep a | .drop a => some a
  | .add _ => none

/-- The element an edit leaves in the new list. -/
def Edit.new : Edit A → Option A
  | .keep a | .add a => some a
  | .drop _ => none

section Walk

/-- The script of one more element of the old list, from those without it. -/
def scriptRow (a : A) (old : List A) (below : List A → List (Edit A)) : List A → List (Edit A)
  | [] => .drop a :: below []
  | b :: new =>
    if a = b then .keep a :: below new
    else if lcs (a :: old) new ≤ lcs old (b :: new) then .drop a :: below (b :: new)
    else .add b :: scriptRow a old below new

/-- The edit script of two lists; where an element may be dropped or added, it is dropped. -/
def script : List A → List A → List (Edit A)
  | [], new => new.map .add
  | a :: old, new => scriptRow a old (script old) new

/-- One step of the script: both lists are walked to their ends, an element is kept, or the table is followed. -/
theorem script_cases (old new : List A) :
    (old = [] ∧ new = [] ∧ script old new = []) ∨
    (∃ a restOld restNew, old = a :: restOld ∧ new = a :: restNew ∧
      script old new = .keep a :: script restOld restNew) ∨
    (∃ a rest, old = a :: rest ∧ script old new = .drop a :: script rest new ∧ lcs old new = lcs rest new) ∨
    ∃ b rest, new = b :: rest ∧ script old new = .add b :: script old rest ∧ lcs old new = lcs old rest := by
  cases old with
  | nil =>
    cases new with
    | nil => exact Or.inl ⟨rfl, rfl, rfl⟩
    | cons b new => exact Or.inr (Or.inr (Or.inr ⟨b, new, rfl, rfl, rfl⟩))
  | cons a old =>
    cases new with
    | nil => exact Or.inr (Or.inr (Or.inl ⟨a, old, rfl, rfl, by rw [lcs_nil, lcs_nil]⟩))
    | cons b new =>
      rw [script, scriptRow, lcs_cons]
      split
      · rename_i heq
        exact Or.inr (Or.inl ⟨a, old, new, rfl, by rw [heq], rfl⟩)
      · split
        · rename_i hle
          exact Or.inr (Or.inr (Or.inl ⟨a, old, rfl, rfl, Nat.max_eq_left hle⟩))
        · rename_i hle
          exact Or.inr (Or.inr (Or.inr ⟨b, new, rfl, rfl, Nat.max_eq_right (Nat.le_of_not_le hle)⟩))

/-- Any run of a script starts and ends at ends of the two lists, which it takes and leaves apart. -/
theorem script_append {old new : List A} {run rest : List (Edit A)} (h : script old new = run ++ rest) :
    ∃ restOld restNew, rest = script restOld restNew ∧ old = run.filterMap Edit.old ++ restOld ∧
      new = run.filterMap Edit.new ++ restNew ∧ ((∀ a, .keep a ∉ run) → lcs old new = lcs restOld restNew) := by
  induction run generalizing old new with
  | nil => exact ⟨old, new, h.symm, rfl, rfl, fun _ => rfl⟩
  | cons edit run ih =>
    rcases script_cases old new with ⟨_, _, hscript⟩ | ⟨a, left, right, rfl, rfl, hscript⟩ |
        ⟨a, left, rfl, hscript, hlcs⟩ | ⟨b, right, rfl, hscript, hlcs⟩
    · rw [hscript] at h
      cases h
    · rw [hscript] at h
      obtain ⟨rfl, htail⟩ := List.cons.inj h
      obtain ⟨restOld, restNew, hrest, hold, hnew, _⟩ := ih htail
      refine ⟨restOld, restNew, hrest, ?_, ?_, fun hkeep => absurd List.mem_cons_self (hkeep a)⟩
      · exact congrArg (a :: ·) hold
      · exact congrArg (a :: ·) hnew
    · rw [hscript] at h
      obtain ⟨rfl, htail⟩ := List.cons.inj h
      obtain ⟨restOld, restNew, hrest, hold, hnew, hrun⟩ := ih htail
      refine ⟨restOld, restNew, hrest, ?_, ?_, fun hkeep => ?_⟩
      · exact congrArg (a :: ·) hold
      · exact hnew
      · rw [hlcs, hrun fun a hmem => hkeep a (List.mem_cons_of_mem _ hmem)]
    · rw [hscript] at h
      obtain ⟨rfl, htail⟩ := List.cons.inj h
      obtain ⟨restOld, restNew, hrest, hold, hnew, hrun⟩ := ih htail
      refine ⟨restOld, restNew, hrest, ?_, ?_, fun hkeep => ?_⟩
      · exact hold
      · exact congrArg (b :: ·) hnew
      · rw [hlcs, hrun fun a hmem => hkeep a (List.mem_cons_of_mem _ hmem)]

/-- The script takes the old list and leaves the new one. -/
theorem script_sides (old new : List A) :
    (script old new).filterMap Edit.old = old ∧ (script old new).filterMap Edit.new = new := by
  obtain ⟨restOld, restNew, hrest, hold, hnew, _⟩ := script_append (List.append_nil (script old new)).symm
  rcases script_cases restOld restNew with ⟨rfl, rfl, _⟩ | ⟨_, _, _, _, _, hscript⟩ | ⟨_, _, _, hscript, _⟩ |
      ⟨_, _, _, hscript, _⟩
  · rw [List.append_nil] at hold hnew
    exact ⟨hold.symm, hnew.symm⟩
  · cases hrest.trans hscript
  · cases hrest.trans hscript
  · cases hrest.trans hscript

/-- Nothing is both dropped and added in a run where nothing is kept. -/
theorem script_run {old new : List A} {before run rest : List (Edit A)} (h : script old new = before ++ run ++ rest)
    (hkeep : ∀ a, .keep a ∉ run) {a : A} (hdrop : .drop a ∈ run) (hadd : .add a ∈ run) : False := by
  rw [List.append_assoc] at h
  obtain ⟨midOld, midNew, hmid, _, _, _⟩ := script_append h
  obtain ⟨restOld, restNew, _, hold, hnew, hlcs⟩ := script_append hmid.symm
  have hdropped : a ∈ run.filterMap Edit.old := List.mem_filterMap.mpr ⟨_, hdrop, rfl⟩
  have hadded : a ∈ run.filterMap Edit.new := List.mem_filterMap.mpr ⟨_, hadd, rfl⟩
  obtain ⟨firstOld, lastOld, hsplitOld⟩ := List.append_of_mem hdropped
  obtain ⟨firstNew, lastNew, hsplitNew⟩ := List.append_of_mem hadded
  -- The element both lists have in the run is one more that they have in common.
  have hmore : lcs (a :: (lastOld ++ restOld)) (a :: (lastNew ++ restNew)) ≤ lcs midOld midNew := by
    refine lcs_suffix ⟨firstOld, ?_⟩ ⟨firstNew, ?_⟩
    · rw [hold, hsplitOld, List.append_assoc, List.cons_append]
    · rw [hnew, hsplitNew, List.append_assoc, List.cons_append]
  have hfewer : lcs restOld restNew ≤ lcs (lastOld ++ restOld) (lastNew ++ restNew) :=
    lcs_suffix (List.suffix_append lastOld restOld) (List.suffix_append lastNew restNew)
  rw [lcs_cons, if_pos rfl, hlcs hkeep] at hmore
  omega

end Walk

end Devkit.Library
