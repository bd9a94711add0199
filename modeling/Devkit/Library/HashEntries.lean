import Mathlib.Data.List.Nodup
import Mathlib.Data.List.Perm.Basic
import Mathlib.Data.List.Sort
import Mathlib.Order.Basic

/-!
# Hash maps as they iterate

A hash map is kept as its entries in the order it yields them, each key once. What is read by key, what holds of some
entry, and what is sorted by a key that tells the entries apart is the same in any order. The first entry that meets a
condition is the same exactly where what is read of it is the same for all that meet it.
-/

namespace Devkit.Library

/-- The entries of a hash map in the order it yields them. -/
structure HashEntries (K V : Type) where
  rows : List (K × V)
  nodup : (rows.map Prod.fst).Nodup

namespace HashEntries

variable {K V : Type} {map other : HashEntries K V}

/-- The value of a key. -/
def get? [DecidableEq K] (map : HashEntries K V) (key : K) : Option V :=
  (map.rows.find? fun row => decide (row.1 = key)).map Prod.snd

/-- The values in the order of their entries. -/
def values (map : HashEntries K V) : List V := map.rows.map Prod.snd

/-- The map has no entry. -/
def isEmpty (map : HashEntries K V) : Bool := map.rows.isEmpty

/-- The same entries, in whatever orders. -/
def Same (map other : HashEntries K V) : Prop := map.rows.Perm other.rows

/-- A key has the value of its entry. -/
theorem get?_eq_some [DecidableEq K] {key : K} {value : V} : map.get? key = some value ↔ (key, value) ∈ map.rows := by
  rw [get?, Option.map_eq_some_iff]
  constructor
  · rintro ⟨row, hrow, rfl⟩
    have hkey := List.find?_some (p := fun row : K × V => decide (row.1 = key)) hrow
    rw [← of_decide_eq_true hkey]
    exact List.mem_of_find?_eq_some hrow
  · intro hmem
    have hfound : (map.rows.find? fun row => decide (row.1 = key)).isSome = true :=
      List.find?_isSome.mpr ⟨(key, value), hmem, decide_eq_true rfl⟩
    obtain ⟨row, hrow⟩ := Option.isSome_iff_exists.mp hfound
    have hkey := List.find?_some (p := fun row : K × V => decide (row.1 = key)) hrow
    have hsame := List.inj_on_of_nodup_map map.nodup (List.mem_of_find?_eq_some hrow) hmem (of_decide_eq_true hkey)
    exact ⟨row, hrow, congrArg Prod.snd hsame⟩

/-- Lookups are the same in any order. -/
theorem Same.get?_eq [DecidableEq K] (h : map.Same other) : map.get? = other.get? := by
  funext key
  refine Option.ext fun value => ?_
  rw [get?_eq_some, get?_eq_some]
  exact List.Perm.mem_iff h

/-- The values are the same in any order. -/
theorem Same.values (h : map.Same other) : map.values.Perm other.values := h.map Prod.snd

/-- Whether there is no entry is the same in any order. -/
theorem Same.isEmpty_eq (h : map.Same other) : map.isEmpty = other.isEmpty := List.Perm.isEmpty_eq h

/-- Any value can come first. -/
theorem exists_first {value : V} (hvalue : value ∈ map.values) :
    ∃ other, map.Same other ∧ ∃ rest, other.values = value :: rest := by
  obtain ⟨row, hrow, rfl⟩ := List.mem_map.mp hvalue
  obtain ⟨before, after, hrows⟩ := List.append_of_mem hrow
  have hperm : map.rows.Perm (row :: (before ++ after)) := hrows ▸ List.perm_middle
  exact ⟨⟨row :: (before ++ after), (hperm.map Prod.fst).nodup_iff.mp map.nodup⟩, hperm, _, rfl⟩

end HashEntries

section Orders

variable {A B C : Type} {members others : List A}

/-- Sorting leaves nothing only of nothing. -/
theorem mergeSort_eq_nil_iff {le : A → A → Bool} : members.mergeSort le = [] ↔ members = [] := by
  rw [← List.length_eq_zero_iff, List.length_mergeSort, List.length_eq_zero_iff]

/-- Members sorted by a key that tells them apart come out the same in any order. -/
theorem mergeSort_eq_of_perm [LinearOrder B] (key : A → B) (h : members.Perm others)
    (hkey : ∀ a ∈ members, ∀ b ∈ members, key a = key b → a = b) :
    members.mergeSort (fun a b => decide (key a ≤ key b)) = others.mergeSort (fun a b => decide (key a ≤ key b)) := by
  have hsorted (l : List A) : (l.mergeSort fun a b => decide (key a ≤ key b)).Pairwise fun a b => key a ≤ key b := by
    refine (List.pairwise_mergeSort (fun a b c hab hbc => ?_) (fun a b => ?_) l).imp of_decide_eq_true
    · exact decide_eq_true ((of_decide_eq_true hab).trans (of_decide_eq_true hbc))
    · rw [Bool.or_eq_true, decide_eq_true_iff, decide_eq_true_iff]
      exact le_total _ _
  have hperm : (members.mergeSort fun a b => decide (key a ≤ key b)).Perm
      (others.mergeSort fun a b => decide (key a ≤ key b)) :=
    (List.mergeSort_perm members _).trans (h.trans (List.mergeSort_perm others _).symm)
  refine hperm.eq_of_pairwise (fun a b ha hb hab hba => ?_) (hsorted members) (hsorted others)
  exact hkey a (List.mem_mergeSort.mp ha) b (h.mem_iff.mpr (List.mem_mergeSort.mp hb)) (le_antisymm hab hba)

/-- What is read of the first member to meet a condition is the same in any order where it is the same for all that
meet it. -/
theorem find?_eq_of_perm {p : A → Bool} {f : A → C} (h : members.Perm others)
    (hsame : ∀ a ∈ members, ∀ b ∈ members, p a = true → p b = true → f a = f b) :
    (members.find? p).map f = (others.find? p).map f := by
  cases hfirst : members.find? p with
  | none =>
    have hnone : others.find? p = none := by
      rw [List.find?_eq_none] at hfirst ⊢
      exact fun a ha => hfirst a (h.mem_iff.mpr ha)
    rw [hnone]
  | some first =>
    have hmem := List.mem_of_find?_eq_some hfirst
    have hmeets := List.find?_some hfirst
    have hfound : (others.find? p).isSome = true := List.find?_isSome.mpr ⟨first, h.mem_iff.mp hmem, hmeets⟩
    obtain ⟨other, hother⟩ := Option.isSome_iff_exists.mp hfound
    rw [hother]
    refine congrArg some (hsame first hmem other ?_ hmeets (List.find?_some hother))
    exact h.mem_iff.mpr (List.mem_of_find?_eq_some hother)

end Orders

end Devkit.Library
