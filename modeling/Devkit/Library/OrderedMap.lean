import Mathlib.Data.List.Sort

/-!
# Rows of an ordered map

Ordered maps are the standard extensional tree maps. These lemmas state lookups with
equality of keys instead of the comparator, list the stored rows in key order, and
remove a list of keys.
-/

namespace Devkit.Library

open Std

variable {K V : Type*} {cmp : K → K → Ordering} [TransCmp cmp] [LawfulEqCmp cmp]

/-- The stored values, in key order. -/
def rows (m : ExtTreeMap K V cmp) : List V := m.toList.map Prod.snd

/-- A row is listed exactly when some key holds it. -/
theorem mem_rows {m : ExtTreeMap K V cmp} {v : V} : v ∈ rows m ↔ ∃ k : K, m[k]? = some v := by
  simp only [rows, List.mem_map, Prod.exists, exists_eq_right]
  exact exists_congr fun k => ExtTreeMap.mem_toList_iff_getElem?_eq_some

/-- Looking up a key after an insertion. -/
theorem getElem?_insert_eq [DecidableEq K] (m : ExtTreeMap K V cmp) (k a : K) (v : V) :
    (m.insert k v)[a]? = if k = a then some v else m[a]? := by
  rw [ExtTreeMap.getElem?_insert]
  simp only [LawfulEqCmp.compare_eq_iff_eq]

/-- Looking up a key after an erasure. -/
theorem getElem?_erase_eq [DecidableEq K] (m : ExtTreeMap K V cmp) (k a : K) :
    (m.erase k)[a]? = if k = a then none else m[a]? := by
  rw [ExtTreeMap.getElem?_erase]
  simp only [LawfulEqCmp.compare_eq_iff_eq]

/-- Looking up a key after a change of the value of one. -/
theorem getElem?_modify_eq [DecidableEq K] (m : ExtTreeMap K V cmp) (k a : K) (f : V → V) :
    (m.modify k f)[a]? = if k = a then m[k]?.map f else m[a]? := by
  rw [ExtTreeMap.getElem?_modify]
  simp only [LawfulEqCmp.compare_eq_iff_eq]

/-- Looking up a key after keeping the rows that pass a test. -/
theorem getElem?_filter_eq_some (m : ExtTreeMap K V cmp) (keep : K → V → Bool) (a : K) (v : V) :
    (m.filter keep)[a]? = some v ↔ m[a]? = some v ∧ keep a v = true := by
  rw [ExtTreeMap.getElem?_filter', Option.filter_eq_some_iff]

/-- The listed rows have different keys. -/
theorem toList_pairwise_ne (m : ExtTreeMap K V cmp) : m.toList.Pairwise fun a b => a.1 ≠ b.1 :=
  ExtTreeMap.distinct_keys_toList.imp fun hne heq => hne (by rw [heq]; exact ReflCmp.compare_self)

/-- A map of rows with different keys holds exactly the rows. -/
theorem getElem?_ofList_eq_some [DecidableEq K] {l : List (K × V)}
    (hdistinct : l.Pairwise fun a b => a.1 ≠ b.1) {k : K} {v : V} :
    (ExtTreeMap.ofList l cmp)[k]? = some v ↔ (k, v) ∈ l := by
  have hcmp : l.Pairwise fun a b => ¬ cmp a.1 b.1 = .eq :=
    hdistinct.imp fun hne heq => hne (LawfulEqCmp.eq_of_compare heq)
  have hget : ∀ {v : V}, (k, v) ∈ l → (ExtTreeMap.ofList l cmp)[k]? = some v := fun hmem =>
    ExtTreeMap.getElem?_ofList_of_mem ReflCmp.compare_self hcmp hmem
  constructor
  · intro hsome
    have hkey : k ∈ ExtTreeMap.ofList l cmp := by
      rw [ExtTreeMap.mem_iff_isSome_getElem?, hsome]
      rfl
    rw [ExtTreeMap.mem_ofList, List.contains_iff_mem, List.mem_map] at hkey
    obtain ⟨⟨k', v'⟩, hmem, rfl⟩ := hkey
    obtain rfl := Option.some.inj ((hget hmem).symm.trans hsome)
    exact hmem
  · exact hget

/-- A row of a map that a list of rows is put into was there before, or is in the list. -/
theorem mem_of_getElem?_insertMany [DecidableEq K] {l : List (K × V)} {m : ExtTreeMap K V cmp} {k : K} {v : V}
    (h : (m.insertMany l)[k]? = some v) : (k, v) ∈ l ∨ m[k]? = some v := by
  induction l generalizing m with
  | nil =>
    rw [ExtTreeMap.insertMany_nil] at h
    exact Or.inr h
  | cons row rest ih =>
    rw [ExtTreeMap.insertMany_cons] at h
    rcases ih h with hrest | hrow
    · exact Or.inl (List.mem_cons_of_mem row hrest)
    · rw [getElem?_insert_eq] at hrow
      split at hrow
      · rename_i heq
        obtain rfl := Option.some.inj hrow
        subst heq
        exact Or.inl List.mem_cons_self
      · exact Or.inr hrow

/-- A row of the map of a list of rows is in the list. -/
theorem mem_of_getElem?_ofList [DecidableEq K] {l : List (K × V)} {k : K} {v : V}
    (h : (ExtTreeMap.ofList l cmp)[k]? = some v) : (k, v) ∈ l := by
  rw [ExtTreeMap.ofList_eq_insertMany_empty] at h
  refine (mem_of_getElem?_insertMany h).resolve_right ?_
  simp

/-- Erase every key of a list. -/
def eraseAll (m : ExtTreeMap K V cmp) (keys : List K) : ExtTreeMap K V cmp :=
  keys.foldl (fun m k => m.erase k) m

/-- Only the listed keys are lost. -/
theorem getElem?_eraseAll [DecidableEq K] (m : ExtTreeMap K V cmp) (keys : List K) (a : K) :
    (eraseAll m keys)[a]? = if a ∈ keys then none else m[a]? := by
  induction keys generalizing m with
  | nil => simp [eraseAll]
  | cons k keys ih =>
    change (eraseAll (m.erase k) keys)[a]? = _
    rw [ih, getElem?_erase_eq]
    by_cases hk : k = a
    · simp [hk]
    · simp [hk, Ne.symm hk]

/-- A row that survives a mass erasure was there before, under a key not listed. -/
theorem getElem?_eraseAll_eq_some [DecidableEq K] (m : ExtTreeMap K V cmp) (keys : List K) (a : K)
    (v : V) : (eraseAll m keys)[a]? = some v ↔ a ∉ keys ∧ m[a]? = some v := by
  rw [getElem?_eraseAll]
  split <;> simp_all

end Devkit.Library
