import Mathlib.Order.Defs.LinearOrder
import Mathlib.Order.Lattice
import Mathlib.Data.List.Basic

/-!
# Tables kept as rows in key order

A table is the list of its rows, keys ascending. Writing a key replaces its row or puts a new one in
place, and rows written in key order are listed as they were written.
-/

namespace Devkit.Library

variable {K V : Type*} [LinearOrder K]

/-- Write a key: its row is replaced, or a new one is put in place. -/
def putRow (key : K) (value : V) : List (K × V) → List (K × V)
  | [] => [(key, value)]
  | row :: rest =>
    if key < row.1 then (key, value) :: row :: rest
    else if key = row.1 then (key, value) :: rest
    else row :: putRow key value rest

/-- The keys of the rows ascend. -/
def Ascending (table : List (K × V)) : Prop := table.Pairwise fun row other => row.1 < other.1

/-- A row after a write is the one written or a row from before. -/
theorem mem_putRow {key : K} {value : V} {table : List (K × V)} {row : K × V} (h : row ∈ putRow key value table) :
    row = (key, value) ∨ row ∈ table := by
  induction table with
  | nil => exact Or.inl (List.mem_singleton.mp h)
  | cons first rest ih =>
    rw [putRow] at h
    split at h
    · exact List.mem_cons.mp h
    · split at h
      · exact (List.mem_cons.mp h).imp id (List.mem_cons_of_mem first)
      · cases List.mem_cons.mp h with
        | inl heq => exact Or.inr (heq ▸ List.mem_cons_self)
        | inr hrest => exact (ih hrest).imp id (List.mem_cons_of_mem first)

/-- A write keeps the keys ascending. -/
theorem Ascending.putRow {table : List (K × V)} (h : Ascending table) (key : K) (value : V) :
    Ascending (putRow key value table) := by
  induction table with
  | nil => exact List.pairwise_singleton _ _
  | cons first rest ih =>
    obtain ⟨hfirst, hrest⟩ := List.pairwise_cons.mp h
    rw [Library.putRow]
    split
    · rename_i hlt
      refine List.pairwise_cons.mpr ⟨fun other hother => ?_, h⟩
      cases List.mem_cons.mp hother with
      | inl heq => exact heq ▸ hlt
      | inr hmem => exact lt_trans hlt (hfirst other hmem)
    · split
      · rename_i heq
        exact List.pairwise_cons.mpr ⟨fun other hother => heq ▸ hfirst other hother, hrest⟩
      · rename_i hnot hne
        refine List.pairwise_cons.mpr ⟨fun other hother => ?_, ih hrest⟩
        cases mem_putRow hother with
        | inl heq => exact heq ▸ lt_of_le_of_ne (not_lt.mp hnot) (Ne.symm hne)
        | inr hmem => exact hfirst other hmem

/-- A key after all others is written last. -/
theorem putRow_of_lt {key : K} (value : V) {table : List (K × V)} (h : ∀ row ∈ table, row.1 < key) :
    putRow key value table = table ++ [(key, value)] := by
  induction table with
  | nil => rfl
  | cons first rest ih =>
    have hfirst := h first List.mem_cons_self
    rw [putRow, if_neg (lt_asymm hfirst), if_neg (ne_of_gt hfirst),
      ih fun row hrow => h row (List.mem_cons_of_mem first hrow)]
    rfl

/-- The row of the last key is replaced. -/
theorem putRow_last {key : K} (value before : V) {table : List (K × V)} (h : ∀ row ∈ table, row.1 < key) :
    putRow key value (table ++ [(key, before)]) = table ++ [(key, value)] := by
  induction table with
  | nil => rw [List.nil_append, putRow, if_neg (lt_irrefl key), if_pos rfl, List.nil_append]
  | cons first rest ih =>
    have hfirst := h first List.mem_cons_self
    rw [List.cons_append, putRow, if_neg (lt_asymm hfirst), if_neg (ne_of_gt hfirst),
      ih fun row hrow => h row (List.mem_cons_of_mem first hrow)]
    rfl

/-- The value of a key. -/
def rowOf (key : K) : List (K × V) → Option V
  | [] => none
  | row :: rest => if row.1 = key then some row.2 else rowOf key rest

/-- A value looked up is that of a row. -/
theorem mem_of_rowOf {key : K} {value : V} {table : List (K × V)} (h : rowOf key table = some value) :
    (key, value) ∈ table := by
  induction table with
  | nil => cases h
  | cons first rest ih =>
    rw [rowOf] at h
    split at h
    · rename_i heq
      obtain rfl := Option.some.inj h
      exact heq ▸ List.mem_cons_self
    · exact List.mem_cons_of_mem first (ih h)

/-- A key that no row has has no value. -/
theorem rowOf_eq_none {key : K} {table : List (K × V)} (h : ∀ row ∈ table, row.1 ≠ key) : rowOf key table = none := by
  induction table with
  | nil => rfl
  | cons first rest ih =>
    rw [rowOf, if_neg (h first List.mem_cons_self), ih fun row hrow => h row (List.mem_cons_of_mem first hrow)]

/-- A lookup passes rows of other keys. -/
theorem rowOf_append {key : K} {before : List (K × V)} (h : ∀ row ∈ before, row.1 ≠ key) (table : List (K × V)) :
    rowOf key (before ++ table) = rowOf key table := by
  induction before with
  | nil => rfl
  | cons first rest ih =>
    rw [List.cons_append, rowOf, if_neg (h first List.mem_cons_self),
      ih fun row hrow => h row (List.mem_cons_of_mem first hrow)]

/-- In a table of ascending keys the rows are the values looked up. -/
theorem Ascending.rowOf_eq_some {table : List (K × V)} (h : Ascending table) {key : K} {value : V} :
    rowOf key table = some value ↔ (key, value) ∈ table := by
  refine ⟨mem_of_rowOf, fun hmem => ?_⟩
  induction table with
  | nil => cases hmem
  | cons first rest ih =>
    obtain ⟨hfirst, hrest⟩ := List.pairwise_cons.mp h
    rw [rowOf]
    cases List.mem_cons.mp hmem with
    | inl heq => rw [← heq, if_pos rfl]
    | inr hmem => rw [if_neg (ne_of_lt (hfirst _ hmem)), ih hrest hmem]

/-- A lookup after a write. -/
theorem rowOf_putRow (key other : K) (value : V) (table : List (K × V)) :
    rowOf other (putRow key value table) = if key = other then some value else rowOf other table := by
  induction table with
  | nil => rfl
  | cons first rest ih =>
    rw [putRow]
    split
    · rw [rowOf]
    · split
      · rename_i heq
        rw [rowOf, rowOf, heq]
        split <;> rfl
      · rename_i hne
        rw [rowOf, ih, rowOf]
        split
        · rename_i hfirst
          rw [if_neg fun heq => hne (heq.trans hfirst.symm)]
        · rfl

end Devkit.Library
