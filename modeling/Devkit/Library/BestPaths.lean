import Devkit.Library.OrderedMap
import Mathlib.Data.List.Chain

/-!
# The best path from each key

A table filled one key at a time, each value computed from those of the keys below it that are in
already. Filled in an order where nothing comes before what is below it, the table satisfies its own
recursion. Where each value is the key itself and a greatest of the paths from below it, in an order
of paths where a longer one is greater and a common head does not matter, the table holds a greatest
of all the paths from each key.
-/

namespace Devkit.Library

open Std

variable {K V : Type*} [Ord K] [TransOrd K] [LawfulEqOrd K]

/-- A table of values, each computed from those of the keys below it that are in already. -/
def tabulate (below : K → List K) (value : K → List V → V) (keys : List K) : ExtTreeMap K V :=
  keys.foldl (fun table k => table.insert k (value k ((below k).filterMap fun j => table[j]?))) ∅

section Table

variable {below : K → List K} {value : K → List V → V}

omit [LawfulEqOrd K] in
/-- The last key is computed from the table of the others. -/
theorem tabulate_concat (keys : List K) (k : K) : tabulate below value (keys ++ [k]) =
    (tabulate below value keys).insert k
      (value k ((below k).filterMap fun j => (tabulate below value keys)[j]?)) := by
  rw [tabulate, List.foldl_append]
  rfl

/-- The table has the keys it was filled with. -/
theorem mem_tabulate [DecidableEq K] {keys : List K} {k : K} :
    (∃ v, (tabulate below value keys)[k]? = some v) ↔ k ∈ keys := by
  induction keys using List.reverseRecOn with
  | nil => simp [tabulate]
  | append_singleton keys last ih =>
    rw [tabulate_concat, List.mem_append, List.mem_singleton, ← ih]
    simp only [getElem?_insert_eq]
    by_cases hlast : last = k
    · simp [hlast]
    · simp [hlast, Ne.symm hlast]

/-- Where nothing comes before what is below it, the table satisfies its own recursion. -/
theorem getElem?_tabulate [DecidableEq K] {keys : List K}
    (hbelow : keys.Pairwise fun k later => later ≠ k ∧ later ∉ below k) (hself : ∀ k ∈ keys, k ∉ below k)
    {k : K} (hk : k ∈ keys) : (tabulate below value keys)[k]? =
      some (value k ((below k).filterMap fun j => (tabulate below value keys)[j]?)) := by
  induction keys using List.reverseRecOn with
  | nil => exact absurd hk List.not_mem_nil
  | append_singleton keys last ih =>
    have hsame : ∀ k : K, last ∉ below k →
        ((below k).filterMap fun j => (tabulate below value (keys ++ [last]))[j]?) =
          (below k).filterMap fun j => (tabulate below value keys)[j]? := by
      intro k hlast
      refine List.filterMap_congr fun j hj => ?_
      rw [tabulate_concat, getElem?_insert_eq, if_neg]
      rintro rfl
      exact hlast hj
    rw [List.pairwise_append] at hbelow
    rcases List.mem_append.mp hk with hold | hnew
    · obtain ⟨hne, hlast⟩ := hbelow.2.2 k hold last (List.mem_singleton_self last)
      rw [hsame k hlast, ← ih hbelow.1 (fun j hj => hself j (List.mem_append_left _ hj)) hold,
        tabulate_concat, getElem?_insert_eq, if_neg hne]
    · obtain rfl := List.mem_singleton.mp hnew
      rw [hsame k (hself k hk), tabulate_concat, getElem?_insert_eq, if_pos rfl]

/-- A table of what a function makes of the values of another. -/
theorem getElem?_tabulate_map [DecidableEq K] {W : Type*} {other : K → List W → W} (f : V → W)
    (hf : ∀ k values, other k (values.map f) = f (value k values)) (keys : List K) (k : K) :
    (tabulate below other keys)[k]? = ((tabulate below value keys)[k]?).map f := by
  induction keys using List.reverseRecOn generalizing k with
  | nil => simp [tabulate]
  | append_singleton keys last ih =>
    rw [tabulate_concat, tabulate_concat, getElem?_insert_eq, getElem?_insert_eq]
    split
    · have hvalues : ((below last).filterMap fun j => (tabulate below other keys)[j]?) =
          ((below last).filterMap fun j => (tabulate below value keys)[j]?).map f := by
        rw [List.map_filterMap]
        exact List.filterMap_congr fun j _ => ih j
      rw [hvalues, hf]
      rfl
    · exact ih k

end Table

/-- A path goes from each key to one below it, among some keys. -/
structure IsPath (below : K → List K) (keys path : List K) : Prop where
  known : ∀ k ∈ path, k ∈ keys
  linked : path.IsChain fun k next => next ∈ below k

/-- An order of paths that goes by what follows a common head, and where nothing is least. -/
structure PathOrder (le : List K → List K → Prop) : Prop where
  refl : ∀ path, le path path
  trans : ∀ {a b c}, le a b → le b c → le a c
  nil_le : ∀ path, le [] path
  cons : ∀ {a b} (k : K), le a b → le (k :: a) (k :: b)

/-- What picks a greatest of some paths, when there are any. -/
structure PicksGreatest (le : List K → List K → Prop) (pick : List (List K) → Option (List K)) : Prop where
  none : ∀ {paths}, pick paths = none → paths = []
  mem : ∀ {paths path}, pick paths = some path → path ∈ paths
  greatest : ∀ {paths path}, pick paths = some path → ∀ other ∈ paths, le other path

/-- The path from each key that goes on with the one picked of those from below it. -/
def bestPaths (below : K → List K) (pick : List (List K) → Option (List K)) (keys : List K) :
    ExtTreeMap K (List K) :=
  tabulate below (fun k tails => k :: (pick tails).getD []) keys

section Paths

variable [DecidableEq K] {below : K → List K} {le : List K → List K → Prop}
  {pick : List (List K) → Option (List K)} {keys : List K} (hpick : PicksGreatest le pick)
  (hbelow : keys.Pairwise fun k later => later ≠ k ∧ later ∉ below k) (hself : ∀ k ∈ keys, k ∉ below k)
include hpick hbelow hself

/-- The path from a key starts there, and goes along what is below. -/
theorem isPath_bestPaths {k : K} {path : List K} (h : (bestPaths below pick keys)[k]? = some path) :
    path.head? = some k ∧ IsPath below keys path := by
  induction path generalizing k with
  | nil =>
    have hk : k ∈ keys := mem_tabulate.mp ⟨_, h⟩
    rw [bestPaths, getElem?_tabulate hbelow hself hk] at h
    exact absurd (Option.some.inj h) (List.cons_ne_nil _ _)
  | cons first rest ih =>
    have hk : k ∈ keys := mem_tabulate.mp ⟨_, h⟩
    rw [bestPaths, getElem?_tabulate hbelow hself hk, Option.some.injEq, List.cons.injEq] at h
    obtain ⟨rfl, hrest⟩ := h
    cases hpicked : pick ((below k).filterMap fun j => (tabulate below
        (fun k tails => k :: (pick tails).getD []) keys)[j]?) with
    | none =>
      rw [hpicked, Option.getD_none] at hrest
      subst hrest
      exact ⟨rfl, fun j hj => List.mem_singleton.mp hj ▸ hk, .singleton k⟩
    | some tail =>
      rw [hpicked, Option.getD_some] at hrest
      subst hrest
      obtain ⟨next, hnext, hfound⟩ := List.mem_filterMap.mp (hpick.mem hpicked)
      obtain ⟨hhead, hknown, hlinked⟩ := ih hfound
      refine ⟨rfl, fun j hj => ?_, List.isChain_cons.mpr ⟨fun j hj => ?_, hlinked⟩⟩
      · rcases List.mem_cons.mp hj with rfl | hj
        · exact hk
        · exact hknown j hj
      · rw [hhead, Option.mem_some_iff] at hj
        exact hj ▸ hnext

/-- No path from a key is greater than the one in the table. -/
theorem le_bestPaths (hle : PathOrder le) {k : K} {rest : List K} (hpath : IsPath below keys (k :: rest)) :
    ∃ best, (bestPaths below pick keys)[k]? = some best ∧ le (k :: rest) best := by
  induction rest generalizing k with
  | nil =>
    have hk : k ∈ keys := hpath.known k List.mem_cons_self
    exact ⟨_, getElem?_tabulate hbelow hself hk, hle.cons k (hle.nil_le _)⟩
  | cons next rest ih =>
    have hk : k ∈ keys := hpath.known k List.mem_cons_self
    obtain ⟨hnext, hlinked⟩ := List.isChain_cons_cons.mp hpath.linked
    obtain ⟨tail, htail, hbest⟩ :=
      ih ⟨fun j hj => hpath.known j (List.mem_cons_of_mem k hj), hlinked⟩
    refine ⟨_, getElem?_tabulate hbelow hself hk, hle.cons k ?_⟩
    have hmem : tail ∈ (below k).filterMap fun j => (bestPaths below pick keys)[j]? :=
      List.mem_filterMap.mpr ⟨next, hnext, htail⟩
    cases hpicked : pick ((below k).filterMap fun j => (bestPaths below pick keys)[j]?) with
    | none =>
      rw [hpick.none hpicked] at hmem
      exact absurd hmem List.not_mem_nil
    | some path =>
      change pick ((below k).filterMap fun j => (tabulate below
        (fun k tails => k :: (pick tails).getD []) keys)[j]?) = some path at hpicked
      rw [hpicked, Option.getD_some]
      exact hle.trans hbest (hpick.greatest hpicked tail hmem)

end Paths

end Devkit.Library
