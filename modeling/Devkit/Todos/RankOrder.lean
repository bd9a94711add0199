import Devkit.Library.BestPaths
import Devkit.Todos.Graph

/-!
# The order of ranks and chains

Ranks are ordered and no two of different todos tie, so of chains as long as each other the one of
the first ranks is the better, and no two of different todos are equally good. What `max_by` keeps
does not depend on the order it meets the chains in.
-/

namespace Devkit.Todos

open Devkit.Library
open Std

/-- Ranks go by the longer chain, then by more dependents, then by order, then by id. -/
theorem rank_cmp_eq : Rank.cmp = compareLex (fun a b => compareOn Rank.chain b a)
    (compareLex (fun a b => compareOn Rank.dependents b a)
      (compareLex (compareOn Rank.order) (compareOn Rank.id))) := by
  funext a b
  simp only [Rank.cmp, compareLex, compareOn, ← OrientedCmp.eq_swap]

instance transCmp_rank : TransCmp Rank.cmp := by
  rw [rank_cmp_eq]
  infer_instance

instance lawfulEqCmp_rank : LawfulEqCmp Rank.cmp where
  eq_of_compare {a b} h := by
    simp only [rank_cmp_eq, compareLex_eq_eq, compareOn, LawfulEqOrd.compare_eq_iff_eq] at h
    obtain ⟨hchain, hdependents, horder, hid⟩ := h
    cases a
    cases b
    simp_all

/-- Ranks of chains are compared like words. -/
theorem compareRanks_eq : compareRanks = List.compareLex Rank.cmp := by
  funext as bs
  induction as generalizing bs with
  | nil => cases bs <;> rfl
  | cons a as ih =>
    cases bs with
    | nil => rfl
    | cons b bs => rw [compareRanks, List.compareLex_cons_cons, ih]

instance transCmp_compareRanks : TransCmp compareRanks := by
  rw [compareRanks_eq]
  infer_instance

instance lawfulEqCmp_compareRanks : LawfulEqCmp compareRanks := by
  rw [compareRanks_eq]
  infer_instance

section Greatest

variable {A : Type} {cmp : A → A → Ordering} [TransCmp cmp]

/-- What the comparison keeps of two elements is one of them, and no less than either. -/
theorem max_of_two (best next : A) : ((if cmp best next = .gt then best else next) = best ∨
    (if cmp best next = .gt then best else next) = next) ∧
      (cmp best (if cmp best next = .gt then best else next)).isLE ∧
      (cmp next (if cmp best next = .gt then best else next)).isLE := by
  split
  · rename_i hgreater
    exact ⟨Or.inl rfl, ReflCmp.isLE_rfl, Ordering.isLE_of_eq_lt (OrientedCmp.lt_of_gt hgreater)⟩
  · rename_i hless
    refine ⟨Or.inr rfl, ?_, ReflCmp.isLE_rfl⟩
    rwa [Ordering.isLE_iff_ne_gt]

/-- The greatest of some elements is one of them, and no less than any. -/
theorem maxBy_spec {elements : List A} {best : A} (h : maxBy cmp elements = some best) :
    best ∈ elements ∧ ∀ element ∈ elements, (cmp element best).isLE := by
  cases elements with
  | nil => contradiction
  | cons first rest =>
    have hfold : ∀ (rest : List A) (first : A),
        rest.foldl (fun best next => if cmp best next = .gt then best else next) first ∈ first :: rest ∧
          ∀ element ∈ first :: rest, (cmp element
            (rest.foldl (fun best next => if cmp best next = .gt then best else next) first)).isLE := by
      intro rest
      induction rest with
      | nil => simp [ReflCmp.isLE_rfl]
      | cons next rest ih =>
        intro first
        obtain ⟨hone, hfirst, hnext⟩ := @max_of_two A cmp _ first next
        obtain ⟨hmem, hgreatest⟩ := ih (if cmp first next = .gt then first else next)
        have hkept := hgreatest _ List.mem_cons_self
        rw [List.foldl_cons]
        refine ⟨?_, fun element helement => ?_⟩
        · rcases List.mem_cons.mp hmem with heq | hrest
          · rw [heq]
            rcases hone with hone | hone <;> simp [hone]
          · exact List.mem_cons_of_mem _ (List.mem_cons_of_mem _ hrest)
        · rcases List.mem_cons.mp helement with rfl | helement
          · exact TransCmp.isLE_trans hfirst hkept
          · rcases List.mem_cons.mp helement with rfl | hrest
            · exact TransCmp.isLE_trans hnext hkept
            · exact hgreatest element (List.mem_cons_of_mem _ hrest)
    obtain rfl := Option.some.inj h
    exact hfold rest first

omit [TransCmp cmp] in
/-- There is a greatest of some elements, unless there are none. -/
theorem maxBy_eq_none {elements : List A} (h : maxBy cmp elements = none) : elements = [] := by
  cases elements with
  | nil => rfl
  | cons first rest => contradiction

end Greatest

section Better

variable (ranks : ExtTreeMap String Rank)

instance transCmp_better : TransCmp (better ranks) := by
  have hranks : TransCmp fun a b : List String =>
      compareRanks (b.filterMap fun id => ranks[id]?) (a.filterMap fun id => ranks[id]?) :=
    { eq_swap := OrientedCmp.eq_swap
      isLE_trans := fun hab hbc => TransCmp.isLE_trans hbc hab }
  exact inferInstanceAs (TransCmp (compareLex (compareOn List.length) _))

/-- A better chain is no shorter. -/
theorem length_le_of_better {a b : List String} (h : (better ranks a b).isLE) : a.length ≤ b.length := by
  rw [better, Ordering.isLE_then_iff_and] at h
  exact Nat.isLE_compare.mp h.1

/-- Of chains as long as each other the first ranks decide. -/
theorem better_of_length_eq {a b : List String} (h : a.length = b.length) : better ranks a b =
    compareRanks (b.filterMap fun id => ranks[id]?) (a.filterMap fun id => ranks[id]?) := by
  have hself : compare b.length b.length = .eq := ReflCmp.compare_self
  rw [better, h, hself]
  rfl

/-- Chains go by what follows a common head, and none is less than an empty one. -/
theorem pathOrder_better : PathOrder fun a b => (better ranks a b).isLE where
  refl _ := ReflCmp.isLE_rfl
  trans := TransCmp.isLE_trans
  nil_le path := by
    cases path with
    | nil => exact ReflCmp.isLE_rfl
    | cons _ _ => rfl
  cons {a b} k h := by
    have hlength : compare (k :: a).length (k :: b).length = compare a.length b.length := by
      simp only [List.length_cons, Nat.compare_eq_ite_lt, Nat.add_lt_add_iff_right]
    have hranks : compareRanks ((k :: b).filterMap fun id => ranks[id]?)
        ((k :: a).filterMap fun id => ranks[id]?) = compareRanks (b.filterMap fun id => ranks[id]?)
          (a.filterMap fun id => ranks[id]?) := by
      cases hrank : ranks[k]? with
      | none => rw [List.filterMap_cons_none hrank, List.filterMap_cons_none hrank]
      | some rank =>
        have hself : Rank.cmp rank rank = .eq := ReflCmp.compare_self
        rw [List.filterMap_cons_some hrank, List.filterMap_cons_some hrank, compareRanks, hself]
        rfl
    rw [better, hlength, hranks]
    exact h

/-- What `max_by` keeps of some chains is a best one. -/
theorem picksGreatest_maxBy : PicksGreatest (fun a b => (better ranks a b).isLE) (maxBy (better ranks)) where
  none := maxBy_eq_none
  mem h := (maxBy_spec h).1
  greatest h := (maxBy_spec h).2

/-- Where ranks name their todos, no two chains of ranked todos are equally good. -/
theorem eq_of_better {a b : List String}
    (hnames : ∀ (id : String) (rank : Rank), ranks[id]? = some rank → rank.id = id)
    (ha : ∀ id ∈ a, ∃ rank, ranks[id]? = some rank) (hb : ∀ id ∈ b, ∃ rank, ranks[id]? = some rank)
    (h : better ranks a b = .eq) : a = b := by
  have hids : ∀ path : List String, (∀ id ∈ path, ∃ rank, ranks[id]? = some rank) →
      (path.filterMap fun id => ranks[id]?).map Rank.id = path := by
    intro path hpath
    induction path with
    | nil => rfl
    | cons id rest ih =>
      obtain ⟨rank, hrank⟩ := hpath id List.mem_cons_self
      rw [List.filterMap_cons_some hrank, List.map_cons, hnames id rank hrank,
        ih fun other hother => hpath other (List.mem_cons_of_mem id hother)]
  rw [better, Ordering.then_eq_eq] at h
  rw [← hids a ha, ← hids b hb, LawfulEqCmp.eq_of_compare h.2]

end Better

end Devkit.Todos
