import Devkit.Todos.GraphTopo

/-!
# The topological order is complete

Every member is taken in the order that ranks members, when no member waits in a cycle: an indegree
of zero is noted when it is reached, and one that is not zero comes from a member not taken yet.
Whoever is taken is no dependent of a member taken then or later.
-/

namespace Devkit.Todos

open Devkit.Library
open Std

variable {members : List Todo} {dependentsOf : String → List String}

/-- What every step of the order keeps of the order itself. -/
structure Sorted (members : List Todo) (dependentsOf : String → List String) (s : Topo) : Prop where
  noted : ∀ id : String, s.indegree[id]? = some 0 → id ∈ s.order.map Todo.id ++ s.ready
  sorted : s.order.Pairwise fun todo later => todo.id ∉ dependentsOf later.id
  self : ∀ todo ∈ s.order, todo.id ∉ dependentsOf todo.id

/-- Freeing forgets nobody freed. -/
theorem subset_foldl_free (dependents : List String) (state : ExtTreeMap String ℕ × List String) :
    state.2 ⊆ (dependents.foldl free state).2 := by
  induction dependents generalizing state with
  | nil => exact List.Subset.refl _
  | cons dependent rest ih =>
    refine List.Subset.trans ?_ (ih (free state dependent))
    unfold free
    split
    · exact List.Subset.refl _
    · split
      · exact List.subset_append_left _ _
      · exact List.Subset.refl _

/-- A dependent listed as often as edges into it are left is freed. -/
theorem mem_foldl_free {dependents : List String} {state : ExtTreeMap String ℕ × List String} {id : String}
    {count : ℕ} (hcount : state.1[id]? = some count) (hpositive : 0 < count)
    (hlisted : count ≤ dependents.count id) : id ∈ (dependents.foldl free state).2 := by
  induction dependents generalizing state count with
  | nil => simp at hlisted; omega
  | cons dependent rest ih =>
    rw [List.foldl_cons]
    by_cases hsame : dependent = id
    · subst hsame
      rw [List.count_cons_self] at hlisted
      have hstate : free state dependent = (state.1.insert dependent (count - 1),
          if count - 1 = 0 then state.2 ++ [dependent] else state.2) := by
        simp only [free, hcount]
      by_cases hlast : count - 1 = 0
      · refine subset_foldl_free rest _ ?_
        rw [hstate, if_pos hlast]
        exact List.mem_append_right _ List.mem_cons_self
      · have hless : (free state dependent).1[dependent]? = some (count - 1) := by
          rw [hstate, getElem?_insert_eq, if_pos rfl]
        exact ih hless (by omega) (by omega)
    · rw [List.count_cons_of_ne hsame] at hlisted
      refine ih ?_ hpositive hlisted
      rw [fst_free, Graph.getElem?_release, hcount, if_neg hsame]
      rfl

/-- Nobody taken or ready is a dependent of a member not taken yet. -/
theorem Ordered.notMem_dependentsOf {s : Topo} (h : Ordered members dependentsOf s) {id : String}
    (hid : id ∈ s.order.map Todo.id ++ s.ready) {todo : Todo} (htodo : todo ∈ members)
    (hnew : todo.id ∉ s.order.map Todo.id) : id ∉ dependentsOf todo.id := by
  have hzero := h.freed id hid
  rw [h.counts, if_pos (h.known id hid), Option.some.injEq, List.count_eq_zero] at hzero
  exact fun hmem => hzero (List.mem_flatMap.mpr ⟨todo, List.mem_filter.mpr ⟨htodo, by simpa using hnew⟩, hmem⟩)

/-- At the start whoever has no edge left is ready. -/
theorem sorted_start : Sorted members dependentsOf (topoStart members dependentsOf) where
  noted id hzero := by
    have hready : id ∈
        ((topoStart members dependentsOf).indegree.toList.filter fun row => row.2 == 0).map Prod.fst :=
      List.mem_map.mpr ⟨(id, 0),
        List.mem_filter.mpr ⟨ExtTreeMap.mem_toList_iff_getElem?_eq_some.mpr hzero, rfl⟩, rfl⟩
    refine List.mem_append_right _ (List.mem_reverse.mpr ?_)
    rw [List.mem_insertionSort]
    exact hready
  sorted := List.Pairwise.nil
  self todo h := absurd h List.not_mem_nil

section Distinct

variable (hdistinct : (members.map Todo.id).Nodup)
include hdistinct

/-- Taking the next ready member keeps the order sorted. -/
theorem Sorted.step {s next : Topo} (horder : Ordered members dependentsOf s) (h : Sorted members dependentsOf s)
    (hstep : topoStep members dependentsOf s = some next) : Sorted members dependentsOf next := by
  obtain ⟨todo, htodo, rest, hready, hnew, horderNext, hindegree, hreadyNext⟩ :=
    horder.step_cases hdistinct hstep
  have htaken : ∀ id ∈ s.order.map Todo.id ++ [todo.id], id ∉ dependentsOf todo.id := by
    intro id hid
    refine horder.notMem_dependentsOf ?_ htodo hnew
    rw [hready]
    rcases List.mem_append.mp hid with hold | hlast
    · exact List.mem_append_left _ hold
    · rw [List.mem_singleton.mp hlast]
      exact List.mem_append_right _ List.mem_cons_self
  refine ⟨fun id hzero => ?_, ?_, fun other hother => ?_⟩
  · rw [horderNext, List.map_append, List.mem_append, List.mem_append, hreadyNext.mem_iff, List.mem_append]
    rw [hindegree, getElem?_foldl_free] at hzero
    obtain ⟨count, hcount, hleft⟩ := Option.map_eq_some_iff.mp hzero
    rcases Nat.eq_zero_or_pos count with rfl | hpositive
    · have hold := h.noted id hcount
      rw [hready, List.mem_append, List.mem_cons] at hold
      rcases hold with hold | rfl | hrest
      · exact Or.inl (Or.inl hold)
      · exact Or.inl (Or.inr (List.mem_singleton_self _))
      · exact Or.inr (Or.inr hrest)
    · exact Or.inr (Or.inl (mem_foldl_free hcount hpositive (by omega)))
  · rw [horderNext, List.pairwise_append]
    refine ⟨h.sorted, List.pairwise_singleton _ _, fun other hother last hlast => ?_⟩
    rw [List.mem_singleton.mp hlast]
    exact htaken other.id (List.mem_append_left _ (List.mem_map_of_mem hother))
  · rw [horderNext] at hother
    rcases List.mem_append.mp hother with hold | hlast
    · exact h.self other hold
    · rw [List.mem_singleton.mp hlast]
      exact htaken todo.id (List.mem_append_right _ List.mem_cons_self)

/-- The order ends sorted. -/
theorem sorted_topoEnd : Ordered members dependentsOf (topoEnd members dependentsOf) ∧
    Sorted members dependentsOf (topoEnd members dependentsOf) :=
  topoEnd_invariant hdistinct (fun _ _ horder h hstep => h.step hdistinct horder hstep) sorted_start

/-- The ids of the order are those of members. -/
theorem known_topo {id : String} (hid : id ∈ (topo members dependentsOf).map Todo.id) :
    id ∈ members.map Todo.id :=
  (sorted_topoEnd hdistinct).1.known id (List.mem_append_left _ hid)

/-- Where no member waits in a cycle, the order lists every member. -/
theorem mem_topo (hacyclic : WellFounded fun a b : Todo => a ∈ members ∧ b ∈ members ∧ b.id ∈ dependentsOf a.id)
    {todo : Todo} (htodo : todo ∈ members) : todo.id ∈ (topo members dependentsOf).map Todo.id := by
  have hend : Ordered members dependentsOf (topoEnd members dependentsOf) ∧
      Sorted members dependentsOf (topoEnd members dependentsOf) := sorted_topoEnd hdistinct
  obtain ⟨horder, hsorted⟩ := hend
  induction todo using hacyclic.induction with
  | _ todo ih =>
    have hnone : (edgesLeft members dependentsOf
        ((topoEnd members dependentsOf).order.map Todo.id)).count todo.id = 0 := by
      rw [List.count_eq_zero]
      intro hmem
      obtain ⟨other, hother, hdependent⟩ := List.mem_flatMap.mp hmem
      obtain ⟨hother, huntaken⟩ := List.mem_filter.mp hother
      exact of_decide_eq_true huntaken (ih other ⟨hother, htodo, hdependent⟩ hother)
    have hzero : (topoEnd members dependentsOf).indegree[todo.id]? = some 0 := by
      rw [horder.counts, if_pos (List.mem_map_of_mem htodo), hnone]
    have hlisted := hsorted.noted todo.id hzero
    rw [topo_done hdistinct, List.append_nil] at hlisted
    exact hlisted

/-- The order reversed: nobody comes before who depends on it. -/
theorem pairwise_topo_reverse : ((topo members dependentsOf).reverse.map Todo.id).Pairwise
    fun id later => later ≠ id ∧ later ∉ dependentsOf id := by
  have hend : Ordered members dependentsOf (topoEnd members dependentsOf) ∧
      Sorted members dependentsOf (topoEnd members dependentsOf) := sorted_topoEnd hdistinct
  obtain ⟨horder, hsorted⟩ := hend
  have hnodup : ((topo members dependentsOf).map Todo.id).Nodup :=
    (List.nodup_append.mp horder.distinct).1
  rw [List.map_reverse, List.pairwise_reverse, List.pairwise_map]
  exact (List.pairwise_map.mp hnodup).imp₂ (fun _ _ hne hnot => ⟨hne, hnot⟩) hsorted.sorted

/-- Nobody in the order depends on itself. -/
theorem self_topo {id : String} (hid : id ∈ (topo members dependentsOf).map Todo.id) : id ∉ dependentsOf id := by
  obtain ⟨todo, htodo, rfl⟩ := List.mem_map.mp hid
  exact (sorted_topoEnd hdistinct).2.self todo htodo

end Distinct

end Devkit.Todos
