import Devkit.Todos.GraphSchedule

/-!
# The topological order ends

The order that ranks members takes each of them at most once: an indegree counts the edges from
members not taken yet, so who was taken or is ready has none left and is not freed again.
-/

namespace Devkit.Todos

open Devkit.Library
open Std

variable {members : List Todo} {dependentsOf : String → List String}

/-- The edges from the members not taken yet. -/
def edgesLeft (members : List Todo) (dependentsOf : String → List String) (taken : List String) : List String :=
  (members.filter fun todo => todo.id ∉ taken).flatMap fun todo => dependentsOf todo.id

/-- What every step of the order keeps. -/
structure Ordered (members : List Todo) (dependentsOf : String → List String) (s : Topo) : Prop where
  distinct : (s.order.map Todo.id ++ s.ready).Nodup
  known : ∀ id ∈ s.order.map Todo.id ++ s.ready, id ∈ members.map Todo.id
  counts : ∀ id : String, s.indegree[id]? = if id ∈ members.map Todo.id then
    some ((edgesLeft members dependentsOf (s.order.map Todo.id)).count id) else none
  freed : ∀ id ∈ s.order.map Todo.id ++ s.ready, s.indegree[id]? = some 0

/-- One more edge into a dependent. -/
theorem getElem?_bump (indegree : ExtTreeMap String ℕ) (dependent id : String) :
    (bump indegree dependent)[id]? = indegree[id]?.map (· + if dependent = id then 1 else 0) := by
  unfold bump
  cases hcount : indegree[dependent]? with
  | none =>
    by_cases hsame : dependent = id
    · subst hsame
      simp [hcount]
    · simp [hsame]
  | some count =>
    by_cases hsame : dependent = id
    · subst hsame
      simp [hcount]
    · simp only [getElem?_insert_eq, if_neg hsame, Nat.add_zero, Option.map_id']

/-- Edges into dependents are counted as often as they are listed. -/
theorem getElem?_foldl_bump (dependents : List String) (indegree : ExtTreeMap String ℕ) (id : String) :
    (dependents.foldl bump indegree)[id]? = indegree[id]?.map (· + dependents.count id) := by
  induction dependents generalizing indegree with
  | nil => simp
  | cons dependent rest ih =>
    rw [List.foldl_cons, ih, getElem?_bump, Option.map_map, List.count_cons]
    refine congrArg (Option.map · indegree[id]?) ?_
    funext count
    simp only [Function.comp_apply, beq_iff_eq]
    omega

/-- Freeing lowers the counts like a release. -/
theorem fst_free (state : ExtTreeMap String ℕ × List String) (dependent : String) :
    (free state dependent).1 = Graph.release state.1 dependent := by
  unfold free Graph.release
  cases state.1[dependent]? <;> rfl

/-- Freeing dependents lowers each count by how often it is listed. -/
theorem getElem?_foldl_free (dependents : List String) (state : ExtTreeMap String ℕ × List String) (id : String) :
    (dependents.foldl free state).1[id]? = state.1[id]?.map (· - dependents.count id) := by
  have hfold : (dependents.foldl free state).1 = dependents.foldl Graph.release state.1 := by
    induction dependents generalizing state with
    | nil => rfl
    | cons dependent rest ih => rw [List.foldl_cons, ih, fst_free, List.foldl_cons]
  rw [hfold, Graph.getElem?_foldl_release]

/-- Where no count runs below zero, each dependent is freed at most once, with nothing left. -/
theorem freed_spec (dependents : List String) (state : ExtTreeMap String ℕ × List String)
    (hcounts : ∀ id ∈ dependents, ∀ count, state.1[id]? = some count → dependents.count id ≤ count) :
    ∃ extra, (dependents.foldl free state).2 = state.2 ++ extra ∧ extra.Nodup ∧
      ∀ id ∈ extra, id ∈ dependents ∧ ∃ count, state.1[id]? = some count ∧ count = dependents.count id := by
  induction dependents generalizing state with
  | nil => exact ⟨[], by simp, List.nodup_nil, fun id hid => absurd hid List.not_mem_nil⟩
  | cons dependent rest ih =>
    rw [List.foldl_cons]
    have hmore : ∀ id, rest.count id ≤ (dependent :: rest).count id := fun id =>
      List.Sublist.count_le id (List.sublist_cons_self dependent rest)
    cases hcount : state.1[dependent]? with
    | none =>
      have hsame : free state dependent = state := by simp only [free, hcount]
      rw [hsame]
      obtain ⟨extra, hfreed, hnodup, hextra⟩ := ih state fun id hid count hsome =>
        (hmore id).trans (hcounts id (List.mem_cons_of_mem dependent hid) count hsome)
      refine ⟨extra, hfreed, hnodup, fun id hid => ?_⟩
      obtain ⟨hmem, count, hsome, heq⟩ := hextra id hid
      have hne : dependent ≠ id := by
        rintro rfl
        rw [hcount] at hsome
        contradiction
      exact ⟨List.mem_cons_of_mem dependent hmem, count, hsome, by rw [List.count_cons_of_ne hne, heq]⟩
    | some left =>
      have hleft := hcounts dependent List.mem_cons_self left hcount
      rw [List.count_cons_self] at hleft
      have hstate : free state dependent = (state.1.insert dependent (left - 1),
          if left - 1 = 0 then state.2 ++ [dependent] else state.2) := by
        simp only [free, hcount]
      obtain ⟨extra, hfreed, hnodup, hextra⟩ := ih (free state dependent) fun id hid count hsome => by
        rw [hstate, getElem?_insert_eq] at hsome
        split at hsome
        · rename_i heq
          subst heq
          obtain rfl := Option.some.inj hsome
          omega
        · exact (hmore id).trans (hcounts id (List.mem_cons_of_mem dependent hid) count hsome)
      have hrest : ∀ id ∈ extra, id ∈ dependent :: rest ∧
          ∃ count, state.1[id]? = some count ∧ count = (dependent :: rest).count id := by
        intro id hid
        obtain ⟨hmem, count, hsome, heq⟩ := hextra id hid
        refine ⟨List.mem_cons_of_mem dependent hmem, ?_⟩
        rw [hstate, getElem?_insert_eq] at hsome
        split at hsome
        · rename_i hsame
          subst hsame
          obtain rfl := Option.some.inj hsome
          exact ⟨left, hcount, by rw [List.count_cons_self]; omega⟩
        · rename_i hne
          exact ⟨count, hsome, by rw [List.count_cons_of_ne hne, heq]⟩
      by_cases hlast : left - 1 = 0
      · refine ⟨dependent :: extra, ?_, List.nodup_cons.mpr ⟨fun hmem => ?_, hnodup⟩, fun id hid => ?_⟩
        · rw [hfreed, hstate, if_pos hlast]
          simp
        · have hpos := List.count_pos_iff.mpr (hextra dependent hmem).1
          omega
        · rcases List.mem_cons.mp hid with rfl | hid
          · exact ⟨List.mem_cons_self, left, hcount, by rw [List.count_cons_self]; omega⟩
          · exact hrest id hid
      · exact ⟨extra, by rw [hfreed, hstate, if_neg hlast], hnodup, hrest⟩

section Distinct

variable (hdistinct : (members.map Todo.id).Nodup)
include hdistinct

/-- Taking a member takes its edges. -/
theorem count_edgesLeft {taken : List String} {todo : Todo} (htodo : todo ∈ members) (hnew : todo.id ∉ taken)
    (id : String) : (edgesLeft members dependentsOf taken).count id =
      (edgesLeft members dependentsOf (taken ++ [todo.id])).count id + (dependentsOf todo.id).count id := by
  have hall : ∀ todos : List Todo, (todos.map Todo.id).Nodup →
      (edgesLeft todos dependentsOf taken).count id =
        (edgesLeft todos dependentsOf (taken ++ [todo.id])).count id +
          if todo.id ∈ todos.map Todo.id then (dependentsOf todo.id).count id else 0 := by
    intro todos
    induction todos with
    | nil => intro _; rfl
    | cons first rest ih =>
      intro hnodup
      rw [List.map_cons, List.nodup_cons] at hnodup
      have hrest := ih hnodup.2
      simp only [edgesLeft] at hrest ⊢
      by_cases hsame : first.id = todo.id
      · have hnot : todo.id ∉ rest.map Todo.id := hsame ▸ hnodup.1
        rw [if_neg hnot] at hrest
        rw [List.filter_cons_of_pos (by simpa [hsame] using hnew), List.filter_cons_of_neg (by simp [hsame]),
          List.flatMap_cons, List.count_append, hrest, hsame, if_pos (by simp [hsame])]
        omega
      · have hmem : todo.id ∈ (first :: rest).map Todo.id ↔ todo.id ∈ rest.map Todo.id := by
          rw [List.map_cons, List.mem_cons]
          exact or_iff_right (Ne.symm hsame)
        simp only [hmem]
        by_cases htaken : first.id ∈ taken
        · rw [List.filter_cons_of_neg (by simpa using htaken), List.filter_cons_of_neg (by simp [htaken]), hrest]
        · rw [List.filter_cons_of_pos (by simpa using htaken),
            List.filter_cons_of_pos (by simpa [htaken] using hsame), List.flatMap_cons, List.flatMap_cons,
            List.count_append, List.count_append, hrest]
          omega
  have hcount := hall members hdistinct
  rwa [if_pos (List.mem_map_of_mem htodo)] at hcount

omit hdistinct in
/-- The indegrees at the start. -/
theorem counts_topoStart (id : String) : (topoStart members dependentsOf).indegree[id]? =
    if id ∈ members.map Todo.id then some ((edgesLeft members dependentsOf []).count id) else none := by
  have hzero : (ExtTreeMap.ofList (members.map fun todo => (todo.id, 0)))[id]? =
      if id ∈ members.map Todo.id then some 0 else none := by
    have hkeys : id ∈ ExtTreeMap.ofList (members.map fun todo => (todo.id, 0)) ↔ id ∈ members.map Todo.id := by
      rw [ExtTreeMap.mem_ofList, List.contains_iff_mem, List.map_map]
      rfl
    cases hfound : (ExtTreeMap.ofList (members.map fun todo => (todo.id, 0)))[id]? with
    | none =>
      rw [ExtTreeMap.mem_iff_isSome_getElem?, hfound] at hkeys
      rw [if_neg (by simpa using hkeys)]
    | some count =>
      obtain ⟨todo, _, heq⟩ := List.mem_map.mp (mem_of_getElem?_ofList hfound)
      rw [ExtTreeMap.mem_iff_isSome_getElem?, hfound] at hkeys
      rw [if_pos (hkeys.mp rfl), (Prod.mk.inj heq).2]
  have hedges : edgesLeft members dependentsOf [] = members.flatMap fun todo => dependentsOf todo.id := by
    simp [edgesLeft]
  have hfold : (topoStart members dependentsOf).indegree =
      (members.flatMap fun todo => dependentsOf todo.id).foldl bump
        (ExtTreeMap.ofList (members.map fun todo => (todo.id, 0))) := by
    rw [List.foldl_flatMap]
    rfl
  rw [hfold, getElem?_foldl_bump, hzero, hedges]
  split <;> simp

omit hdistinct in
/-- At the start every edge is left, and who has none is ready. -/
theorem ordered_start : Ordered members dependentsOf (topoStart members dependentsOf) := by
  have hready : (topoStart members dependentsOf).ready.Perm
      (((topoStart members dependentsOf).indegree.toList.filter fun row => row.2 == 0).map Prod.fst) :=
    (List.reverse_perm _).trans (List.perm_insertionSort _ _)
  have hnone : ∀ id ∈ (topoStart members dependentsOf).ready,
      (topoStart members dependentsOf).indegree[id]? = some 0 := by
    intro id hid
    obtain ⟨row, hrow, rfl⟩ := List.mem_map.mp (hready.mem_iff.mp hid)
    obtain ⟨hrow, hcount⟩ := List.mem_filter.mp hrow
    rw [ExtTreeMap.mem_toList_iff_getElem?_eq_some.mp hrow, eq_of_beq hcount]
  refine ⟨?_, fun id hid => ?_, counts_topoStart, fun id hid => hnone id hid⟩
  · refine hready.nodup_iff.mpr ?_
    rw [List.Nodup, List.pairwise_map]
    exact (toList_pairwise_ne _).filter _
  · have hzero := hnone id hid
    rw [counts_topoStart] at hzero
    by_contra hunknown
    rw [if_neg hunknown] at hzero
    contradiction

/-- A step takes the first ready member, which was not taken, and frees its dependents. -/
theorem Ordered.step_cases {s next : Topo} (h : Ordered members dependentsOf s)
    (hstep : topoStep members dependentsOf s = some next) :
    ∃ todo ∈ members, ∃ rest, s.ready = todo.id :: rest ∧ todo.id ∉ s.order.map Todo.id ∧
      next.order = s.order ++ [todo] ∧
      next.indegree = ((dependentsOf todo.id).foldl free (s.indegree, [])).1 ∧
      next.ready.Perm (((dependentsOf todo.id).foldl free (s.indegree, [])).2 ++ rest) := by
  unfold topoStep at hstep
  split at hstep
  · contradiction
  rename_i id rest hready
  have hid : id ∈ s.order.map Todo.id ++ s.ready := by
    rw [hready]
    exact List.mem_append_right _ List.mem_cons_self
  obtain ⟨todo, htodo, rfl⟩ := List.mem_map.mp (h.known id hid)
  rw [(byId_eq_some hdistinct).mpr ⟨htodo, rfl⟩] at hstep
  obtain rfl := Option.some.inj hstep
  have hnew : todo.id ∉ s.order.map Todo.id := by
    intro htaken
    refine (List.nodup_append.mp h.distinct).2.2 _ htaken todo.id ?_ rfl
    rw [hready]
    exact List.mem_cons_self
  refine ⟨todo, htodo, rest, hready, hnew, rfl, rfl, ?_⟩
  exact ((List.reverse_perm _).trans (List.perm_insertionSort _ _)).append_right rest

/-- Taking the next ready member keeps the order. -/
theorem Ordered.step {s next : Topo} (h : Ordered members dependentsOf s)
    (hstep : topoStep members dependentsOf s = some next) :
    Ordered members dependentsOf next ∧ next.order.length = s.order.length + 1 := by
  obtain ⟨todo, htodo, rest, hready, hnew, horder, hindegree, hreadyNext⟩ := h.step_cases hdistinct hstep
  obtain ⟨hnodup, hknown, hcounts, hfreed⟩ := h
  rw [hready] at hnodup hknown hfreed
  have hedges : ∀ other, (edgesLeft members dependentsOf (s.order.map Todo.id)).count other =
      (edgesLeft members dependentsOf (next.order.map Todo.id)).count other + (dependentsOf todo.id).count other := by
    rw [horder, List.map_append]
    exact count_edgesLeft hdistinct htodo hnew
  obtain ⟨extra, hextra, hextraNodup, hextraSpec⟩ := freed_spec (dependentsOf todo.id)
    (s.indegree, []) fun other _ count hcount => by
      rw [hcounts] at hcount
      split at hcount
      · have := hedges other
        have := Option.some.inj hcount
        omega
      · contradiction
  rw [hextra, List.nil_append] at hreadyNext
  have hperm : (next.order.map Todo.id ++ next.ready).Perm (s.order.map Todo.id ++ todo.id :: rest ++ extra) := by
    rw [horder, List.map_append, List.append_assoc, List.append_assoc]
    exact ((hreadyNext.trans List.perm_append_comm).cons todo.id).append_left _
  have hpositive : ∀ other ∈ extra, ∃ count, s.indegree[other]? = some count ∧
      count = (dependentsOf todo.id).count other ∧ 0 < count := by
    intro other hother
    obtain ⟨hmem, count, hcount, heq⟩ := hextraSpec other hother
    exact ⟨count, hcount, heq, heq ▸ List.count_pos_iff.mpr hmem⟩
  refine ⟨⟨?_, fun other hother => ?_, fun other => ?_, fun other hother => ?_⟩, by simp [horder]⟩
  · refine hperm.nodup_iff.mpr (List.nodup_append.mpr ⟨hnodup, hextraNodup, fun other hother last hlast heq => ?_⟩)
    subst heq
    obtain ⟨count, hcount, _, hpos⟩ := hpositive other hlast
    rw [hfreed other hother] at hcount
    have := Option.some.inj hcount
    omega
  · rcases List.mem_append.mp (hperm.mem_iff.mp hother) with hold | hlast
    · exact hknown other hold
    · obtain ⟨count, hcount, _⟩ := hpositive other hlast
      by_contra hunknown
      rw [hcounts, if_neg hunknown] at hcount
      contradiction
  · rw [hindegree, getElem?_foldl_free, hcounts]
    split
    · have := hedges other
      simp only [Option.map_some, Option.some.injEq]
      omega
    · rfl
  · rw [hindegree, getElem?_foldl_free]
    rcases List.mem_append.mp (hperm.mem_iff.mp hother) with hold | hlast
    · simp [hfreed other hold]
    · obtain ⟨count, hcount, heq, _⟩ := hpositive other hlast
      simp [hcount, heq]

/-- What holds at the start, and which every step keeps, holds where the order ends, with no step left:
the loop takes every member at most once. -/
theorem topoEnd_steps {P : Topo → Prop} (hkeep : ∀ s next, Ordered members dependentsOf s → P s →
      topoStep members dependentsOf s = some next → P next) (hstart : P (topoStart members dependentsOf)) :
    (Ordered members dependentsOf (topoEnd members dependentsOf) ∧ P (topoEnd members dependentsOf)) ∧
      topoStep members dependentsOf (topoEnd members dependentsOf) = none := by
  have hbound : ∀ {s : Topo}, Ordered members dependentsOf s → s.order.length + s.ready.length ≤ members.length := by
    intro s h
    have hle := (List.subperm_of_subset h.distinct h.known).length_le
    simpa using hle
  have hlower : ∀ s next, Ordered members dependentsOf s ∧ P s →
      topoStep members dependentsOf s = some next → (Ordered members dependentsOf next ∧ P next) ∧
        members.length - next.order.length < members.length - s.order.length := by
    intro s next h hstep
    obtain ⟨hnext, hlength⟩ := h.1.step hdistinct hstep
    have hle := hbound hnext
    exact ⟨⟨hnext, hkeep s next h.1 h.2 hstep⟩, by omega⟩
  exact steps_done _ _ hlower ⟨ordered_start, hstart⟩ (Nat.sub_le members.length _)

/-- What every step keeps holds where the order ends. -/
theorem topoEnd_invariant {P : Topo → Prop} (hkeep : ∀ s next, Ordered members dependentsOf s → P s →
      topoStep members dependentsOf s = some next → P next) (hstart : P (topoStart members dependentsOf)) :
    Ordered members dependentsOf (topoEnd members dependentsOf) ∧ P (topoEnd members dependentsOf) :=
  (topoEnd_steps hdistinct hkeep hstart).1

/-- The order ends with no member ready. -/
theorem topo_done : (topoEnd members dependentsOf).ready = [] := by
  have hnone : topoStep members dependentsOf (topoEnd members dependentsOf) = none :=
    (topoEnd_steps (P := fun _ => True) hdistinct (fun _ _ _ _ _ => trivial) trivial).2
  unfold topoStep at hnone
  split at hnone
  · assumption
  · split at hnone <;> contradiction

end Distinct

end Devkit.Todos
