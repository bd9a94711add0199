import Devkit.Todos.Graph

/-!
# The loops of a plan

The passes that find who waits outside the plan end, as each finds one more member, and so do the
batches, as each places one. The plan is what they leave.
-/

namespace Devkit.Todos

open Devkit.Library
open Std

namespace Graph

variable (g : Graph) (offered : Todo → Bool)

/-- A visit forgets nobody found. -/
theorem subset_outsideVisit (state : List String × Bool) (todo : Todo) :
    state.1 ⊆ (g.outsideVisit state todo).1 := by
  unfold outsideVisit
  split
  · exact List.Subset.refl _
  · split
    · exact List.subset_append_left _ _
    · exact List.Subset.refl _

/-- Visits forget nobody found. -/
theorem subset_outsideVisits (todos : List Todo) (state : List String × Bool) :
    state.1 ⊆ (todos.foldl g.outsideVisit state).1 := by
  induction todos generalizing state with
  | nil => exact List.Subset.refl _
  | cons todo rest ih => exact List.Subset.trans (g.subset_outsideVisit state todo) (ih _)

/-- Visits that find more find a todo that was not found before. -/
theorem exists_of_outsideVisits {todos : List Todo} {state : List String × Bool} (hnot : state.2 = false)
    (hgrew : (todos.foldl g.outsideVisit state).2 = true) :
    ∃ todo ∈ todos, todo.id ∉ state.1 ∧ todo.id ∈ (todos.foldl g.outsideVisit state).1 := by
  induction todos generalizing state with
  | nil =>
    rw [List.foldl_nil, hnot] at hgrew
    contradiction
  | cons todo rest ih =>
    rw [List.foldl_cons] at hgrew ⊢
    by_cases hsame : g.outsideVisit state todo = state
    · rw [hsame] at hgrew ⊢
      obtain ⟨other, hother, hfound⟩ := ih hnot hgrew
      exact ⟨other, List.mem_cons_of_mem todo hother, hfound⟩
    · refine ⟨todo, List.mem_cons_self, ?_⟩
      unfold outsideVisit at hsame
      split at hsame
      · exact absurd rfl hsame
      · rename_i hnew
        split at hsame
        · rename_i hwaits
          refine ⟨by simpa using hnew, g.subset_outsideVisits rest _ ?_⟩
          rw [outsideVisit, if_neg hnew, if_pos hwaits]
          exact List.mem_append_right _ List.mem_cons_self
        · exact absurd rfl hsame

/-- A visit that changes anything says that it found more. -/
theorem outsideVisit_grew {state : List String × Bool} {todo : Todo} (h : g.outsideVisit state todo ≠ state) :
    (g.outsideVisit state todo).2 = true := by
  unfold outsideVisit at h ⊢
  split
  · rename_i hfound
    rw [if_pos hfound] at h
    exact absurd rfl h
  · rename_i hnew
    rw [if_neg hnew] at h
    split
    · rfl
    · rename_i hwaits
      rw [if_neg hwaits] at h
      exact absurd rfl h

/-- Visits keep saying that one of them found more. -/
theorem outsideVisits_grew (todos : List Todo) {state : List String × Bool} (h : state.2 = true) :
    (todos.foldl g.outsideVisit state).2 = true := by
  induction todos generalizing state with
  | nil => exact h
  | cons todo rest ih =>
    refine ih ?_
    by_cases hsame : g.outsideVisit state todo = state
    · rw [hsame]
      exact h
    · exact g.outsideVisit_grew hsame

/-- Visits that found nothing changed nothing. -/
theorem outsideVisit_eq_of_not_grew {todos : List Todo} {state : List String × Bool}
    (h : (todos.foldl g.outsideVisit state).2 = false) : ∀ todo ∈ todos, g.outsideVisit state todo = state := by
  induction todos generalizing state with
  | nil => exact fun todo htodo => absurd htodo List.not_mem_nil
  | cons todo rest ih =>
    have hsame : g.outsideVisit state todo = state := by
      by_contra hchanged
      have hgrew := g.outsideVisits_grew rest (g.outsideVisit_grew hchanged)
      rw [List.foldl_cons] at h
      rw [h] at hgrew
      contradiction
    rw [List.foldl_cons, hsame] at h
    intro other hother
    rcases List.mem_cons.mp hother with rfl | hrest
    · exact hsame
    · exact ih h other hrest

/-- What holds of everybody found, and of whoever waits on one of whom it holds, still holds after
the visits. -/
theorem outsideVisits_invariant {P : String → Prop} {todos : List Todo} {state : List String × Bool}
    (hwaits : ∀ todo ∈ todos, ∀ blocker ∈ g.waits todo, P blocker.id → P todo.id) (h : ∀ id ∈ state.1, P id) :
    ∀ id ∈ (todos.foldl g.outsideVisit state).1, P id := by
  induction todos generalizing state with
  | nil => exact h
  | cons todo rest ih =>
    refine ih (fun other hother => hwaits other (List.mem_cons_of_mem todo hother)) fun id hid => ?_
    unfold outsideVisit at hid
    split at hid
    · exact h id hid
    · split at hid
      · rename_i hany
        rcases List.mem_append.mp hid with hold | hnew
        · exact h id hold
        · obtain rfl := List.mem_singleton.mp hnew
          obtain ⟨blocker, hblocker, hfound⟩ := List.any_eq_true.mp hany
          exact hwaits todo List.mem_cons_self blocker hblocker (h _ (List.contains_iff_mem.mp hfound))
      · exact h id hid

/-- A pass that grew leaves fewer members to be found. -/
theorem outsideStep_lt (outside next : List String) (h : g.outsideStep offered outside = some next) :
    unvisited ((g.members offered).map Todo.id) next < unvisited ((g.members offered).map Todo.id) outside := by
  unfold outsideStep at h
  split at h
  · rename_i grown hpass
    obtain rfl := Option.some.inj h
    have hgrew : ((g.members offered).foldl g.outsideVisit (outside, false)).2 = true := congrArg Prod.snd hpass
    obtain ⟨todo, htodo, hnew, hfound⟩ := g.exists_of_outsideVisits rfl hgrew
    have hgrown : ((g.members offered).foldl g.outsideVisit (outside, false)).1 = grown := congrArg Prod.fst hpass
    have hsub := g.subset_outsideVisits (g.members offered) (outside, false)
    rw [hgrown] at hfound hsub
    exact unvisited_lt hsub (List.mem_map_of_mem htodo) hnew hfound
  · contradiction

/-- A pass forgets nobody found. -/
theorem subset_outsideStep {outside next : List String} (h : g.outsideStep offered outside = some next) :
    outside ⊆ next := by
  unfold outsideStep at h
  split at h
  · rename_i grown hpass
    obtain rfl := Option.some.inj h
    have hgrown : ((g.members offered).foldl g.outsideVisit (outside, false)).1 = grown := congrArg Prod.fst hpass
    rw [← hgrown]
    exact g.subset_outsideVisits (g.members offered) (outside, false)
  · contradiction

/-- The members that wait, directly or through others, on an open blocker outside the plan. -/
def waitingOutside : List String :=
  loop (g.outsideStep offered) (unvisited ((g.members offered).map Todo.id)) (g.outsideStep_lt offered)
    (((g.members offered).filter (g.waitsOutside offered)).map Todo.id)

variable (cap : Option ℕ+) (outside : List String)

/-- The ready members that are started. -/
def readyStarted (s : Schedule) : List Todo :=
  (g.ready offered outside s).filter fun todo => todo.status.kind = .inProgress

/-- The ready members that are not. -/
def readyPending (s : Schedule) : List Todo :=
  (g.ready offered outside s).filter fun todo => todo.status.kind ≠ .inProgress

/-- A batch is the started ready members, then as many others as the cap leaves room for. -/
theorem nextBatch_eq (s : Schedule) :
    g.nextBatch offered cap outside s = g.readyStarted offered outside s ++
      match cap with
      | none => g.readyPending offered outside s
      | some cap => (g.readyPending offered outside s).take (cap - (g.readyStarted offered outside s).length) := by
  have hpending : (not ∘ fun todo : Todo => decide (todo.status.kind = .inProgress)) =
      fun todo => decide (todo.status.kind ≠ .inProgress) := by
    funext todo
    simp
  simp only [nextBatch, List.partition_eq_filter_filter, hpending, readyStarted, readyPending]
  cases cap <;> rfl

/-- A batch is made of ready members. -/
theorem mem_ready_of_mem_nextBatch {s : Schedule} {todo : Todo} (h : todo ∈ g.nextBatch offered cap outside s) :
    todo ∈ g.ready offered outside s := by
  rw [nextBatch_eq, List.mem_append] at h
  rcases h with hstarted | hpending
  · exact (List.mem_filter.mp hstarted).1
  · cases cap with
    | none => exact (List.mem_filter.mp hpending).1
    | some cap => exact (List.mem_filter.mp (List.mem_of_mem_take hpending)).1

/-- A todo is ready when it is an unplaced member that waits on nothing left, in the plan or outside. -/
theorem mem_ready {s : Schedule} {todo : Todo} :
    todo ∈ g.ready offered outside s ↔ todo ∈ g.members offered ∧ todo.id ∉ s.placed ∧ todo.id ∉ outside ∧
      s.indegree[todo.id]?.getD 1 = 0 := by
  rw [ready, List.mem_insertionSort, List.mem_filter, unplaced, List.mem_filter]
  simp [← ExtTreeMap.contains_iff_mem, and_assoc]

/-- Placing a batch places its ids. -/
theorem mem_placed_place {s : Schedule} {batch : List Todo} {id : String} :
    id ∈ (g.place offered s batch).placed ↔ id ∈ s.placed ∨ id ∈ batch.map Todo.id := by
  have hfold : ∀ (batch : List Todo) (placed : ExtTreeMap String ℕ),
      id ∈ batch.foldl (fun placed todo => placed.insert todo.id s.batches.length) placed ↔
        id ∈ placed ∨ id ∈ batch.map Todo.id := by
    intro batch
    induction batch with
    | nil => simp
    | cons todo rest ih =>
      intro placed
      rw [List.foldl_cons, ih, ExtTreeMap.mem_insert, LawfulEqCmp.compare_eq_iff_eq, List.map_cons, List.mem_cons]
      tauto
  exact hfold batch s.placed

/-- A step of the schedule places a batch of ready members. -/
theorem scheduleStep_eq_some {s next : Schedule} :
    g.scheduleStep offered cap outside s = some next ↔ g.nextBatch offered cap outside s ≠ [] ∧
      next = g.place offered s (g.nextBatch offered cap outside s) := by
  unfold scheduleStep
  constructor
  · intro h
    split at h
    · contradiction
    · split at h
      · contradiction
      · rename_i hbatch
        exact ⟨by simpa using hbatch, (Option.some.inj h).symm⟩
  · rintro ⟨hbatch, rfl⟩
    have hready : (g.ready offered outside s).isEmpty = false := by
      obtain ⟨todo, htodo⟩ := List.exists_mem_of_ne_nil _ hbatch
      rw [List.isEmpty_eq_false_iff]
      exact List.ne_nil_of_mem (g.mem_ready_of_mem_nextBatch offered cap outside htodo)
    rw [hready, if_neg Bool.false_ne_true, if_neg (by simpa using hbatch)]

/-- A batch that was placed leaves fewer members to place. -/
theorem scheduleStep_lt (s next : Schedule) (h : g.scheduleStep offered cap outside s = some next) :
    unvisited ((g.members offered).map Todo.id) next.placed.keys <
      unvisited ((g.members offered).map Todo.id) s.placed.keys := by
  obtain ⟨hbatch, rfl⟩ := (g.scheduleStep_eq_some offered cap outside).mp h
  obtain ⟨todo, htodo⟩ := List.exists_mem_of_ne_nil _ hbatch
  obtain ⟨hmember, hunplaced, _⟩ := (g.mem_ready offered outside).mp
    (g.mem_ready_of_mem_nextBatch offered cap outside htodo)
  refine unvisited_lt (a := todo.id) (fun id hid => ?_) (List.mem_map_of_mem hmember) ?_ ?_
  · rw [ExtTreeMap.mem_keys] at hid ⊢
    exact (g.mem_placed_place offered).mpr (Or.inl hid)
  · rwa [ExtTreeMap.mem_keys]
  · rw [ExtTreeMap.mem_keys]
    exact (g.mem_placed_place offered).mpr (Or.inr (List.mem_map_of_mem htodo))

/-- The batches of the plan. -/
def schedule : Schedule :=
  loop (g.scheduleStep offered cap (g.waitingOutside offered))
    (fun s => unvisited ((g.members offered).map Todo.id) s.placed.keys)
    (g.scheduleStep_lt offered cap (g.waitingOutside offered)) ⟨g.indegree offered, ∅, []⟩

/-- The plan of the open todos on offer. -/
def plan : Plan :=
  let schedule := g.schedule offered cap
  let acyclic := (g.members offered).filter fun todo => schedule.placed.contains todo.id
  { batches := schedule.batches
    critical := criticalPath acyclic (g.dependentsOf offered)
    cycle := (g.cycled offered).filter fun todo => !(g.waitingOutside offered).contains todo.id }

end Graph

end Devkit.Todos
