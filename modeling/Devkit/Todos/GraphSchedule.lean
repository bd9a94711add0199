import Devkit.Library.Acyclic
import Devkit.Todos.GraphEdges

/-!
# What the batches keep

While the batches of a plan are placed, each member's indegree counts the members it waits on that
are not placed, placed todos wait only on earlier batches, and everything started is in the first.
-/

namespace Devkit.Todos

open Devkit.Library
open Std

namespace Graph

variable {g : Graph} {offered : Todo → Bool} {cap : Option ℕ+}

/-- A table of indegrees counts, for each member off every cycle, the members it waits on that are
not placed, and holds no member on a cycle. -/
structure Counts (g : Graph) (offered : Todo → Bool) (indegree placed : ExtTreeMap String ℕ) : Prop where
  cyclic : ∀ {todo : Todo}, g.Member offered todo → g.OnCycle offered todo → indegree[todo.id]? = none
  clear : ∀ {todo : Todo}, g.Member offered todo → ¬ g.OnCycle offered todo →
    indegree[todo.id]? = some ((g.waitsOn offered todo).countP (· ∉ placed))

/-- What every step of the schedule keeps. -/
structure Scheduled (g : Graph) (offered : Todo → Bool) (cap : Option ℕ+) (s : Schedule) : Prop where
  counts : g.Counts offered s.indegree s.placed
  placed : ∀ id, id ∈ s.placed ↔ ∃ batch ∈ s.batches, id ∈ batch.map Todo.id
  members : ∀ {batch : List Todo} {todo : Todo}, batch ∈ s.batches → todo ∈ batch →
    g.Member offered todo ∧ ¬ g.OnCycle offered todo ∧ todo.id ∉ g.waitingOutside offered
  distinct : s.batches.flatten.Nodup
  waits : ∀ {k : ℕ} {batch : List Todo} {todo : Todo}, s.batches[k]? = some batch → todo ∈ batch →
    ∀ id ∈ g.waitsOn offered todo, ∃ j < k, ∃ earlier, s.batches[j]? = some earlier ∧ id ∈ earlier.map Todo.id
  started : s.batches ≠ [] → ∀ {todo : Todo}, g.Member offered todo → todo.status.kind = .inProgress →
    ¬ g.OnCycle offered todo → todo.id ∈ s.placed
  first : ∀ {k : ℕ} {batch : List Todo} {todo : Todo}, s.batches[k]? = some batch → todo ∈ batch →
    todo.status.kind = .inProgress → k = 0
  sizes : ∀ {n : ℕ+}, cap = some n → ∀ {k : ℕ} {batch : List Todo}, s.batches[k]? = some batch →
    batch.length ≤ max (n : ℕ) (batch.countP fun todo => todo.status.kind = .inProgress) ∧
      (k ≠ 0 → batch.length ≤ n)

/-- Releasing a dependent lowers its count by one. -/
theorem getElem?_release (indegree : ExtTreeMap String ℕ) (dependent id : String) :
    (release indegree dependent)[id]? = indegree[id]?.map (· - if dependent = id then 1 else 0) := by
  unfold release
  cases hcount : indegree[dependent]? with
  | none =>
    by_cases hsame : dependent = id
    · subst hsame
      simp [hcount]
    · simp [hsame]
  | some count =>
    by_cases hsame : dependent = id
    · subst hsame
      simp [hcount]
    · simp only [getElem?_insert_eq, if_neg hsame, Nat.sub_zero, Option.map_id']

/-- Releasing dependents lowers the count of each by how often it is listed. -/
theorem getElem?_foldl_release (dependents : List String) (indegree : ExtTreeMap String ℕ) (id : String) :
    (dependents.foldl release indegree)[id]? = indegree[id]?.map (· - dependents.count id) := by
  induction dependents generalizing indegree with
  | nil => simp
  | cons dependent rest ih =>
    rw [List.foldl_cons, ih, getElem?_release, Option.map_map, List.count_cons]
    refine congrArg (Option.map · indegree[id]?) ?_
    funext count
    simp only [Function.comp_apply, beq_iff_eq]
    omega

/-- Counting what is not placed, before and after one more id is placed. -/
theorem countP_insert {placed : ExtTreeMap String ℕ} {id : String} (hnew : id ∉ placed) (k : ℕ)
    (ids : List String) :
    ids.countP (· ∉ placed.insert id k) = ids.countP (· ∉ placed) - ids.count id := by
  have hle : ids.countP (· ∉ placed.insert id k) + ids.count id = ids.countP (· ∉ placed) := by
    induction ids with
    | nil => rfl
    | cons other rest ih =>
      rw [List.countP_cons, List.countP_cons, List.count_cons, ← ih]
      by_cases hsame : other = id
      · subst hsame
        simp [ExtTreeMap.mem_insert, hnew]
        omega
      · simp [ExtTreeMap.mem_insert, LawfulEqCmp.compare_eq_iff_eq, hsame, Ne.symm hsame]
        omega
  omega

section Distinct

variable (hdistinct : (g.todos.map Todo.id).Nodup)
include hdistinct

/-- The ids of members are distinct. -/
theorem nodup_members : ((g.members offered).map Todo.id).Nodup :=
  hdistinct.sublist (List.filter_sublist.map Todo.id)

/-- A member is a dependent of an id as often as it waits on it. -/
theorem count_dependentsOf {todo : Todo} (hmember : g.Member offered todo) (id : String) :
    (g.dependentsOf offered id).count todo.id = (g.waitsOn offered todo).count id := by
  have hone : ∀ other : Todo, (((g.waitsOn offered other).filter (· == id)).map fun _ => other.id).count todo.id =
      if other.id = todo.id then (g.waitsOn offered other).count id else 0 := by
    intro other
    rw [List.map_const', List.count_replicate, List.count_eq_length_filter]
    simp
  have hall : ∀ todos : List Todo, (todos.map Todo.id).Nodup → todo ∈ todos →
      (todos.flatMap fun other => ((g.waitsOn offered other).filter (· == id)).map fun _ => other.id).count
        todo.id = (g.waitsOn offered todo).count id := by
    intro todos
    induction todos with
    | nil => exact fun _ htodo => absurd htodo List.not_mem_nil
    | cons first rest ih =>
      intro hnodup htodo
      rw [List.map_cons, List.nodup_cons] at hnodup
      rw [List.flatMap_cons, List.count_append, hone]
      rcases List.mem_cons.mp htodo with rfl | hrest
      · have hnone : (rest.flatMap fun other =>
            ((g.waitsOn offered other).filter (· == id)).map fun _ => other.id).count todo.id = 0 := by
          rw [List.count_eq_zero]
          intro hmem
          obtain ⟨other, hother, hid⟩ := List.mem_flatMap.mp hmem
          obtain ⟨_, _, hid⟩ := List.mem_map.mp hid
          exact hnodup.1 (hid ▸ List.mem_map_of_mem hother)
        rw [if_pos rfl, hnone, Nat.add_zero]
      · have hne : first.id ≠ todo.id := fun heq => hnodup.1 (heq ▸ List.mem_map_of_mem hrest)
        rw [if_neg hne, Nat.zero_add]
        exact ih hnodup.2 hrest
  exact hall _ (nodup_members hdistinct) (mem_members.mpr hmember)

/-- The indegrees at the start count every member waited on. -/
theorem counts_start : g.Counts offered (g.indegree offered) ∅ := by
  have hpairwise : (((g.members offered).filter fun todo =>
      !(g.cycled offered).any fun other => other.id == todo.id).map fun todo =>
        (todo.id, (g.waitsOn offered todo).length)).Pairwise fun a b => a.1 ≠ b.1 := by
    rw [List.pairwise_map]
    exact (List.pairwise_map.mp (nodup_members hdistinct)).filter _
  refine ⟨fun {todo} hmember hcycle => ?_, fun {todo} hmember hclear => ?_⟩
  · rw [Option.eq_none_iff_forall_ne_some]
    intro count hcount
    obtain ⟨other, hother, heq⟩ := List.mem_map.mp ((getElem?_ofList_eq_some hpairwise).mp hcount)
    obtain ⟨hother, hnot⟩ := List.mem_filter.mp hother
    obtain rfl := eq_of_id_eq hdistinct (mem_members.mp hother).1 hmember.1 (Prod.mk.inj heq).1
    rw [(any_cycled_iff hdistinct hmember).mpr hcycle] at hnot
    contradiction
  · refine (getElem?_ofList_eq_some hpairwise).mpr (List.mem_map.mpr ⟨todo, ?_, ?_⟩)
    · refine List.mem_filter.mpr ⟨mem_members.mpr hmember, ?_⟩
      rw [Bool.not_eq_true', Bool.eq_false_iff, ne_eq, any_cycled_iff hdistinct hmember]
      exact hclear
    · simp

/-- Placing one todo keeps the count. -/
theorem Counts.place {indegree placed : ExtTreeMap String ℕ} (h : g.Counts offered indegree placed) {todo : Todo}
    (hnew : todo.id ∉ placed) (k : ℕ) :
    g.Counts offered ((g.dependentsOf offered todo.id).foldl release indegree) (placed.insert todo.id k) := by
  refine ⟨fun {other} hother hcycle => ?_, fun {other} hother hclear => ?_⟩
  · rw [getElem?_foldl_release, h.cyclic hother hcycle]
    rfl
  · rw [getElem?_foldl_release, h.clear hother hclear, count_dependentsOf hdistinct hother, countP_insert hnew]
    rfl

/-- Placing a batch of todos not placed yet keeps the count. -/
theorem counts_place {s : Schedule} {batch : List Todo} (h : g.Counts offered s.indegree s.placed)
    (hnodup : (batch.map Todo.id).Nodup) (hnew : ∀ todo ∈ batch, todo.id ∉ s.placed) :
    g.Counts offered (g.place offered s batch).indegree (g.place offered s batch).placed := by
  have hall : ∀ (batch : List Todo) (indegree placed : ExtTreeMap String ℕ),
      g.Counts offered indegree placed → (batch.map Todo.id).Nodup → (∀ todo ∈ batch, todo.id ∉ placed) →
        g.Counts offered
          (batch.foldl (fun indegree todo => (g.dependentsOf offered todo.id).foldl release indegree) indegree)
          (batch.foldl (fun placed todo => placed.insert todo.id s.batches.length) placed) := by
    intro batch
    induction batch with
    | nil => exact fun indegree placed h _ _ => h
    | cons todo rest ih =>
      intro indegree placed h hnodup hnew
      rw [List.map_cons, List.nodup_cons] at hnodup
      refine ih _ _ (h.place hdistinct (hnew todo List.mem_cons_self) _) hnodup.2 fun other hother => ?_
      rw [ExtTreeMap.mem_insert, LawfulEqCmp.compare_eq_iff_eq, not_or]
      refine ⟨fun heq => hnodup.1 (heq ▸ List.mem_map_of_mem hother), ?_⟩
      exact hnew other (List.mem_cons_of_mem todo hother)
  exact hall batch s.indegree s.placed h hnodup hnew

/-- The ids of the ready members are distinct. -/
theorem nodup_ready (outside : List String) (s : Schedule) :
    ((g.ready offered outside s).map Todo.id).Nodup := by
  have hperm := List.perm_insertionSort
    (fun a b => before (ranksOf (g.unplaced offered s) (g.dependentsOf offered)) a b = true)
    ((g.unplaced offered s).filter fun todo =>
      !outside.contains todo.id && s.indegree[todo.id]?.getD 1 == 0)
  rw [ready, (hperm.map Todo.id).nodup_iff]
  exact (nodup_members hdistinct).sublist ((List.filter_sublist.trans List.filter_sublist).map Todo.id)

/-- The ids of a batch are distinct. -/
theorem nodup_nextBatch (outside : List String) (s : Schedule) :
    ((g.nextBatch offered cap outside s).map Todo.id).Nodup := by
  have hparts : (g.readyStarted offered outside s ++ g.readyPending offered outside s).Perm
      (g.ready offered outside s) := by
    refine (List.Perm.of_eq ?_).trans
      (List.filter_append_perm (fun todo => decide (todo.status.kind = .inProgress)) _)
    simp [readyStarted, readyPending]
  have hnodup : ((g.readyStarted offered outside s ++ g.readyPending offered outside s).map Todo.id).Nodup :=
    (hparts.map Todo.id).nodup_iff.mpr (nodup_ready hdistinct outside s)
  rw [nextBatch_eq]
  refine hnodup.sublist (List.Sublist.map Todo.id (List.Sublist.append_left ?_ _))
  cases cap with
  | none => exact List.Sublist.refl _
  | some cap => exact List.take_sublist _ _

/-- Before the first batch. -/
theorem scheduled_start : g.Scheduled offered cap ⟨g.indegree offered, ∅, []⟩ where
  counts := counts_start hdistinct
  placed id := by simp
  members h := absurd h List.not_mem_nil
  distinct := List.nodup_nil
  waits h := by simp at h
  started h := absurd rfl h
  first h := by simp at h
  sizes _ _ _ h := by simp at h

omit hdistinct in
/-- A ready member is off every cycle, and all it waits on is placed. -/
theorem Scheduled.of_ready {s : Schedule} (h : g.Scheduled offered cap s) {todo : Todo}
    (hready : todo ∈ g.ready offered (g.waitingOutside offered) s) :
    g.Member offered todo ∧ ¬ g.OnCycle offered todo ∧ todo.id ∉ g.waitingOutside offered ∧
      todo.id ∉ s.placed ∧ ∀ id ∈ g.waitsOn offered todo, id ∈ s.placed := by
  obtain ⟨hmember, hnew, hinside, hzero⟩ := (g.mem_ready offered _).mp hready
  rw [mem_members] at hmember
  have hclear : ¬ g.OnCycle offered todo := by
    intro hcycle
    rw [h.counts.cyclic hmember hcycle] at hzero
    contradiction
  rw [h.counts.clear hmember hclear, Option.getD_some, List.countP_eq_zero] at hzero
  exact ⟨hmember, hclear, hinside, hnew, fun id hid => by simpa using hzero id hid⟩

/-- A started member off every cycle that is not placed is ready. -/
theorem Scheduled.ready_of_started {s : Schedule} (h : g.Scheduled offered cap s) {todo : Todo}
    (hmember : g.Member offered todo) (hstarted : todo.status.kind = .inProgress)
    (hclear : ¬ g.OnCycle offered todo) (hnew : todo.id ∉ s.placed) :
    todo ∈ g.readyStarted offered (g.waitingOutside offered) s := by
  refine List.mem_filter.mpr ⟨(g.mem_ready offered _).mpr ⟨mem_members.mpr hmember, hnew, ?_, ?_⟩, by simp [hstarted]⟩
  · intro houtside
    obtain ⟨other, hreach, hother⟩ := (mem_waitingOutside hdistinct hmember).mp houtside
    rcases hreach.cases_head with rfl | ⟨_, hwaits, _⟩
    · exact hother.choose_spec.1.1 hstarted
    · exact hwaits.2.2.1 hstarted
  · have hnone : g.waitsOn offered todo = [] := by
      rw [Graph.waitsOn, Graph.waits, if_pos hstarted]
      rfl
    rw [h.counts.clear hmember hclear, hnone]
    rfl

omit hdistinct in
/-- The batches after one more. -/
theorem getElem?_concat {batches : List (List Todo)} {last batch : List Todo} {k : ℕ}
    (h : (batches ++ [last])[k]? = some batch) :
    batches[k]? = some batch ∨ k = batches.length ∧ batch = last := by
  rcases lt_or_ge k batches.length with hlt | hge
  · rw [List.getElem?_append_left hlt] at h
    exact Or.inl h
  · rw [List.getElem?_append_right hge] at h
    obtain ⟨hk, heq⟩ := List.getElem?_eq_some_iff.mp h
    simp only [List.length_singleton] at hk
    refine Or.inr ⟨by omega, ?_⟩
    have hzero : k - batches.length = 0 := by omega
    simpa [hzero] using heq.symm

omit hdistinct in
/-- A batch has no more pending todos than the cap leaves room for. -/
theorem length_nextBatch {n : ℕ+} (hcap : cap = some n) (outside : List String) (s : Schedule) :
    (g.nextBatch offered cap outside s).length ≤
      max (n : ℕ) ((g.nextBatch offered cap outside s).countP fun todo => todo.status.kind = .inProgress) := by
  subst hcap
  rw [nextBatch_eq]
  dsimp only
  have hstarted : (g.readyStarted offered outside s).countP (fun todo => todo.status.kind = .inProgress) =
      (g.readyStarted offered outside s).length := by
    rw [List.countP_eq_length]
    intro todo htodo
    exact (List.mem_filter.mp htodo).2
  rw [List.length_append, List.countP_append, hstarted, List.length_take]
  omega

/-- Placing the next batch keeps what the schedule keeps. -/
theorem Scheduled.step {s next : Schedule} (h : g.Scheduled offered cap s)
    (hstep : g.scheduleStep offered cap (g.waitingOutside offered) s = some next) :
    g.Scheduled offered cap next := by
  obtain ⟨hbatch, rfl⟩ := (g.scheduleStep_eq_some offered cap _).mp hstep
  have hnodup : ((g.nextBatch offered cap (g.waitingOutside offered) s).map Todo.id).Nodup :=
    nodup_nextBatch hdistinct (g.waitingOutside offered) s
  have hready : ∀ {todo : Todo}, todo ∈ g.nextBatch offered cap (g.waitingOutside offered) s →
      g.Member offered todo ∧ ¬ g.OnCycle offered todo ∧ todo.id ∉ g.waitingOutside offered ∧
        todo.id ∉ s.placed ∧ ∀ id ∈ g.waitsOn offered todo, id ∈ s.placed :=
    fun htodo => h.of_ready (g.mem_ready_of_mem_nextBatch offered cap _ htodo)
  have hearly : ∀ {todo : Todo}, todo ∈ g.nextBatch offered cap (g.waitingOutside offered) s →
      todo.status.kind = .inProgress → s.batches = [] := by
    intro todo htodo hstarted
    by_contra hsome
    obtain ⟨hmember, hclear, _, hnew, _⟩ := hready htodo
    exact hnew (h.started hsome hmember hstarted hclear)
  have hstartedIn : ∀ {todo : Todo}, todo ∈ g.readyStarted offered (g.waitingOutside offered) s →
      todo ∈ g.nextBatch offered cap (g.waitingOutside offered) s := by
    intro todo htodo
    rw [nextBatch_eq]
    exact List.mem_append_left _ htodo
  have hlength : ∀ {n : ℕ+}, cap = some n → (g.nextBatch offered cap (g.waitingOutside offered) s).length ≤
      max (n : ℕ) ((g.nextBatch offered cap (g.waitingOutside offered) s).countP fun todo =>
        todo.status.kind = .inProgress) :=
    fun hcap => length_nextBatch hcap _ s
  generalize hlast : g.nextBatch offered cap (g.waitingOutside offered) s = last at *
  refine ⟨counts_place hdistinct h.counts hnodup fun todo htodo => (hready htodo).2.2.2.1, fun id => ?_,
    fun {batch todo} hmem htodo => ?_, ?_, fun {k batch todo} hk htodo id hid => ?_,
    fun _ {todo} hmember hstarted hclear => ?_, fun {k batch todo} hk htodo hstarted => ?_,
    fun {n} hcap {k batch} hk => ?_⟩
  · rw [mem_placed_place, h.placed]
    simp [place, or_and_right, exists_or]
  · rcases List.mem_append.mp hmem with hold | hnew
    · exact h.members hold htodo
    · obtain rfl := List.mem_singleton.mp hnew
      obtain ⟨hmember, hclear, hinside, _⟩ := hready htodo
      exact ⟨hmember, hclear, hinside⟩
  · change (s.batches ++ [last]).flatten.Nodup
    rw [List.flatten_append, List.flatten_singleton, List.nodup_append]
    refine ⟨h.distinct, hnodup.of_map _, fun todo hold other hnew heq => ?_⟩
    subst heq
    obtain ⟨batch, hmem, htodo⟩ := List.mem_flatten.mp hold
    exact (hready hnew).2.2.2.1 ((h.placed _).mpr ⟨batch, hmem, List.mem_map_of_mem htodo⟩)
  · have hkeep : ∀ {j : ℕ} {earlier : List Todo}, s.batches[j]? = some earlier →
        (s.batches ++ [last])[j]? = some earlier := by
      intro j earlier hj
      rw [List.getElem?_append_left (List.getElem?_eq_some_iff.mp hj).1]
      exact hj
    rcases getElem?_concat hk with hold | ⟨rfl, rfl⟩
    · obtain ⟨j, hjk, earlier, hj, hmem⟩ := h.waits hold htodo id hid
      exact ⟨j, hjk, earlier, hkeep hj, hmem⟩
    · obtain ⟨earlier, hearlier, hmem⟩ := (h.placed id).mp ((hready htodo).2.2.2.2 id hid)
      obtain ⟨j, hj⟩ := List.mem_iff_getElem?.mp hearlier
      exact ⟨j, (List.getElem?_eq_some_iff.mp hj).1, earlier, hkeep hj, hmem⟩
  · rw [mem_placed_place]
    by_cases hplaced : todo.id ∈ s.placed
    · exact Or.inl hplaced
    · exact Or.inr (List.mem_map_of_mem (hstartedIn (h.ready_of_started hdistinct hmember hstarted hclear hplaced)))
  · rcases getElem?_concat hk with hold | ⟨rfl, rfl⟩
    · exact h.first hold htodo hstarted
    · rw [hearly htodo hstarted]
      rfl
  · rcases getElem?_concat hk with hold | ⟨rfl, rfl⟩
    · exact h.sizes hcap hold
    · refine ⟨hlength hcap, fun hlater => ?_⟩
      have hnone : batch.countP (fun todo => todo.status.kind = .inProgress) = 0 := by
        rw [List.countP_eq_zero]
        intro todo htodo hstarted
        exact hlater (congrArg List.length (hearly htodo (of_decide_eq_true hstarted)))
      have hle := hlength hcap
      rw [hnone] at hle
      simpa using hle

/-- The plan's batches keep what the schedule keeps. -/
theorem scheduled_schedule : g.Scheduled offered cap (g.schedule offered cap) :=
  loop_invariant (g.Scheduled offered cap) (fun _ _ h hstep => h.step hdistinct hstep) (scheduled_start hdistinct)

omit hdistinct in
/-- When the loop ends no member is ready. -/
theorem ready_schedule : g.ready offered (g.waitingOutside offered) (g.schedule offered cap) = [] := by
  have hdone : g.scheduleStep offered cap (g.waitingOutside offered) (g.schedule offered cap) = none := step_loop ..
  by_contra hready
  have hbatch : g.nextBatch offered cap (g.waitingOutside offered) (g.schedule offered cap) ≠ [] := by
    intro hnone
    rw [nextBatch_eq, List.append_eq_nil_iff] at hnone
    obtain ⟨hstarted, hpending⟩ := hnone
    have hrest : g.readyPending offered (g.waitingOutside offered) (g.schedule offered cap) = [] := by
      cases cap with
      | none => exact hpending
      | some cap =>
        rw [hstarted] at hpending
        exact (List.take_eq_nil_iff.mp hpending).resolve_left cap.ne_zero
    refine hready (List.eq_nil_iff_forall_not_mem.mpr fun todo htodo => ?_)
    by_cases hkind : todo.status.kind = .inProgress
    · have hmem : todo ∈ g.readyStarted offered (g.waitingOutside offered) (g.schedule offered cap) :=
        List.mem_filter.mpr ⟨htodo, by simp [hkind]⟩
      rw [hstarted] at hmem
      exact List.not_mem_nil hmem
    · have hmem : todo ∈ g.readyPending offered (g.waitingOutside offered) (g.schedule offered cap) :=
        List.mem_filter.mpr ⟨htodo, by simp [hkind]⟩
      rw [hrest] at hmem
      exact List.not_mem_nil hmem
  rw [(g.scheduleStep_eq_some offered cap _).mpr ⟨hbatch, rfl⟩] at hdone
  contradiction

/-- A placed member is in a batch. -/
theorem Scheduled.mem_batch {s : Schedule} (h : g.Scheduled offered cap s) {todo : Todo}
    (htodo : todo ∈ g.todos) (hplaced : todo.id ∈ s.placed) : ∃ batch ∈ s.batches, todo ∈ batch := by
  obtain ⟨batch, hbatch, hid⟩ := (h.placed _).mp hplaced
  obtain ⟨other, hother, heq⟩ := List.mem_map.mp hid
  obtain rfl := eq_of_id_eq hdistinct (h.members hbatch hother).1.1 htodo heq
  exact ⟨batch, hbatch, hother⟩

/-- What a placed member waits for is placed. -/
theorem Scheduled.placed_of_waitsFor {s : Schedule} (h : g.Scheduled offered cap s) {todo blocker : Todo}
    (hwaits : g.WaitsFor offered todo blocker) (hplaced : todo.id ∈ s.placed) : blocker.id ∈ s.placed := by
  obtain ⟨batch, hbatch, htodo⟩ := h.mem_batch hdistinct hwaits.1.1 hplaced
  obtain ⟨k, hk⟩ := List.mem_iff_getElem?.mp hbatch
  obtain ⟨j, _, earlier, hj, hid⟩ := h.waits hk htodo blocker.id
    ((mem_waitsOn hdistinct hwaits.1).mpr ⟨blocker, hwaits, rfl⟩)
  exact (h.placed _).mpr ⟨earlier, List.mem_of_getElem? hj, hid⟩

/-- A placed member is clear. -/
theorem Scheduled.clear_of_placed {s : Schedule} (h : g.Scheduled offered cap s) {todo : Todo}
    (hmember : g.Member offered todo) (hplaced : todo.id ∈ s.placed) : g.Clear offered todo := by
  intro other hreach
  have hother : g.Member offered other ∧ other.id ∈ s.placed := by
    induction hreach with
    | refl => exact ⟨hmember, hplaced⟩
    | tail _ hwaits ih => exact ⟨hwaits.2.1, h.placed_of_waitsFor hdistinct hwaits ih.2⟩
  obtain ⟨batch, hbatch, hmem⟩ := h.mem_batch hdistinct hother.1.1 hother.2
  obtain ⟨_, hclear, hinside⟩ := h.members hbatch hmem
  refine ⟨hclear, fun houtside => hinside ?_⟩
  exact (mem_waitingOutside hdistinct hother.1).mpr ⟨other, .refl, houtside⟩

omit hdistinct in
/-- Clear members wait in no cycle. -/
theorem wellFounded_clear : WellFounded fun blocker todo => g.WaitsFor offered todo blocker ∧ g.Clear offered todo := by
  refine wellFounded_of_acyclic (fun todo blocker hwaits => ⟨hwaits.1.1.1, hwaits.1.2.1.1⟩)
    fun todo hcycle => ?_
  have hself : g.Clear offered todo := by
    obtain ⟨_, hfirst, _⟩ := Relation.TransGen.head'_iff.mp hcycle
    exact hfirst.2
  exact (hself todo .refl).1 (hcycle.lift id fun _ _ hwaits => hwaits.1.blockedBy)

/-- A clear member is placed when the loop ends: what it waits for is, as clear members have no cycle,
and so it would be ready. -/
theorem placed_of_clear {todo : Todo} (hmember : g.Member offered todo) (hclear : g.Clear offered todo) :
    todo.id ∈ (g.schedule offered cap).placed := by
  have hscheduled : g.Scheduled offered cap (g.schedule offered cap) := scheduled_schedule hdistinct
  have hwf : WellFounded fun blocker todo => g.WaitsFor offered todo blocker ∧ g.Clear offered todo :=
    wellFounded_clear
  induction todo using hwf.induction with
  | _ todo ih =>
    by_contra hnew
    have hready : todo ∈ g.ready offered (g.waitingOutside offered) (g.schedule offered cap) := by
      refine (g.mem_ready offered _).mpr ⟨mem_members.mpr hmember, hnew, fun houtside => ?_, ?_⟩
      · obtain ⟨other, hreach, hother⟩ := (mem_waitingOutside hdistinct hmember).mp houtside
        exact (hclear other hreach).2 hother
      · rw [hscheduled.counts.clear hmember (hclear todo .refl).1, Option.getD_some, List.countP_eq_zero]
        intro id hid
        obtain ⟨blocker, hwaits, rfl⟩ := (mem_waitsOn hdistinct hmember).mp hid
        simpa using ih blocker ⟨hwaits, hclear⟩ hwaits.2.1 (hclear.next hwaits)
    rw [ready_schedule] at hready
    exact List.not_mem_nil hready

/-- A member is placed exactly when it is clear: nothing it waits for is on a cycle or waits outside. -/
theorem placed_iff {todo : Todo} (hmember : g.Member offered todo) :
    todo.id ∈ (g.schedule offered cap).placed ↔ g.Clear offered todo :=
  ⟨(scheduled_schedule hdistinct).clear_of_placed hdistinct hmember, placed_of_clear hdistinct hmember⟩

end Distinct

end Graph

end Devkit.Todos
