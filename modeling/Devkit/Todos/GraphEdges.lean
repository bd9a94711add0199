import Devkit.Todos.GraphPlan

/-!
# What a plan waits for

The edges of the blocking graph stated on the todos, and who the plan leaves out: whoever reaches,
along what members wait for, a member on a stored cycle or one that waits on an open blocker outside
the plan. The searches and passes of the plan find exactly these.
-/

namespace Devkit.Todos

open Devkit.Library
open Std

namespace Graph

/-- The other todo of the graph is open and stored as a blocker. -/
def OpenBlocker (g : Graph) (todo blocker : Todo) : Prop :=
  blocker ∈ g.todos ∧ blocker.status.kind.isOpen = true ∧ blocker.id ∈ todo.blockedBy

/-- The todo is open and on offer. -/
def Member (g : Graph) (offered : Todo → Bool) (todo : Todo) : Prop :=
  todo ∈ g.todos ∧ todo.status.kind.isOpen = true ∧ offered todo = true

/-- A stored edge between members. -/
def BlockedBy (g : Graph) (offered : Todo → Bool) (todo blocker : Todo) : Prop :=
  g.Member offered todo ∧ g.Member offered blocker ∧ g.OpenBlocker todo blocker

/-- The todo waits for the other: it is not started, and the other is an open blocker. -/
def Waits (g : Graph) (todo blocker : Todo) : Prop :=
  todo.status.kind ≠ .inProgress ∧ g.OpenBlocker todo blocker

/-- A member waits for another. -/
def WaitsFor (g : Graph) (offered : Todo → Bool) (todo blocker : Todo) : Prop :=
  g.Member offered todo ∧ g.Member offered blocker ∧ g.Waits todo blocker

/-- The member is on a cycle of stored edges between members. -/
def OnCycle (g : Graph) (offered : Todo → Bool) (todo : Todo) : Prop :=
  Relation.TransGen (g.BlockedBy offered) todo todo

/-- The todo waits on an open blocker outside the plan. -/
def WaitsOutside (g : Graph) (offered : Todo → Bool) (todo : Todo) : Prop :=
  ∃ blocker, g.Waits todo blocker ∧ ¬ g.Member offered blocker

/-- Nothing the todo waits for, itself included, is on a cycle or waits outside the plan. -/
def Clear (g : Graph) (offered : Todo → Bool) (todo : Todo) : Prop :=
  ∀ other, Relation.ReflTransGen (g.WaitsFor offered) todo other →
    ¬ g.OnCycle offered other ∧ ¬ g.WaitsOutside offered other

variable {g : Graph} {offered : Todo → Bool}

/-- The todos of a plan are the members. -/
@[simp] theorem mem_members {todo : Todo} : todo ∈ g.members offered ↔ g.Member offered todo := by
  rw [members, List.mem_filter, Bool.and_eq_true]
  rfl

/-- A todo waits for another by a stored edge. -/
theorem WaitsFor.blockedBy {todo blocker : Todo} (h : g.WaitsFor offered todo blocker) :
    g.BlockedBy offered todo blocker :=
  ⟨h.1, h.2.1, h.2.2.2⟩

/-- What a clear todo waits for is clear. -/
theorem Clear.next {todo blocker : Todo} (h : g.Clear offered todo) (hwaits : g.WaitsFor offered todo blocker) :
    g.Clear offered blocker :=
  fun other hreach => h other (hreach.head hwaits)

section Distinct

variable (hdistinct : (g.todos.map Todo.id).Nodup)
include hdistinct

/-- Different todos have different ids. -/
theorem eq_of_id_eq {todo other : Todo} (htodo : todo ∈ g.todos) (hother : other ∈ g.todos)
    (hid : todo.id = other.id) : todo = other :=
  List.inj_on_of_nodup_map hdistinct htodo hother hid

/-- An id names the todo of that id. -/
theorem get_eq_some {id : String} {todo : Todo} : g.get id = some todo ↔ todo ∈ g.todos ∧ todo.id = id :=
  byId_eq_some hdistinct

/-- The open blockers are those stored. -/
theorem mem_openBlockers {todo blocker : Todo} :
    blocker ∈ g.openBlockers todo ↔ g.OpenBlocker todo blocker := by
  rw [openBlockers, List.mem_insertionSort, List.mem_filter, List.mem_filterMap]
  constructor
  · rintro ⟨⟨id, hid, hget⟩, hopen⟩
    obtain ⟨hblocker, rfl⟩ := (get_eq_some hdistinct).mp hget
    exact ⟨hblocker, hopen, hid⟩
  · rintro ⟨hblocker, hopen, hid⟩
    exact ⟨⟨blocker.id, hid, (get_eq_some hdistinct).mpr ⟨hblocker, rfl⟩⟩, hopen⟩

/-- What a todo waits on is what it waits for. -/
theorem mem_waits {todo blocker : Todo} : blocker ∈ g.waits todo ↔ g.Waits todo blocker := by
  unfold waits Waits
  split
  · rename_i hstarted
    simp [hstarted]
  · rename_i hpending
    rw [mem_openBlockers hdistinct]
    simp [hpending]

/-- A todo of the graph is a member when its id is one's. -/
theorem isMember_iff {todo : Todo} (htodo : todo ∈ g.todos) :
    g.isMember offered todo.id = true ↔ g.Member offered todo := by
  rw [isMember, List.any_eq_true]
  constructor
  · rintro ⟨other, hother, hid⟩
    rw [mem_members] at hother
    obtain rfl := eq_of_id_eq hdistinct hother.1 htodo (by simpa using hid)
    exact hother
  · exact fun hmember => ⟨todo, mem_members.mpr hmember, by simp⟩

/-- The ids a member waits on are those of the members it waits for. -/
theorem mem_waitsOn {todo : Todo} {id : String} (hmember : g.Member offered todo) :
    id ∈ g.waitsOn offered todo ↔ ∃ blocker, g.WaitsFor offered todo blocker ∧ blocker.id = id := by
  rw [waitsOn, List.mem_map]
  refine exists_congr fun blocker => and_congr_left fun _ => ?_
  rw [List.mem_filter, mem_waits hdistinct]
  constructor
  · rintro ⟨hwaits, hblocker⟩
    exact ⟨hmember, (isMember_iff hdistinct hwaits.2.1).mp hblocker, hwaits⟩
  · exact fun h => ⟨h.2.2, (isMember_iff hdistinct h.2.1.1).mpr h.2.1⟩

/-- The first members found to wait outside are those that do so directly. -/
theorem waitsOutside_iff {todo : Todo} : g.waitsOutside offered todo = true ↔ g.WaitsOutside offered todo := by
  rw [waitsOutside, List.any_eq_true]
  refine exists_congr fun blocker => ?_
  rw [mem_waits hdistinct]
  refine and_congr_right fun hwaits => ?_
  rw [Bool.not_eq_true', ← isMember_iff hdistinct hwaits.2.1, Bool.not_eq_true]

/-- An id is on a member cycle exactly when its member is on a cycle. -/
theorem onMemberCycle_iff {todo : Todo} (hmember : g.Member offered todo) :
    g.onMemberCycle offered todo.id = true ↔ g.OnCycle offered todo := by
  have hedge : ∀ {other : Todo} {id : String}, other ∈ g.todos →
      Edge (g.todos.map Todo.id) (g.memberBlockers offered) other.id id →
        ∃ blocker, g.Member offered blocker ∧ g.OpenBlocker other blocker ∧ blocker.id = id := by
    rintro other id hother ⟨_, hid⟩
    rw [memberBlockers, (get_eq_some hdistinct).mpr ⟨hother, rfl⟩] at hid
    obtain ⟨blocker, hblocker, rfl⟩ := List.mem_map.mp hid
    obtain ⟨hblocker, hother⟩ := List.mem_filter.mp hblocker
    rw [mem_openBlockers hdistinct] at hblocker
    exact ⟨blocker, (isMember_iff hdistinct hblocker.1).mp hother, hblocker, rfl⟩
  rw [onMemberCycle, search_isSome_iff]
  constructor
  · intro hway
    have hall : ∀ id, Relation.TransGen (Edge (g.todos.map Todo.id) (g.memberBlockers offered)) todo.id id →
        ∃ other, other.id = id ∧ g.Member offered other ∧ Relation.TransGen (g.BlockedBy offered) todo other := by
      intro id hway
      induction hway with
      | single hfirst =>
        obtain ⟨blocker, hblocker, hopen, rfl⟩ := hedge hmember.1 hfirst
        exact ⟨blocker, rfl, hblocker, .single ⟨hmember, hblocker, hopen⟩⟩
      | tail _ hlast ih =>
        obtain ⟨other, rfl, hother, hreach⟩ := ih
        obtain ⟨blocker, hblocker, hopen, rfl⟩ := hedge hother.1 hlast
        exact ⟨blocker, rfl, hblocker, hreach.tail ⟨hother, hblocker, hopen⟩⟩
    obtain ⟨other, hid, hother, hreach⟩ := hall todo.id hway
    obtain rfl := eq_of_id_eq hdistinct hother.1 hmember.1 hid
    exact hreach
  · intro hcycle
    refine hcycle.lift Todo.id fun other blocker hblocked => ⟨List.mem_map_of_mem hblocked.1.1, ?_⟩
    rw [memberBlockers, (get_eq_some hdistinct).mpr ⟨hblocked.1.1, rfl⟩]
    refine List.mem_map_of_mem (List.mem_filter.mpr ⟨(mem_openBlockers hdistinct).mpr hblocked.2.2, ?_⟩)
    exact (isMember_iff hdistinct hblocked.2.1.1).mpr hblocked.2.1

/-- The members left out of the indegrees are those on a cycle. -/
theorem any_cycled_iff {todo : Todo} (hmember : g.Member offered todo) :
    ((g.cycled offered).any fun other => other.id == todo.id) = true ↔ g.OnCycle offered todo := by
  rw [List.any_eq_true, ← onMemberCycle_iff hdistinct hmember]
  constructor
  · rintro ⟨other, hother, hid⟩
    rw [cycled, List.mem_insertionSort, List.mem_filter] at hother
    rw [← eq_of_beq hid]
    exact hother.2
  · intro hcycle
    refine ⟨todo, ?_, by simp⟩
    rw [cycled, List.mem_insertionSort, List.mem_filter]
    exact ⟨mem_members.mpr hmember, hcycle⟩

/-- After the last pass, whoever waits for a member found to wait outside is found as well. -/
theorem outside_closed {outside : List String} (hdone : g.outsideStep offered outside = none) {todo blocker : Todo}
    (hwaits : g.WaitsFor offered todo blocker) (hfound : blocker.id ∈ outside) : todo.id ∈ outside := by
  have hnot : ((g.members offered).foldl g.outsideVisit (outside, false)).2 = false := by
    unfold outsideStep at hdone
    split at hdone
    · contradiction
    · rename_i hpass
      exact congrArg Prod.snd hpass
  have hsame := g.outsideVisit_eq_of_not_grew hnot todo (mem_members.mpr hwaits.1)
  by_contra hnew
  rw [outsideVisit, if_neg (by simpa using hnew), if_pos] at hsame
  · exact Bool.false_ne_true (congrArg Prod.snd hsame).symm
  · rw [List.any_eq_true]
    exact ⟨blocker, (mem_waits hdistinct).mpr hwaits.2.2, List.contains_iff_mem.mpr hfound⟩

/-- The id is of a member from which one that waits outside the plan is reached. -/
def ReachesOutside (g : Graph) (offered : Todo → Bool) (id : String) : Prop :=
  ∃ todo, todo.id = id ∧ g.Member offered todo ∧
    ∃ other, Relation.ReflTransGen (g.WaitsFor offered) todo other ∧ g.WaitsOutside offered other

/-- A pass finds only members from which one that waits outside is reached. -/
theorem reachesOutside_of_step {outside next : List String} (h : ∀ id ∈ outside, g.ReachesOutside offered id)
    (hstep : g.outsideStep offered outside = some next) : ∀ id ∈ next, g.ReachesOutside offered id := by
  unfold outsideStep at hstep
  split at hstep
  · rename_i grown hpass
    obtain rfl := Option.some.inj hstep
    have hgrown : ((g.members offered).foldl g.outsideVisit (outside, false)).1 = grown := congrArg Prod.fst hpass
    rw [← hgrown]
    refine g.outsideVisits_invariant (fun todo htodo blocker hblocker hfound => ?_) h
    obtain ⟨other, hid, hother, last, hreach, hlast⟩ := hfound
    rw [mem_waits hdistinct] at hblocker
    obtain rfl := eq_of_id_eq hdistinct hother.1 hblocker.2.1 hid
    rw [mem_members] at htodo
    exact ⟨todo, rfl, htodo, last, hreach.head ⟨htodo, hother, hblocker⟩, hlast⟩
  · contradiction

/-- The passes find exactly the members from which one that waits outside the plan is reached. -/
theorem mem_waitingOutside {todo : Todo} (hmember : g.Member offered todo) :
    todo.id ∈ g.waitingOutside offered ↔
      ∃ other, Relation.ReflTransGen (g.WaitsFor offered) todo other ∧ g.WaitsOutside offered other := by
  constructor
  · intro hfound
    have hall : ∀ id ∈ g.waitingOutside offered, g.ReachesOutside offered id := by
      refine loop_invariant (fun outside => ∀ id ∈ outside, g.ReachesOutside offered id)
        (fun outside next h hstep => reachesOutside_of_step hdistinct h hstep) fun id hid => ?_
      obtain ⟨first, hfirst, rfl⟩ := List.mem_map.mp hid
      obtain ⟨hfirst, houtside⟩ := List.mem_filter.mp hfirst
      exact ⟨first, rfl, mem_members.mp hfirst, first, .refl, (waitsOutside_iff hdistinct).mp houtside⟩
    obtain ⟨other, hid, hother, hreach⟩ := hall todo.id hfound
    obtain rfl := eq_of_id_eq hdistinct hother.1 hmember.1 hid
    exact hreach
  · rintro ⟨other, hreach, hother⟩
    have hdone : g.outsideStep offered (g.waitingOutside offered) = none := step_loop ..
    have hstart : ∀ id ∈ ((g.members offered).filter (g.waitsOutside offered)).map Todo.id,
        id ∈ g.waitingOutside offered := by
      intro id hid
      exact loop_invariant (id ∈ ·) (fun outside next hmem hstep => g.subset_outsideStep offered hstep hmem) hid
    have hotherMember : g.Member offered other := by
      rcases hreach.cases_tail with rfl | ⟨_, _, hwaits⟩
      · exact hmember
      · exact hwaits.2.1
    have hlast : other.id ∈ g.waitingOutside offered :=
      hstart _ (List.mem_map_of_mem (List.mem_filter.mpr
        ⟨mem_members.mpr hotherMember, (waitsOutside_iff hdistinct).mpr hother⟩))
    induction hreach using Relation.ReflTransGen.head_induction_on with
    | refl => exact hlast
    | head hfirst _ ih => exact outside_closed hdistinct hdone hfirst (ih hfirst.2.1)

end Distinct

end Graph

end Devkit.Todos
