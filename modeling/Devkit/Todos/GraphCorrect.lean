import Devkit.Todos.GraphTopo

/-!
# The plan is correct

Put together: the batches are disjoint, within the cap and in blocking order, everything started is
in the first, and the todos left out are those that reach a stored cycle or an open blocker outside
the plan. The loops end: those of the search, the passes and the batches are total, and the order
that ranks members has none left when its bound is reached.
-/

namespace Devkit.Todos

open Devkit.Library
open Std

namespace Graph

/-- What a plan promises. -/
structure Correct (g : Graph) (offered : Todo → Bool) (cap : Option ℕ+) : Prop where
  terminates : ∀ left : List Todo, left.Sublist (g.members offered) →
    (topoEnd left (g.dependentsOf offered)).ready = []
  disjoint : (g.plan offered cap).batches.flatten.Nodup
  members : ∀ batch ∈ (g.plan offered cap).batches, ∀ todo ∈ batch, g.Member offered todo
  started : ∀ {k : ℕ} {batch : List Todo} {todo : Todo}, (g.plan offered cap).batches[k]? = some batch →
    todo ∈ batch → todo.status.kind = .inProgress → k = 0
  order : ∀ {k : ℕ} {batch : List Todo} {todo blocker : Todo}, (g.plan offered cap).batches[k]? = some batch →
    todo ∈ batch → todo.status.kind = .pending → g.OpenBlocker todo blocker →
      ∃ j < k, ∃ earlier, (g.plan offered cap).batches[j]? = some earlier ∧ blocker ∈ earlier
  sizes : ∀ {n : ℕ+}, cap = some n → ∀ {k : ℕ} {batch : List Todo},
    (g.plan offered cap).batches[k]? = some batch →
      batch.length ≤ if k = 0 then max (n : ℕ) (batch.countP fun todo => todo.status.kind = .inProgress) else n
  placed : ∀ {todo : Todo}, g.Member offered todo →
    ((∃ batch ∈ (g.plan offered cap).batches, todo ∈ batch) ↔ g.Clear offered todo)

/-- **The concurrency plan is correct.** For todos of distinct ids, any offer and any cap, the loops of
the plan end and its batches are disjoint, hold open todos on offer, start with everything started,
come after the batches of every open blocker, stay within the cap, and hold a member exactly when
nothing it waits for, itself included, is on a stored cycle or waits on an open blocker outside. -/
theorem plan_correct (g : Graph) (offered : Todo → Bool) (cap : Option ℕ+)
    (hdistinct : (g.todos.map Todo.id).Nodup) : g.Correct offered cap := by
  have h : g.Scheduled offered cap (g.schedule offered cap) := scheduled_schedule hdistinct
  refine ⟨fun left hleft => topo_done ((nodup_members hdistinct).sublist (hleft.map Todo.id)), h.distinct,
    fun batch hbatch todo htodo => (h.members hbatch htodo).1, h.first,
    fun {k batch todo blocker} hk htodo hpending hblocker => ?_, fun {n} hcap {k batch} hk => ?_,
    fun {todo} hmember => ?_⟩
  · obtain ⟨hmember, _, hinside⟩ := h.members (List.mem_of_getElem? hk) htodo
    have hwaits : g.Waits todo blocker := ⟨by rw [hpending]; exact StatusKind.noConfusion, hblocker⟩
    have hblockerMember : g.Member offered blocker := by
      by_contra hout
      exact hinside ((mem_waitingOutside hdistinct hmember).mpr ⟨todo, .refl, blocker, hwaits, hout⟩)
    obtain ⟨j, hjk, earlier, hj, hid⟩ := h.waits hk htodo blocker.id
      ((mem_waitsOn hdistinct hmember).mpr ⟨blocker, ⟨hmember, hblockerMember, hwaits⟩, rfl⟩)
    obtain ⟨other, hother, heq⟩ := List.mem_map.mp hid
    have hotherMember := (h.members (List.mem_of_getElem? hj) hother).1
    obtain rfl := eq_of_id_eq hdistinct hotherMember.1 hblocker.1 heq
    exact ⟨j, hjk, earlier, hj, hother⟩
  · obtain ⟨hfirst, hlater⟩ := h.sizes hcap hk
    split
    · exact hfirst
    · rename_i hk
      exact hlater hk
  · have hclear : todo.id ∈ (g.schedule offered cap).placed ↔ g.Clear offered todo := placed_iff hdistinct hmember
    rw [← hclear]
    constructor
    · rintro ⟨batch, hbatch, htodo⟩
      exact (h.placed _).mpr ⟨batch, hbatch, List.mem_map_of_mem htodo⟩
    · exact fun hplaced => h.mem_batch hdistinct hmember.1 hplaced

section Example

/-- A todo with blockers. -/
def blockedTodo (id : String) (status : Status) (blockedBy : List String) : Todo :=
  ⟨id, id, status, none, none, none, none, none, blockedBy, none⟩

/-- A chain of two, a started todo, a cycle of two, and a todo behind the cycle. -/
def sampleGraph : Graph :=
  ⟨[blockedTodo "1" .pending [], blockedTodo "2" .pending ["1"], blockedTodo "3" (.inProgress ⟨"S"⟩) ["2"],
    blockedTodo "4" .pending ["5"], blockedTodo "5" .pending ["4"], blockedTodo "6" .pending ["4", "1"]]⟩

/-- The plan of the sample, one todo at a time. -/
theorem plan_correct_sample : sampleGraph.Correct (fun _ => true) (some 1) :=
  plan_correct sampleGraph (fun _ => true) (some 1) (by decide +kernel)

end Example

end Graph

end Devkit.Todos
