import Devkit.Todos.Kept
import Devkit.Todos.Needed

/-!
# What a prune leaves

A prune removes the done todos it names that no open todo needs, and nothing else. So an open
todo, the todos it waits on and its whole chain of ancestors are still there after it.
-/

namespace Devkit.Todos

open Devkit.Library
open Relation
open Std

namespace Doc

/-- The todos of a numbered document have different ids. -/
theorem Numbered.distinct {doc : Doc} (h : doc.Numbered) : ((rows doc.todos).map Todo.id).Nodup := by
  rw [rows, List.map_map, List.Nodup, List.pairwise_map]
  refine (toList_pairwise_ne doc.todos).imp_of_mem fun {row other} hrow hother hne heq => hne ?_
  have hid : idOf row.1 = idOf other.1 :=
    (h.keyed (ExtTreeMap.mem_toList_iff_getElem?_eq_some.mp hrow)).symm.trans
      (heq.trans (h.keyed (ExtTreeMap.mem_toList_iff_getElem?_eq_some.mp hother)))
  exact idOf_inj.mp hid

/-- The prune removes exactly the done todos it names that no open one needs, so what an open todo
needs is still there. -/
structure Pruned (doc : Doc) (ids : List String) (after : Doc) : Prop where
  kept : ∀ (key : ℕ) (todo : Todo), after.todos[key]? = some todo ↔ doc.todos[key]? = some todo ∧
    ¬ (todo.id ∈ ids ∧ todo.status.kind.isOpen = false ∧ ¬ NeededByOpen (rows doc.todos) todo)
  opens : ∀ todo ∈ rows doc.todos, todo.status.kind.isOpen = true → todo ∈ rows after.todos
  blockers : ∀ todo ∈ rows after.todos, todo.status.kind.isOpen = true →
    ∀ blocker ∈ rows doc.todos, blocker.id ∈ todo.blockedBy → blocker ∈ rows after.todos
  ancestors : ∀ todo ∈ rows after.todos, todo.status.kind.isOpen = true →
    ∀ ancestor, Ancestor (rows doc.todos) todo ancestor → Ancestor (rows after.todos) todo ancestor

/-- A document that keeps what a prune should keep is pruned. -/
theorem pruned_of_kept {doc after : Doc} {ids : List String}
    (hkept : ∀ (key : ℕ) (todo : Todo), after.todos[key]? = some todo ↔ doc.todos[key]? = some todo ∧
      ¬ (todo.id ∈ ids ∧ todo.status.kind.isOpen = false ∧ ¬ NeededByOpen (rows doc.todos) todo)) :
    doc.Pruned ids after := by
  have hsub : ∀ {todo}, todo ∈ rows after.todos → todo ∈ rows doc.todos := by
    intro todo htodo
    obtain ⟨key, htodo⟩ := mem_rows.mp htodo
    exact mem_rows.mpr ⟨key, ((hkept key todo).mp htodo).1⟩
  have hopens : ∀ todo ∈ rows doc.todos, todo.status.kind.isOpen = true → todo ∈ rows after.todos := by
    intro todo htodo hopen
    obtain ⟨key, htodo⟩ := mem_rows.mp htodo
    exact mem_rows.mpr ⟨key, (hkept key todo).mpr ⟨htodo, fun hgone => by simp [hopen] at hgone⟩⟩
  have hneeded : ∀ {todo}, todo ∈ rows doc.todos → NeededByOpen (rows doc.todos) todo → todo ∈ rows after.todos := by
    intro todo htodo hneeded
    obtain ⟨key, htodo⟩ := mem_rows.mp htodo
    exact mem_rows.mpr ⟨key, (hkept key todo).mpr ⟨htodo, fun hgone => hgone.2.2 hneeded⟩⟩
  refine ⟨hkept, hopens, fun todo htodo hopen blocker hblocker hwaits => ?_,
    fun todo htodo hopen ancestor hancestor => ?_⟩
  · exact hneeded hblocker ⟨todo, hsub htodo, hopen, Or.inl hwaits⟩
  · -- every todo of the chain is an ancestor of the open todo, so the chain is kept step by step
    induction hancestor with
    | single hnests =>
      exact .single ⟨htodo, hneeded hnests.2.1 ⟨todo, hsub htodo, hopen, Or.inr (.single hnests)⟩, hnests.2.2⟩
    | tail hchain hnests ih =>
      have hchild := hneeded hnests.1 ⟨todo, hsub htodo, hopen, Or.inr hchain⟩
      have hparent := hneeded hnests.2.1 ⟨todo, hsub htodo, hopen, Or.inr (hchain.tail hnests)⟩
      exact ih.tail ⟨hchild, hparent, hnests.2.2⟩

/-- A prune leaves the todos it does not name, the open ones and those open ones need. -/
theorem apply_prune_kept (doc : Doc) (now : Instant) (ids : List String) (hnumbered : doc.Numbered) :
    ∃ after changes, doc.apply now (.prune ids) = .ok (after, changes) ∧ after.nextId = doc.nextId ∧
      ∀ (key : ℕ) (todo : Todo), after.todos[key]? = some todo ↔ doc.todos[key]? = some todo ∧
        ¬ (todo.id ∈ ids ∧ todo.status.kind.isOpen = false ∧ ¬ NeededByOpen (rows doc.todos) todo) := by
  obtain ⟨changes, happly⟩ := doc.apply_prune now ids
  refine ⟨_, changes, happly, rfl, fun key todo => ?_⟩
  rw [getElem?_eraseAll_eq_some, and_comm]
  refine and_congr_right fun htodo => not_congr ?_
  have hid := hnumbered.keyed htodo
  rw [List.mem_filterMap]
  constructor
  · intro hremoved
    obtain ⟨id, hremoved, hkey⟩ := hremoved
    obtain ⟨hasked, other, hother, rfl, hdone, hfree⟩ := (mem_removable hnumbered.distinct).mp hremoved
    obtain ⟨otherKey, hother⟩ := mem_rows.mp hother
    rw [hnumbered.keyed hother, parseKey_idOf] at hkey
    obtain rfl := Option.some.inj hkey
    obtain rfl := Option.some.inj (htodo.symm.trans hother)
    exact ⟨hasked, hdone, hfree⟩
  · intro hremoved
    obtain ⟨hasked, hdone, hfree⟩ := hremoved
    refine ⟨todo.id, (mem_removable hnumbered.distinct).mpr
      ⟨hasked, todo, mem_rows.mpr ⟨key, htodo⟩, rfl, hdone, hfree⟩, ?_⟩
    rw [hid, parseKey_idOf]

/-- A prune of any ids keeps every todo that open work depends on, and removes what it may. -/
theorem prune_keeps_needed (doc : Doc) (now : Instant) (ids : List String) (hnumbered : doc.Numbered) :
    ∃ after changes, doc.apply now (.prune ids) = .ok (after, changes) ∧ doc.Pruned ids after := by
  obtain ⟨after, changes, happly, _, hkept⟩ := doc.apply_prune_kept now ids hnumbered
  exact ⟨after, changes, happly, pruned_of_kept hkept⟩

section Example

/-- A todo with a status, a parent and blockers. -/
def nestedTodo (id : String) (status : Status) (parent : Option String) (blockedBy : List String) : Todo :=
  ⟨id, id, status, parent, none, none, none, none, blockedBy, none⟩

/-- An open todo under a cycle of done ones, blocked by a done one and by none, and a free done one
whose parent is gone. -/
def nestedDoc : Doc :=
  ⟨6, .ofList [(1, nestedTodo "1" .pending (some "2") ["4", "9"]),
    (2, nestedTodo "2" (.completed none) (some "3") []), (3, nestedTodo "3" (.cancelled none) (some "2") []),
    (4, nestedTodo "4" (.completed none) none []), (5, nestedTodo "5" (.completed none) (some "8") [])]⟩

/-- The sample is numbered as a store numbers. -/
theorem numbered_nestedDoc : nestedDoc.Numbered := by
  refine ⟨fun {key todo} htodo => ?_, fun {key todo} htodo => ?_⟩ <;>
    · have hrow := mem_of_getElem?_ofList htodo
      simp only [List.mem_cons, Prod.mk.injEq, List.not_mem_nil, or_false] at hrow
      obtain ⟨rfl, rfl⟩ | ⟨rfl, rfl⟩ | ⟨rfl, rfl⟩ | ⟨rfl, rfl⟩ | ⟨rfl, rfl⟩ := hrow <;> decide

/-- A prune of every id of the sample keeps what its open todo needs. -/
theorem prune_keeps_needed_sample : ∃ after changes,
    nestedDoc.apply ⟨0, ""⟩ (.prune ["1", "2", "3", "4", "5"]) = .ok (after, changes) ∧
      nestedDoc.Pruned ["1", "2", "3", "4", "5"] after :=
  prune_keeps_needed nestedDoc ⟨0, ""⟩ ["1", "2", "3", "4", "5"] numbered_nestedDoc

end Example

end Doc

end Devkit.Todos
