import Devkit.Library.OrderedMap
import Devkit.Library.Unvisited
import Devkit.Todos.Item

/-!
# Which done todos a prune removes

A done todo stays while an open one waits on it or nests under it, however deep. The walk up
the parents stops at a todo it has seen, so a cycle of parents ends it.
-/

namespace Devkit.Todos

open Devkit.Library
open Std

/-- The todos of a listing by id; a repeated id keeps the last. -/
def byId (all : List Todo) : ExtTreeMap String Todo :=
  all.foldl (fun index todo => index.insert todo.id todo) ∅

/-- The index is the map of the todos' rows. -/
theorem byId_eq_ofList (all : List Todo) : byId all = ExtTreeMap.ofList (all.map fun todo => (todo.id, todo)) := by
  have hfold : ∀ (all : List Todo) (index : ExtTreeMap String Todo),
      all.foldl (fun index todo => index.insert todo.id todo) index =
        index.insertMany (all.map fun todo => (todo.id, todo)) := by
    intro all
    induction all with
    | nil => exact fun index => (ExtTreeMap.insertMany_nil).symm
    | cons todo rest ih =>
      intro index
      rw [List.foldl_cons, ih, List.map_cons, ExtTreeMap.insertMany_cons]
  rw [ExtTreeMap.ofList_eq_insertMany_empty]
  exact hfold all ∅

/-- Where ids are distinct the index holds each todo under its id. -/
theorem byId_eq_some {all : List Todo} (hdistinct : (all.map Todo.id).Nodup) {id : String} {todo : Todo} :
    (byId all)[id]? = some todo ↔ todo ∈ all ∧ todo.id = id := by
  have hpairwise : (all.map fun todo => (todo.id, todo)).Pairwise fun a b => a.1 ≠ b.1 := by
    rw [List.pairwise_map]
    exact List.pairwise_map.mp hdistinct
  rw [byId_eq_ofList, getElem?_ofList_eq_some hpairwise, List.mem_map]
  constructor
  · rintro ⟨other, hother, heq⟩
    obtain ⟨rfl, rfl⟩ := Prod.mk.inj heq
    exact ⟨hother, rfl⟩
  · rintro ⟨htodo, rfl⟩
    exact ⟨todo, htodo, rfl⟩

/-- Ids walked so far and ids needed so far. -/
structure Walk where
  walked : List String
  needed : List String

/-- Walk up from a parent: each id met is needed, until one was walked before. -/
def walkUp (index : ExtTreeMap String Todo) (state : Walk) : Option String → Walk
  | none => state
  | some id =>
    if id ∈ state.walked then state
    else
      let next : Walk := ⟨id :: state.walked, id :: state.needed⟩
      match _hfound : index[id]? with
      | none => next
      | some todo => walkUp index next todo.parent
termination_by unvisited index.keys state.walked
decreasing_by
  rename_i hwalked
  have hkey : id ∈ index.keys := by
    rw [ExtTreeMap.mem_keys, ExtTreeMap.mem_iff_isSome_getElem?, _hfound]
    rfl
  exact unvisited_cons_lt hkey hwalked

/-- What one open todo needs: its blockers and its ancestors. -/
def needOpen (index : ExtTreeMap String Todo) (state : Walk) (todo : Todo) : Walk :=
  walkUp index ⟨state.walked, todo.blockedBy ++ state.needed⟩ todo.parent

/-- The ids each open todo waits on, and each of its ancestors. -/
def neededByOpen (all : List Todo) : List String :=
  ((all.filter fun todo => todo.status.kind.isOpen).foldl (needOpen (byId all)) ⟨[], []⟩).needed

/-- The ids a store removes now: each names a done todo that no open one needs. -/
def removable (all : List Todo) (ids : List String) : List String :=
  let needed := neededByOpen all
  let done := (all.filter fun todo => !todo.status.kind.isOpen).map Todo.id
  ids.filter fun id => done.contains id && !needed.contains id

end Devkit.Todos
