import Devkit.Library.Acyclic
import Devkit.Library.PathSearch
import Devkit.Todos.Graph

/-!
# Edges that would close a cycle

Before blockers are recorded, a search along the stored edges looks for a way from one of them back
to the todo. It finds one exactly when there is one, so edges that pass close no cycle in the
listing that was searched.
-/

namespace Devkit.Todos

open Devkit.Library
open Relation
open Std

/-- The todo under the first id is blocked by the second, also where that names no todo. -/
def Blocked (todos : List Todo) (id blocker : String) : Prop :=
  ∃ todo ∈ todos, todo.id = id ∧ blocker ∈ todo.blockedBy

/-- Stored edges lead from one id to another, or they are the same. -/
def Leads (todos : List Todo) : String → String → Prop := ReflTransGen (Blocked todos)

/-- No todo waits on itself, over any number of stored edges. -/
def Acyclic (todos : List Todo) : Prop := ∀ id, ¬ TransGen (Blocked todos) id id

namespace Graph

variable (g : Graph)

/-- The ids an id is blocked by, of todos or not. -/
def blockersOf (id : String) : List String := ((g.get id).map Todo.blockedBy).getD []

/-- The ids from one to another along stored edges. -/
def reaches (source target : String) : Option (List String) :=
  findPath (g.todos.map Todo.id) g.blockersOf target [] [(source, [source])]

/-- The ids of the cycle that adding blockers to an id would close. -/
def cycleThrough (id : String) (blockers : List String) : Option (List String) :=
  blockers.findSome? fun blocker =>
    if blocker = id then some [id, id] else (g.reaches blocker id).map fun path => id :: path

/-- The first id names a listed todo, and the second is one of its stored blockers. -/
def Stored (id blocker : String) : Prop := ∃ todo, g.get id = some todo ∧ blocker ∈ todo.blockedBy

/-- A stored edge between listed todos. -/
def Between (id blocker : String) : Prop := g.Stored id blocker ∧ (g.get blocker).isSome = true

/-- A stored edge from a listed todo to a listed one or to the id where a cycle would end. -/
def Follows (last id blocker : String) : Prop := g.Stored id blocker ∧ ((g.get blocker).isSome = true ∨ blocker = last)

/-- Some edge added from the id starts a cycle through it, over added and other edges. -/
def ClosesAt (edges : String → String → Prop) (id : String) (blockers : List String) : Prop :=
  ∃ blocker ∈ blockers, ReflTransGen (AddEdges edges id (· ∈ blockers)) blocker id

variable {g}

/-- The ids that name a todo are the listed ones. -/
theorem isSome_get_iff {id : String} : (g.get id).isSome = true ↔ id ∈ g.todos.map Todo.id := by
  rw [get, byId_eq_ofList, ExtTreeMap.isSome_getElem?_iff_mem, ExtTreeMap.mem_ofList, List.contains_iff_mem,
    List.map_map]
  rfl

/-- The edges searched are the stored ones, whatever the listing. -/
theorem edge_iff_stored {id blocker : String} :
    Edge (g.todos.map Todo.id) g.blockersOf id blocker ↔ g.Stored id blocker := by
  rw [Edge, ← isSome_get_iff, blockersOf, Stored]
  cases g.get id with
  | none => exact ⟨fun h => absurd h.1 Bool.false_ne_true, fun h => absurd h.choose_spec.1 nofun⟩
  | some todo => exact ⟨fun h => ⟨todo, rfl, h.2⟩, fun ⟨_, heq, h⟩ => ⟨rfl, Option.some.inj heq ▸ h⟩⟩

/-- The edges a search takes are those that can lie on a cycle through the id. -/
theorem toward_eq_follows (id : String) : Toward (g.todos.map Todo.id) g.blockersOf id = g.Follows id := by
  funext a b
  rw [Toward, edge_iff_stored, Follows, isSome_get_iff]

/-- A cycle is found exactly when an added edge starts one. -/
theorem isSome_cycleThrough_iff {id : String} {blockers : List String} :
    (g.cycleThrough id blockers).isSome = true ↔ ClosesAt (g.Follows id) id blockers := by
  rw [cycleThrough, List.findSome?_isSome_iff, ClosesAt]
  refine exists_congr fun blocker => and_congr_right fun _ => ?_
  rw [reflTransGen_addEdges_source, reflTransGen_iff_eq_or_transGen]
  by_cases hself : blocker = id
  · rw [if_pos hself]
    exact iff_of_true rfl (Or.inl hself.symm)
  · rw [if_neg hself, Option.isSome_map, reaches, findPath_isSome_iff, ← transGen_toward_iff, toward_eq_follows]
    exact (or_iff_right fun heq => hself heq.symm).symm

/-- The ids returned go round a cycle, from the id to the id. -/
theorem chain_of_cycleThrough {id : String} {blockers path : List String}
    (h : g.cycleThrough id blockers = some path) :
    path.head? = some id ∧ path.getLast? = some id ∧ 2 ≤ path.length ∧
      path.IsChain (AddEdges (g.Follows id) id (· ∈ blockers)) := by
  obtain ⟨blocker, hblocker, hfound⟩ := List.exists_of_findSome?_eq_some h
  by_cases hself : blocker = id
  · rw [if_pos hself] at hfound
    obtain rfl := Option.some.inj hfound
    exact ⟨rfl, rfl, Nat.le_refl 2, List.isChain_pair.mpr (Or.inr ⟨rfl, hself ▸ hblocker⟩)⟩
  · rw [if_neg hself] at hfound
    obtain ⟨way, hway, rfl⟩ := Option.map_eq_some_iff.mp hfound
    obtain ⟨hstart, hend, hchain⟩ := chain_of_findPath hway
    rw [toward_eq_follows] at hchain
    cases way with
    | nil => cases hstart
    | cons first rest =>
      obtain rfl := Option.some.inj hstart
      refine ⟨rfl, by rw [List.getLast?_cons_cons, hend], Nat.le_add_left 2 _, ?_⟩
      exact .cons_cons (Or.inr ⟨rfl, hblocker⟩) (hchain.imp fun _ _ hedge => Or.inl hedge)

/-- The search finds exactly the cycles that blockers would close, and where it finds none they close none. -/
theorem cycleThrough_exact (g : Graph) (id : String) (blockers : List String) :
    ((g.cycleThrough id blockers).isSome = true ↔ ClosesAt (g.Follows id) id blockers) ∧
      (∀ path, g.cycleThrough id blockers = some path → path.head? = some id ∧ path.getLast? = some id ∧
        2 ≤ path.length ∧ path.IsChain (AddEdges (g.Follows id) id (· ∈ blockers))) ∧
      (g.cycleThrough id blockers = none → (∀ a, ¬ TransGen (g.Follows id) a a) →
        ∀ a, ¬ TransGen (AddEdges (g.Follows id) id (· ∈ blockers)) a a) := by
  refine ⟨isSome_cycleThrough_iff, fun path => chain_of_cycleThrough, fun hnone hacyclic => ?_⟩
  refine (acyclic_addEdges_iff hacyclic).mpr fun blocker hblocker hway => ?_
  have hcloses : ClosesAt (g.Follows id) id blockers := ⟨blocker, hblocker, reflTransGen_addEdges_source.mpr hway⟩
  rw [← isSome_cycleThrough_iff, hnone] at hcloses
  cases hcloses

section Example

/-- A todo blocked by one that is not listed. -/
def danglingGraph : Graph := ⟨[⟨"1", "", .pending, none, none, none, none, none, ["2"], none⟩]⟩

/-- An id no listed todo has ends a cycle too, though no edge between listed todos leads to it. -/
theorem cycleThrough_unlisted :
    ¬ ((danglingGraph.cycleThrough "2" ["1"]).isSome = true ↔ ClosesAt danglingGraph.Between "2" ["1"]) := by
  intro hiff
  have hstored : danglingGraph.Stored "1" "2" :=
    ⟨⟨"1", "", .pending, none, none, none, none, none, ["2"], none⟩, by decide +kernel, List.mem_singleton_self "2"⟩
  obtain ⟨blocker, hblocker, hway⟩ := hiff.mp (isSome_cycleThrough_iff.mpr
    ⟨"1", List.mem_singleton_self "1", .single (Or.inl ⟨hstored, Or.inr rfl⟩)⟩)
  rw [reflTransGen_addEdges_source, List.mem_singleton.mp hblocker] at hway
  cases hway.cases_tail with
  | inl heq => exact absurd heq (by decide)
  | inr hstep =>
    obtain ⟨_, _, hedge⟩ := hstep
    have hunlisted : "2" ∉ danglingGraph.todos.map Todo.id := by decide
    exact hunlisted (isSome_get_iff.mp hedge.2)

end Example

section Distinct

variable (hdistinct : (g.todos.map Todo.id).Nodup)

include hdistinct

/-- The edges searched are the stored ones. -/
theorem edge_iff_blocked {id blocker : String} :
    Edge (g.todos.map Todo.id) g.blockersOf id blocker ↔ Blocked g.todos id blocker := by
  rw [edge_iff_stored, Stored, Blocked]
  refine exists_congr fun todo => ?_
  rw [get, byId_eq_some hdistinct, and_assoc]

/-- No cycle is found exactly when none of the blockers leads to the id. -/
theorem cycleThrough_eq_none_iff {id : String} {blockers : List String} :
    g.cycleThrough id blockers = none ↔ ∀ blocker ∈ blockers, ¬ Leads g.todos blocker id := by
  have hedges : Edge (g.todos.map Todo.id) g.blockersOf = Blocked g.todos := by
    funext a b
    exact propext (edge_iff_blocked hdistinct)
  rw [cycleThrough, List.findSome?_eq_none_iff]
  refine forall₂_congr fun blocker _ => ?_
  by_cases hself : blocker = id
  · rw [if_pos hself, hself]
    exact ⟨nofun, fun hnot => absurd .refl hnot⟩
  · have hway : Leads g.todos blocker id ↔ TransGen (Blocked g.todos) blocker id := by
      rw [Leads, reflTransGen_iff_eq_or_transGen]
      exact or_iff_right fun heq => hself heq.symm
    have hfound : (g.reaches blocker id).isSome = true ↔ TransGen (Blocked g.todos) blocker id := by
      rw [← hedges]
      exact findPath_isSome_iff
    rw [if_neg hself, Option.map_eq_none_iff, hway, ← hfound, Option.not_isSome_iff_eq_none]

end Distinct

end Graph

end Devkit.Todos
