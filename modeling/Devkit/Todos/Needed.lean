import Devkit.Todos.Prune
import Mathlib.Logic.Relation

/-!
# What open todos need

An open todo needs the todos it waits on and the ones it nests under, however deep. The walks
of a prune collect exactly these, also where parents form a cycle or name no todo.
-/

namespace Devkit.Todos

open Devkit.Library
open Relation
open Std

/-- One todo of a listing nests right under another. -/
def NestsUnder (all : List Todo) (todo parent : Todo) : Prop :=
  todo ∈ all ∧ parent ∈ all ∧ todo.parent = some parent.id

/-- A todo of a listing nests under another, however deep. -/
def Ancestor (all : List Todo) : Todo → Todo → Prop := TransGen (NestsUnder all)

/-- Some open todo of the listing waits on the todo or nests under it. -/
def NeededByOpen (all : List Todo) (todo : Todo) : Prop :=
  ∃ other ∈ all, other.status.kind.isOpen = true ∧ (todo.id ∈ other.blockedBy ∨ Ancestor all other todo)

/-- The todo under the first id has the second as its parent. -/
def Up (index : ExtTreeMap String Todo) (id parent : String) : Prop :=
  ∃ todo, index[id]? = some todo ∧ todo.parent = some parent

/-- The id is met by going up from a start. -/
def MetFrom (index : ExtTreeMap String Todo) (start : Option String) (id : String) : Prop :=
  ∃ first, start = some first ∧ ReflTransGen (Up index) first id

/-- Nothing is met from nowhere. -/
theorem not_metFrom_none {index : ExtTreeMap String Todo} {id : String} : ¬ MetFrom index none id :=
  fun ⟨_, hfirst, _⟩ => nomatch hfirst

/-- What is met from an id: the id, and what is met from its todo's parent. -/
theorem metFrom_some {index : ExtTreeMap String Todo} {first id : String} :
    MetFrom index (some first) id ↔ id = first ∨ MetFrom index (index[first]?.bind Todo.parent) id := by
  constructor
  · intro hmet
    obtain ⟨_, hfirst, hway⟩ := hmet
    obtain rfl := Option.some.inj hfirst
    cases hway.cases_head with
    | inl heq => exact Or.inl heq.symm
    | inr hstep =>
      obtain ⟨parent, ⟨todo, htodo, hparent⟩, hway⟩ := hstep
      refine Or.inr ⟨parent, ?_, hway⟩
      rw [htodo, Option.bind_some, hparent]
  · intro hmet
    cases hmet with
    | inl heq =>
      rw [heq]
      exact ⟨first, rfl, .refl⟩
    | inr hmet =>
      obtain ⟨parent, hparent, hway⟩ := hmet
      obtain ⟨todo, htodo, hparent⟩ := Option.bind_eq_some_iff.mp hparent
      exact ⟨first, rfl, .head ⟨todo, htodo, hparent⟩ hway⟩

/-- Going up from a walked id is walked too, or is where the walk starts. -/
def Closed (index : ExtTreeMap String Todo) (walked : List String) (start : Option String) : Prop :=
  ∀ id ∈ walked, ∀ parent, Up index id parent → parent ∈ walked ∨ start = some parent

/-- A closed list with its start in it has all that is met from the start. -/
theorem Closed.mem_of_metFrom {index : ExtTreeMap String Todo} {walked : List String} {first id : String}
    (hclosed : Closed index walked (some first)) (hfirst : first ∈ walked) (hmet : MetFrom index (some first) id) :
    id ∈ walked := by
  obtain ⟨_, heq, hway⟩ := hmet
  obtain rfl := Option.some.inj heq
  induction hway with
  | refl => exact hfirst
  | tail _ hup ih =>
    cases hclosed _ ih _ hup with
    | inl hwalked => exact hwalked
    | inr hstart => exact Option.some.inj hstart ▸ hfirst

/-- What a walk has walked and found needed once it ends. -/
structure Walk.After (index : ExtTreeMap String Todo) (state : Walk) (start : Option String)
    (result : Walk) : Prop where
  closed : Closed index result.walked none
  walked : ∀ id, id ∈ result.walked ↔ id ∈ state.walked ∨ MetFrom index start id
  needed : ∀ id, id ∈ result.needed ↔ id ∈ state.needed ∨ MetFrom index start id

/-- The state of a walk once it has met an id. -/
def Walk.meet (state : Walk) (id : String) : Walk := ⟨id :: state.walked, id :: state.needed⟩

/-- A walk that meets an id goes on from the parent of its todo. -/
theorem Walk.After.up {index : ExtTreeMap String Todo} {state result : Walk} {first : String}
    (h : (state.meet first).After index (index[first]?.bind Todo.parent) result) :
    state.After index (some first) result := by
  have hmet : ∀ id, MetFrom index (some first) id ↔ id = first ∨ MetFrom index (index[first]?.bind Todo.parent) id :=
    fun id => metFrom_some
  refine ⟨h.closed, fun id => ?_, fun id => ?_⟩
  · rw [h.walked, hmet, Walk.meet, List.mem_cons]
    tauto
  · rw [h.needed, hmet, Walk.meet, List.mem_cons]
    tauto

/-- Meeting an id keeps the walk closed up to the parent of its todo. -/
theorem Closed.meet {index : ExtTreeMap String Todo} {state : Walk} {first : String}
    (hclosed : Closed index state.walked (some first)) :
    Closed index (state.meet first).walked (index[first]?.bind Todo.parent) := by
  intro id hid parent hup
  cases List.mem_cons.mp hid with
  | inl heq =>
    obtain ⟨todo, htodo, hparent⟩ := hup
    rw [heq] at htodo
    refine Or.inr ?_
    rw [htodo, Option.bind_some, hparent]
  | inr hid =>
    refine Or.inl ?_
    cases hclosed id hid parent hup with
    | inl hwalked => exact List.mem_cons_of_mem first hwalked
    | inr hstart => exact Option.some.inj hstart ▸ List.mem_cons_self

/-- A walk adds what is met from its start, though it stops at an id that was walked before. -/
theorem walkUp_after {index : ExtTreeMap String Todo} {state : Walk} {start : Option String}
    (hclosed : Closed index state.walked start) (hneeded : state.walked ⊆ state.needed) :
    state.After index start (walkUp index state start) := by
  have hnone : ∀ {state : Walk}, Closed index state.walked none → state.After index none state := fun hclosed =>
    ⟨hclosed, fun id => (or_iff_left not_metFrom_none).symm, fun id => (or_iff_left not_metFrom_none).symm⟩
  induction state, start using walkUp.induct index with
  | case1 state =>
    rw [walkUp]
    exact hnone hclosed
  | case2 state first hwalked =>
    rw [walkUp, if_pos hwalked]
    have hmet : ∀ {id}, MetFrom index (some first) id → id ∈ state.walked :=
      fun hmet => hclosed.mem_of_metFrom hwalked hmet
    refine ⟨fun id hid parent hup => Or.inl ?_, fun id => ?_, fun id => ?_⟩
    · cases hclosed id hid parent hup with
      | inl hparent => exact hparent
      | inr hstart => exact Option.some.inj hstart ▸ hwalked
    · exact (or_iff_left_of_imp hmet).symm
    · exact (or_iff_left_of_imp fun hid => hneeded (hmet hid)).symm
  | case3 state first hwalked hfound =>
    rw [walkUp, if_neg hwalked]
    split
    · have hmeet := hclosed.meet
      rw [hfound, Option.bind_none] at hmeet
      refine Walk.After.up ?_
      rw [hfound, Option.bind_none]
      exact hnone hmeet
    · rename_i todo htodo
      rw [hfound] at htodo
      cases htodo
  | case4 state first hwalked next todo hfound ih =>
    rw [walkUp, if_neg hwalked]
    split
    · rename_i hnone
      rw [hfound] at hnone
      cases hnone
    · rename_i other hother
      obtain rfl := Option.some.inj (hfound.symm.trans hother)
      have hmeet := hclosed.meet
      rw [hfound, Option.bind_some] at hmeet
      refine Walk.After.up ?_
      rw [hfound, Option.bind_some]
      exact ih hmeet (List.cons_subset_cons first hneeded)

/-- The todos of a fold need their blockers and what is met from their parents. -/
theorem mem_foldl_needOpen {index : ExtTreeMap String Todo} {opens : List Todo} {state : Walk} {id : String}
    (hclosed : Closed index state.walked none) (hneeded : state.walked ⊆ state.needed) :
    id ∈ (opens.foldl (needOpen index) state).needed ↔
      id ∈ state.needed ∨ ∃ todo ∈ opens, id ∈ todo.blockedBy ∨ MetFrom index todo.parent id := by
  induction opens generalizing state with
  | nil => simp
  | cons todo rest ih =>
    have hafter : Walk.After index ⟨state.walked, todo.blockedBy ++ state.needed⟩ todo.parent
        (needOpen index state todo) :=
      walkUp_after (fun id hid parent hup => Or.inl ((hclosed id hid parent hup).resolve_right nofun))
        (List.subset_append_of_subset_right _ hneeded)
    have hkept : (needOpen index state todo).walked ⊆ (needOpen index state todo).needed := by
      intro id hid
      rw [hafter.needed, List.mem_append]
      cases (hafter.walked id).mp hid with
      | inl hwalked => exact Or.inl (Or.inr (hneeded hwalked))
      | inr hmet => exact Or.inr hmet
    rw [List.foldl_cons, ih hafter.closed hkept, hafter.needed]
    simp only [List.mem_append, List.mem_cons, exists_eq_or_imp, or_assoc]
    exact or_left_comm

section Distinct

variable {all : List Todo} (hdistinct : (all.map Todo.id).Nodup)

include hdistinct

/-- Going up from the parent of a listed todo meets its ancestors. -/
theorem metFrom_parent_iff {todo other : Todo} (hother : other ∈ all) (htodo : todo ∈ all) :
    MetFrom (byId all) other.parent todo.id ↔ Ancestor all other todo := by
  constructor
  · intro hmet
    obtain ⟨first, hfirst, hway⟩ := hmet
    induction hway using ReflTransGen.head_induction_on generalizing other with
    | refl => exact .single ⟨hother, htodo, hfirst⟩
    | head hup _ ih =>
      obtain ⟨parent, hparent, hgrand⟩ := hup
      obtain ⟨hmember, hid⟩ := (byId_eq_some hdistinct).mp hparent
      exact .head ⟨hother, hmember, hid ▸ hfirst⟩ (ih hmember hgrand)
  · intro hancestor
    induction hancestor with
    | single hnests => exact ⟨_, hnests.2.2, .refl⟩
    | tail _ hnests ih =>
      obtain ⟨hchild, hparent, hfirst⟩ := hnests
      obtain ⟨first, hstart, hway⟩ := ih hchild
      exact ⟨first, hstart, hway.tail ⟨_, (byId_eq_some hdistinct).mpr ⟨hchild, rfl⟩, hfirst⟩⟩

/-- What the walks collect of a listing's todos is what the open ones need. -/
theorem mem_neededByOpen {todo : Todo} (htodo : todo ∈ all) :
    todo.id ∈ neededByOpen all ↔ NeededByOpen all todo := by
  rw [neededByOpen, mem_foldl_needOpen (fun id hid => absurd hid List.not_mem_nil) (List.nil_subset [])]
  rw [or_iff_right List.not_mem_nil]
  constructor
  · intro hneeded
    obtain ⟨other, hother, hneeds⟩ := hneeded
    obtain ⟨hmember, hopen⟩ := List.mem_filter.mp hother
    exact ⟨other, hmember, hopen, hneeds.imp id (metFrom_parent_iff hdistinct hmember htodo).mp⟩
  · intro hneeded
    obtain ⟨other, hmember, hopen, hneeds⟩ := hneeded
    exact ⟨other, List.mem_filter.mpr ⟨hmember, hopen⟩,
      hneeds.imp id (metFrom_parent_iff hdistinct hmember htodo).mpr⟩

/-- An id is removable when it is asked for and its todo is done and not needed. -/
theorem mem_removable {ids : List String} {id : String} :
    id ∈ removable all ids ↔
      id ∈ ids ∧ ∃ todo ∈ all, todo.id = id ∧ todo.status.kind.isOpen = false ∧ ¬ NeededByOpen all todo := by
  simp only [removable, List.mem_filter, Bool.and_eq_true, List.contains_iff_mem, Bool.not_eq_true',
    ← Bool.not_eq_true, List.mem_map]
  refine and_congr_right fun _ => ?_
  constructor
  · intro hdone
    obtain ⟨⟨todo, ⟨htodo, hdone⟩, rfl⟩, hfree⟩ := hdone
    exact ⟨todo, htodo, rfl, hdone, fun hneeded => hfree ((mem_neededByOpen hdistinct htodo).mpr hneeded)⟩
  · intro hdone
    obtain ⟨todo, htodo, rfl, hdone, hfree⟩ := hdone
    exact ⟨⟨todo, ⟨htodo, hdone⟩, rfl⟩, fun hneeded => hfree ((mem_neededByOpen hdistinct htodo).mp hneeded)⟩

end Distinct

end Devkit.Todos
