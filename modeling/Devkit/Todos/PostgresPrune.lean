import Devkit.Todos.Needed
import Devkit.Todos.PostgresRules

/-!
# The Postgres store prunes as the library says

The recursive query of `todo_prune` finds the ancestors of the open todos that the walk of the
library finds. So the function deletes the rows of the removable todos, where the ids it is given
are spelled as the store spells them.
-/

namespace Devkit.Todos.Postgres

open Devkit.Library
open Relation

/-- What a row stores of its todo that a prune looks at. -/
theorem todoOf_fields {row : Row} {todo : Todo} (htodo : todoOf row = some todo) :
    todo.id = row.id.text ∧ todo.parent = row.parent.map Uuid.text ∧ todo.blockedBy = row.blockedBy.map Uuid.text ∧
      row.status = kindName todo.status.kind := by
  obtain ⟨status, hstatus, rfl⟩ := Option.map_eq_some_iff.mp htodo
  exact ⟨rfl, rfl, rfl, (statusOf_eq_some hstatus).1⟩

/-- The names of the open kinds. -/
theorem contains_kindName_open (kind : StatusKind) :
    ["pending", "in_progress"].contains (kindName kind) = kind.isOpen := by
  cases kind <;> decide

/-- The names of the done kinds. -/
theorem contains_kindName_done (kind : StatusKind) :
    ["completed", "cancelled"].contains (kindName kind) = !kind.isOpen := by
  cases kind <;> decide

/-- A todo is stored under a root by a row of the root. -/
theorem mem_todosOf {table : Table} {root : String} {todo : Todo} :
    todo ∈ todosOf table root ↔ ∃ row ∈ table.rows, row.root = root ∧ todoOf row = some todo := by
  simp only [todosOf, List.mem_filterMap, List.mem_filter, beq_iff_eq, and_assoc]

/-- The todos stored under a root have different ids. -/
theorem distinct_todosOf (table : Table) (root : String) : ((todosOf table root).map Todo.id).Nodup := by
  have hids : (todosOf table root).map Todo.id =
      ((table.rows.filter fun row => row.root == root).map Row.id).map Uuid.text := by
    rw [todosOf, List.map_filterMap, List.map_map, ← List.filterMap_eq_map]
    refine List.filterMap_congr fun row _ => ?_
    obtain ⟨todo, htodo⟩ := exists_todoOf row
    rw [htodo, Option.map_some, (todoOf_fields htodo).1]
    rfl
  rw [hids]
  exact (table.keyed.sublist (List.filter_sublist.map Row.id)).map fun _ _ htext => Uuid.text_inj.mp htext

section Ancestors

variable {table : Table} {root : String}

/-- A row of the root under the first id has the second as its parent. -/
def Follows (table : Table) (root : String) (id parent : Uuid) : Prop :=
  ∃ row ∈ table.rows, row.root = root ∧ row.id = id ∧ row.parent = some parent

/-- The recursive term follows the parents. -/
theorem mem_parentsOf (working : List Uuid) (parent : Uuid) :
    parent ∈ parentsOf table root working ↔ ∃ id ∈ working, Follows table root id parent := by
  simp only [parentsOf, List.mem_filterMap, List.mem_filter, Bool.and_eq_true, List.contains_iff_mem, beq_iff_eq]
  constructor
  · intro hparent
    obtain ⟨row, ⟨hrow, hid, hroot⟩, hparent⟩ := hparent
    exact ⟨row.id, hid, row, hrow, hroot, rfl, hparent⟩
  · intro hparent
    obtain ⟨id, hid, row, hrow, hroot, rfl, hparent⟩ := hparent
    exact ⟨row, ⟨hrow, hid, hroot⟩, hparent⟩

/-- The recursive query finds what is met by going up from the parents of the open rows. -/
theorem mem_ancestors {id : Uuid} :
    id ∈ ancestors table root ↔ ∃ other ∈ stillOpen table root, ∃ parent, other.parent = some parent ∧
      ReflTransGen (Follows table root) parent id := by
  rw [ancestors, mem_recursiveQuery mem_parentsOf]
  constructor
  · intro hmet
    obtain ⟨parent, hparent, hway⟩ := hmet
    obtain ⟨other, hother, hparent⟩ := List.mem_filterMap.mp hparent
    exact ⟨other, hother, parent, hparent, hway⟩
  · intro hmet
    obtain ⟨other, hother, parent, hparent, hway⟩ := hmet
    exact ⟨parent, List.mem_filterMap.mpr ⟨other, hother, hparent⟩, hway⟩

/-- Going up the rows from a row's parent meets the rows of the ancestors of its todo. -/
theorem follows_iff {row other : Row} {todo otherTodo : Todo} (hrow : row ∈ table.rows) (hroot : row.root = root)
    (htodo : todoOf row = some todo) (hother : other ∈ table.rows) (hotherRoot : other.root = root)
    (hotherTodo : todoOf other = some otherTodo) :
    (∃ parent, other.parent = some parent ∧ ReflTransGen (Follows table root) parent row.id) ↔
      Ancestor (todosOf table root) otherTodo todo := by
  have hmember : todo ∈ todosOf table root := mem_todosOf.mpr ⟨row, hrow, hroot, htodo⟩
  constructor
  · intro hmet
    obtain ⟨parent, hparent, hway⟩ := hmet
    induction hway using ReflTransGen.head_induction_on generalizing other otherTodo with
    | refl =>
      refine .single ⟨mem_todosOf.mpr ⟨other, hother, hotherRoot, hotherTodo⟩, hmember, ?_⟩
      rw [(todoOf_fields hotherTodo).2.1, hparent, (todoOf_fields htodo).1]
      rfl
    | head hup _ ih =>
      obtain ⟨next, hnext, hnextRoot, rfl, hgrand⟩ := hup
      obtain ⟨nextTodo, hnextTodo⟩ := exists_todoOf next
      refine .head ⟨mem_todosOf.mpr ⟨other, hother, hotherRoot, hotherTodo⟩,
        mem_todosOf.mpr ⟨next, hnext, hnextRoot, hnextTodo⟩, ?_⟩ (ih hnext hnextRoot hnextTodo hgrand)
      rw [(todoOf_fields hotherTodo).2.1, hparent, (todoOf_fields hnextTodo).1]
      rfl
  · -- a step between todos is a step between the ids of their rows
    have hstep : ∀ {child parent : Row} {childTodo parentTodo : Todo}, todoOf child = some childTodo →
        todoOf parent = some parentTodo → childTodo.parent = some parentTodo.id → child.parent = some parent.id := by
      intro child parent childTodo parentTodo hchild hparent hup
      rw [(todoOf_fields hchild).2.1, (todoOf_fields hparent).1] at hup
      obtain ⟨id, hid, htext⟩ := Option.map_eq_some_iff.mp hup
      rw [hid, Uuid.text_inj.mp htext]
    intro hancestor
    induction hancestor generalizing row with
    | single hnests => exact ⟨row.id, hstep hotherTodo htodo hnests.2.2, .refl⟩
    | tail _ hnests ih =>
      obtain ⟨child, hchild, hchildRoot, hchildTodo⟩ := mem_todosOf.mp hnests.1
      obtain ⟨parent, hparent, hway⟩ := ih hchild hchildRoot hchildTodo hnests.1
      exact ⟨parent, hparent, hway.tail ⟨child, hchild, hchildRoot, rfl, hstep hchildTodo htodo hnests.2.2⟩⟩

/-- The open rows of a root store its open todos. -/
theorem mem_stillOpen {other : Row} {otherTodo : Todo} (hotherTodo : todoOf other = some otherTodo) :
    other ∈ stillOpen table root ↔ other ∈ table.rows ∧ other.root = root ∧ otherTodo.status.kind.isOpen = true := by
  rw [stillOpen, List.mem_filter, Bool.and_eq_true, beq_iff_eq, (todoOf_fields hotherTodo).2.2.2,
    contains_kindName_open]

/-- A row a prune deletes stores a done todo that it names and that no open one needs. -/
theorem doomed_iff {ids : List String} {row : Row} {todo : Todo} (hrow : row ∈ table.rows) (hroot : row.root = root)
    (htodo : todoOf row = some todo) :
    doomed table root ids row = true ↔ row.id ∈ todoUuids ids ∧ todo.status.kind.isOpen = false ∧
      ¬ NeededByOpen (todosOf table root) todo := by
  have hneeded : NeededByOpen (todosOf table root) todo ↔ row.id ∈ ancestors table root ∨
      ∃ other ∈ stillOpen table root, row.id ∈ other.blockedBy := by
    have hblocked : ∀ {other : Row} {otherTodo : Todo}, todoOf other = some otherTodo →
        (todo.id ∈ otherTodo.blockedBy ↔ row.id ∈ other.blockedBy) := by
      intro other otherTodo hotherTodo
      rw [(todoOf_fields hotherTodo).2.2.1, (todoOf_fields htodo).1]
      exact List.mem_map_of_injective fun _ _ htext => Uuid.text_inj.mp htext
    rw [mem_ancestors]
    constructor
    · intro hneeded
      obtain ⟨otherTodo, hmember, hopen, hneeds⟩ := hneeded
      obtain ⟨other, hother, hotherRoot, hotherTodo⟩ := mem_todosOf.mp hmember
      have hstill := (mem_stillOpen hotherTodo).mpr ⟨hother, hotherRoot, hopen⟩
      cases hneeds with
      | inl hwaits => exact Or.inr ⟨other, hstill, (hblocked hotherTodo).mp hwaits⟩
      | inr hnests => exact Or.inl ⟨other, hstill,
        (follows_iff hrow hroot htodo hother hotherRoot hotherTodo).mpr hnests⟩
    · intro hneeds
      cases hneeds with
      | inl hmet =>
        obtain ⟨other, hstill, hway⟩ := hmet
        obtain ⟨otherTodo, hotherTodo⟩ := exists_todoOf other
        obtain ⟨hother, hotherRoot, hopen⟩ := (mem_stillOpen hotherTodo).mp hstill
        exact ⟨otherTodo, mem_todosOf.mpr ⟨other, hother, hotherRoot, hotherTodo⟩, hopen,
          Or.inr ((follows_iff hrow hroot htodo hother hotherRoot hotherTodo).mp hway)⟩
      | inr hwaits =>
        obtain ⟨other, hstill, hwaits⟩ := hwaits
        obtain ⟨otherTodo, hotherTodo⟩ := exists_todoOf other
        obtain ⟨hother, hotherRoot, hopen⟩ := (mem_stillOpen hotherTodo).mp hstill
        exact ⟨otherTodo, mem_todosOf.mpr ⟨other, hother, hotherRoot, hotherTodo⟩, hopen,
          Or.inl ((hblocked hotherTodo).mpr hwaits)⟩
  rw [hneeded, doomed, (todoOf_fields htodo).2.2.2, contains_kindName_done, hroot]
  simp only [beq_self_eq_true, Bool.true_and, Bool.and_eq_true, List.contains_iff_mem, Bool.not_eq_true',
    ← Bool.not_eq_true, List.any_eq_true, not_or, and_assoc]

end Ancestors

section Agreement

variable (table : Table) (now : Instant) (root : String)

/-- The rows a prune deletes store the removable todos, where the ids are spelled as in the store. -/
theorem doomed_iff_removable (ids : List String) {row : Row} (hrow : row ∈ table.rows) (hroot : row.root = root) :
    doomed table root ids row = true ↔
      row.id.text ∈ removable (todosOf table root) (ids.map Uuid.spelling) := by
  obtain ⟨todo, htodo⟩ := exists_todoOf row
  have hnamed : row.id.text ∈ ids.map Uuid.spelling ↔ row.id ∈ todoUuids ids := by
    simp only [List.mem_map, Uuid.spelling_eq_text, todoUuids, List.mem_filterMap]
  rw [doomed_iff hrow hroot htodo, mem_removable (distinct_todosOf table root), hnamed]
  refine and_congr_right fun _ => ?_
  constructor
  · intro hdone
    exact ⟨todo, mem_todosOf.mpr ⟨row, hrow, hroot, htodo⟩, (todoOf_fields htodo).1, hdone⟩
  · intro hdone
    obtain ⟨other, hother, hid, hdone⟩ := hdone
    obtain ⟨otherRow, hotherRow, _, hotherTodo⟩ := mem_todosOf.mp hother
    have hsame : otherRow.id = row.id := Uuid.text_inj.mp ((todoOf_fields hotherTodo).1.symm.trans hid)
    obtain rfl : otherRow = row := List.inj_on_of_nodup_map table.keyed hotherRow hrow hsame
    obtain rfl := Option.some.inj (htodo.symm.trans hotherTodo)
    exact hdone

/-- `todo_prune` returns the removable ids. -/
theorem mem_pruned {ids : List String} {id : String} :
    id ∈ (todoPrune table now root ids).2.map (fun change => change.todo.text) ↔
      id ∈ removable (todosOf table root) (ids.map Uuid.spelling) := by
  rw [todoPrune, List.map_map]
  constructor
  · intro hid
    obtain ⟨row, hrow, rfl⟩ := List.mem_map.mp hid
    obtain ⟨hrow, hdoomed⟩ := List.mem_filter.mp hrow
    have hroot : row.root = root := by
      simp only [doomed, Bool.and_eq_true, beq_iff_eq] at hdoomed
      exact hdoomed.1.1.1.1
    exact (doomed_iff_removable table root ids hrow hroot).mp hdoomed
  · intro hid
    obtain ⟨_, todo, htodo, rfl, _⟩ := (mem_removable (distinct_todosOf table root)).mp hid
    obtain ⟨row, hrow, hroot, htodo⟩ := mem_todosOf.mp htodo
    rw [(todoOf_fields htodo).1] at hid ⊢
    exact List.mem_map.mpr ⟨row,
      List.mem_filter.mpr ⟨hrow, (doomed_iff_removable table root ids hrow hroot).mpr hid⟩, rfl⟩

/-- `todo_prune` leaves the todos that are not removable. -/
theorem todosOf_prune (ids : List String) : todosOf (todoPrune table now root ids).1 root =
    (todosOf table root).filter fun todo => todo.id ∉ removable (todosOf table root) (ids.map Uuid.spelling) := by
  rw [todosOf_eq, todosOf_eq, List.filter_filterMap]
  change (table.rows.filter _).filterMap _ = _
  rw [List.filterMap_filter]
  refine List.filterMap_congr fun row hrow => ?_
  obtain ⟨todo, htodo⟩ := exists_todoOf row
  by_cases hroot : row.root = root
  · have hdoomed := doomed_iff_removable table root ids hrow hroot
    rw [← (todoOf_fields htodo).1] at hdoomed
    rw [if_pos (beq_iff_eq.mpr hroot), htodo, Option.filter_some, ← todosOf_eq]
    simp only [Bool.not_eq_true', ← Bool.not_eq_true, hdoomed, decide_eq_true_eq]
  · simp [hroot]

/-- The database's functions decide as the rules of the library do on the todos its rows store. -/
structure Agrees : Prop where
  covers : ∀ actor other : Holder, todoCovers (some actor.text) (some other.text) = some (actor.covers other)
  transition : ∀ (status : String) (holder : Option String), Checked status holder →
    ∃ current, statusOf status holder = some current ∧ ∀ (target : StatusKind) (actor : Holder),
      todoTransition (some status) holder (some (kindName target)) (some actor.text) =
        answer (transition current target actor)
  takeOver : ∀ (id : String) (row : Row), todoLock table root id = .ok row →
    ∃ current, statusOf row.status row.holder = some current ∧ ∀ source actor : Holder,
      todoTakeOver table now root id source.text actor.text =
        decided table now row (takeOver current source actor)
  releaseAll : ∀ (holder : Holder) (doc : Doc), rows doc.todos = todosOf table root →
    ∃ after, doc.apply now (.releaseAll holder) =
        .ok (after, (todoReleaseAll table now root holder.text).2.filterMap changeOf) ∧
      rows after.todos = todosOf (todoReleaseAll table now root holder.text).1 root
  prune : ∀ ids : List String,
    (∀ id, id ∈ (todoPrune table now root ids).2.map (fun change => change.todo.text) ↔
      id ∈ removable (todosOf table root) (ids.map Uuid.spelling)) ∧
    todosOf (todoPrune table now root ids).1 root =
      (todosOf table root).filter fun todo => todo.id ∉ removable (todosOf table root) (ids.map Uuid.spelling)

/-- The Postgres store decides as the built-in one, on any rows. -/
theorem postgres_agrees : Agrees table now root := by
  refine ⟨fun actor other => todoCovers_some actor.text other.text, fun status holder hchecked => ?_,
    fun id row hlock => ?_, fun holder doc hdoc => ?_,
    fun ids => ⟨fun id => mem_pruned table now root, todosOf_prune table now root ids⟩⟩
  · obtain ⟨current, hcurrent⟩ := exists_statusOf hchecked
    exact ⟨current, hcurrent, todoTransition_eq hcurrent⟩
  · obtain ⟨current, hcurrent⟩ := exists_statusOf row.checked
    exact ⟨current, hcurrent, todoTakeOver_eq hlock hcurrent now⟩
  · cases hhuman : holder.isHuman with
    | true =>
      refine ⟨doc, ?_, ?_⟩
      · rw [releaseAll_human table now root holder hhuman, Doc.apply, if_pos hhuman]
        rfl
      · rw [releaseAll_human table now root holder hhuman]
        exact hdoc
    | false =>
      refine ⟨{ doc with todos := doc.todos.map fun _ todo => giveBack now holder todo }, ?_, ?_⟩
      · rw [changes_releaseAll table now root holder hhuman, ← hdoc, Doc.apply, hhuman]
        rfl
      · rw [todosOf_releaseAll table now root holder hhuman, ← hdoc, rows, rows, Std.ExtTreeMap.toList_map,
          List.map_map, List.map_map]
        rfl

end Agreement

section Example

/-- The id of the sample row. -/
def doneId : Uuid where
  text := "0a0b0c0d-0000-4000-8000-00000000000f"
  spelled := by decide +kernel
  lowered := by decide +kernel

/-- A done todo, as its only root stores it. -/
def doneRow : Row where
  id := doneId
  root := "r"
  node := none
  description := "done"
  status := "completed"
  holder := none
  parent := none
  order := 1024
  entry := ""
  modified := ""
  blockedBy := []
  ticketTracker := none
  ticketKey := none
  ticketStatus := none
  checked := by decide

/-- A table of the one done todo. -/
def doneTable : Table := ⟨[doneRow], List.nodup_singleton _⟩

/-- A prune of an id in upper case deletes the row, where the library compares ids as texts and
removes nothing. -/
theorem prune_reads_upper_case :
    doneId.text ∈ (todoPrune doneTable ⟨0, ""⟩ "r" ["0A0B0C0D-0000-4000-8000-00000000000F"]).2.map
        (fun change => change.todo.text) ∧
      doneId.text ∉ removable (todosOf doneTable "r") ["0A0B0C0D-0000-4000-8000-00000000000F"] := by
  have hspelling : Uuid.spelling "0A0B0C0D-0000-4000-8000-00000000000F" = doneId.text := by decide +kernel
  obtain ⟨todo, htodo⟩ := exists_todoOf doneRow
  have hfields := todoOf_fields htodo
  have htodos : todosOf doneTable "r" = [todo] := by
    rw [todosOf_eq]
    change List.filterMap _ [doneRow] = _
    rw [List.filterMap_cons_some (by rw [if_pos (by rfl)]; exact htodo), List.filterMap_nil]
  have hdone : todo.status.kind.isOpen = false := by
    cases htodo
    rfl
  constructor
  · rw [mem_pruned, List.map_singleton, hspelling, mem_removable (distinct_todosOf doneTable "r"), htodos]
    refine ⟨List.mem_cons_self, todo, List.mem_cons_self, hfields.1, hdone, fun hneeded => ?_⟩
    obtain ⟨other, hother, hopen, _⟩ := hneeded
    rw [List.mem_singleton.mp hother, hdone] at hopen
    cases hopen
  · intro hremovable
    have hasked := ((mem_removable (distinct_todosOf doneTable "r")).mp hremovable).1
    exact absurd (List.mem_singleton.mp hasked) (by decide +kernel)

end Example

end Devkit.Todos.Postgres
