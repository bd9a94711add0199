import Devkit.Todos.Builtin
import Devkit.Todos.Postgres

/-!
# The Postgres store decides as the built-in one

What the database's functions answer on the columns of a row is what the rules of the library
answer on the status those columns store.
-/

namespace Devkit.Todos.Postgres

open Devkit.Common
open Devkit.Library
open Truth

/-- `todo_covers` is `covers`. -/
@[simp] theorem todoCovers_some (actor other : String) :
    todoCovers (some actor) (some other) = some ((Holder.mk actor).covers ⟨other⟩) := by
  have hstarts : (actor ++ "/").toList.isPrefixOf other.toList = continues actor other := by
    rw [Bool.eq_iff_iff, List.isPrefixOf_iff_prefix, continues_iff, String.toList_append]
    rfl
  have hnamed : decide (actor ∈ ["human", "tracker"]) = ((actor == "human") || (actor == "tracker")) := by
    rw [Bool.eq_iff_iff]
    simp
  rw [todoCovers, Option.map_some, startsWith, among_some, equal_some, hstarts, hnamed, or_some, or_some]
  rfl

/-- The columns a status is stored in. -/
def columnsOf : Status → String × Option String
  | .pending => ("pending", none)
  | .inProgress holder => ("in_progress", some holder.text)
  | .completed holder => ("completed", holder.map Holder.text)
  | .cancelled holder => ("cancelled", holder.map Holder.text)

/-- The columns of a status store it. -/
@[simp] theorem statusOf_columnsOf (status : Status) :
    statusOf (columnsOf status).1 (columnsOf status).2 = some status := by
  cases status with
  | pending => rfl
  | inProgress holder => rfl
  | completed holder => cases holder <;> rfl
  | cancelled holder => cases holder <;> rfl

/-- The columns of a status meet the checks. -/
theorem checked_columnsOf (status : Status) : Checked (columnsOf status).1 (columnsOf status).2 := by
  cases status with
  | inProgress holder => exact ⟨by simp [columnsOf], Or.inr rfl⟩
  | pending | completed | cancelled => exact ⟨by simp [columnsOf], Or.inl (by simp [columnsOf])⟩

/-- Columns that meet the checks store a status. -/
theorem exists_statusOf {status : String} {holder : Option String} (h : Checked status holder) :
    ∃ current, statusOf status holder = some current := by
  obtain ⟨hstatus, hholder⟩ := h
  simp only [List.mem_cons, List.not_mem_nil, or_false] at hstatus
  obtain rfl | rfl | rfl | rfl := hstatus
  · exact ⟨_, rfl⟩
  · obtain ⟨holder, rfl⟩ := Option.isSome_iff_exists.mp (hholder.resolve_left (by simp))
    exact ⟨_, rfl⟩
  · cases holder <;> exact ⟨_, rfl⟩
  · cases holder <;> exact ⟨_, rfl⟩

/-- What columns store: the status column names its kind, and while in progress the holder column
its holder. -/
theorem statusOf_eq_some {status : String} {holder : Option String} {current : Status}
    (h : statusOf status holder = some current) :
    status = kindName current.kind ∧ ∀ claimant, current = .inProgress claimant → holder = some claimant.text := by
  unfold statusOf at h
  split at h
  all_goals cases h
  · exact ⟨rfl, nofun⟩
  · rename_i hholder
    refine ⟨rfl, fun claimant hclaimant => ?_⟩
    cases hclaimant
    obtain ⟨text, htext, rfl⟩ := Option.map_eq_some_iff.mp hholder
    exact htext
  · exact ⟨rfl, nofun⟩
  · exact ⟨rfl, nofun⟩

/-- Different kinds have different names. -/
@[simp] theorem kindName_inj {kind other : StatusKind} : kindName kind = kindName other ↔ kind = other := by
  cases kind <;> cases other <;> decide

/-- The failure a refusal is raised as. -/
def raisedFor (claim : Claimed) : Failure :=
  .raised claimedCode ("todo is in progress by " ++ claim.holder.text) (some claim.holder.text)

/-- A raised refusal is read as the refusal. -/
@[simp] theorem claimed_raisedFor (claim : Claimed) : (raisedFor claim).claimed = some claim := rfl

/-- The answer of `todo_transition` that tells a decision. -/
def answer : Except Claimed (Option Status) → Except Failure (Option String × Option String)
  | .error claim => .error (raisedFor claim)
  | .ok none => .ok (none, none)
  | .ok (some next) => .ok (some (columnsOf next).1, (columnsOf next).2)

/-- A kind's name is compared as the kind is. -/
theorem kindName_beq (kind other : StatusKind) : (kindName kind == kindName other) = decide (kind = other) := by
  rw [Bool.eq_iff_iff, beq_iff_eq, decide_eq_true_eq, kindName_inj]

/-- The columns a change of status is written in. -/
theorem columnsOf_moved (target : StatusKind) (actor : Holder) (claimant : Option Holder) :
    (some (columnsOf (moved target actor claimant)).1, (columnsOf (moved target actor claimant)).2) =
      (some (kindName target),
        if some (kindName target) = some "pending" then none
        else if some (kindName target) = some "in_progress" then some actor.text
        else (claimant.map Holder.text).or (some actor.text)) := by
  cases target <;> cases claimant <;> rfl

/-- A start is answered in the columns of the started status. -/
theorem answer_started {target : StatusKind} (htarget : target = .inProgress) (actor : Holder) :
    answer (.ok (some (.inProgress actor))) = .ok (some (kindName target), some actor.text) := by
  rw [htarget]
  rfl

/-- `todo_transition` is `transition`. -/
theorem todoTransition_eq {status : String} {holder : Option String} {current : Status}
    (hcurrent : statusOf status holder = some current) (target : StatusKind) (actor : Holder) :
    todoTransition (some status) holder (some (kindName target)) (some actor.text) =
      answer (transition current target actor) := by
  obtain ⟨rfl, hholder⟩ := statusOf_eq_some hcurrent
  have hstarted : ∀ kind, (kindName kind == "in_progress") = decide (kind = .inProgress) :=
    fun kind => kindName_beq kind .inProgress
  unfold todoTransition transition
  simp only [equal_some, hstarted, kindName_beq, holds_some, not_some]
  cases current with
  | inProgress claimant =>
    rw [hholder claimant rfl]
    simp only [equal_some, todoCovers_some, holds_some, and_some, not_some, Status.kind, decide_true, if_true,
      Bool.and_eq_true, decide_eq_true_eq, and_assoc, apply_ite answer]
    refine ite_congr rfl (fun hstart => (answer_started hstart.1 actor).symm) fun _ => ?_
    refine ite_congr rfl (fun _ => rfl) fun _ => ?_
    refine ite_congr rfl (fun hstart => (answer_started hstart.1 actor).symm) fun _ => ?_
    refine ite_congr rfl (fun _ => rfl) fun _ => ?_
    exact congrArg Except.ok (columnsOf_moved target actor (some claimant)).symm
  | pending | completed | cancelled =>
    rw [if_neg fun hstart => StatusKind.noConfusion (of_decide_eq_true hstart)]
    simp only [decide_eq_true_eq, apply_ite answer]
    refine ite_congr rfl (fun _ => rfl) fun _ => ?_
    exact congrArg Except.ok (columnsOf_moved target actor none).symm

/-- The row with a status stored in its columns. -/
def Row.storing (row : Row) (now : Instant) (next : Status) : Row :=
  { row with status := (columnsOf next).1, holder := (columnsOf next).2, modified := now.text,
             checked := checked_columnsOf next }

/-- The change a row's function returns when its todo moves to a status. -/
def Row.change (row : Row) (now : Instant) (next : Status) : Change :=
  ⟨row.id, row.node, row.status, row.holder, some (columnsOf next).1, (columnsOf next).2, now⟩

/-- What a decision on a row's todo does to the table: a refusal is raised, no change writes nothing,
and a new status is written to the row and returned. -/
def decided (table : Table) (now : Instant) (row : Row) :
    Except Claimed (Option Status) → Except Failure (Table × List Change)
  | .error claim => .error (raisedFor claim)
  | .ok none => .ok (table, [])
  | .ok (some next) => .ok (table.write (row.storing now next), [row.change now next])

/-- The columns of a status pass the checks of its row. -/
theorem withStatus_columnsOf (row : Row) (now : Instant) (next : Status) :
    row.withStatus now (columnsOf next).1 (columnsOf next).2 = .ok (row.storing now next) :=
  dif_pos (checked_columnsOf next)

/-- A returned change is read as the change of the row's todo. -/
theorem changeOf_change {row : Row} {todo : Todo} (htodo : todoOf row = some todo) (now : Instant) (next : Status) :
    changeOf (row.change now next) = some (StatusChange.of now todo (some next)) := by
  obtain ⟨status, hstatus, rfl⟩ := Option.map_eq_some_iff.mp htodo
  simp only [changeOf, Row.change, statusOf_columnsOf, hstatus, Option.map_some]
  rfl

section Locked

variable {table : Table} {root id : String} {row : Row} (hlock : todoLock table root id = .ok row)
  {current : Status} (hcurrent : statusOf row.status row.holder = some current) (now : Instant)

include hlock hcurrent

/-- `todo_set_status` moves the todo an id names as `transition` rules. -/
theorem todoSetStatus_eq (target : StatusKind) (actor : Holder) :
    todoSetStatus table now root id (kindName target) actor.text =
      decided table now row (transition current target actor) := by
  have htransition := todoTransition_eq hcurrent target actor
  rw [todoSetStatus, hlock]
  change (todoTransition _ _ _ _ >>= _) = _
  rw [htransition]
  cases transition current target actor with
  | error claim => rfl
  | ok next =>
    cases next with
    | none => rfl
    | some next =>
      change (row.withStatus now (columnsOf next).1 (columnsOf next).2 >>= _) = _
      rw [withStatus_columnsOf]
      rfl

/-- `todo_take_over` moves the todo an id names as `take_over` rules. -/
theorem todoTakeOver_eq (source actor : Holder) :
    todoTakeOver table now root id source.text actor.text =
      decided table now row (takeOver current source actor) := by
  have hset := todoSetStatus_eq hlock hcurrent now .inProgress actor
  obtain ⟨hstatus, hholder⟩ := statusOf_eq_some hcurrent
  rw [todoTakeOver, hlock]
  change (if _ then _ else _) = _
  cases current with
  | inProgress claimant =>
    have hcond : holds ((((equal (some row.status) (some "in_progress")).not.or
        (equal row.holder (some source.text)).not).or (equal (some source.text) (some "human"))).or
        (todoCovers (some actor.text) (some source.text))) = true ↔
          ¬ (claimant = source ∧ !claimant.isHuman ∧ !actor.covers claimant) := by
      rw [hstatus, hholder claimant rfl]
      simp only [equal_some, not_some, or_some, holds_some, todoCovers_some]
      change (((!true || !(claimant.text == source.text)) || source.isHuman) || actor.covers source) = true ↔ _
      by_cases hsource : claimant = source
      · subst hsource
        cases claimant.isHuman <;> cases actor.covers claimant <;> simp
      · have htext : claimant.text ≠ source.text := fun htext => hsource (congrArg Holder.mk htext)
        simp [htext, hsource]
    rw [takeOver]
    by_cases htaken : claimant = source ∧ !claimant.isHuman ∧ !actor.covers claimant
    · have hnext : row.withStatus now row.status (some actor.text) = .ok (row.storing now (.inProgress actor)) := by
        rw [hstatus]
        exact withStatus_columnsOf row now (.inProgress actor)
      rw [if_pos htaken, if_neg (fun h => hcond.mp h htaken), hnext, decided, Row.change, hstatus]
      rfl
    · rw [if_neg htaken, if_pos (hcond.mpr htaken)]
      exact hset
  | pending | completed | cancelled =>
    rw [hstatus, if_pos (by rfl)]
    exact hset

end Locked

section Release

variable (table : Table) (now : Instant) (root : String) (holder : Holder)

/-- A row a release gives back stores a todo that the rule releases, and no other row of its root. -/
theorem held_iff {row : Row} {todo : Todo} (htodo : todoOf row = some todo) (hroot : row.root = root) :
    held root holder.text row = (!holder.isHuman && released holder todo) := by
  obtain ⟨status, hstatus, rfl⟩ := Option.map_eq_some_iff.mp htodo
  obtain ⟨hname, hholder⟩ := statusOf_eq_some hstatus
  rw [held, hroot, hname, beq_self_eq_true, Bool.true_and]
  cases status with
  | inProgress claimant =>
    rw [hholder claimant rfl]
    simp only [equal_some, not_some, and_some, holds_some, todoCovers_some]
    rfl
  | pending | completed | cancelled =>
    rw [released, Bool.and_false]
    rfl

/-- A row after a release stores its todo as the rule gives it back. -/
theorem todoOf_giveBack {row : Row} {todo : Todo} (htodo : todoOf row = some todo) (hroot : row.root = root)
    (hhuman : holder.isHuman = false) :
    todoOf (if held root holder.text row then row.pending now else row) = some (giveBack now holder todo) := by
  have hheld := held_iff root holder htodo hroot
  rw [hhuman, Bool.not_false, Bool.true_and] at hheld
  rw [hheld, giveBack]
  split
  · obtain ⟨status, hstatus, rfl⟩ := Option.map_eq_some_iff.mp htodo
    rfl
  · exact htodo

/-- A released todo is stored as in progress. -/
theorem status_of_released {row : Row} {todo : Todo} (htodo : todoOf row = some todo)
    (hreleased : released holder todo = true) : row.status = "in_progress" := by
  obtain ⟨status, hstatus, rfl⟩ := Option.map_eq_some_iff.mp htodo
  obtain ⟨hname, _⟩ := statusOf_eq_some hstatus
  cases status with
  | inProgress claimant => exact hname
  | pending | completed | cancelled => cases hreleased

/-- The rows of one root store the todos stored under it. -/
theorem todosOf_eq (table : Table) (root : String) :
    todosOf table root = table.rows.filterMap fun row => if row.root == root then todoOf row else none :=
  List.filterMap_filter

/-- A row stores a todo. -/
theorem exists_todoOf (row : Row) : ∃ todo, todoOf row = some todo := by
  obtain ⟨status, hstatus⟩ := exists_statusOf row.checked
  exact ⟨_, congrArg (Option.map _) hstatus⟩

/-- `todo_release_all` gives back the todos under its root that the rule releases. -/
theorem todosOf_releaseAll (hhuman : holder.isHuman = false) :
    todosOf (todoReleaseAll table now root holder.text).1 root = (todosOf table root).map (giveBack now holder) := by
  rw [todosOf_eq, todosOf_eq, List.map_filterMap]
  change (table.rows.map _).filterMap _ = _
  rw [List.filterMap_map]
  refine List.filterMap_congr fun row _ => ?_
  obtain ⟨todo, htodo⟩ := exists_todoOf row
  have hkept : (if held root holder.text row then row.pending now else row).root = row.root := by
    split <;> rfl
  rw [Function.comp_apply, hkept]
  split
  · rename_i hroot
    rw [todoOf_giveBack now root holder htodo (beq_iff_eq.mp hroot) hhuman, htodo]
    rfl
  · rfl

/-- `todo_release_all` returns the changes of the todos the rule releases. -/
theorem changes_releaseAll (hhuman : holder.isHuman = false) :
    (todoReleaseAll table now root holder.text).2.filterMap changeOf =
      ((todosOf table root).filter (released holder)).map fun todo => StatusChange.of now todo (some .pending) := by
  rw [todosOf_eq, List.filter_filterMap, List.map_filterMap]
  change ((table.rows.filter _).map _).filterMap _ = _
  rw [List.filterMap_map, List.filterMap_filter]
  refine List.filterMap_congr fun row _ => ?_
  obtain ⟨todo, htodo⟩ := exists_todoOf row
  by_cases hroot : row.root = root
  · have hheld := held_iff root holder htodo hroot
    rw [hhuman, Bool.not_false, Bool.true_and] at hheld
    rw [hheld, if_pos (beq_iff_eq.mpr hroot), htodo, Option.filter_some]
    split
    · rename_i hreleased
      have hchange := changeOf_change htodo now .pending
      rw [Row.change, status_of_released holder htodo hreleased] at hchange
      rw [Option.map_some]
      exact hchange
    · rfl
  · rw [held, beq_eq_false_iff_ne.mpr hroot]
    simp

/-- A person releases nothing. -/
theorem releaseAll_human (hhuman : holder.isHuman = true) :
    todoReleaseAll table now root holder.text = (table, []) := by
  have hnone : held root holder.text = fun _ => false := by
    funext row
    obtain ⟨todo, htodo⟩ := exists_todoOf row
    by_cases hroot : row.root = root
    · rw [held_iff root holder htodo hroot, hhuman]
      rfl
    · rw [held, beq_eq_false_iff_ne.mpr hroot]
      rfl
  have htable : (table.update (fun row => row) fun _ => rfl) = table := by
    cases table
    simp [Table.update]
  rw [todoReleaseAll]
  simp only [hnone, Bool.false_eq_true, if_false, List.filter_false, List.map_nil, htable]

end Release

end Devkit.Todos.Postgres
