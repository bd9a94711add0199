import Devkit.Library.RecursiveQuery
import Devkit.Todos.Prune
import Devkit.Todos.Uuid

/-!
# The Postgres store's functions

Rows of the `devkit.todos` table and the functions that decide on them, each run in one session.
Columns that may be null are options, conditions on them may be unknown, and a row always meets the
table's checks. Readings of the database's clock within one call are taken as one.
-/

namespace Devkit.Todos.Postgres

open Devkit.Library
open Truth

/-- The CHECK constraints of a row: one of four statuses, and a holder while in progress. -/
def Checked (status : String) (holder : Option String) : Prop :=
  status ∈ ["pending", "in_progress", "completed", "cancelled"] ∧
    (status ≠ "in_progress" ∨ holder.isSome = true)

instance (status : String) (holder : Option String) : Decidable (Checked status holder) :=
  inferInstanceAs (Decidable (_ ∧ _))

/-- A row of the table of todos. -/
structure Row where
  id : Uuid
  root : String
  node : Option String
  description : String
  status : String
  holder : Option String
  parent : Option Uuid
  order : Int64
  entry : String
  modified : String
  blockedBy : List Uuid
  ticketTracker : Option String
  ticketKey : Option String
  ticketStatus : Option String
  checked : Checked status holder
deriving DecidableEq

/-- The table of todos; its ids are a primary key. -/
structure Table where
  rows : List Row
  keyed : (rows.map Row.id).Nodup

/-- One status change a function returns, as columns. -/
structure Change where
  todo : Uuid
  node : Option String
  fromStatus : String
  fromHolder : Option String
  toStatus : Option String
  toHolder : Option String
  time : Instant
deriving DecidableEq

/-- Why a call failed: an exception a function raised, or one of the database's own. -/
inductive Failure
  | raised (code message : String) (detail : Option String)
  | nullDetail
  | check
deriving DecidableEq

/-- The code of a refusal because another holder has the todo in progress. -/
def claimedCode : String := "DK001"

/-- The code of a refusal of an id that names no todo, or more than one. -/
def unknownTodo : String := "DK002"

/-- The least length of the start of an id that names a todo. -/
def shortId : ℕ := 8

/-- `starts_with`. -/
def startsWith (text start : Option String) : Truth :=
  match text, start with
  | some text, some start => some (start.toList.isPrefixOf text.toList)
  | _, _ => none

/-- `todo_covers`: whether `actor` may act on what `other` holds. -/
def todoCovers (actor other : Option String) : Truth :=
  ((among actor ["human", "tracker"]).or (equal actor other)).or (startsWith other (actor.map (· ++ "/")))

/-- `todo_transition`: the status and holder a todo moves to; a null status when nothing changes. -/
def todoTransition (status holder target actor : Option String) :
    Except Failure (Option String × Option String) :=
  let moved (claimant : Option String) : Option String × Option String :=
    (target,
      if target = some "pending" then none
      else if target = some "in_progress" then actor
      else claimant.or actor)
  if holds (equal status (some "in_progress")) then
    if holds (((equal target (some "in_progress")).and (equal holder (some "tracker"))).and
        (equal actor (some "tracker")).not) then
      .ok (target, actor)
    else if holds ((equal target (some "in_progress")).and (todoCovers actor holder)) then .ok (none, none)
    else if holds (((equal target (some "in_progress")).and (equal holder (some "human")).not).and
        (todoCovers holder actor)) then
      .ok (target, actor)
    else if holds (todoCovers actor holder).not then
      match holder with
      | some holder => .error (.raised claimedCode ("todo is in progress by " ++ holder) (some holder))
      | none => .error .nullDetail
    else .ok (moved holder)
  else if holds (equal status target) then .ok (none, none)
  else .ok (moved none)

/-- `todo_find`: the one todo under a root whose id starts with a text. -/
def todoFind (table : Table) (root start : String) : Except Failure Uuid :=
  let found :=
    if shortId ≤ start.length ∧ start.length ≤ 36 ∧ start.toList.all fun c => isHexDigit c || c == '-' then
      ((table.rows.filter fun row => row.root == root &&
        holds (startsWith (some row.id.text) (some (lower start)))).map Row.id).insertionSort (·.text ≤ ·.text)
    else []
  match found with
  | [] => .error (.raised unknownTodo ("no todo " ++ start) none)
  | [id] => .ok id
  | ids => .error (.raised unknownTodo
      ("todo id " ++ lower start ++ " is ambiguous: " ++ ", ".intercalate (ids.map Uuid.text)) none)

/-- `todo_lock`: the row of the todo an id names. -/
def todoLock (table : Table) (root id : String) : Except Failure Row := do
  let target ← todoFind table root id
  match table.rows.find? fun row => row.id == target with
  | some locked => .ok locked
  | none => .error (.raised unknownTodo ("no todo " ++ id) none)

/-- The row with another status and holder, unless a check refuses it. -/
def Row.withStatus (row : Row) (now : Instant) (status : String) (holder : Option String) :
    Except Failure Row :=
  if checked : Checked status holder then .ok { row with status, holder, modified := now.text, checked }
  else .error .check

/-- The table with the rows of an update written. -/
def Table.update (table : Table) (change : Row → Row) (hid : ∀ row, (change row).id = row.id) : Table where
  rows := table.rows.map change
  keyed := by
    rw [List.map_map, show Row.id ∘ change = Row.id from funext hid]
    exact table.keyed

/-- The table with the row of one id written. -/
def Table.write (table : Table) (row : Row) : Table :=
  table.update (fun other => if other.id = row.id then row else other) fun other => by
    split
    · rename_i hid
      exact hid.symm
    · rfl

/-- `todo_set_status`: move a todo as `todo_transition` rules. -/
def todoSetStatus (table : Table) (now : Instant) (root id target actor : String) :
    Except Failure (Table × List Change) := do
  let locked ← todoLock table root id
  let (nextStatus, nextHolder) ← todoTransition (some locked.status) locked.holder (some target) (some actor)
  match nextStatus with
  | none => .ok (table, [])
  | some status =>
    let next ← locked.withStatus now status nextHolder
    .ok (table.write next,
      [⟨locked.id, locked.node, locked.status, locked.holder, some status, nextHolder, now⟩])

/-- `todo_take_over`: move a todo to in progress while the silent holder still has it. -/
def todoTakeOver (table : Table) (now : Instant) (root id source actor : String) :
    Except Failure (Table × List Change) := do
  let locked ← todoLock table root id
  if holds ((((equal (some locked.status) (some "in_progress")).not.or
      (equal locked.holder (some source)).not).or (equal (some source) (some "human"))).or
      (todoCovers (some actor) (some source))) then
    todoSetStatus table now root id "in_progress" actor
  else
    let next ← locked.withStatus now locked.status (some actor)
    .ok (table.write next,
      [⟨locked.id, locked.node, locked.status, locked.holder, some locked.status, some actor, now⟩])

/-- The row is one a holder's release gives back. -/
def held (root holder : String) (row : Row) : Bool :=
  row.root == root && holds ((((equal (some row.status) (some "in_progress")).and
    (equal (some holder) (some "human")).not)).and (todoCovers (some holder) row.holder))

/-- A row a release gives back. -/
def Row.pending (row : Row) (now : Instant) : Row :=
  { row with status := "pending", holder := none, modified := now.text, checked := by decide }

/-- `todo_release_all`: every todo in progress by a holder that `holder` covers goes back to pending. -/
def todoReleaseAll (table : Table) (now : Instant) (root holder : String) : Table × List Change :=
  (table.update (fun row => if held root holder row then row.pending now else row) fun row => by
      split <;> rfl,
    (table.rows.filter (held root holder)).map fun row =>
      ⟨row.id, row.node, "in_progress", row.holder, some "pending", none, now⟩)

/-- `todo_uuids`: the uuids among some texts. -/
def todoUuids (texts : List String) : List Uuid := texts.filterMap Uuid.parse

/-- The parents of the rows of a root that some rows name. -/
def parentsOf (table : Table) (root : String) (working : List Uuid) : List Uuid :=
  (table.rows.filter fun row => working.contains row.id && row.root == root).filterMap Row.parent

/-- Parents are parents of some row. -/
theorem parentsOf_subset (table : Table) (root : String) (working : List Uuid) :
    parentsOf table root working ⊆ table.rows.filterMap Row.parent :=
  (List.filter_sublist.filterMap Row.parent).subset

/-- The rows of a root whose todos are open. -/
def stillOpen (table : Table) (root : String) : List Row :=
  table.rows.filter fun row => row.root == root && ["pending", "in_progress"].contains row.status

/-- The recursive part of a prune: the parents of the open rows, and their parents in turn. -/
def ancestors (table : Table) (root : String) : List Uuid :=
  recursiveQuery (parentsOf table root) (table.rows.filterMap Row.parent) (parentsOf_subset table root)
    ((stillOpen table root).filterMap Row.parent)

/-- The row is one a prune of some ids deletes. -/
def doomed (table : Table) (root : String) (ids : List String) (row : Row) : Bool :=
  row.root == root && (todoUuids ids).contains row.id && ["completed", "cancelled"].contains row.status &&
    !(ancestors table root).contains row.id &&
    !(stillOpen table root).any fun other => other.blockedBy.contains row.id

/-- `todo_prune`: remove each done todo of some ids that no open todo waits on or nests under. -/
def todoPrune (table : Table) (now : Instant) (root : String) (ids : List String) : Table × List Change :=
  (⟨table.rows.filter fun row => !doomed table root ids row,
      table.keyed.sublist (List.filter_sublist.map Row.id)⟩,
    (table.rows.filter (doomed table root ids)).map fun row =>
      ⟨row.id, row.node, row.status, row.holder, none, none, now⟩)

section Client

/-- The name of a status kind. -/
def kindName : StatusKind → String
  | .pending => "pending"
  | .inProgress => "in_progress"
  | .completed => "completed"
  | .cancelled => "cancelled"

/-- The status a row's columns store. -/
def statusOf (status : String) (holder : Option String) : Option Status :=
  match status, holder.map Holder.mk with
  | "pending", _ => some .pending
  | "in_progress", some holder => some (.inProgress holder)
  | "completed", holder => some (.completed holder)
  | "cancelled", holder => some (.cancelled holder)
  | _, _ => none

/-- The todo a row stores. -/
def todoOf (row : Row) : Option Todo :=
  (statusOf row.status row.holder).map fun status =>
    { id := row.id.text, description := row.description, status, parent := row.parent.map Uuid.text,
      order := some row.order, project := row.node, entry := some row.entry, modified := some row.modified,
      blockedBy := row.blockedBy.map Uuid.text,
      ticket := row.ticketTracker.bind fun tracker => row.ticketKey.map fun key =>
        ⟨tracker, key, row.ticketStatus⟩ }

/-- The todos stored under a root. -/
def todosOf (table : Table) (root : String) : List Todo :=
  (table.rows.filter fun row => row.root == root).filterMap todoOf

/-- The status change the columns of a returned row tell. -/
def changeOf (change : Change) : Option StatusChange := do
  let target ← match change.toStatus with
    | some status => (statusOf status change.toHolder).map some
    | none => some none
  let source ← statusOf change.fromStatus change.fromHolder
  some ⟨change.todo.text, change.node.getD globalNode, source, target, change.time⟩

/-- The refusal a failed call is read as, when another holder has the todo. -/
def Failure.claimed : Failure → Option Claimed
  | .raised code _ detail => if code = claimedCode then some ⟨⟨detail.getD ""⟩⟩ else none
  | .nullDetail => none
  | .check => none

end Client

end Devkit.Todos.Postgres
