import Devkit.Todos.Ticket

/-!
# The plan of a ticket sync

What a sync changes on one node, from the todos already there and the tickets a tracker
returned. Todos are named by ticket key, since a ticket added in the same sync has no id until
its add lands. The loop over the tickets collects, for each, what it adds, its edits, and the
changes of its parent and blockers, which follow all other edits.
-/

namespace Devkit.Todos

open Devkit.Library
open Std

/-- One change to a ticket's todo. -/
inductive Change
  | setStatus (kind : StatusKind)
  | recordSync (name : String)
  | describe (text : String)
  | move (parent : Option String)
  | block (keys : List String)
  | unblock (keys : List String)
deriving DecidableEq

/-- A change to the todo of a ticket. -/
structure PlannedEdit where
  key : String
  change : Change
deriving DecidableEq

/-- Everything one sync changes. -/
structure SyncPlan where
  adds : List NewTodo
  edits : List PlannedEdit
deriving DecidableEq

/-- What the loop collects for one ticket. -/
structure TicketStep where
  adds : List NewTodo
  edits : List PlannedEdit
  relations : List PlannedEdit

/-- Why there is no plan: the faults, or a status without a target after validation. -/
inductive PlanError
  | faults (text : String)
  | panicked

/-- The key of the tracker's ticket a todo stands for. -/
def Todo.ticketKey (tracker : String) (todo : Todo) : Option String :=
  (todo.ticket.filter fun ticket => ticket.tracker == tracker).map TicketRef.key

/-- The ticket todos of a listing by ticket key. -/
def ticketTodos (tracker : String) (existing : List Todo) : ExtTreeMap String Todo :=
  ExtTreeMap.ofList (existing.filterMap fun todo => (todo.ticketKey tracker).map fun key => (key, todo))

/-- The ticket keys of the ticket todos by id. -/
def keyOfId (todos : ExtTreeMap String Todo) : ExtTreeMap String String :=
  ExtTreeMap.ofList (todos.toList.map fun row => (row.2.id, row.1))

/-- The texts sorted, each once. -/
def sortedSet (texts : List String) : List String := dedup (texts.insertionSort (· ≤ ·))

/-- The ticket's parent, when a todo stands or will stand for it. -/
def wantedParent (synced : List String) (ticket : SyncedTicket) : Option String :=
  ticket.parent.filter fun parent => synced.contains parent && parent != ticket.key

/-- The ticket's blockers for which a todo stands or will stand. -/
def wantedBlockers (synced : List String) (ticket : SyncedTicket) : List String :=
  ticket.blockedBy.filter fun blocker => synced.contains blocker && blocker != ticket.key

/-- The todo to add for a ticket. -/
def ticketAdd (tracker node : String) (ticket : SyncedTicket) : NewTodo where
  project := some node
  description := todoText tracker ticket.key ticket.title
  parent := none
  order := none
  ticket := some ⟨tracker, ticket.key, some (statusName ticket.status)⟩

/-- What a ticket without a todo on the node needs. -/
def planNew (tracker node : String) (synced : List String) (ticket : SyncedTicket) (kind : StatusKind) :
    TicketStep :=
  let edit := PlannedEdit.mk ticket.key
  { adds := [ticketAdd tracker node ticket]
    edits := if kind ≠ .pending then [edit (.setStatus kind)] else []
    relations :=
      (match wantedParent synced ticket with
        | some parent => [edit (.move (some parent))]
        | none => []) ++
      (if wantedBlockers synced ticket ≠ [] then [edit (.block (wantedBlockers synced ticket))] else []) }

/-- The todo moves: its ticket parent is not the wanted one, or it is at the top and one is wanted. -/
def moves (keys : ExtTreeMap String String) (todo : Todo) (wanted : Option String) : Bool :=
  match todo.parent.map fun id => keys[id]?, wanted with
  | some none, _ => false
  | some (some have_), some want => have_ != want
  | some (some _), none => true
  | none, want => want.isSome

/-- The ticket keys of a todo's blockers. -/
def heldBlockers (keys : ExtTreeMap String String) (todo : Todo) : List String :=
  sortedSet (todo.blockedBy.filterMap fun id => keys[id]?)

/-- The status a ticket's todo records for its last sync. -/
def Todo.lastSynced (todo : Todo) : Option String := todo.ticket.bind TicketRef.syncedStatus

/-- What a ticket with a todo on the node needs. -/
def planExisting (tracker : String) (keys : ExtTreeMap String String) (synced : List String)
    (ticket : SyncedTicket) (kind : StatusKind) (todo : Todo) : TicketStep :=
  let edit := PlannedEdit.mk ticket.key
  let name := statusName ticket.status
  let text := todoText tracker ticket.key ticket.title
  let held := heldBlockers keys todo
  let wanted := sortedSet (wantedBlockers synced ticket)
  let block := wanted.filter fun key => !held.contains key
  let unblock := held.filter fun key => !wanted.contains key
  { adds := []
    edits :=
      (if todo.description ≠ text then [edit (.describe text)] else []) ++
      (if todo.lastSynced ≠ some name then [edit (.setStatus kind), edit (.recordSync name)] else [])
    relations :=
      (if moves keys todo (wantedParent synced ticket) then [edit (.move (wantedParent synced ticket))]
        else []) ++
      (if block ≠ [] then [edit (.block block)] else []) ++
      (if unblock ≠ [] then [edit (.unblock unblock)] else []) }

/-- What one ticket needs. -/
def planTicket (tracker node : String) (todos : ExtTreeMap String Todo) (synced : List String)
    (ticket : SyncedTicket) (kind : StatusKind) : TicketStep :=
  match todos[ticket.key]? with
  | none => planNew tracker node synced ticket kind
  | some todo => planExisting tracker (keyOfId todos) synced ticket kind todo

/-- The plan of the steps the loop collected. -/
def SyncPlan.ofSteps (steps : List TicketStep) : SyncPlan where
  adds := steps.flatMap TicketStep.adds
  edits := steps.flatMap TicketStep.edits ++ steps.flatMap TicketStep.relations

/-- The keys for which a todo stands or will stand. -/
def syncedKeys (todos : ExtTreeMap String Todo) (fetched : List SyncedTicket) : List String :=
  todos.keys ++ fetched.map SyncedTicket.key

/-- What a sync changes on a node. -/
def plan (text : Unicode) (tracker node : String) (existing : List Todo) (fetched : List SyncedTicket)
    (knownNames : List String) (config : TicketSyncConfig) : Except PlanError SyncPlan :=
  match validate text fetched knownNames config with
  | .error faults => .error (.faults faults)
  | .ok () =>
    let todos := ticketTodos tracker existing
    let steps := fetched.mapM fun ticket =>
      (target ticket.status config).map (planTicket tracker node todos (syncedKeys todos fetched) ticket)
    match steps with
    | some steps => .ok (SyncPlan.ofSteps steps)
    | none => .error .panicked

end Devkit.Todos
