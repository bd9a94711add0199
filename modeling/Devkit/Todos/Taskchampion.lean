import Devkit.Library.Doubles
import Devkit.Todos.Builtin
import Devkit.Todos.Needed
import Devkit.Todos.Uuid
import Mathlib.Algebra.Group.Int.Defs
import Mathlib.Algebra.Group.Nat.Defs

/-!
# The taskchampion store

Todos kept as tasks of a replica, each a map of string properties under a uuid. Every edit finds its
todo by id, reads what it needs back from the properties, and writes some of them again. The replica
commits the writes of one call together; the sync of replicas is not part of a call.

Parsing uuids, making name-based ones and formatting times are the libraries', which are parameters.
-/

namespace Devkit.Todos

open Devkit.Library
open Std

/-- Uuids in the order of their texts. -/
instance : Ord Uuid := ⟨compareOn Uuid.text⟩

instance : TransOrd Uuid := inferInstanceAs (TransCmp (compareOn Uuid.text))

instance : LawfulEqOrd Uuid where
  eq_of_compare h := Uuid.text_inj.mp (LawfulEqOrd.eq_of_compare h)

/-- The libraries of the store: the uuid a text is read as, the name-based uuid of a name, and the
RFC 3339 text of a time in seconds. What a uuid prints as is read as it. -/
structure TaskLibraries where
  tryParse : String → Option Uuid
  nameBased : String → Uuid
  rfc3339 : ℤ → Option String
  tryParse_text : ∀ uuid, tryParse uuid.text = some uuid

/-- The stored properties of a task. -/
abbrev Properties := ExtTreeMap String String

/-- The tasks of a replica. -/
structure Replica where
  tasks : ExtTreeMap Uuid Properties

/-- The integer a decimal text spells. -/
def parseInteger (text : String) : Option ℤ :=
  match text.toList with
  | '-' :: digits => if digits.head?.any Char.isDigit then (parseKey (String.ofList digits)).map fun n : ℕ => -(n : ℤ)
      else none
  | _ => (parseKey text).map Int.ofNat

/-- The machine integer a double is rounded and cast to: the least or the greatest where it is past them, and zero
where it is no number. -/
def castOrder : Double → Int64
  | .finite value => Int64.ofIntClamp (roundHalfAway value)
  | .infinite negative => if negative then Int64.minValue else Int64.maxValue
  | .nan => 0

/-- The order a task's text is read as. -/
def readOrder (text : String) : Option Int64 := (parseDouble text).map castOrder

/-- Orders another program wrote. -/
example : ["1024.5", "9.3e18", "-inf", "NaN", "1e"].map readOrder =
    [some 1025, some Int64.maxValue, some Int64.minValue, some 0, none] := by decide +kernel

/-- The text of an order. -/
def orderText (order : Int64) : String := order.toInt.repr

/-- The project a node's todos are filed under. -/
def projectOf (node : Option String) : String := node.getD globalNode

/-- The node of a project; an empty one names none. -/
def nodeOf (project : String) : Option (Option String) :=
  if project = "" then none else some (if project = globalNode then none else some project)

/-- The status a task's properties stand for. A task started with no holder is held by a person. -/
def readTaskStatus (status : String) (start holder : Option String) : Option Status :=
  let holder := (holder.filter (· ≠ "")).map Holder.mk
  if status = "pending" then some (if start.isSome then .inProgress (holder.getD .human) else .pending)
  else if status = "completed" then some (.completed holder)
  else if status = "deleted" then some (.cancelled holder)
  else none

/-- The ticket a task's properties name. -/
def readTicket (tracker key status : Option String) : Option TicketRef :=
  match tracker, key with
  | some tracker, some key => some ⟨tracker, key, status⟩
  | _, _ => none

/-- The rest of a dependency's property name. -/
def stripDependency (property : String) : Option String :=
  match property.toList with
  | 'd' :: 'e' :: 'p' :: '_' :: rest => some (String.ofList rest)
  | _ => none

/-- The property of a dependency. -/
def dependency (uuid : Uuid) : String := "dep_" ++ uuid.text

/-- At least eight characters, and only hexadecimal digits and dashes. -/
def isUuidPrefix (id : String) : Bool :=
  8 ≤ id.length && id.length ≤ 36 && id.toList.all fun c => c == '-' || isHexDigit c

/-- The id a ticket's todo takes. -/
def ticketTodoUuid (lib : TaskLibraries) (root tracker key : String) : Uuid :=
  lib.nameBased ("\x00".intercalate [root, tracker, key])

section Reading

variable (lib : TaskLibraries)

/-- The dependencies of a task, sorted. -/
def readBlockers (task : Properties) : List String :=
  dedup ((((task.keys.filterMap stripDependency).filterMap lib.tryParse).map Uuid.text).insertionSort (· ≤ ·))

/-- The time a property holds, in seconds of a machine integer. -/
def readStamp (task : Properties) (property : String) : Option String :=
  ((task[property]?.bind parseInteger).filter fun seconds =>
    Int64.minValue.toInt ≤ seconds && seconds ≤ Int64.maxValue.toInt).bind lib.rfc3339

/-- The todo a task represents: none for no project or another status. -/
def todoFrom (uuid : Uuid) (task : Properties) : Option Todo := do
  let project ← task["project"]?.bind nodeOf
  let status ← readTaskStatus (task["status"]?.getD "") task["start"]? task["holder"]?
  some
    { id := uuid.text, description := task["description"]?.getD "", status, parent := task["subof"]?,
      order := task["order"]?.bind readOrder, project, entry := readStamp lib task "entry",
      modified := readStamp lib task "modified", blockedBy := readBlockers lib task,
      ticket := readTicket task["ticket_tracker"]? task["ticket_key"]? task["ticket_status"]? }

end Reading

/-- The task statuses the store writes. -/
inductive TaskStatus
  | pending
  | completed
  | deleted
deriving DecidableEq

/-- The value the task stores. -/
def TaskStatus.stored : TaskStatus → String
  | .pending => "pending"
  | .completed => "completed"
  | .deleted => "deleted"

/-- The seconds of an instant, as a task stores a time. -/
def Instant.seconds (now : Instant) : String := (now.nanos / 1000000000).repr

/-- A property set to a value, or removed. -/
def update (task : Properties) (property : String) : Option String → Properties
  | some value => task.insert property value
  | none => task.erase property

/-- One task's writes: the first also stamps the time. -/
structure Writer where
  task : Properties
  stamped : Bool

namespace Writer

variable (now : Instant)

/-- Writes to a task, none made yet. -/
def new (task : Properties) : Writer := ⟨task, false⟩

/-- Set or remove a property. -/
def set (w : Writer) (property : String) (value : Option String) : Writer :=
  ⟨update (if w.stamped then w.task else update w.task "modified" (some now.seconds)) property value, true⟩

/-- Set the status with the end time in step. -/
def status (w : Writer) (status : TaskStatus) : Writer :=
  let closed := status ≠ .pending
  let ended := if closed ≠ w.task.contains "end" then w.set now "end" (if closed then some now.seconds else none) else w
  ended.set now "status" (some status.stored)

/-- Start the task, keeping a start time it has. -/
def start (w : Writer) : Writer :=
  if w.task.contains "start" then w else w.set now "start" (some now.seconds)

/-- Stop the task. -/
def stop (w : Writer) : Writer := if w.task.contains "start" then w.set now "start" none else w

/-- Leave the task pending, with no start time and no holder. -/
def release (w : Writer) : Writer := ((w.status now .pending).stop now).set now "holder" none

/-- End the task, recording who ended it when known. -/
def close (w : Writer) (status : TaskStatus) (holder : Option Holder) : Writer :=
  let ended := (w.stop now).status now status
  match holder with
  | some holder => ended.set now "holder" (some holder.text)
  | none => ended

/-- Write a status. -/
def writeStatus (w : Writer) : Status → Writer
  | .pending => w.release now
  | .inProgress holder => ((w.status now .pending).start now).set now "holder" (some holder.text)
  | .completed holder => w.close now .completed holder
  | .cancelled holder => w.close now .deleted holder

end Writer

/-- Why the store refused a call. -/
inductive ReplicaError
  | store (failure : StoreError)
  | ambiguous (id : String) (matched : List String)
  | uuid (text : String)
deriving DecidableEq

/-- The text of a refusal; the uuid library words its own. -/
def ReplicaError.message (uuidError : String → String) : ReplicaError → String
  | .store failure => failure.message
  | .ambiguous id matched => "todo id " ++ id ++ " is ambiguous: " ++ ", ".intercalate matched
  | .uuid text => uuidError text

namespace Replica

variable (lib : TaskLibraries) (now : Instant) (r : Replica)

/-- The todos of the replica. -/
def todos : List Todo := r.tasks.toList.filterMap fun row => todoFrom lib row.1 row.2

/-- The one todo whose uuid starts with the text. -/
def byPrefix (id : String) (todos : List Todo) : Except ReplicaError (Option Todo) :=
  if !isUuidPrefix id then .ok none
  else
    let matched := todos.filter fun todo => id.toList.isPrefixOf todo.id.toList
    if 1 < matched.length then .error (.ambiguous id ((matched.map Todo.id).insertionSort (· ≤ ·)))
    else .ok matched.getLast?

/-- The todo an id names, by its uuid or a prefix of one. -/
def find (id : String) : Except ReplicaError (Option Todo) :=
  if !isUuidPrefix id then .ok none
  else
    match lib.tryParse id with
    | some uuid => .ok (r.tasks[uuid]?.bind (todoFrom lib uuid))
    | none =>
      let matched := r.tasks.toList.filter fun row => id.toList.isPrefixOf row.1.text.toList
      byPrefix id (matched.filterMap fun row => todoFrom lib row.1 row.2)

/-- The todo an id names, which has to be there. -/
def resolve (id : String) : Except ReplicaError Todo := do
  match ← r.find lib id with
  | some todo => .ok todo
  | none => .error (.store (.noTodo id))

/-- The full id of a parent. -/
def resolveParent : Option String → Except ReplicaError (Option String)
  | some id => do
    let todo ← r.resolve lib id
    .ok (some todo.id)
  | none => .ok none

/-- The order that places a todo after the last of its siblings. The addition wraps. -/
def afterLast (project parent skip : Option String) : Int64 :=
  let orders := ((r.todos lib).filter fun todo =>
    todo.node == project.getD globalNode && todo.parent == parent && some todo.id != skip).filterMap Todo.order
  orders.max?.getD 0 + orderGap

/-- The task behind a todo, with its uuid; a missing one is named by the id that was asked for. -/
def taskOf (todo : Todo) (asked : String) : Except ReplicaError (Uuid × Properties) :=
  match lib.tryParse todo.id with
  | none => .error (.uuid todo.id)
  | some uuid =>
    match r.tasks[uuid]? with
    | some task => .ok (uuid, task)
    | none => .error (.store (.noTodo asked))

/-- Change the task behind a todo. -/
def change (todo : Todo) (write : Writer → Writer) : Except ReplicaError Replica := do
  let (uuid, task) ← r.taskOf lib todo todo.id
  .ok ⟨r.tasks.insert uuid (write (Writer.new task)).task⟩

/-- Add or remove the dependencies that the texts are read as. -/
def setDependencies (id : String) (blockers : List String) (add : Bool) : Except ReplicaError Replica := do
  let todo ← r.resolve lib id
  let uuids := (blockers.filterMap lib.tryParse).filter fun uuid => todo.blockedBy.contains uuid.text != add
  if uuids.isEmpty then .ok r
  else
    r.change lib todo fun task =>
      uuids.foldl (fun task uuid => task.set now (dependency uuid) (if add then some "" else none)) task

/-- Move the task behind a todo to its next status, when there is one. -/
def moveTo (todo : Todo) : Option Status → Except ReplicaError (Replica × List StatusChange)
  | none => .ok (r, [])
  | some next => do
    let r ← r.change lib todo fun task => task.writeStatus now next
    .ok (r, [StatusChange.of now todo (some next)])

/-- The properties of a new task. -/
def newTask (todo : NewTodo) (parent : Option String) (order : Int64) : Properties :=
  let task := ((((((Writer.new ∅).set now "description" (some (oneLine todo.description))).status now .pending).set
    now "entry" (some now.seconds)).set now "project" (some (projectOf todo.project))).set
    now "order" (some (orderText order))).set now "subof" parent
  match todo.ticket with
  | some ticket =>
    (((task.set now "ticket_tracker" (some ticket.tracker)).set now "ticket_key" (some ticket.key)).set
      now "ticket_status" ticket.syncedStatus).task
  | none => task.task

/-- Add a todo and return its id: a ticket's has the ticket's uuid, another a new one. -/
def add (fresh : Uuid) (todo : NewTodo) : Except ReplicaError (Replica × String) := do
  let parent ← r.resolveParent lib todo.parent
  let order := todo.order.getD (r.afterLast lib todo.project parent none)
  match todo.ticket.map fun ticket => ticketTodoUuid lib "" ticket.tracker ticket.key with
  | some uuid =>
    if r.tasks.contains uuid then .ok (r, uuid.text)
    else .ok (⟨r.tasks.insert uuid (newTask now todo parent order)⟩, uuid.text)
  | none => .ok (⟨r.tasks.insert fresh (newTask now todo parent order)⟩, fresh.text)

/-- Change the status of the todo an id names by a rule; a refusal is the claim in the way. -/
def changeStatus (id : String) (rule : Status → Except Claimed (Option Status)) :
    Except ReplicaError (Replica × List StatusChange) := do
  let todo ← r.resolve lib id
  match rule todo.status with
  | .ok next => r.moveTo lib now todo next
  | .error claim => .error (.store (.claimed claim))

/-- The todo of an open task that a holder's release gives back. -/
def releasedTodo (holder : Holder) (uuid : Uuid) (task : Properties) : Option Todo :=
  if task["status"]? = some "pending" then (todoFrom lib uuid task).filter (released holder) else none

/-- Release every open task a holder covers. -/
def releaseAll (holder : Holder) : Replica × List StatusChange :=
  if holder.isHuman then (r, [])
  else
    (⟨r.tasks.map fun uuid task =>
      if (releasedTodo lib holder uuid task).isSome then ((Writer.new task).release now).task else task⟩,
    (r.tasks.toList.filterMap fun row => releasedTodo lib holder row.1 row.2).map fun todo =>
      StatusChange.of now todo (some .pending))

/-- One removal of a prune, which reads the replica before the prune. -/
def pruneOne (state : Replica × List StatusChange) (id : String) : Replica × List StatusChange :=
  match lib.tryParse id with
  | none => state
  | some uuid =>
    match r.tasks[uuid]?.bind (todoFrom lib uuid) with
    | none => state
    | some todo => (⟨state.1.tasks.erase uuid⟩, state.2 ++ [StatusChange.of now todo none])

/-- Apply one edit: the replica it leaves and the status changes it made. -/
def apply (edit : Edit) : Except ReplicaError (Replica × List StatusChange) :=
  match edit with
  | .setStatus id target actor => r.changeStatus lib now id fun status => transition status target actor
  | .takeOver id source actor => r.changeStatus lib now id fun status => takeOver status source actor
  | .describe id description => do
    let todo ← r.resolve lib id
    let r ← r.change lib todo fun task => task.set now "description" (some (oneLine description))
    .ok (r, [])
  | .move id parent order => do
    let todo ← r.resolve lib id
    let parent ← r.resolveParent lib parent
    let order := order.getD (r.afterLast lib todo.project parent (some todo.id))
    let r ← r.change lib todo fun task =>
      (task.set now "subof" parent).set now "order" (some (orderText order))
    .ok (r, [])
  | .reorder id order => do
    let todo ← r.resolve lib id
    let r ← r.change lib todo fun task => task.set now "order" (some (orderText order))
    .ok (r, [])
  | .relocate id project => do
    let todo ← r.resolve lib id
    let r ← r.change lib todo fun task => task.set now "project" (some (projectOf project))
    .ok (r, [])
  | .releaseAll holder => .ok (r.releaseAll lib now holder)
  | .block id blockers => do
    let r ← r.setDependencies lib now id blockers true
    .ok (r, [])
  | .unblock id blockers => do
    let r ← r.setDependencies lib now id blockers false
    .ok (r, [])
  | .recordSync id syncedStatus => do
    let todo ← r.resolve lib id
    if todo.ticket.isNone then .error (.store (.noTicket id))
    else
      let r ← r.change lib todo fun task => task.set now "ticket_status" (some syncedStatus)
      .ok (r, [])
  | .purge id => do
    let todo ← r.resolve lib id
    let (uuid, _) ← r.taskOf lib todo id
    .ok (⟨r.tasks.erase uuid⟩, [StatusChange.of now todo none])
  | .prune ids => .ok ((removable (r.todos lib) ids).foldl (r.pruneOne lib now) (r, []))

end Replica

end Devkit.Todos
