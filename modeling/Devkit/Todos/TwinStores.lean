import Devkit.Todos.StoreCalls
import Devkit.Todos.TaskWrites

/-!
# One script on two stores

The same calls run on the built-in store and on the taskchampion store. A call names todos by the ids
the built-in store gave out; for the other store these are put in correspondence with the ids it
returned, and any other text stays as it is. The stores agree when each call is accepted by both or
refused by both and their lists correspond todo by todo.
-/

namespace Devkit.Todos

open Devkit.Library
open Std

/-- The edit with its ids translated. -/
def Edit.mapIds (f : String → String) : Edit → Edit
  | .setStatus id target actor => .setStatus (f id) target actor
  | .describe id description => .describe (f id) description
  | .move id parent order => .move (f id) (parent.map f) order
  | .reorder id order => .reorder (f id) order
  | .relocate id project => .relocate (f id) project
  | .takeOver id source actor => .takeOver (f id) source actor
  | .releaseAll holder => .releaseAll holder
  | .purge id => .purge (f id)
  | .prune ids => .prune (ids.map f)
  | .block id blockers => .block (f id) (blockers.map f)
  | .unblock id blockers => .unblock (f id) (blockers.map f)
  | .recordSync id syncedStatus => .recordSync (f id) syncedStatus

/-- The call with its ids translated. -/
def StoreCall.mapIds (f : String → String) : StoreCall → StoreCall
  | .add now todo => .add now { todo with parent := todo.parent.map f }
  | .edit now change => .edit now (change.mapIds f)

/-- What a call makes of the document, and the id an add returns. -/
def Doc.answer (doc : Doc) : StoreCall → Except StoreError (Doc × Option String)
  | .add now todo => (doc.add now todo).map fun made => (made.1, some made.2)
  | .edit now edit => (doc.apply now edit).map fun written => (written.1, none)

/-- What a call makes of the replica, and the id an add returns; the new uuid comes with it. -/
def Replica.answer (lib : TaskLibraries) (r : Replica) (fresh : Uuid) :
    StoreCall → Except ReplicaError (Replica × Option String)
  | .add now todo => (r.add lib now fresh todo).map fun made => (made.1, some made.2)
  | .edit now edit => (r.apply lib now edit).map fun written => (written.1, none)

/-- A call, and the new uuid for the todo it may add. -/
structure TwinCall where
  call : StoreCall
  fresh : Uuid

/-- The two stores, and the ids they returned for the same adds. -/
structure Twins where
  doc : Doc
  replica : Replica
  made : ExtTreeMap String String

section Names

variable (made : ExtTreeMap String String)

/-- An id of the built-in store as the other names it; another text as it is. -/
def translate (id : String) : String := made[id]?.getD id

/-- The text is a uuid as it prints, returned by no add. -/
def Unreturned (text : String) : Prop := ∃ uuid : Uuid, text = uuid.text ∧ ∀ id : String, made[id]? ≠ some uuid.text

/-- A todo and its twin: the same but for ids, which correspond, and times. -/
structure Twin (todo twin : Todo) : Prop where
  id : made[todo.id]? = some twin.id
  description : twin.description = todo.description
  status : twin.status = todo.status
  parent : twin.parent = todo.parent.map (translate made)
  order : twin.order = todo.order
  node : twin.node = todo.node
  blockedBy : ∀ blocker, blocker ∈ twin.blockedBy ↔ ∃ named ∈ todo.blockedBy, translate made named = blocker
  ticket : twin.ticket = todo.ticket

end Names

namespace Twins

variable (lib : TaskLibraries) (s : Twins)

/-- Two new stores. -/
def start : Twins := ⟨Doc.empty, ⟨∅⟩, ∅⟩

/-- The built-in store's answer. -/
def answer (c : TwinCall) : Except StoreError (Doc × Option String) := s.doc.answer c.call

/-- The taskchampion store's answer to the same call. -/
def twinAnswer (c : TwinCall) : Except ReplicaError (Replica × Option String) :=
  s.replica.answer lib c.fresh (c.call.mapIds (translate s.made))

/-- One call of both stores; a refused one changes nothing. -/
def step (c : TwinCall) : Twins where
  doc := s.doc.withDoc (s.answer c)
  replica :=
    match s.twinAnswer lib c with
    | .ok (r, _) => r
    | .error _ => s.replica
  made :=
    match s.answer c, s.twinAnswer lib c with
    | .ok (_, some id), .ok (_, some twin) => s.made.insert id twin
    | _, _ => s.made

/-- Both stores accept the call, or both refuse it. -/
def SameAnswer (c : TwinCall) : Prop := (s.answer c).isOk = (s.twinAnswer lib c).isOk

/-- The lists of the stores correspond todo by todo. -/
structure Corresponds : Prop where
  twin : ∀ todo ∈ rows s.doc.todos, ∃ twin ∈ s.replica.todos lib, Twin s.made todo twin
  todo : ∀ twin ∈ s.replica.todos lib, ∃ todo ∈ rows s.doc.todos, Twin s.made todo twin
  one : ∀ todo ∈ rows s.doc.todos, ∀ other ∈ rows s.doc.todos, ∀ twin, Twin s.made todo twin → Twin s.made other twin →
    todo = other

/-- The text names no todo of either store. -/
def Unknown (id : String) : Prop :=
  s.doc.get id = none ∧ ∀ todo, s.replica.find lib id ≠ .ok (some todo)

/-- The text was returned by an add, or names no todo of either store. -/
def Meant (id : String) : Prop := id ∈ s.made ∨ s.Unknown lib id

/-- The order is read back from a double as it is. -/
def Exact (order : Int64) : Prop := readOrder (orderText order) = some order

/-- A todo is placed by an order that is read back, its own or the one after its siblings; all todos of
the node then name the node alike. -/
def Placed (project parent : Option String) (order : Option Int64) (skip : Option String) : Prop :=
  match order with
  | some order => Exact order
  | none => Exact (s.doc.afterLast project parent skip) ∧
      ∀ todo ∈ rows s.doc.todos, todo.node = projectOf project → todo.project = project

/-- The uuid the taskchampion store gives a new todo. -/
def uuidFor (fresh : Uuid) (todo : NewTodo) : Uuid :=
  (todo.ticket.map fun ticket => ticketTodoUuid lib "" ticket.tracker ticket.key).getD fresh

/-- No add returned the uuid and no todo waits on it. -/
def Unused (uuid : Uuid) : Prop :=
  (∀ id : String, s.made[id]? ≠ some uuid.text) ∧ ∀ todo ∈ rows s.doc.todos, uuid.text ∉ todo.blockedBy

/-- The stores take the add alike: a ticket that has a todo is added again under no unknown parent, and a
new todo gets a node, an order that is read back and a uuid not used before. -/
def RegularAdd (fresh : Uuid) (todo : NewTodo) : Prop :=
  (∀ parent ∈ todo.parent, s.Meant lib parent) ∧
    match todo.ticket.bind s.doc.ticketTodo with
    | some _ => ∀ parent ∈ todo.parent, (s.doc.get parent).isSome
    | none => projectOf todo.project ≠ "" ∧ s.Placed todo.project todo.parent todo.order none ∧
        s.Unused (uuidFor lib fresh todo)

/-- The stores take the edit alike: its ids are returned ones or name nothing, whoever acts has a name, orders
are read back, nodes are named, and blockers are returned ids or uuids as they print. -/
def RegularEdit : Edit → Prop
  | .setStatus id target actor => s.Meant lib id ∧ (actor.text = "" → target = .pending)
  | .takeOver id _ actor => s.Meant lib id ∧ actor.text ≠ ""
  | .describe id _ | .purge id | .recordSync id _ => s.Meant lib id
  | .move id parent order => s.Meant lib id ∧ (∀ under ∈ parent, s.Meant lib under) ∧
      ∀ todo, s.doc.get id = some todo → s.Placed todo.project parent order (some id)
  | .reorder id order => s.Meant lib id ∧ Exact order
  | .relocate id project => s.Meant lib id ∧ projectOf project ≠ ""
  | .releaseAll _ => True
  | .prune ids => ∀ id ∈ ids, id ∈ s.made ∨ ∀ uuid ∈ s.replica.tasks, id ≠ uuid.text
  | .block id blockers => s.Meant lib id ∧ ∀ blocker ∈ blockers, blocker ∈ s.made ∨ Unreturned s.made blocker
  | .unblock id blockers => s.Meant lib id ∧
      ∀ blocker ∈ blockers, blocker ∈ s.made ∨ Unreturned s.made blocker ∨ lib.tryParse blocker = none

/-- The stores take the call alike. -/
def Regular (c : TwinCall) : Prop :=
  match c.call with
  | .add _ todo => s.RegularAdd lib c.fresh todo
  | .edit _ edit => s.RegularEdit lib edit

end Twins

end Devkit.Todos
