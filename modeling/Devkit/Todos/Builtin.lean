import Devkit.Library.Runs
import Devkit.Todos.Prune

/-!
# The built-in store

One document of todos under numeric keys. Every call runs under the file lock on the whole
document, and a call that fails leaves the document as it was. Ids count up from one; the
bound of the machine word they are kept in is not modelled.
-/

namespace Devkit.Todos

open Devkit.Library
open Std

/-- The document: the next id to give out and the todos by key. -/
structure Doc where
  nextId : ℕ
  todos : ExtTreeMap ℕ Todo

/-- A number's text without its plus sign. -/
def withoutPlus : List Char → List Char
  | '+' :: rest => rest
  | chars => chars

/-- The number a decimal text spells, with an optional leading plus sign. -/
def parseKey (id : String) : Option ℕ :=
  let digits := withoutPlus id.toList
  if digits.isEmpty || !digits.all Char.isDigit then none else some (Nat.ofDigitChars 10 digits 0)

/-- The id text of a key. -/
def idOf (key : ℕ) : String := key.repr

/-- Sorting puts equal blockers next to each other; all but one of them go. -/
def dedup : List String → List String
  | a :: b :: rest => if a = b then dedup (b :: rest) else a :: dedup (b :: rest)
  | short => short

/-- Dropping equal neighbours keeps the members. -/
theorem mem_dedup {member : String} {texts : List String} : member ∈ dedup texts ↔ member ∈ texts := by
  induction texts using dedup.induct with
  | case1 a rest ih =>
    rw [dedup, if_pos rfl, ih]
    simp
  | case2 a b rest hne ih =>
    rw [dedup, if_neg hne]
    simp [ih]
  | case3 short hshort =>
    rw [dedup]
    exact hshort

/-- A todo a holder's release gives back. -/
def released (holder : Holder) (todo : Todo) : Bool :=
  match todo.status with
  | .inProgress claimant => holder.covers claimant
  | _ => false

/-- A todo after a holder's release. -/
def giveBack (now : Instant) (holder : Holder) (todo : Todo) : Todo :=
  if released holder todo then { todo with status := .pending, modified := some now.text } else todo

namespace Doc

/-- The todos on exactly one node, in key order. -/
def listExact (doc : Doc) (node : String) : List Todo := (rows doc.todos).filter fun todo => todo.node == node

/-- The todo an id names, if any. -/
def get (doc : Doc) (id : String) : Option Todo := (parseKey id).bind fun key => doc.todos[key]?

/-- The order that places a todo after the last of its siblings. The addition wraps. -/
def afterLast (doc : Doc) (project parent : Option String) (skip : Option String) : Int64 :=
  let orders := ((rows doc.todos).filter fun todo =>
    todo.project == project && todo.parent == parent && some todo.id != skip).filterMap Todo.order
  orders.max?.getD 0 + orderGap

/-- The todo an id names, with its key. -/
def todoMut (doc : Doc) (id : String) : Except StoreError (ℕ × Todo) :=
  match (parseKey id).bind fun key => (doc.todos[key]?).map fun todo => (key, todo) with
  | some found => .ok found
  | none => .error (.noTodo id)

/-- The document with one todo written back. -/
def put (doc : Doc) (key : ℕ) (todo : Todo) : Doc := { doc with todos := doc.todos.insert key todo }

/-- Move a todo to its next status, when there is one. -/
def moveTo (now : Instant) (doc : Doc) (key : ℕ) (todo : Todo) :
    Option Status → Doc × List StatusChange
  | none => (doc, [])
  | some next =>
    (doc.put key { todo with status := next, modified := some now.text },
      [StatusChange.of now todo (some next)])

/-- Change a todo's blockers, keeping them sorted with no duplicates. -/
def setBlockers (now : Instant) (doc : Doc) (id : String) (change : List String → List String) :
    Except StoreError Doc := do
  let (key, todo) ← doc.todoMut id
  let blockers := dedup ((change todo.blockedBy).insertionSort (· ≤ ·))
  let modified := if blockers ≠ todo.blockedBy then some now.text else todo.modified
  .ok (doc.put key { todo with blockedBy := blockers, modified })

/-- The todo of a ticket, if some todo stands for it. -/
def ticketTodo (doc : Doc) (ticket : TicketRef) : Option Todo :=
  (rows doc.todos).find? fun todo => todo.ticket.any fun other => other.sameTicket ticket

/-- Add a todo and return its id. A ticket that has a todo keeps it. -/
def add (now : Instant) (doc : Doc) (todo : NewTodo) : Except StoreError (Doc × String) := do
  match todo.ticket.bind doc.ticketTodo with
  | some existing => .ok (doc, existing.id)
  | none =>
    if let some parent := todo.parent then
      let _ ← doc.todoMut parent
    let order := todo.order.getD (doc.afterLast todo.project todo.parent none)
    let key := max doc.nextId 1
    let new : Todo :=
      { id := idOf key, description := oneLine todo.description, status := .pending,
        parent := todo.parent, order := some order, project := todo.project,
        entry := some now.text, modified := some now.text, blockedBy := [], ticket := todo.ticket }
    .ok (⟨key + 1, doc.todos.insert key new⟩, idOf key)

/-- Change the status of the todo an id names by a rule; a refusal is the claim in the way. -/
def changeStatus (now : Instant) (doc : Doc) (id : String)
    (rule : Status → Except Claimed (Option Status)) : Except StoreError (Doc × List StatusChange) :=
  match doc.todoMut id with
  | .error refusal => .error refusal
  | .ok (key, todo) =>
    match rule todo.status with
    | .ok next => .ok (doc.moveTo now key todo next)
    | .error claim => .error (.claimed claim)

/-- Apply one edit: the document it leaves and the status changes it made. -/
def apply (now : Instant) (doc : Doc) (edit : Edit) : Except StoreError (Doc × List StatusChange) :=
  match edit with
  | .setStatus id target actor => doc.changeStatus now id fun status => transition status target actor
  | .takeOver id source actor => doc.changeStatus now id fun status => takeOver status source actor
  | .describe id description => do
    let (key, todo) ← doc.todoMut id
    .ok (doc.put key { todo with description := oneLine description, modified := some now.text }, [])
  | .move id parent order => do
    if let some parent := parent then
      let _ ← doc.todoMut parent
    let (key, todo) ← doc.todoMut id
    let order := order.getD (doc.afterLast todo.project parent (some id))
    .ok (doc.put key { todo with parent, order := some order, modified := some now.text }, [])
  | .relocate id project => do
    let (key, todo) ← doc.todoMut id
    .ok (doc.put key { todo with project, modified := some now.text }, [])
  | .reorder id order => do
    let (key, todo) ← doc.todoMut id
    .ok (doc.put key { todo with order := some order, modified := some now.text }, [])
  | .releaseAll holder =>
    if holder.isHuman then .ok (doc, [])
    else
      .ok ({ doc with todos := doc.todos.map fun _ todo => giveBack now holder todo },
        ((rows doc.todos).filter (released holder)).map fun todo =>
          StatusChange.of now todo (some .pending))
  | .purge id => do
    let (key, todo) ← doc.todoMut id
    .ok ({ doc with todos := doc.todos.erase key }, [StatusChange.of now todo none])
  | .prune ids =>
    let keys := (removable (rows doc.todos) ids).filterMap parseKey
    .ok (keys.foldl (fun state key =>
      match state.1.todos[key]? with
      | some todo => ({ state.1 with todos := state.1.todos.erase key },
          state.2 ++ [StatusChange.of now todo none])
      | none => state) (doc, []))
  | .block id blockers => do
    let doc ← doc.setBlockers now id (· ++ blockers)
    .ok (doc, [])
  | .unblock id blockers => do
    let doc ← doc.setBlockers now id fun before => before.filter fun blocker => !blockers.contains blocker
    .ok (doc, [])
  | .recordSync id syncedStatus => do
    let (key, todo) ← doc.todoMut id
    match todo.ticket with
    | none => .error (.noTicket id)
    | some ticket =>
      .ok (doc.put key { todo with
        ticket := some { ticket with syncedStatus := some syncedStatus }, modified := some now.text }, [])

/-- The document after a call: a failed one is not written. -/
def withDoc {A : Type} (doc : Doc) (outcome : Except StoreError (Doc × A)) : Doc :=
  match outcome with
  | .ok (next, _) => next
  | .error _ => doc

/-- An id names the todo under the key it spells. -/
theorem todoMut_eq_ok {doc : Doc} {id : String} {key : ℕ} {todo : Todo} :
    doc.todoMut id = .ok (key, todo) ↔ parseKey id = some key ∧ doc.todos[key]? = some todo := by
  unfold todoMut
  constructor
  · intro h
    split at h
    · rename_i found hfound
      obtain rfl := Except.ok.inj h
      obtain ⟨key', hkey, hmap⟩ := Option.bind_eq_some_iff.mp hfound
      obtain ⟨todo', htodo, heq⟩ := Option.map_eq_some_iff.mp hmap
      cases heq
      exact ⟨hkey, htodo⟩
    · contradiction
  · rintro ⟨hkey, htodo⟩
    simp [hkey, htodo]

/-- Writing one todo back leaves the others. -/
theorem getElem?_put (doc : Doc) (key other : ℕ) (todo : Todo) :
    (doc.put key todo).todos[other]? = if key = other then some todo else doc.todos[other]? :=
  getElem?_insert_eq doc.todos key other todo

end Doc

end Devkit.Todos
