import Devkit.Todos.BlockCycle
import Devkit.Todos.Push

/-!
# Promoting a todo to a ticket

Every blocking edge of the promoted todo moves to the ticket's todo, one store write at a time, each edge behind
a check of its own that it closes no cycle. An edge between two tickets goes to their tracker first where the
repository pushes blocking links. What the tracker and the person at the terminal answer comes with the promote.
-/

namespace Devkit.Todos

/-- What a promote finds outside the store: which todos push, and the answers to its link pushes. -/
structure LinkPush where
  pushes : Todo → Bool
  relations : Except String Unit
  readPair : String → String → Except String (Bool × Option String)
  settle : String → String → Except String Bool
  setBlocked : String → String → Except String Unit
  takeTrackerValue : Doc → Todo → Except String Doc

/-- The repository a ticket key names, its ASCII letters in lower case. -/
def repoOf (key : String) : Option (List Char) :=
  match key.toList.reverse.dropWhile (· != '#') with
  | _ :: before => some (before.reverse.map Char.toLower)
  | [] => none

/-- A link between the tickets can live on one tracker. -/
def TicketRef.sameTracker (ticket other : TicketRef) : Bool :=
  ticket.tracker == other.tracker && repoOf ticket.key == repoOf other.key

/-- What adding or removing a blocking link does. -/
def blockVerdict (currentHas : Bool) (otherRelation : Option String) (add : Bool) : Verdict :=
  if currentHas = add then .already
  else
    match otherRelation with
    | some other => .conflict other (if add then noStatus else "blocks")
    | none => .write

namespace LinkPush

variable (text : Unicode) (push : LinkPush) (now : Instant)

/-- Whether an added link is written on the tracker, or at all: none where a person declines. -/
def settleBlock (key blockedBy : String) : Verdict → Except String (Option Bool)
  | .already => .ok (some false)
  | .noMove => .ok (some false)
  | .write => .ok (some true)
  | .conflict current baseline => do
    let settled ← push.settle key ("tracker " ++ text.debug current ++ ", last synced " ++ text.debug baseline ++
      ", local " ++ text.debug (blockedBy ++ " blocks " ++ key))
    .ok (if settled then some true else none)

/-- Add the tracker link of a blocking edge, then the store's edge. -/
def pushBlock (doc : Doc) (blocked blocker : Todo) (key blockedBy : String) : Except String Doc := do
  let context := "ticket " ++ key ++ ": its link to " ++ blockedBy ++ " is unchanged"
  withContext context push.relations
  let read ← withContext context (push.readPair key blockedBy)
  let write ← push.settleBlock text key blockedBy (blockVerdict read.1 read.2 true)
  match write with
  | none => push.takeTrackerValue doc blocked
  | some write =>
    if write then withContext context (push.setBlocked key blockedBy) else .ok ()
    let (doc, _) ← storeOutcome (doc.apply now (.block blocked.id [blocker.id]))
    .ok doc

variable (list : Doc → List Todo)

/-- Record that one todo blocks another, unless it does or the edge would close a cycle: the document where
something is written. -/
def block (doc : Doc) (blocked blocker : Todo) : Except String (Option Doc) :=
  if blocker.id ∈ blocked.blockedBy then .ok none
  else
    match (Graph.mk (list doc)).cycleThrough blocked.id [blocker.id] with
    | some _ => .ok none
    | none =>
      match blocked.ticket, blocker.ticket with
      | some ticket, some other =>
        if ticket.sameTracker other && push.pushes blocked then
          (push.pushBlock text now doc blocked blocker ticket.key other.key).map some
        else (storeOutcome (doc.apply now (.block blocked.id [blocker.id]))).map fun result => some result.1
      | _, _ => (storeOutcome (doc.apply now (.block blocked.id [blocker.id]))).map fun result => some result.1

/-- Block a dependent by the new todo, unless it is the new todo. -/
def blockDependent (doc : Doc) (dependent new : Todo) : Except String (Option Doc) :=
  if dependent.id ≠ new.id then push.block text now list doc dependent new else .ok none

/-- Block each dependent of the old todo by the new one instead: the documents its writes leave, in order. -/
def moveDependents (old new : Todo) : List Todo → Doc → Except String (List Doc)
  | [], _ => .ok []
  | dependent :: rest, doc => do
    let blocked ← push.blockDependent text now list doc dependent new
    let (freed, _) ← storeOutcome ((blocked.getD doc).apply now (.unblock dependent.id [old.id]))
    let later ← moveDependents old new rest freed
    .ok (blocked.toList ++ freed :: later)

/-- Block the new todo by each blocker of the old one: the documents its writes leave, in order. -/
def moveBlockers (new : Todo) : List String → Doc → Except String (List Doc)
  | [], _ => .ok []
  | id :: rest, doc =>
    match (doc.get id).filter fun blocker => blocker.id != new.id with
    | none => moveBlockers new rest doc
    | some blocker =>
      match doc.get new.id with
      | none => .error ("no todo " ++ new.id)
      | some fresh => do
        let blocked ← push.block text now list doc fresh blocker
        let later ← moveBlockers new rest (blocked.getD doc)
        .ok (blocked.toList ++ later)

/-- Where a sequence of writes ends. -/
def lastDoc (doc : Doc) (writes : List Doc) : Doc := writes.getLast?.getD doc

/-- Move every blocking edge of the old todo to the new one: the documents the writes leave, in order. -/
def rewire (doc : Doc) (old new : Todo) : Except String (List Doc) := do
  let dependents := (list doc).filter fun todo => todo.blockedBy.contains old.id
  let moved ← push.moveDependents text now list old new dependents doc
  let taken ← push.moveBlockers text now list new old.blockedBy (lastDoc doc moved)
  .ok (moved ++ taken)

end LinkPush

end Devkit.Todos
