import Devkit.Ticket.Status
import Devkit.Todos.Ticket

/-!
# Pushing a status to a ticket

A start, done or cancel of a ticket's todo reads the ticket first. A verdict compares what the tracker
has with the status the last sync recorded, and says what is written and recorded; only after the
tracker's writes does the todo change. What the tracker and the person at the terminal answer comes
with the push.
-/

namespace Devkit.Todos

open Devkit.Ticket (TrackerKind)

/-- The status change a todo verb makes. -/
inductive LocalStatus
  | start
  | done
  | cancel
deriving DecidableEq

/-- An event fired on an issue. -/
inductive IssueEvent
  | setup
  | start
  | prOpen
  | todoStart
  | todoDone
  | todoCancel
deriving DecidableEq

/-- The event's key in the configuration. -/
def IssueEvent.text : IssueEvent → String
  | .setup => "setup"
  | .start => "start"
  | .prOpen => "pr_open"
  | .todoStart => "todo_start"
  | .todoDone => "todo_done"
  | .todoCancel => "todo_cancel"

/-- A status move: from any of the statuses to one. -/
structure EventTransition where
  fromStatuses : List String
  toStatus : String
deriving DecidableEq

namespace LocalStatus

/-- The move a change fires. -/
def event : LocalStatus → IssueEvent
  | .start => .todoStart
  | .done => .todoDone
  | .cancel => .todoCancel

/-- The verb that makes the change. -/
def word : LocalStatus → String
  | .start => "start"
  | .done => "done"
  | .cancel => "cancel"

/-- How a change closes the ticket's issue: on GitHub, a done or cancel does. -/
def closes (change : LocalStatus) (tracker : TrackerKind) : Option CloseReason :=
  match change, tracker with
  | .done, .github => some .completed
  | .cancel, .github => some .notPlanned
  | _, _ => none

/-- The edits the verb makes of the todo an id names: a start may take a claim over. -/
def Makes (change : LocalStatus) (id : String) : Edit → Prop
  | .setStatus named kind _ =>
    named = id ∧ kind = match change with
      | .start => .inProgress
      | .done => .completed
      | .cancel => .cancelled
  | .takeOver named _ _ => named = id ∧ change = .start
  | _ => False

end LocalStatus

/-- What a push does. -/
inductive Verdict
  | write
  | already
  | noMove
  | conflict (current baseline : String)
deriving DecidableEq

/-- How a push writes the status the event moves to. -/
inductive FieldWrite
  | set
  | move
deriving DecidableEq

/-- The tracker writes of a push, and the status it then records as the last synced one. -/
structure StatusWrites where
  close : Option CloseReason
  field : Option FieldWrite
  record : Option String
deriving DecidableEq

/-- A push's verdict and what following it writes. -/
structure StatusVerdict where
  verdict : Verdict
  writes : StatusWrites
deriving DecidableEq

/-- How a missing baseline reads in a conflict. -/
def noStatus : String := "(none)"

/-- The entries of a move's sources that name a status. -/
def namedFrom (event : EventTransition) : List String := event.fromStatuses.filter fun name => trim name != "*"

section Verdicts

variable (text : Unicode) (change : LocalStatus) (baseline : Option String) (current : TicketStatus)
  (event : Option EventTransition) (tracker : TrackerKind)

/-- The ticket moved where the last sync did not leave it. -/
def conflictOf : Verdict := .conflict (statusName current) (baseline.getD noStatus)

/-- The verdict on a ticket that does not yet stand where the change would move it. -/
def moveVerdict : Verdict :=
  match event with
  | none => if (change.closes tracker).isSome then .write else .noMove
  | some event =>
    let named := namedFrom event
    let inFrom := named.any (sameStatus text · (statusName current))
    let unmoved := baseline.any (sameStatus text · (statusName current))
    match unmoved, inFrom with
    | _, true => .write
    | true, false => if named.isEmpty then .write else .noMove
    | false, false => conflictOf baseline current

/-- What a push does to a ticket: a closed issue is compared by its close reason where the change
closes one. -/
def verdictOf : Verdict :=
  match change.closes tracker, current with
  | some want, .closed reason => if reason = want then .already else conflictOf baseline current
  | none, .named name =>
    if event.any (sameStatus text name ·.toStatus) then .already
    else moveVerdict text change baseline current event tracker
  | _, _ => moveVerdict text change baseline current event tracker

/-- The status a closing change records. -/
def closedName : Option String := (change.closes tracker).map fun reason => statusName (.closed reason)

/-- What following a verdict writes. -/
def writesOf (verdict : Verdict) : StatusWrites :=
  match verdict with
  | .write | .conflict _ _ =>
    { close := change.closes tracker
      field := event.map fun _ => .set
      record := (closedName change tracker).or (event.map EventTransition.toStatus) }
  | .already =>
    { close := none
      field := if (change.closes tracker).isSome && event.isSome then some .move else none
      record := some (statusName current) }
  | .noMove => { close := change.closes tracker, field := none, record := closedName change tracker }

/-- The verdict on a push and its writes. -/
def statusVerdict : StatusVerdict :=
  let verdict := verdictOf text change baseline current event tracker
  ⟨verdict, writesOf change current event tracker verdict⟩

end Verdicts

/-- A computation whose error names what it was for. -/
def withContext {A : Type} (context : String) (outcome : Except String A) : Except String A :=
  outcome.mapError fun failure => context ++ ": " ++ failure

/-- Who runs the command. -/
inductive Caller
  | human
  | agent
deriving DecidableEq

/-- What a push finds outside the store: the resolved tracker and its answers, the configured moves,
and what the person at the terminal says. -/
structure PushWorld where
  kind : TrackerKind
  label : String
  events : IssueEvent → Option EventTransition
  writer : Except String Unit
  tickets : List String → Except String (List SyncedTicket)
  closeIssue : String → CloseReason → Except String Unit
  moveStatus : String → IssueEvent → EventTransition → Except String Unit
  isTerminal : Bool
  confirms : Bool
  takeTrackerValue : Doc → Except String Doc

/-- A status verb's push: the change, and how a conflict is settled. -/
structure StatusPush where
  change : LocalStatus
  overwrite : Bool
  caller : Caller
deriving DecidableEq

/-- The error text of a push that changes nothing. -/
def unchanged (key name : String) : String := "ticket " ++ key ++ ": todo " ++ name ++ " is unchanged"

namespace PushWorld

variable (text : Unicode) (w : PushWorld) (push : StatusPush) (key name : String)

/-- The ticket can be moved: a missing writer stops the push, unless the change closes the issue. -/
def canMove : Except String Bool :=
  match w.events push.change.event, w.writer with
  | none, _ => .ok false
  | some _, .ok _ => .ok true
  | some _, .error failure =>
    if (push.change.closes w.kind).isSome then .ok false
    else withContext (unchanged key name) (.error failure)

/-- The status the tracker has for the ticket. -/
def readStatus : Except String TicketStatus := do
  let tickets ← withContext (unchanged key name) (w.tickets [key])
  match tickets.find? fun ticket => ticket.key == key with
  | some ticket => .ok ticket.status
  | none =>
    withContext (unchanged key name) (.error (w.label ++ " has no ticket " ++ key ++ " it can read"))

/-- A conflict is written over: by the flag, or as a person at a terminal confirms. -/
def settle (values : String) : Except String Bool :=
  if push.overwrite then .ok true
  else if push.caller ≠ .human ∨ ¬ w.isTerminal then
    .error (key ++ " changed on the tracker since the last sync: " ++ values ++
      ". Ask the user; rerun with --overwrite-tracker to write over it, or run `devkit todo sync --ticket " ++
      key ++ "` to take the tracker's value.")
  else .ok w.confirms

/-- The push goes ahead: only a conflict has to be settled. -/
def goesAhead (verdict : Verdict) : Except String Bool :=
  match verdict with
  | .conflict current baseline =>
    w.settle push key ("tracker " ++ text.debug current ++ ", last synced " ++ text.debug baseline ++
      ", local " ++ push.change.word)
  | _ => .ok true

/-- Close the issue, where the push does. -/
def closeTicket (close : Option CloseReason) : Except String Unit :=
  match close with
  | some reason => withContext (unchanged key name) (w.closeIssue key reason)
  | none => .ok ()

/-- The move of a field write: a set is from any status. -/
def moveOf (event : EventTransition) : FieldWrite → EventTransition
  | .set => ⟨["*"], event.toStatus⟩
  | .move => event

/-- Why a move failed: after a close, the rerun that finishes it. -/
def moveContext (close : Option CloseReason) : String :=
  if close.isSome then
    "ticket " ++ key ++ " closed, but its [ticket.events." ++ push.change.event.text ++
      "] move failed; todo " ++ name ++ " is unchanged. Rerun `devkit todo " ++ push.change.word ++ " " ++ key ++
      "` to finish the move; it needs no --overwrite-tracker"
  else unchanged key name

/-- Write the event's status, where the push does. -/
def moveTicket (movable : Bool) (writes : StatusWrites) : Except String Unit :=
  match movable, w.events push.change.event, writes.field with
  | true, some event, some field =>
    withContext (moveContext push key name writes.close)
      (w.moveStatus key push.change.event (moveOf event field))
  | _, _, _ => .ok ()

end PushWorld

/-- The text of a store's error. -/
def storeOutcome {A : Type} (outcome : Except StoreError A) : Except String A :=
  outcome.mapError StoreError.message

/-- Apply the todo's own change, then record the status the ticket has now. -/
def applyPushed (now : Instant) (doc : Doc) (id : String) (edit : Edit) (record : Option String) :
    Except String Doc := do
  let (doc, _) ← storeOutcome (doc.apply now edit)
  match record with
  | some name =>
    let (doc, _) ← storeOutcome (doc.apply now (.recordSync id name))
    .ok doc
  | none => .ok doc

/-- Write a verdict to the tracker and then to the todo. -/
def followVerdict (w : PushWorld) (now : Instant) (doc : Doc) (name key : String) (todo : Todo) (edit : Edit)
    (push : StatusPush) (movable : Bool) (writes : StatusWrites) : Except String Doc := do
  w.closeTicket key name writes.close
  w.moveTicket push key name movable writes
  applyPushed now doc todo.id edit writes.record

/-- Move the ticket of a todo as the push asks, then apply the todo's own change. Says whether it was
applied: a person who declines to write over a tracker change gets the tracker's value. -/
def pushTicket (text : Unicode) (w : PushWorld) (now : Instant) (doc : Doc) (name : String) (todo : Todo)
    (ticket : TicketRef) (edit : Edit) (push : StatusPush) : Except String (Bool × Doc) := do
  let transition := w.events push.change.event
  if transition.isNone && (push.change.closes w.kind).isNone then
    let doc ← applyPushed now doc todo.id edit none
    .ok (true, doc)
  else
    let movable ← w.canMove push ticket.key name
    let current ← w.readStatus ticket.key name
    let decided := statusVerdict text push.change ticket.syncedStatus current transition w.kind
    let ahead ← w.goesAhead text push ticket.key decided.verdict
    if ahead then
      let doc ← followVerdict w now doc name ticket.key todo edit push movable decided.writes
      .ok (true, doc)
    else
      let doc ← w.takeTrackerValue doc
      .ok (false, doc)

/-- Push the status of a ticket todo. -/
def pushStatus (text : Unicode) (w : PushWorld) (now : Instant) (doc : Doc) (name : String) (todo : Todo)
    (edit : Edit) (push : StatusPush) : Except String (Bool × Doc) :=
  match todo.ticket with
  | none => .error "not a ticket todo"
  | some ticket => pushTicket text w now doc name todo ticket edit push

end Devkit.Todos
