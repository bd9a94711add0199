import Devkit.Library.Runs
import Devkit.Todos.Landing

/-!
# Ticket syncs beside local work

A sync lists its node's todos, reads the tracker and makes its plan; then each add and each edit
lands in a store call of its own, a status or description edit after reading its todo once more.
Each label is one store call of a sync or a local one, so syncs of any nodes and local work
interleave freely. What the tracker answers comes with the label that begins a sync, which may
stop anywhere.
-/

namespace Devkit.Todos

open Devkit.Library
open Std

/-- What a tracker answers while one sync reads it; none where it fails. -/
structure Tracker where
  kind : String
  findTickets : List MatchRule → List String → Option (List SyncedTicket)
  tickets : List String → Option (List SyncedTicket)
  statusNames : Option (List String)
  ticketKey : String → Option String
  foreignIssueKey : String → Option String

/-- The tickets a sync is for: those the rules select, perhaps only to print the plan, or one. -/
inductive Request
  | tickets (dryRun : Bool)
  | one (key : String)
deriving DecidableEq

/-- The ticket is closed, or in one of the closed names. -/
def inClosedName (text : Unicode) (ticket : SyncedTicket) (closedNames : List String) : Bool :=
  match ticket.status with
  | .named name => closedNames.any (sameStatus text · name)
  | .closed _ => true

/-- The tickets of open todos that the rules did not select. -/
def openKeys (tracker : String) (existing : List Todo) (fetched : List SyncedTicket) : List String :=
  ((existing.filter fun todo => todo.status.kind.isOpen).filterMap (Todo.ticketKey tracker)).filter fun key =>
    !fetched.any fun ticket => ticket.key == key

/-- The tickets with those from other repositories that block them: each that has a todo, and each
other that is open. -/
def withForeignBlockers (text : Unicode) (tracker : Tracker) (existing : List Todo)
    (fetched : List SyncedTicket) (closedNames : List String) : Option (List SyncedTicket) :=
  let hasTodo (key : String) := existing.any fun todo => todo.ticketKey tracker.kind == some key
  let foreign := (fetched.flatMap SyncedTicket.blockedBy).filter fun key => (tracker.foreignIssueKey key).isSome
  let wanted := sortedSet (foreign.filter fun key => !fetched.any fun ticket => ticket.key == key)
  if wanted.isEmpty then some fetched
  else
    (tracker.tickets wanted).map fun blockers =>
      fetched ++ blockers.filter fun ticket => hasTodo ticket.key || !inClosedName text ticket closedNames

/-- The tickets a sync starts from, before the foreign blockers. -/
def selectTickets (tracker : Tracker) (config : TicketSyncConfig) (existing : List Todo) :
    Request → Option (List SyncedTicket)
  | .tickets _ => do
    let fetched ← tracker.findTickets config.rules config.closedNames
    match openKeys tracker.kind existing fetched with
    | [] => some fetched
    | keys => (tracker.tickets keys).map (fetched ++ ·)
  | .one input => do
    let key ← tracker.ticketKey input
    let fetched := (← tracker.tickets [key]).filter fun ticket => ticket.key == key
    if fetched.isEmpty then none else some fetched

/-- A sync under way: what its plan was made from, what is left of it, the ids known for tickets,
those of the todos its adds made, and whether the next edit has read its todo. -/
structure Sync where
  tracker : String
  config : TicketSyncConfig
  fetched : List SyncedTicket
  plannedOn : ExtTreeMap String Todo
  adds : List NewTodo
  edits : List PlannedEdit
  ids : ExtTreeMap String String
  made : List String
  checked : Bool

/-- A sync that is about to land a plan made from the todos of a node. -/
def Sync.ofPlan (tracker : String) (config : TicketSyncConfig) (existing : List Todo)
    (fetched : List SyncedTicket) (plan : SyncPlan) : Sync where
  tracker
  config
  fetched
  plannedOn := ticketTodos tracker existing
  adds := plan.adds
  edits := plan.edits
  ids := plannedIds (ticketTodos tracker existing)
  made := []
  checked := false

/-- The sync a request begins: none without rules, when the tracker fails, when there is no plan, or
when the plan is only printed. -/
def Sync.begin (text : Unicode) (doc : Doc) (tracker : Tracker) (config : TicketSyncConfig) (node : String)
    (request : Request) : Option Sync :=
  let existing := doc.listExact node
  if config.rules.isEmpty then none
  else do
    let selected ← selectTickets tracker config existing request
    let fetched ← withForeignBlockers text tracker existing selected config.closedNames
    let known ← tracker.statusNames
    match plan text tracker.kind node existing fetched known config with
    | .error _ => none
    | .ok plan =>
      if request = .tickets true then none
      else some (Sync.ofPlan tracker.kind config existing fetched plan)

/-- The document and the syncs under way. -/
structure Syncs where
  doc : Doc
  syncs : ℕ → Option Sync

/-- A store call of local work, or of a client's sync. -/
inductive SyncLabel
  | add (now : Instant) (todo : NewTodo)
  | edit (now : Instant) (edit : Edit)
  | begin (client : ℕ) (tracker : Tracker) (config : TicketSyncConfig) (node : String) (request : Request)
  | next (client : ℕ) (now : Instant)
  | stop (client : ℕ)

namespace Syncs

/-- No sync under way. -/
def start (doc : Doc) : Syncs := ⟨doc, fun _ => none⟩

/-- Set the sync a client has under way. -/
def withSync (s : Syncs) (client : ℕ) (sync : Option Sync) : Syncs :=
  { s with syncs := Function.update s.syncs client sync }

/-- Land a sync's next add. The add makes a todo unless the ticket has one somewhere. -/
def nextAdd (s : Syncs) (client : ℕ) (now : Instant) (sync : Sync) (add : NewTodo) (rest : List NewTodo) :
    Syncs :=
  match landAdd now ⟨s.doc, sync.ids⟩ add with
  | .error _ => s.withSync client none
  | .ok ⟨doc, ids⟩ =>
    let id := add.ticket.bind fun ticket => ids[ticket.key]?
    let made := if (add.ticket.bind s.doc.ticketTodo).isNone then id.toList else []
    { s.withSync client (some { sync with adds := rest, ids, made := made ++ sync.made }) with doc }

/-- Land a sync's next edit: read its todo, then skip the edit or apply it. -/
def nextEdit (s : Syncs) (client : ℕ) (now : Instant) (sync : Sync) (edit : PlannedEdit)
    (rest : List PlannedEdit) : Syncs :=
  match edit.resolve sync.ids with
  | .error _ => s.withSync client none
  | .ok resolved =>
    if sync.checked then
      match s.doc.apply now resolved with
      | .error _ => s.withSync client none
      | .ok (doc, _) => { s.withSync client (some { sync with edits := rest, checked := false }) with doc }
    else if sync.plannedOn[edit.key]?.any fun seen => movedSince s.doc seen edit.change then
      s.withSync client (some { sync with edits := rest })
    else s.withSync client (some { sync with checked := true })

/-- The next store call of a sync. A call that fails ends the sync. -/
def next (s : Syncs) (client : ℕ) (now : Instant) (sync : Sync) : Syncs :=
  match sync.adds, sync.edits with
  | add :: rest, _ => s.nextAdd client now sync add rest
  | [], edit :: rest => s.nextEdit client now sync edit rest
  | [], [] => s.withSync client none

/-- One store call. A client begins a sync when it has none under way. -/
def step (text : Unicode) (s : Syncs) (label : SyncLabel) : Syncs :=
  match label with
  | .add now todo => { s with doc := s.doc.withDoc (s.doc.add now todo) }
  | .edit now edit => { s with doc := s.doc.withDoc (s.doc.apply now edit) }
  | .begin client tracker config node request =>
    match s.syncs client with
    | none => s.withSync client (Sync.begin text s.doc tracker config node request)
    | some _ => s
  | .next client now =>
    match s.syncs client with
    | none => s
    | some sync => s.next client now sync
  | .stop client => s.withSync client none

end Syncs

end Devkit.Todos
