import Devkit.Library.OrderedMap
import Devkit.Todos.Item

/-!
# The activity log

Hooks and store edits append events, and reading pairs them into sub-agent runs and claim intervals. A
status change is encoded as the events of the claim it ends and the claim it begins.
-/

namespace Devkit.Todos

open Std

/-- How a sub-agent's run ended. -/
inductive RunEnd
  | stopped
  | sessionEnded
  | lost
deriving DecidableEq

/-- How a claim ended: finished, dropped, returned to pending, or taken over by another holder. -/
inductive ClaimEnd
  | completed
  | cancelled
  | released
  | handed
deriving DecidableEq

/-- What an event of the log says. -/
inductive What
  | sessionStart (session : String)
  | subagentStart (session agent : String) (agentType : Option String)
  | subagentStop (session agent : String) (agentType : Option String)
  | sessionEnd (session : String)
  | claim (todo node : String) (holder : Holder)
  | unclaim (todo : String) (holder : Holder) (outcome : ClaimEnd)
deriving DecidableEq

/-- One line of the log. -/
structure Event where
  time : Instant
  what : What
deriving DecidableEq

/-- One sub-agent run, with no end while it runs. -/
structure AgentRun where
  session : String
  agent : String
  agentType : Option String
  start : Instant
  finish : Option Instant
  outcome : Option RunEnd
deriving DecidableEq

/-- One stretch of a todo in progress by one holder, with no end while it is held. -/
structure Interval where
  todo : String
  node : String
  holder : Holder
  start : Instant
  finish : Option Instant
  outcome : Option ClaimEnd
deriving DecidableEq

/-- The records the log's events pair into. -/
structure Activity where
  runs : List AgentRun
  claims : List Interval

/-- Close a run. -/
def closeRun (time : Instant) (outcome : RunEnd) (run : AgentRun) : AgentRun :=
  { run with finish := some time, outcome := some outcome }

/-- Close a claim. -/
def closeClaim (time : Instant) (outcome : ClaimEnd) (claim : Interval) : Interval :=
  { claim with finish := some time, outcome := some outcome }

/-- Sessions and their agents, compared one after the other. -/
abbrev byAgent : String × String → String × String → Ordering :=
  compareLex (compareOn Prod.fst) (compareOn Prod.snd)

/-- The records so far, and where the open run of each agent and the open claim of each todo stand. -/
structure Derivation where
  activity : Activity
  runs : ExtTreeMap (String × String) ℕ byAgent
  claims : ExtTreeMap String ℕ

namespace Derivation

/-- Nothing is recorded. -/
def start : Derivation := ⟨⟨[], []⟩, ∅, ∅⟩

/-- The run at a place is closed. -/
def closeRunAt (d : Derivation) (place : ℕ) (time : Instant) (outcome : RunEnd) : Derivation :=
  { d with activity.runs := d.activity.runs.modify place (closeRun time outcome) }

/-- The claim at a place is closed. -/
def closeClaimAt (d : Derivation) (place : ℕ) (time : Instant) (outcome : ClaimEnd) : Derivation :=
  { d with activity.claims := d.activity.claims.modify place (closeClaim time outcome) }

/-- The open claim of the todo, if it has one, is closed. -/
def endClaim (d : Derivation) (todo : String) (time : Instant) (outcome : ClaimEnd) : Derivation :=
  match d.claims[todo]? with
  | some place => { d.closeClaimAt place time outcome with claims := d.claims.erase todo }
  | none => d

/-- One event. A stop or an unclaim with nothing open to close is dropped. -/
def step (d : Derivation) (event : Event) : Derivation :=
  match event.what with
  | .subagentStart session agent agentType =>
    if d.runs.contains (session, agent) then d
    else
      { d with
        runs := d.runs.insert (session, agent) d.activity.runs.length
        activity.runs := d.activity.runs ++ [⟨session, agent, agentType, event.time, none, none⟩] }
  | .subagentStop session agent _ =>
    match d.runs[(session, agent)]? with
    | some place =>
      { d.closeRunAt place event.time .stopped with runs := d.runs.erase (session, agent) }
    | none => d
  | .sessionEnd session =>
    let ending := d.runs.toList.filter fun row => row.1.1 == session
    let closed := ending.foldl (fun d row => d.closeRunAt row.2 event.time .sessionEnded) d
    { closed with runs := d.runs.filter fun key _ => key.1 != session }
  | .claim todo node holder =>
    let d := d.endClaim todo event.time .handed
    { d with
      claims := d.claims.insert todo d.activity.claims.length
      activity.claims := d.activity.claims ++ [⟨todo, node, holder, event.time, none, none⟩] }
  | .unclaim todo _ outcome => d.endClaim todo event.time outcome
  | .sessionStart _ => d

end Derivation

/-- Pairs time-ordered events into records. -/
def derive (events : List Event) : Activity := (events.foldl Derivation.step .start).activity

/-- The event that ends a claim. -/
def unclaim (change : StatusChange) (holder : Holder) (outcome : ClaimEnd) : What :=
  .unclaim change.todo holder outcome

/-- The event that begins a claim. -/
def claim (change : StatusChange) (holder : Holder) : What := .claim change.todo change.node holder

/-- The claim events of one status change. -/
def claimEvents (change : StatusChange) : List What :=
  match change.source, change.target with
  | .inProgress holder, some (.inProgress next) =>
    if holder ≠ next then [unclaim change holder .handed, claim change next] else []
  | .inProgress holder, some (.completed _) => [unclaim change holder .completed]
  | .inProgress holder, some (.cancelled _) => [unclaim change holder .cancelled]
  | .inProgress holder, none => [unclaim change holder .cancelled]
  | .inProgress holder, some .pending => [unclaim change holder .released]
  | _, some (.inProgress holder) => [claim change holder]
  | _, _ => []

/-- The events recorded for status changes, each at the time of its change. -/
def eventsOf (changes : List StatusChange) : List Event :=
  changes.flatMap fun change => (claimEvents change).map fun what => ⟨change.time, what⟩

end Devkit.Todos
