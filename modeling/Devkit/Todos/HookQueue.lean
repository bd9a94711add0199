import Devkit.Library.OrderedMap
import Devkit.Library.Runs

/-!
# The deferred hook queue

Hook writes to a replica are lines of a queue file. A process that records one appends it and then
drains; any process may drain. A drain applies the oldest line while it holds the drain lock, looks
again after it let the lock go, and leaves at once where another process holds it. Each locked
section is one step, and one that fails changes nothing.
-/

namespace Devkit.Todos

open Devkit.Library
open Std

/-- How a step ends: an entry's write may fail, or find the replica lock busy, and any section of a
file may fail. -/
inductive Outcome
  | ok
  | failed
  | busy
  | ioError
deriving DecidableEq

/-- Where a process is that does not hold the drain lock: about to append its entry, to try the lock,
or to look at the queue once more. -/
inductive Outside (E : Type)
  | push (entry : E)
  | tryLock
  | recheck
deriving DecidableEq

/-- Where the process is that holds the drain lock: about to read the oldest entry, to apply it, to
remove it, or to let the lock go. -/
inductive Inside (E : Type)
  | peek
  | apply (oldest : E × ℕ)
  | pop (oldest : E × ℕ)
  | unlock
deriving DecidableEq

/-- The queue file, who is inside, and what has happened: the entries pushed, each removed, applied
or reported as failed, and those whose removal failed. An entry carries its place among the pushed. -/
structure HookQueue (E : Type) where
  queue : List (E × ℕ)
  drainer : Option (ℕ × Inside E)
  others : ExtTreeMap ℕ (Outside E)
  pushed : List E
  popped : List (E × ℕ)
  applied : List (E × ℕ)
  reported : List (E × ℕ)
  unpopped : List (E × ℕ)
  gaveUp : Bool

/-- One step: a process begins to record an entry or to drain, or goes on to its next step. -/
inductive QueueLabel (E : Type)
  | record (process : ℕ) (entry : E)
  | drain (process : ℕ)
  | outside (process : ℕ) (outcome : Outcome)
  | inside (outcome : Outcome)

namespace HookQueue

variable {E : Type}

/-- An empty queue with nobody inside. -/
def start : HookQueue E := ⟨[], none, ∅, [], [], [], [], [], false⟩

/-- The process is inside a push or a drain. -/
def busy (s : HookQueue E) (process : ℕ) : Bool :=
  s.others.contains process || s.drainer.any fun drainer => drainer.1 == process

/-- Nobody is inside a push or a drain. -/
def Quiet (s : HookQueue E) : Prop := s.drainer = none ∧ s.others = ∅

/-- A process that is nowhere inside goes to a place. -/
def enter (s : HookQueue E) (process : ℕ) (place : Outside E) : HookQueue E :=
  if s.busy process then s else { s with others := s.others.insert process place }

/-- The next step of a process that does not hold the drain lock. -/
def stepOutside (s : HookQueue E) (process : ℕ) (outcome : Outcome) : Outside E → HookQueue E
  | .push entry =>
    -- the drain follows whether or not the entry was appended
    let s := { s with others := s.others.insert process .tryLock }
    if outcome = .ioError then s
    else { s with queue := s.queue ++ [(entry, s.pushed.length)], pushed := s.pushed ++ [entry] }
  | .tryLock =>
    let s := { s with others := s.others.erase process }
    if outcome = .ioError then { s with gaveUp := true }
    else
      match s.drainer with
      | none => { s with drainer := some (process, .peek) }
      | some _ => s
  | .recheck =>
    if outcome = .ioError then { s with others := s.others.erase process, gaveUp := true }
    else
      match s.queue with
      | [] => { s with others := s.others.erase process }
      | _ :: _ => { s with others := s.others.insert process .tryLock }

/-- The drain ends where it is, the lock let go, and entries may be left. -/
def giveUp (s : HookQueue E) : HookQueue E := { s with drainer := none, gaveUp := true }

/-- The next step of the process that holds the drain lock. -/
def stepInside (s : HookQueue E) (process : ℕ) (outcome : Outcome) : Inside E → HookQueue E
  | .peek =>
    if outcome = .ioError then s.giveUp
    else
      match s.queue with
      | [] => { s with drainer := some (process, .unlock) }
      | oldest :: _ => { s with drainer := some (process, .apply oldest) }
  | .apply oldest =>
    match outcome with
    | .busy => s.giveUp
    | .ok => { s with drainer := some (process, .pop oldest), applied := s.applied ++ [oldest] }
    | .failed | .ioError => { s with drainer := some (process, .pop oldest), reported := s.reported ++ [oldest] }
  | .pop oldest =>
    if outcome = .ioError then { s.giveUp with unpopped := s.unpopped ++ [oldest] }
    else
      { s with drainer := some (process, .peek), queue := s.queue.tail,
               popped := s.popped ++ s.queue.head?.toList }
  | .unlock => { s with drainer := none, others := s.others.insert process .recheck }

/-- One step; a label of a process that is not there changes nothing. -/
def step (s : HookQueue E) : QueueLabel E → HookQueue E
  | .record process entry => s.enter process (.push entry)
  | .drain process => s.enter process .tryLock
  | .outside process outcome =>
    match s.others[process]? with
    | some place => s.stepOutside process outcome place
    | none => s
  | .inside outcome =>
    match s.drainer with
    | some (process, place) => s.stepInside process outcome place
    | none => s

end HookQueue

end Devkit.Todos
