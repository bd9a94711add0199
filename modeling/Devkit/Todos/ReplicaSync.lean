import Devkit.Library.OrderedMap
import Devkit.Library.Runs

/-!
# Syncing a replica

A writer marks the replica pending and starts a background sync. A sync run holds the sync lock for its
passes, each of which clears the mark first, and looks for a mark once more after it let the lock go. A
background run gives up where another holds the lock or a recent sync failed. Every file operation is
one step, as is the sync itself, and may fail.
-/

namespace Devkit.Todos

open Devkit.Library
open Std

/-- A sync run, and how many marks had been set when it began. -/
structure SyncRun where
  background : Bool
  began : ℕ
deriving DecidableEq

/-- Where a run is that does not hold the sync lock: about to look for a recent failure, to take the
lock, or to look for a mark once more. -/
inductive Waiting
  | failedRecently
  | lock
  | recheck
deriving DecidableEq

/-- Where the run is that holds the sync lock. A pass carries how many marks had been set when it
started, and the release whether the last pass succeeded. -/
inductive Locked
  | clear
  | syncOnce (started : ℕ)
  | recordFailure
  | forgetFailure
  | drain
  | check
  | release (succeeded : Bool)
deriving DecidableEq

/-- What a step meets: nothing of note, a sync that fails, a failure marker that is still young, queued
writes that were drained, or a file operation that fails. -/
inductive Turn
  | plain
  | failed
  | young
  | drained
  | ioError
deriving DecidableEq

/-- The marker files, the runs under way, and what has happened: how many marks were set and how many
when the mark was last cleared, whether the last sync succeeded, the marks set before each background run
that ended began and before each successful pass started, and whether a file operation failed. -/
structure ReplicaSync where
  pending : Bool
  failed : Bool
  holder : Option (ℕ × SyncRun × Locked)
  waiting : ExtTreeMap ℕ (SyncRun × Waiting)
  marks : ℕ
  cleared : ℕ
  lastSucceeded : Bool
  ended : List ℕ
  passes : List ℕ
  fileError : Bool

/-- One step: a write marks the replica pending, a run begins, or one goes on to its next step. -/
inductive ReplicaLabel
  | markPending
  | begin (process : ℕ) (background : Bool)
  | waiting (process : ℕ) (turn : Turn)
  | locked (turn : Turn)

namespace ReplicaSync

/-- A replica with no marker and no run. -/
def start : ReplicaSync := ⟨false, false, none, ∅, 0, 0, false, [], [], false⟩

/-- The process is in a run. -/
def busy (s : ReplicaSync) (process : ℕ) : Bool :=
  s.waiting.contains process || s.holder.any fun holder => holder.1 == process

/-- No run is under way. -/
def Quiet (s : ReplicaSync) : Prop := s.holder = none ∧ s.waiting = ∅

/-- Sets the pending mark. -/
def markPending (s : ReplicaSync) : ReplicaSync := { s with pending := true, marks := s.marks + 1 }

/-- A process that is in no run begins one; only a background run looks for a recent failure. -/
def begin (s : ReplicaSync) (process : ℕ) (background : Bool) : ReplicaSync :=
  if s.busy process then s
  else
    let place : Waiting := if background then .failedRecently else .lock
    { s with waiting := s.waiting.insert process (⟨background, s.marks⟩, place) }

/-- A run that holds no lock ends. -/
def finish (s : ReplicaSync) (process : ℕ) (run : SyncRun) : ReplicaSync :=
  { s with waiting := s.waiting.erase process
           ended := if run.background then s.ended ++ [run.began] else s.ended }

/-- The next step of a run that does not hold the sync lock. -/
def stepWaiting (s : ReplicaSync) (process : ℕ) (run : SyncRun) (turn : Turn) : Waiting → ReplicaSync
  | .failedRecently =>
    if s.failed ∧ turn = .young then s.finish process run
    else { s with waiting := s.waiting.insert process (run, .lock) }
  | .lock =>
    if turn = .ioError then { s.finish process run with fileError := true }
    else
      match s.holder with
      | none => { s with holder := some (process, run, .clear), waiting := s.waiting.erase process }
      -- a foreground run waits its turn
      | some _ => if run.background then s.finish process run else s
  | .recheck =>
    if turn = .ioError then { s.finish process run with fileError := true }
    else if s.pending then { s with waiting := s.waiting.insert process (run, .lock) }
    else s.finish process run

/-- The next step of the run that holds the sync lock. -/
def stepLocked (s : ReplicaSync) (process : ℕ) (run : SyncRun) (turn : Turn) : Locked → ReplicaSync
  | .clear =>
    let s := { s with holder := some (process, run, .syncOnce s.marks) }
    if turn = .ioError then s else { s with pending := false, cleared := s.marks }
  | .syncOnce started =>
    if turn = .failed then
      { s with holder := some (process, run, .recordFailure), lastSucceeded := false }
    else
      { s with holder := some (process, run, .forgetFailure), lastSucceeded := true,
               passes := s.passes ++ [started] }
  | .recordFailure =>
    { s with holder := some (process, run, .release false), failed := turn ≠ .ioError }
  | .forgetFailure =>
    let s := { s with holder := some (process, run, .drain) }
    if turn = .ioError then { s with fileError := true } else { s with failed := false }
  | .drain =>
    let s := { s with holder := some (process, run, .check) }
    if turn = .drained then s.markPending else s
  | .check =>
    if turn = .ioError then { s with holder := some (process, run, .release true), fileError := true }
    else if s.pending then { s with holder := some (process, run, .clear) }
    else { s with holder := some (process, run, .release true) }
  | .release succeeded =>
    let s := { s with holder := none }
    if succeeded then { s with waiting := s.waiting.insert process (run, .recheck) }
    else s.finish process run

/-- One step; a label of a run that is not there changes nothing. -/
def step (s : ReplicaSync) : ReplicaLabel → ReplicaSync
  | .markPending => s.markPending
  | .begin process background => s.begin process background
  | .waiting process turn =>
    match s.waiting[process]? with
    | some (run, place) => s.stepWaiting process run turn place
    | none => s
  | .locked turn =>
    match s.holder with
    | some (process, run, place) => s.stepLocked process run turn place
    | none => s

end ReplicaSync

end Devkit.Todos
