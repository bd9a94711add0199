import Devkit.Git.Hooks
import Devkit.Todos.Ticket
import Mathlib.Data.List.DropRight

/-!
# A guarded commit

Named paths or a patch are committed from a private index while the shared index is held locked. The commit runs
through the hook wrappers; once HEAD names the commit they saw, the replacement index is moved into place. An error
before the commit, and a commit that is refused, leaves HEAD and the shared index as they were and removes the lock
and the scratch directory; where HEAD could have moved they are kept, and the error names them.

What every step comes to is given: each call of git, each change of a file, and what the hooks and git make of HEAD
while git commits. Only these steps change the repository: taking and removing the lock, making and removing the
scratch directory, the commit, and moving the replacement index into place. Another process may take the lock once
the index is in place.
-/

namespace Devkit.Git

open Devkit.Library
open Devkit.Todos (isWhitespace trim)

/-- The bytes of a file. -/
abbrev Content := List UInt8

/-- The lock beside the shared index. -/
inductive Lock
  | free
  | other
  | held
deriving DecidableEq

/-- A repository: HEAD, the shared index when there is one, its lock, and the scratch directories beside it. -/
structure Repository where
  head : Head
  index : Option Content
  lock : Lock
  scratch : List String
deriving DecidableEq

/-- What a guarded commit records on top of HEAD. -/
inductive Source
  | paths (paths : List String)
  | patch (patch : String)

/-- What a call that is waited for gives. -/
structure Output where
  success : Bool
  status : String
  stdout : String
  stderr : String

/-- What the steps of replaying the staged changes come to. -/
structure Replay where
  changedSelected : Except Failure (List String)
  changedPrior : Except Failure (List String)
  attributes : Except Failure (List (String × String))
  mergeDefault : Except Failure String
  customDriver : String → Except Failure Bool
  wrapTree : Oid → Except Failure Oid
  mergeTree : Except Failure (Option ℤ × Output)
  readTree : Except Failure Content

/-- What the commit itself comes to: the wrappers' runs, HEAD when it is over, and what the call gives. -/
structure CommitRun where
  calls : List HookCall
  head : Head
  output : Except Failure Output

/-- What the steps of a guarded commit come to, in their order. -/
structure Steps where
  topLevel : Except Failure String
  gitPaths : Except Failure (String × String)
  takeLock : Except Failure Unit
  operations : Except Failure (List String)
  unmerged : Except Failure Bool
  stamp : String
  createScratch : Except Failure Unit
  createNoHooks : Except Failure Unit
  headBefore : Query
  symbolicRef : Query
  copyOriginal : Except Failure Unit
  copyPrior : Except Failure Unit
  writePriorTree : Except Failure Oid
  readHeadTree : Except Failure Unit
  writeBaseTree : Except Failure Oid
  select : Except Failure Unit
  writeSelectedTree : Except Failure Oid
  copyReplacement : Except Failure Unit
  restore : Except Failure Content
  replay : Replay
  writeWrappers : Except Failure Unit
  aimHooks : Except Failure Unit
  commit : CommitRun
  readProposed : Bool
  headAfter : Query
  copyToLock : Except Failure Unit
  syncLock : Except Failure Unit
  renameLock : Except Failure Unit
  relocked : Bool
  removesLock : Bool
  removesScratch : Bool

/-- The index lock a commit holds and its scratch directory. -/
structure Held where
  lock : String
  ownsLock : Bool
  scratch : Option String
  retain : Bool

/-- What names the files that are kept. -/
def Held.recovery (held : Held) : String :=
  "recovery files retained at " ++ held.scratch.getD "(none)" ++ "; index lock: " ++ held.lock ++
    ". Inspect HEAD before retrying."

/-- Remove the lock and the scratch directory on the way out, unless they are kept. -/
def Held.drop (held : Held) (steps : Steps) (repo : Repository) : Repository :=
  if held.retain then repo
  else
    { repo with
      lock := if held.ownsLock && steps.removesLock then .free else repo.lock
      scratch := match held.scratch with
        | some scratch => if steps.removesScratch then repo.scratch.erase scratch else repo.scratch
        | none => repo.scratch }

/-- A text without the whitespace at its end. -/
def trimEnd (text : String) : String := String.ofList (text.toList.rdropWhile isWhitespace)

/-- The error of a commit that failed, or its output. -/
def report (out : Output) : Except Failure String :=
  if out.success then .ok out.stdout
  else .error ["git commit failed (" ++ out.status ++ "); HEAD is unchanged:\n" ++ trimEnd out.stderr ++
    if (trim out.stdout).isEmpty then "" else "\n" ++ trimEnd out.stdout]

/-- The driver that merges a path by the value of its attribute. -/
def mergeDriver (replay : Replay) (value : String) : Except Failure String := do
  let driver ← if value = "unspecified" then replay.mergeDefault else .ok value
  .ok (if driver.isEmpty then "text" else driver)

/-- Refuse a path that would merge through anything but git's own text or binary driver. -/
def checkMergeDriver (replay : Replay) (path value : String) : Except Failure Unit :=
  if value = "set" ∨ value = "unset" then .ok ()
  else do
    let driver ← mergeDriver replay value
    let custom ← replay.customDriver driver
    ensure ((driver = "text" ∨ driver = "binary") ∧ ¬ custom)
      (path ++ ": merge driver `" ++ driver ++ "` cannot keep the staged hunks exact")

/-- Refuse when a path both sides change would merge through a driver of its own. -/
def checkMergeDrivers (replay : Replay) : Except Failure Unit := do
  let selected ← replay.changedSelected
  let prior ← replay.changedPrior
  if (selected.filter fun path => prior.contains path).isEmpty then .ok ()
  else
    let attributes ← replay.attributes
    attributes.forM fun entry => checkMergeDriver replay entry.1 entry.2

/-- What a merge of the staged changes comes to. -/
def mergeResult (merged : Option ℤ × Output) : Except Failure Unit :=
  if merged.1 = some 0 then .ok ()
  else if merged.1 = some 1 then
    .error ["the patch overlaps staged changes; HEAD and the shared index are unchanged\n" ++ merged.2.stderr ++
      merged.2.stdout]
  else
    .error ["git merge-tree could not run (" ++ merged.2.status ++
      "); HEAD and the shared index are unchanged\n" ++ trim merged.2.stderr]

/-- Replay the staged changes onto the selected tree: the replacement index. -/
def replayStaging (replay : Replay) (baseTree selectedTree priorTree : Oid) : Except Failure Content := do
  checkMergeDrivers replay
  let _ ← replay.wrapTree baseTree
  let _ ← replay.wrapTree selectedTree
  let _ ← replay.wrapTree priorTree
  let merged ← replay.mergeTree
  mergeResult merged
  ensure (!merged.2.stdout.isEmpty) "git merge-tree named no tree"
  replay.readTree

/-- What nothing is selected from. -/
def Source.nothing : Source → String
  | .paths _ => "the named paths change nothing relative to HEAD"
  | .patch _ => "the patch changes nothing relative to HEAD"

/-- What the commit is made of: what the wrappers know, and the replacement index. -/
structure Prepared where
  state : HookState
  replacement : Content

/-- The steps up to the scratch directory. -/
def checks (steps : Steps) (index : String) : Except Failure Unit := do
  let operations ← steps.operations
  ensure operations.isEmpty (operations.headD "" ++ ": finish the git operation in progress first")
  let unmerged ← steps.unmerged
  ensure (!unmerged) "the index holds unresolved merge entries"
  ensure (index ≠ "" ∧ index ≠ "/") "the index has no parent directory"
  steps.createScratch

/-- The scratch directory of a commit, beside the index. -/
def scratchPath (steps : Steps) (index : String) : String :=
  String.ofList (index.toList.rdropWhile fun c => c != '/') ++ "devkit-commit-" ++ steps.stamp

/-- The replacement index: the shared one with the committed entries, or the staged changes replayed on the commit. -/
def replace (steps : Steps) (source : Source) (baseTree selectedTree priorTree : Oid) : Except Failure Content :=
  match source with
  | .paths _ => steps.restore
  | .patch _ => replayStaging steps.replay baseTree selectedTree priorTree

/-- The steps from the scratch directory to the commit. -/
def prepare (steps : Steps) (source : Source) (scratch : String) (head : Head) : Except Failure Prepared := do
  steps.createNoHooks
  let oldHead ← headCommit steps.headBefore head
  let target ← headRef steps.symbolicRef head
  ensure (oldHead.isSome ∨ target ≠ "HEAD") "HEAD is neither a commit nor an unborn branch"
  steps.copyOriginal
  steps.copyPrior
  let priorTree ← steps.writePriorTree
  steps.readHeadTree
  let baseTree ← steps.writeBaseTree
  steps.select
  let selectedTree ← steps.writeSelectedTree
  ensure (selectedTree ≠ baseTree) source.nothing
  steps.copyReplacement
  let replacement ← replace steps source baseTree selectedTree priorTree
  steps.writeWrappers
  .ok ⟨⟨oldHead, target, selectedTree, scratch ++ "/proposed"⟩, replacement⟩

/-- Move the replacement index into place through the lock. -/
def install (steps : Steps) : Except Failure Unit := do
  steps.copyToLock
  steps.syncLock
  steps.renameLock

/-- What the wrappers wrote down, as it is read. -/
def readProposed (treeOf : Oid → Oid) (steps : Steps) (state : HookState) : Proposed :=
  if steps.readProposed then proposedAfter treeOf state steps.commit.calls else .absent

/-- The error of an index that could not be moved into place. -/
def installFailure (newHead : Option Oid) (scratch : String) : String :=
  "commit " ++ newHead.getD "" ++ " was created, but the index could not be installed. Original index: " ++ scratch ++
    "/original.index; replacement index: " ++ scratch ++
    "/replacement.index. Do not retry the commit; recover the index first."

/-- What is added to the report of a commit whose call failed. -/
def exitNote (newHead : Option Oid) (out : Output) : String :=
  if out.success then ""
  else "commit " ++ newHead.getD "" ++ " was created and the staged changes kept, but git exited " ++ out.status ++
    "; do not retry the commit.\n" ++ out.stderr

/-- What follows the commit, once the call gave an output. -/
def conclude (treeOf : Oid → Oid) (steps : Steps) (prepared : Prepared) (out : Output) (held : Held)
    (repo : Repository) : Except Failure String × Held × Repository :=
  match headCommit steps.headAfter repo.head with
  | .error failure => (.error failure, held, repo)
  | .ok newHead =>
    let proposed := readProposed treeOf steps prepared.state
    if newHead.map Proposed.commit ≠ some proposed then
      if proposed ≠ .absent ∨ newHead ≠ prepared.state.oldHead ∨ out.success then
        (.error ["HEAD could not be confirmed after git commit. Do not retry the commit.\n" ++ trim out.stderr], held, repo)
      else (report out, { held with retain := false }, repo)
    else
      match install steps with
      | .error failure => (.error (installFailure newHead (held.scratch.getD "") :: failure), held, repo)
      | .ok () =>
        (.ok (out.stdout ++ exitNote newHead out), { held with ownsLock := false, retain := false },
          { repo with index := some prepared.replacement, lock := if steps.relocked then .other else .free })

/-- The commit under the lock. -/
def commitLocked (treeOf : Oid → Oid) (steps : Steps) (source : Source) (index : String) (held : Held)
    (repo : Repository) : Except Failure String × Held × Repository :=
  match checks steps index with
  | .error failure => (.error failure, held, repo)
  | .ok () =>
    let held := { held with scratch := some (scratchPath steps index) }
    let repo := { repo with scratch := scratchPath steps index :: repo.scratch }
    match prepare steps source (scratchPath steps index) repo.head with
    | .error failure => (.error failure, held, repo)
    | .ok prepared =>
      let held := { held with retain := true }
      match steps.aimHooks with
      | .error failure => (.error failure, held, repo)
      | .ok () =>
        let repo := { repo with head := steps.commit.head }
        match steps.commit.output with
        | .error failure => (.error failure, held, repo)
        | .ok out => conclude treeOf steps prepared out held repo

/-- An error of a guarded commit: what names the files that are kept, where they are, and the cause. -/
structure Refusal where
  recovery : Option String
  cause : Failure
deriving DecidableEq

/-- The way out of the commit under the lock: the files that are kept are named, and the others removed. -/
def settle (steps : Steps) (outcome : Except Failure String × Held × Repository) : Except Refusal String × Repository :=
  let (result, held, repo) := outcome
  (result.mapError fun failure => ⟨if held.retain then some held.recovery else none, failure⟩, held.drop steps repo)

/-- Commit named paths or a patch, all or nothing. -/
def commitGuarded (treeOf : Oid → Oid) (steps : Steps) (source : Source) (repo : Repository) :
    Except Refusal String × Repository :=
  match steps.topLevel with
  | .error failure => (.error ⟨none, failure⟩, repo)
  | .ok _ =>
    match steps.gitPaths with
    | .error failure => (.error ⟨none, failure⟩, repo)
    | .ok (index, _) =>
      if repo.lock ≠ .free then
        (.error ⟨none, [index ++ ".lock: another git operation holds the index lock"]⟩, repo)
      else
        match steps.takeLock with
        | .error failure => (.error ⟨none, ("taking " ++ index ++ ".lock") :: failure⟩, repo)
        | .ok () =>
          settle steps (commitLocked treeOf steps source index ⟨index ++ ".lock", true, none, false⟩
            { repo with lock := .held })

end Devkit.Git
