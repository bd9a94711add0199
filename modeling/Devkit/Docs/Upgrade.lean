import Devkit.Docs.Names
import Devkit.Library.Routine
import Mathlib.Data.String.Basic
import Mathlib.Logic.Function.Basic
import Std.Data.ExtTreeMap.Lemmas

/-!
# Bringing an older cache up to date

An older cache keeps a scoped library in `<scope>/<member>`, the current one in `<scope>~<member>`. The upgrade moves
every library that is still nested, and then makes its checkouts resolve again: it repairs the links the move broke,
rebuilds what repair cannot fix, and restores what an earlier run recorded in its journal before it was cut short.
Every command and every write of a run may fail, and the run may stop before any of them. A deletion is one step after
another, so it may fail or stop half-way. What git makes of its own administration is done or not begun: a git that is
killed while it adds, repairs or prunes worktrees leaves what this does not speak of.
-/

namespace Devkit.Docs

open Devkit.Library Devkit.Library.Routine Std

section Disk

/-- Where the directory of a library is: under its scope, or under its encoded name. -/
inductive Site
  | nested (scope member : String)
  | flat (dirname : String)
deriving DecidableEq

/-- What a checkout has for its `.git`: no file, one that names no entry, or one that names an administrative entry of
the clone at some place. -/
inductive GitFile
  | absent
  | garbled
  | names (site : Site) (entry : String)
deriving DecidableEq

/-- Git has put the `.git` file there. -/
def GitFile.isWorktree : GitFile → Bool
  | absent => false
  | _ => true

/-- A worktree's administrative entry: the checkout that it points back at, by the library's place and the checkout's
name, and the commit that it records. -/
structure Entry where
  back : Site × String
  head : Option String

/-- A library's sidecar file: where its clone came from, and the sizes of the checkouts that have a record. -/
structure Sidecar where
  origin : Option String
  sizes : ExtTreeMap String (Option ℕ)

/-- A library's directory: the commits of its clone, the clone's remote, its administrative entries, the checkouts
beside it, what a walk of each adds up to, and the sidecar. -/
structure Lib where
  commits : List String
  remote : Option String
  admin : ExtTreeMap String Entry
  trees : ExtTreeMap String GitFile
  bytes : String → ℕ
  sidecar : Sidecar

/-- The checkouts a library must end up holding, and the commits they sit at. -/
abbrev Journal := List (String × String)

/-- A cache: the directories of its root and of each of them, the libraries among these, and the journals. -/
structure CacheDir where
  entries : List String
  members : String → List String
  libs : Site → Option Lib
  journals : String → Option Journal

/-- One library under its lock, its journal, and the libraries of other places. -/
structure Shelf where
  site : Site
  lib : Lib
  journal : Option Journal
  others : Site → Option Lib

/-- What becomes of one command, write or step of a deletion: it does what it is asked, it fails and leaves things as
they were, or the run is cut short before it. -/
inductive Event
  | ok
  | err
  | stop

/-- A routine on one library. -/
abbrev Mending := Routine Shelf Event String

/-- A routine on the cache. -/
abbrev Upgrade := Routine CacheDir Event String

end Disk

section Reads

/-- The checkout directory an administrative entry belongs to. -/
def Lib.checkoutName (lib : Lib) (name : String) (entry : Entry) : String :=
  if lib.trees.contains entry.back.2 then entry.back.2 else name

/-- Captures the commit of one checkout. -/
def Lib.captureEntry (lib : Lib) (commits : ExtTreeMap String String) (row : String × Entry) :
    Except String (ExtTreeMap String String) :=
  match row.2.head with
  | some commit => .ok (commits.insert (lib.checkoutName row.1 row.2) commit)
  | none =>
    .error (s!"{row.1} registers a worktree named `{lib.checkoutName row.1 row.2}` but records no commit for it; " ++
      "delete that directory and run docm again")

/-- The commit of every checkout, read from the clone's worktree administration. -/
def captureCommits (lib : Lib) : Except String (ExtTreeMap String String) := lib.admin.toList.foldlM lib.captureEntry ∅

/-- The entry that is registered for a path. -/
def Lib.registered (lib : Lib) (back : Site × String) : Option String :=
  (lib.admin.toList.find? fun row => decide (row.2.back = back)).map Prod.fst

/-- The library at a place. -/
def Shelf.at (shelf : Shelf) (site : Site) : Option Lib :=
  if site = shelf.site then some shelf.lib else shelf.others site

/-- A checkout and its administrative entry still point at each other. -/
def Shelf.linksOk (shelf : Shelf) (checkout : String) : GitFile → Bool
  | .names site entry =>
    decide (site = shelf.site) && shelf.lib.admin[entry]?.any fun found => decide (found.back = (shelf.site, checkout))
  | _ => false

/-- Git owns the checkout. -/
def Shelf.isWorktree (shelf : Shelf) (checkout : String) : Bool := shelf.lib.trees[checkout]?.any GitFile.isWorktree

/-- Git can still use the checkout. -/
def Shelf.resolves (shelf : Shelf) (checkout : String) : Bool :=
  shelf.lib.trees[checkout]?.any fun git => git.isWorktree && shelf.linksOk checkout git

/-- The commit a checkout is at, by its `.git` file. -/
def Shelf.headAt (shelf : Shelf) (checkout : String) : Option String :=
  match shelf.lib.trees[checkout]? with
  | some (.names site entry) => (shelf.at site).bind fun lib => lib.admin[entry]?.bind Entry.head
  | _ => none

/-- What an administrative entry points back at is there. -/
def Shelf.reaches (shelf : Shelf) (back : Site × String) : Bool :=
  (shelf.at back.1).any fun lib => lib.trees[back.2]?.any GitFile.isWorktree

/-- The commit a checkout should be at, by the administration or else the journal. -/
def expectedCommit (admin : ExtTreeMap String String) (journal : Journal) (checkout : String) : Option String :=
  admin[checkout]?.or ((journal.find? fun entry => entry.1 == checkout).map Prod.snd)

/-- A journal is spent once every checkout it names is back. -/
def Shelf.journalSatisfied (shelf : Shelf) (journal : Journal) : Bool :=
  journal.all fun entry => shelf.resolves entry.1

/-- Where the journal of a library is. -/
def journalPath (dirname : String) : String := s!"registry.locks/{dirname}.migration.json"

/-- What one abandoned checkout is reported as. -/
def abandoned (dirname checkout commit : String) : String :=
  s!"{dirname}/{checkout} was recorded at {commit}, which repo.git no longer has; dropping " ++
    s!"that record from {journalPath dirname} — re-resolve the library to rebuild the checkout"

end Reads

section Commands

/-- A command that does what it is asked, or fails and leaves things as they were. -/
def command {A : Type} (problem : String) (effect : Shelf → Reply String A × Shelf) : Mending A :=
  act fun event shelf =>
    match event with
    | .ok => effect shelf
    | .err => (.fail problem, shelf)
    | .stop => (.stop, shelf)

/-- Whether the clone holds a commit. -/
def hasCommit (dirname commit : String) : Mending Bool :=
  command s!"spawning git to look for {commit} in {dirname}/repo.git" fun shelf =>
    (.go (shelf.lib.commits.contains commit), shelf)

/-- The entry a repair finds for a checkout: the one its `.git` file names, or else the one registered for it. -/
def Shelf.entryOf (shelf : Shelf) (checkout : String) : Option String :=
  match shelf.lib.trees[checkout]? with
  | some (.names _ entry) => if shelf.lib.admin.contains entry then some entry else none
  | some .garbled => shelf.lib.registered (shelf.site, checkout)
  | _ => none

/-- A checkout and the entry found for it point at each other again. -/
def Shelf.relink (shelf : Shelf) (checkout : String) : Shelf :=
  match shelf.entryOf checkout with
  | none => shelf
  | some entry =>
    { shelf with
      lib :=
        { shelf.lib with
          trees := shelf.lib.trees.insert checkout (.names shelf.site entry)
          admin := shelf.lib.admin.insert entry ⟨(shelf.site, checkout), shelf.lib.admin[entry]?.bind Entry.head⟩ } }

/-- Repairs the links of a checkout, if it can. -/
def worktreeRepair (checkout : String) : Mending Unit :=
  act fun event shelf =>
    match event with
    | .ok => (.go (), shelf.relink checkout)
    | .err => (.go (), shelf)
    | .stop => (.stop, shelf)

/-- The commit a checkout is at, or none where git cannot tell. -/
def headOf (checkout : String) : Mending (Option String) :=
  act fun event shelf =>
    match event with
    | .ok => (.go (shelf.headAt checkout), shelf)
    | .err => (.go none, shelf)
    | .stop => (.stop, shelf)

/-- The directory of a checkout, if it is there, without its `.git` file. -/
def Shelf.husk (shelf : Shelf) (checkout : String) : Shelf :=
  { shelf with lib := { shelf.lib with trees := shelf.lib.trees.modify checkout fun _ => .absent } }

/-- The directory of a checkout is gone. -/
def Shelf.clear (shelf : Shelf) (checkout : String) : Shelf :=
  { shelf with lib := { shelf.lib with trees := shelf.lib.trees.erase checkout } }

/-- An administrative entry is gone. -/
def Shelf.unregister (shelf : Shelf) (entry : String) : Shelf :=
  { shelf with lib := { shelf.lib with admin := shelf.lib.admin.erase entry } }

/-- One step of a deletion, and whether it could be made. -/
def deletion (effect : Shelf → Shelf) : Mending Bool :=
  act fun event shelf =>
    match event with
    | .ok => (.go true, effect shelf)
    | .err => (.go false, shelf)
    | .stop => (.stop, shelf)

/-- Deletes a checkout's directory, its `.git` file before the rest is gone, and tells whether it could. -/
def deleteDir (checkout : String) : Mending Bool := do
  if ← deletion (Shelf.husk · checkout) then
    deletion (Shelf.clear · checkout)
  else
    return false

/-- The entry that git deletes with a checkout: the one registered for it, where the checkout's `.git` names it. -/
def Shelf.ownEntry (shelf : Shelf) (checkout : String) : Option String :=
  (shelf.lib.registered (shelf.site, checkout)).filter fun entry =>
    shelf.lib.trees[checkout]?.any fun git => decide (git = .names shelf.site entry)

/-- Deletes a checkout and then its entry by git, and tells whether it could do both. -/
def worktreeRemove (checkout : String) : Mending Bool := do
  match ← read (Shelf.ownEntry · checkout) with
  | none => return false
  | some entry =>
    let deleted ← deleteDir checkout
    -- git drops the entry also where something of the directory is left
    let dropped ← deletion (Shelf.unregister · entry)
    return deleted && dropped

/-- Deletes a checkout's directory, if it is there. -/
def removeDirAll (dirname checkout : String) : Mending Unit := do
  if ← read (·.lib.trees.contains checkout) then
    if ← deleteDir checkout then
      return ()
    else
      fail s!"deleting {dirname}/{checkout}"
  else
    return ()

/-- Drops the administrative entries that point back at nothing. -/
def worktreePrune (dirname : String) : Mending Unit :=
  command s!"pruning worktrees of {dirname}, listed by {journalPath dirname}" fun shelf =>
    (.go (),
      { shelf with lib := { shelf.lib with admin := shelf.lib.admin.filter fun _ entry => shelf.reaches entry.back } })

/-- The name of a new administrative entry: that of its checkout, told apart by a number where it is taken. -/
def freshEntry (admin : ExtTreeMap String Entry) (checkout : String) : String :=
  ((checkout :: (List.range (admin.size + 1)).map fun i => s!"{checkout}{i + 1}").find? fun name =>
    !admin.contains name).getD checkout

/-- Makes a checkout of a commit where there is none and none is registered. -/
def worktreeAdd (dirname checkout commit : String) : Mending Unit :=
  let problem := s!"recreating {dirname}/{checkout} at {commit}, recorded in {journalPath dirname}; delete that " ++
    "file to abandon the record and re-resolve the library instead"
  command problem fun shelf =>
    if shelf.lib.trees.contains checkout || (shelf.lib.registered (shelf.site, checkout)).isSome ||
        !shelf.lib.commits.contains commit then (.fail problem, shelf)
    else
      let entry := freshEntry shelf.lib.admin checkout
      (.go (),
        { shelf with
          lib :=
            { shelf.lib with
              trees := shelf.lib.trees.insert checkout (.names shelf.site entry)
              admin := shelf.lib.admin.insert entry ⟨(shelf.site, checkout), some commit⟩ } })

/-- Writes the journal whole. -/
def writeJournal (dirname : String) (commits : ExtTreeMap String String) : Mending Unit :=
  command s!"replacing {journalPath dirname}" fun shelf => (.go (), { shelf with journal := some commits.toList })

/-- Deletes the journal. -/
def clearJournal (dirname : String) : Mending Unit :=
  command s!"deleting {journalPath dirname}" fun shelf => (.go (), { shelf with journal := none })

/-- Writes the sidecar whole. -/
def writeSidecar (sidecar : Sidecar) : Mending Unit :=
  command "replacing meta.toml" fun shelf => (.go (), { shelf with lib := { shelf.lib with sidecar := sidecar } })

end Commands

section Heal

/-- A checkout that has to be put back, and whether a directory is in the way. -/
structure Pending where
  checkout : String
  commit : String
  verb : String
  occupied : Bool

/-- Sorts a journal entry by whether the clone still has its commit. -/
def sortEntry (dirname : String) (sorted : Journal × Journal) (entry : String × String) :
    Mending (Journal × Journal) := do
  if ← hasCommit dirname entry.2 then
    return (sorted.1 ++ [entry], sorted.2)
  else
    return (sorted.1, sorted.2 ++ [entry])

/-- Looks at one checkout: repairs it, or notes it down. -/
def mend (dirname : String) (admin : ExtTreeMap String String) (journal : Journal)
    (found : List String × List Pending) (checkout : String) : Mending (List String × List Pending) := do
  let shelf ← read id
  if shelf.resolves checkout || !shelf.isWorktree checkout then
    return found
  else
    match expectedCommit admin journal checkout with
    | none =>
      fail (s!"{dirname}/{checkout} is not a usable worktree and nothing on disk records the commit it held; " ++
        "delete it and run docm again to re-resolve the library")
    | some commit =>
      if ← hasCommit dirname commit then
        worktreeRepair checkout
        if (← headOf checkout) = some commit then
          return (found.1 ++ [s!"repaired {dirname}/{checkout}"], found.2)
        else
          return (found.1, found.2 ++ [⟨checkout, commit, "rebuilt", true⟩])
      else
        return (found.1 ++ [abandoned dirname checkout commit], found.2)

/-- Notes down what the journal wants back and nobody has noted yet. -/
def Shelf.wanting (shelf : Shelf) (pending : List Pending) (entry : String × String) : List Pending :=
  if shelf.resolves entry.1 || pending.any fun step => step.checkout == entry.1 then pending
  else
    let occupied := shelf.lib.trees.contains entry.1
    pending ++ [⟨entry.1, entry.2, if occupied then "rebuilt" else "restored", occupied⟩]

/-- Clears one checkout out of the way. -/
def removeTree (dirname : String) (_ : Unit) (step : Pending) : Mending Unit := do
  if ← worktreeRemove step.checkout then
    return ()
  else
    removeDirAll dirname step.checkout

/-- Puts one checkout back. -/
def addTree (dirname : String) (lines : List String) (step : Pending) : Mending (List String) := do
  worktreeAdd dirname step.checkout step.commit
  return lines ++ [s!"{step.verb} {dirname}/{step.checkout} at {step.commit}"]

/-- Deletes a journal that is spent. -/
def settle (dirname : String) (journal : Journal) : Mending Unit := do
  if ← read (·.journalSatisfied journal) then
    clearJournal dirname
  else
    return ()

/-- Rebuilds the checkouts that are pending, all of them recorded first. -/
def rebuild (dirname : String) (admin : ExtTreeMap String String) (journal : Journal) (lines : List String)
    (pending : List Pending) : Mending (List String) := do
  writeJournal dirname (pending.foldl (fun record step => record.insert step.checkout step.commit) admin)
  (pending.filter (·.occupied)).foldlM (removeTree dirname) ()
  worktreePrune dirname
  let lines ← pending.foldlM (addTree dirname) lines
  settle dirname journal
  return lines

/-- Makes every checkout of one library resolve again. -/
def heal (dirname : String) : Mending (List String) := do
  let admin ← ask fun shelf => captureCommits shelf.lib
  let recorded ← read fun shelf => shelf.journal.getD []
  let sorted ← recorded.foldlM (sortEntry dirname) ([], [])
  let lines := sorted.2.map fun entry => abandoned dirname entry.1 entry.2
  let checkouts ← read fun shelf => shelf.lib.trees.keys
  let found ← checkouts.foldlM (mend dirname admin sorted.1) (lines, [])
  let pending ← read fun shelf => sorted.1.foldl shelf.wanting found.2
  if pending.isEmpty then
    settle dirname sorted.1
    return found.1
  else
    rebuild dirname admin sorted.1 found.1 pending

/-- Records where the clone came from. -/
def backfillOrigin (dirname : String) : Mending (List String) := do
  let sidecar ← read (·.lib.sidecar)
  if sidecar.origin.isSome then
    return []
  else
    let origin ← act fun event shelf =>
      match event with
      | .ok => (.go shelf.lib.remote, shelf)
      | .err => (.go none, shelf)
      | .stop => (.stop, shelf)
    match origin with
    | none =>
      return [s!"{dirname} records no origin and its clone has no remote.origin.url; " ++
        "`docm rm` and re-add it to clone it again"]
    | some origin =>
      writeSidecar { sidecar with origin := some origin }
      return [s!"recorded origin {origin} for {dirname}"]

/-- The checkouts with a record but no size. -/
def Lib.unmeasured (lib : Lib) : List String :=
  lib.trees.keys.filter fun checkout => lib.sidecar.sizes[checkout]?.any Option.isNone

/-- Measures every checkout that has a record but no size. -/
def backfillSizes (dirname : String) : Mending (List String) := do
  let lib ← read Shelf.lib
  if lib.unmeasured.isEmpty then
    return []
  else
    let sizes := lib.unmeasured.foldl (fun sizes checkout => sizes.insert checkout (some (lib.bytes checkout)))
      lib.sidecar.sizes
    writeSidecar { lib.sidecar with sizes := sizes }
    return [s!"recorded the size of {lib.unmeasured.length} checkout(s) of {dirname}"]

/-- Heals a library and fills in its sidecar. -/
def healAndBackfill (dirname : String) : Mending (List String) := do
  let lines ← heal dirname
  let origins ← backfillOrigin dirname
  let sizes ← backfillSizes dirname
  return lines ++ origins ++ sizes

/-- A library is worth taking its lock for. -/
def Shelf.needsAttention (shelf : Shelf) : Bool :=
  shelf.journal.isSome || shelf.lib.sidecar.origin.isNone || !shelf.lib.unmeasured.isEmpty ||
    shelf.lib.trees.keys.any fun checkout => shelf.isWorktree checkout && !shelf.resolves checkout

end Heal

section Run

variable {A : Type}

/-- The library of a directory as a process under its lock finds it. -/
def CacheDir.shelf (dirname : String) (lib : Lib) (cache : CacheDir) : Shelf :=
  ⟨.flat dirname, lib, cache.journals dirname, cache.libs⟩

/-- The library of a directory as a process under its lock leaves it. -/
def CacheDir.putBack (dirname : String) (shelf : Shelf) (cache : CacheDir) : CacheDir :=
  { cache with
    libs := Function.update cache.libs (.flat dirname) (some shelf.lib)
    journals := Function.update cache.journals dirname shelf.journal }

/-- Works on the library of a directory. -/
def onLibrary (dirname : String) (work : Mending A) : Upgrade A := do
  let lib ← ask fun cache =>
    match cache.libs (.flat dirname) with
    | some lib => .ok lib
    | none => .error s!"{dirname} holds no repo.git"
  focus (CacheDir.shelf dirname lib) (CacheDir.putBack dirname) work

/-- Holds the lock of a directory's library. -/
def withLibDir (dirname : String) (work : Upgrade A) : Upgrade A := do
  let _ ← ask fun _ => lockPathOfDir dirname
  work

/-- What the root of the cache holds. -/
structure Survey where
  libraries : List String
  scopes : List (String × List String)
  entries : List String

/-- The libraries among the members of a directory. -/
def CacheDir.scopeMembers (cache : CacheDir) (dir : String) : List String :=
  ((cache.members dir).filter fun member => (cache.libs (.nested dir member)).isSome).mergeSort fun a b => decide (a ≤ b)

/-- Looks over the root of the cache. -/
def CacheDir.survey (cache : CacheDir) : Survey :=
  let dirs := (cache.entries.filter fun dir => !isControl dir).mergeSort fun a b => decide (a ≤ b)
  { libraries := dirs.filter fun dir => (cache.libs (.flat dir)).isSome
    scopes := ((dirs.filter fun dir => (cache.libs (.flat dir)).isNone).map fun dir => (dir, cache.scopeMembers dir)).filter
      fun scope => !scope.2.isEmpty
    entries := cache.entries }

/-- One move of a library. -/
structure Rename where
  scope : String
  member : String
  target : String

/-- The moves planned so far, why others cannot be made, and the names taken as a file system that folds case reads
them. -/
structure RenamePlan where
  renames : List Rename
  problems : List String
  claimed : List (String × String)

/-- Plans the move of one nested library. -/
def planRename (cache : CacheDir) (plan : RenamePlan) (source : String × String) : RenamePlan :=
  let name := s!"{source.1}/{source.2}"
  match libDir name with
  | .error problem => { plan with problems := plan.problems ++ [s!"{name}: {problem}"] }
  | .ok target =>
    if cache.entries.contains target then
      { plan with problems := plan.problems ++ [s!"{name}: `{target}` already exists"] }
    else
      let claimed := (foldKey target, target) :: plan.claimed
      match plan.claimed.find? fun claim => claim.1 == foldKey target with
      | some existing =>
        { plan with
          problems := plan.problems ++ [s!"{name}: `{target}` and `{existing.2}` differ only by case, which a " ++
            "case-folding filesystem cannot keep apart"]
          claimed := claimed }
      | none => { plan with renames := plan.renames ++ [⟨source.1, source.2, target⟩], claimed := claimed }

/-- The nested libraries of a survey. -/
def Survey.sources (survey : Survey) : List (String × String) :=
  survey.scopes.flatMap fun scope => scope.2.map fun member => (scope.1, member)

/-- Why a cache cannot be migrated. -/
def cannotMigrate (problems : List String) : String :=
  "this docs cache cannot be migrated to the current layout:\n  " ++ "\n  ".intercalate problems ++
    "\nmove or delete the listed directories, then run docm again"

/-- Every move the cache needs, or every reason it cannot be migrated. -/
def planRenames (cache : CacheDir) (survey : Survey) : Except String (List Rename) :=
  let claimed := (survey.entries.map fun dir => (foldKey dir, dir)).reverse
  let plan := survey.sources.foldl (planRename cache) ⟨[], [], claimed⟩
  if plan.problems.isEmpty then .ok plan.renames else .error (cannotMigrate plan.problems)

/-- The commits of a library before it moves; none where it is gone. -/
def captureSource (rename : Rename) (cache : CacheDir) : Except String (ExtTreeMap String String) :=
  match cache.libs (.nested rename.scope rename.member) with
  | some lib => captureCommits lib
  | none => .ok ∅

/-- Captures the commits of one library that will move. -/
def capture (captured : List (Rename × ExtTreeMap String String)) (rename : Rename) :
    Upgrade (List (Rename × ExtTreeMap String String)) := do
  let commits ← ask (captureSource rename)
  return captured ++ [(rename, commits)]

/-- Records the commits of one library that will move. -/
def recordSource (_ : Unit) (captured : Rename × ExtTreeMap String String) : Upgrade Unit :=
  if captured.2.isEmpty then
    return ()
  else
    act fun event cache =>
      match event with
      | .ok =>
        (.go (), { cache with journals := Function.update cache.journals captured.1.target (some captured.2.toList) })
      | .err => (.fail s!"replacing {journalPath captured.1.target}", cache)
      | .stop => (.stop, cache)

/-- The cache once a library has moved. -/
def CacheDir.moved (cache : CacheDir) (rename : Rename) (lib : Lib) : CacheDir :=
  { cache with
    entries := cache.entries ++ [rename.target]
    members := Function.update cache.members rename.scope
      ((cache.members rename.scope).filter fun member => member != rename.member)
    libs := Function.update (Function.update cache.libs (.flat rename.target) (some lib))
      (.nested rename.scope rename.member) none }

/-- Moves one library. -/
def moveLibrary (rename : Rename) : Upgrade Unit :=
  let problem := s!"moving {rename.scope}/{rename.member} to {rename.target}"
  act fun event cache =>
    match event, cache.libs (.nested rename.scope rename.member) with
    | .ok, some lib => (.go (), cache.moved rename lib)
    | .ok, none => (.fail problem, cache)
    | .err, _ => (.fail problem, cache)
    | .stop, _ => (.stop, cache)

/-- Deletes a scope that is empty. -/
def removeScope (scope : String) : Upgrade Unit :=
  act fun event cache =>
    match event with
    | .ok =>
      (.go (), if (cache.members scope).isEmpty then { cache with entries := cache.entries.filter fun dir => dir != scope }
        else cache)
    | .err => (.go (), cache)
    | .stop => (.stop, cache)

/-- Moves one library, unless that is done, and heals it. -/
def applyRename (rename : Rename) : Upgrade (List String) := do
  let move ← read fun cache =>
    (cache.libs (.nested rename.scope rename.member)).isSome || !cache.entries.contains rename.target
  let lines ← if move then do
      moveLibrary rename
      pure [s!"migrated {rename.scope}/{rename.member} to {rename.target}"]
    else pure []
  let healed ← onLibrary rename.target (healAndBackfill rename.target)
  removeScope rename.scope
  return lines ++ healed

/-- Heals a library that needs it. -/
def attend (dirname : String) : Upgrade (List String) := do
  if ← onLibrary dirname (read Shelf.needsAttention) then
    withLibDir dirname (onLibrary dirname (healAndBackfill dirname))
  else
    return []

/-- Moves one library under its lock. -/
def migrate (lines : List String) (rename : Rename) : Upgrade (List String) := do
  let moved ← withLibDir rename.target (applyRename rename)
  return lines ++ moved

/-- Attends to one library, and notes down why it could not. -/
def attendNext (told : List String × List String) (dirname : String) : Upgrade (List String × List String) := do
  match ← attempt (attend dirname) with
  | .ok lines => return (told.1 ++ lines, told.2)
  | .error problem => return (told.1, told.2 ++ [s!"{dirname}: {problem}"])

/-- Migrates the cache, and tells every action taken. -/
def upgrade : Upgrade (List String) := do
  let survey ← read CacheDir.survey
  let renames ← ask fun cache => planRenames cache survey
  let captured ← renames.foldlM capture []
  captured.foldlM recordSource ()
  let lines ← renames.foldlM migrate []
  let told ← survey.libraries.foldlM attendNext (lines, [])
  if told.2.isEmpty then
    return told.1
  else
    fail ("the docs cache is not usable:\n  " ++ "\n  ".intercalate told.2)

end Run

end Devkit.Docs
