import Devkit.Docs.Names
import Devkit.Docs.Refs
import Devkit.Library.Runs
import Mathlib.Algebra.Order.Ring.Nat
import Mathlib.Data.List.Lex
import Mathlib.Logic.Function.Basic
import Std.Data.ExtTreeMap.Lemmas

/-!
# The docs cache

Any number of processes resolve, forget and prune in one cache. A resolve makes a checkout and records a row for
it; a prune deletes the checkouts that no row of a live project points at; both hold the library's lock, file
operations inside it are steps of their own, and a process may stop at any of them. The projects change as they
like in between. The registry is read and written whole.
-/

namespace Devkit.Docs

open Devkit.Common Devkit.Library Std

section Projects

/-- Which importer graph resolves a library's version. -/
inductive Ecosystem
  | rust
  | js
  | python
  | git
deriving DecidableEq

/-- One managed library, as far as its references go. -/
structure LibEntry where
  name : String
  ecosystem : Option Ecosystem
  package : Option String
  ref : Option String

/-- The name in the package registry. -/
def LibEntry.packageName (entry : LibEntry) : String := entry.package.getD entry.name

/-- What is read off the projects at one moment: whether a directory is there, its merged manifest and what its
lockfiles hold of a package. What cannot be read or parsed has none. -/
structure World where
  isThere : String → Bool
  discover : String → Option (List LibEntry)
  findVersion : String → Ecosystem → String → Option (Option (List String))

/-- The numbers of a version, those too long for a word read as 0. -/
def verKey (version : String) : List ℕ :=
  ((version.toList.splitOnP fun c => !c.isDigit).filter (!·.isEmpty)).map fun digits =>
    let number := digits.foldl (fun value c => value * 10 + (c.toNat - '0'.toNat)) 0
    if number < 2 ^ 64 then number else 0

/-- The highest version. -/
def highest (versions : List String) : Option String :=
  (versions.mergeSort fun a b => decide (verKey a ≤ verKey b)).getLast?

variable (world : World)

/-- What a live project selects for an entry; nothing at all where its lockfiles cannot be read. -/
def currentVersion (entry : LibEntry) (project : String) : Option (Option String) :=
  if entry.ref.isSome then some (some "default")
  else
    match entry.ecosystem with
    | none => some none
    | some .git => some (some "default")
    | some eco => (world.findVersion project eco entry.packageName).map fun found => found.bind highest

/-- The checkout that the registry has for a project. -/
def keepExistingRow (data : Data) (project lib : String) : Option String :=
  (data.rows.find? fun row => row.project == project && row.lib == lib).map RefRow.version

/-- The checkout a live project still selects, once its manifests are read: its lockfiles are read after them. -/
def liveReference (manifest : Option (List LibEntry)) (data : Data) (project lib : String) : Option String :=
  match manifest with
  | some libs =>
    (libs.find? fun entry => entry.name == lib).bind fun entry =>
      match currentVersion world entry project with
      | some version => version
      -- what cannot be read is no evidence that the project stopped
      | none => keepExistingRow data project lib
  | none => keepExistingRow data project lib

/-- The project is there and nothing readable says that it has stopped selecting the library. -/
def World.wants (project lib : String) : Bool :=
  world.isThere project &&
    match world.discover project with
    | none => true
    | some libs =>
      match libs.find? fun entry => entry.name == lib with
      | none => false
      | some entry => (currentVersion world entry project).all Option.isSome

end Projects

section Planning

/-- What a prune keeps and deletes. -/
structure PrunePlan where
  keep : List RefRow
  delete : List (String × String)
  removableLibs : List String

/-- The plan once it is known which rows stay. -/
def planFrom (keep : List RefRow) (worktrees : List (String × List String)) (manifestLibs : List String) :
    PrunePlan :=
  let referenced := keep.map fun row => (row.lib, row.version)
  { keep
    delete := worktrees.flatMap fun (lib, dirs) =>
      (dirs.filter fun dir => !referenced.contains (lib, dir)).map fun dir => (lib, dir)
    removableLibs := (worktrees.map Prod.fst).filter fun lib =>
      !manifestLibs.contains lib && !referenced.any fun pair => pair.1 == lib }

/-- The directories of the cache root with what each holds. -/
abbrev Disk := ExtTreeMap String (List String)

/-- What a directory of the cache root holds. -/
def Disk.entries (disk : Disk) (dirname : String) : List String := disk.getD dirname []

/-- A directory made inside a directory of the cache root, if it is not there. -/
def Disk.add (disk : Disk) (dirname entry : String) : Disk :=
  if entry ∈ disk.entries dirname then disk else disk.insert dirname (disk.entries dirname ++ [entry])

/-- A directory deleted inside a directory of the cache root. -/
def Disk.remove (disk : Disk) (dirname entry : String) : Disk :=
  disk.insert dirname ((disk.entries dirname).filter (· ≠ entry))

/-- The checkouts of a library, if it is cloned. -/
def checkouts (disk : Disk) (dirname : String) : List String :=
  if "repo.git" ∈ disk.entries dirname then (disk.entries dirname).filter (· ≠ "repo.git") else []

/-- A directory of the cache root that a prune leaves alone, and why. -/
structure Skipped where
  entry : String
  reason : String

/-- What a cache root holds. -/
structure CacheScan where
  libs : List String
  skipped : List Skipped

/-- Classify one directory of the cache root. -/
def CacheScan.classify (cacheRoot : String) (disk : Disk) (scan : CacheScan) (dirname : String) : CacheScan :=
  if isControl dirname then scan
  else if "repo.git" ∉ disk.entries dirname then
    { scan with skipped := scan.skipped ++ [⟨dirname, "no repo.git, so it is not a library"⟩] }
  else
    match lockPathOfDir dirname with
    | .ok _ => { scan with libs := scan.libs ++ [dirname] }
    | .error message =>
      { scan with skipped := scan.skipped ++ [⟨dirname, s!"{message}; delete {cacheRoot}/{dirname} to remove it"⟩] }

/-- Classify every directory of the cache root, in their order. -/
def scanCache (cacheRoot : String) (disk : Disk) : CacheScan :=
  disk.keys.foldl (CacheScan.classify cacheRoot disk) ⟨[], []⟩

end Planning

/-- What a resolve selected, at a commit that git found. -/
structure Resolution where
  lib : String
  workspace : String
  gitRef : String
  commit : String
  timestamp : UInt64
  found : commit.isEmpty = false

/-- The checkout a resolution is recorded with. -/
def Resolution.checkout (resolution : Resolution) (worktree : String) : Checkout :=
  ⟨worktree, resolution.gitRef, resolution.commit, resolution.timestamp⟩

/-- One library of a prune, and the ones it does after it. -/
structure PruneTask where
  dirname : String
  rest : List String
  manifestLibs : List String

/-- How far a prune has read the project of a row: it is there, or its manifests are read as well. -/
inductive Reading
  | there
  | manifest (libs : Option (List LibEntry))

/-- What a process takes a library's lock for. -/
inductive Job
  | resolve (resolution : Resolution)
  | forget (projects : List OsStr) (lib : String)
  | prune (task : PruneTask)
  | removeIfUnreferenced (dirname : String)

/-- The lock it takes. -/
def Job.lock : Job → Except String String
  | .resolve resolution => lockPath resolution.lib
  | .forget _ lib => lockPath lib
  | .prune task => lockPathOfDir task.dirname
  | .removeIfUnreferenced dirname => lockPathOfDir dirname

/-- Where a process is that holds a library's lock. -/
inductive Stage
  | clone (resolution : Resolution)
  | materialize (resolution : Resolution)
  | record (resolution : Resolution) (worktree : String)
  | forget (projects : List OsStr) (lib : String)
  | snapshot (task : PruneTask)
  | list (task : PruneTask) (seen : Data)
  | judge (task : PruneTask) (seen : Data) (worktrees : List String) (keep unseen : List RefRow)
  | weigh (task : PruneTask) (seen : Data) (worktrees : List String) (keep unseen : List RefRow) (row : RefRow)
      (reading : Reading)
  | remove (task : PruneTask) (seen : Data) (plan : PrunePlan) (delete : List (String × String))
  | reconcile (task : PruneTask) (seen : Data) (plan : PrunePlan)
  | checkRows (dirname : String)
  | deleteAll (dirname : String)
  | unlock (pruning : Option (List String × List String))

/-- Where it begins. -/
def Job.stage : Job → Stage
  | .resolve resolution => .clone resolution
  | .forget projects lib => .forget projects lib
  | .prune task => .snapshot task
  | .removeIfUnreferenced dirname => .checkRows dirname

/-- Where a process is. -/
inductive Place
  | idle
  | waiting (job : Job)
  | inside (lock : String) (stage : Stage)
  | pruning (dirnames manifestLibs : List String)

/-- What a process begins. -/
inductive Operation
  | resolve (resolution : Resolution)
  | forget (projects : List OsStr) (lib : String)
  | prune (manifestLibs : List String)
  | removeIfUnreferenced (dirname : String)

/-- The cache, the processes in it and the projects around it. -/
structure Cache where
  root : String
  registry : Data
  disk : Disk
  locks : String → Option ℕ
  places : ℕ → Place
  world : World

/-- One step: a process begins, goes on or stops where it is, or the projects change. -/
inductive CacheLabel
  | start (process : ℕ) (operation : Operation)
  | next (process : ℕ)
  | stop (process : ℕ)
  | change (world : World)

namespace Cache

variable (cache : Cache)

/-- A process goes to a place. -/
def goto (process : ℕ) (place : Place) : Cache := { cache with places := Function.update cache.places process place }

/-- The process holds no lock any more. -/
def release (process : ℕ) : Cache :=
  { cache with locks := fun lock => if cache.locks lock = some process then none else cache.locks lock }

/-- The process takes the lock it waits for, if nobody holds it. -/
def acquire (process : ℕ) (job : Job) : Cache :=
  match job.lock with
  | .error _ => cache.goto process .idle
  | .ok lock =>
    match cache.locks lock with
    | some _ => cache
    | none =>
      { cache.goto process (.inside lock job.stage) with locks := Function.update cache.locks lock (some process) }

/-- The next step of a process that holds a library's lock. -/
def advance (process : ℕ) (lock : String) : Stage → Cache
  | .clone resolution =>
    { cache.goto process (.inside lock (.materialize resolution)) with
      disk := cache.disk.add (encode resolution.lib) "repo.git" }
  | .materialize resolution =>
    match checkoutDir resolution.gitRef with
    | .error _ => (cache.release process).goto process .idle
    | .ok worktree =>
      { cache.goto process (.inside lock (.record resolution worktree)) with
        disk := cache.disk.add (encode resolution.lib) worktree }
  | .record resolution worktree =>
    -- recorded before the rows without an identity are retired
    { cache.goto process (.inside lock (.unlock none)) with
      registry :=
        (cache.registry.recordAt resolution.workspace resolution.lib (resolution.checkout worktree)).retireLegacy
          resolution.workspace resolution.lib }
  | .forget projects lib =>
    { cache.goto process (.inside lock (.unlock none)) with registry := (cache.registry.forget projects lib).1 }
  | .snapshot task =>
    cache.goto process
      (.inside lock (.list task ⟨cache.registry.rows.filter fun row => row.lib == decode task.dirname⟩))
  | .list task seen =>
    cache.goto process (.inside lock (.judge task seen (checkouts cache.disk task.dirname) [] seen.rows))
  | .judge task seen worktrees keep [] =>
    let plan := planFrom keep [(decode task.dirname, worktrees)] task.manifestLibs
    cache.goto process (.inside lock (.remove task seen plan plan.delete))
  | .judge task seen worktrees keep (row :: unseen) =>
    if cache.world.isThere row.project then
      cache.goto process (.inside lock (.weigh task seen worktrees keep unseen row .there))
    else cache.goto process (.inside lock (.judge task seen worktrees keep unseen))
  | .weigh task seen worktrees keep unseen row .there =>
    let libs := cache.world.discover row.project
    cache.goto process (.inside lock (.weigh task seen worktrees keep unseen row (.manifest libs)))
  | .weigh task seen worktrees keep unseen row (.manifest libs) =>
    let selected := liveReference cache.world libs seen row.project row.lib
    let keep := if selected.isSome then keep ++ [row] else keep
    cache.goto process (.inside lock (.judge task seen worktrees keep unseen))
  | .remove task seen plan [] => cache.goto process (.inside lock (.reconcile task seen plan))
  | .remove task seen plan ((_, checkout) :: delete) =>
    { cache.goto process (.inside lock (.remove task seen plan delete)) with
      disk := cache.disk.remove task.dirname checkout }
  | .reconcile task seen plan =>
    { cache.goto process (.inside lock (.unlock (some (task.rest, task.manifestLibs)))) with
      registry := cache.registry.reconcile seen plan.keep }
  | .checkRows dirname =>
    if cache.registry.rows.any fun row => row.lib == decode dirname then
      cache.goto process (.inside lock (.unlock none))
    else cache.goto process (.inside lock (.deleteAll dirname))
  | .deleteAll dirname =>
    match cache.disk.entries dirname with
    | [] => { cache.goto process (.inside lock (.unlock none)) with disk := cache.disk.erase dirname }
    | entry :: _ =>
      { cache.goto process (.inside lock (.deleteAll dirname)) with disk := cache.disk.remove dirname entry }
  | .unlock none => (cache.release process).goto process .idle
  | .unlock (some (dirnames, manifestLibs)) =>
    (cache.release process).goto process (.pruning dirnames manifestLibs)

/-- The next step of a process. -/
def next (process : ℕ) : Place → Cache
  | .idle => cache
  | .waiting job => cache.acquire process job
  | .inside lock stage => cache.advance process lock stage
  | .pruning [] _ =>
    -- every library is done; without a lock, the rows of projects that are gone go
    { cache.goto process .idle with
      registry := ⟨cache.registry.rows.filter fun row => cache.world.isThere row.project⟩ }
  | .pruning (dirname :: rest) manifestLibs =>
    cache.goto process (.waiting (.prune ⟨dirname, rest, manifestLibs⟩))

/-- Where an operation begins. -/
def place : Operation → Place
  | .resolve resolution => .waiting (.resolve resolution)
  | .forget projects lib => .waiting (.forget projects lib)
  | .prune manifestLibs => .pruning (scanCache cache.root cache.disk).libs manifestLibs
  | .removeIfUnreferenced dirname => .waiting (.removeIfUnreferenced dirname)

/-- One step; a process that is busy begins nothing. -/
def step : CacheLabel → Cache
  | .start process operation =>
    match cache.places process with
    | .idle => cache.goto process (cache.place operation)
    | _ => cache
  | .next process => cache.next process (cache.places process)
  | .stop process => (cache.release process).goto process .idle
  | .change world => { cache with world }

/-- Nobody is doing anything, and no lock is held. -/
def Idle : Prop := (∀ process, cache.places process = .idle) ∧ ∀ lock, cache.locks lock = none

/-- The step drops the rows of a key because someone asked to. -/
def forgets (key : String × String) : CacheLabel → Bool
  | .next process =>
    match cache.places process with
    | .inside _ (.forget projects lib) =>
      lib == key.2 && projects.any fun project => components (bytes key.1) == components project
    | _ => false
  | _ => false

/-- The step changes what the project of a key has in its manifests and lockfiles while a prune reads them. -/
def Disturbs (key : String × String) : CacheLabel → Prop
  | .change world =>
    (world.discover key.1 ≠ cache.world.discover key.1 ∨ world.findVersion key.1 ≠ cache.world.findVersion key.1) ∧
      ∃ process lock task seen worktrees keep unseen row reading,
        cache.places process = .inside lock (.weigh task seen worktrees keep unseen row reading) ∧ row.key = key
  | _ => False

end Cache

section Lookups

variable {disk : Disk} {dirname dirname' entry entry' : String}

/-- What a directory holds once another one is made. -/
theorem Disk.mem_add : entry ∈ (disk.add dirname entry').entries dirname' ↔
    entry ∈ disk.entries dirname' ∨ dirname' = dirname ∧ entry = entry' := by
  unfold Disk.add
  split
  · rename_i hthere
    exact (or_iff_left_of_imp fun ⟨hdir, hentry⟩ => hdir ▸ hentry ▸ hthere).symm
  · rw [Disk.entries, Disk.entries, ExtTreeMap.getD_insert]
    by_cases hdir : dirname = dirname'
    · subst hdir
      simp [Disk.entries]
    · simp [hdir, Ne.symm hdir, Disk.entries]

/-- What a directory holds once one in it is deleted. -/
theorem Disk.mem_remove : entry ∈ (disk.remove dirname entry').entries dirname' ↔
    entry ∈ disk.entries dirname' ∧ ¬ (dirname' = dirname ∧ entry = entry') := by
  unfold Disk.remove
  rw [Disk.entries, Disk.entries, ExtTreeMap.getD_insert]
  by_cases hdir : dirname = dirname'
  · subst hdir
    simp [Disk.entries]
  · simp [hdir, Ne.symm hdir, Disk.entries]

/-- What the directories hold once one of them is deleted. -/
theorem Disk.mem_erase : entry ∈ Disk.entries (disk.erase dirname) dirname' ↔
    entry ∈ disk.entries dirname' ∧ dirname' ≠ dirname := by
  rw [Disk.entries, Disk.entries, ExtTreeMap.getD_erase]
  by_cases hdir : dirname = dirname'
  · simp [hdir]
  · simp [hdir, Ne.symm hdir]

/-- A project that wants its library selects a checkout of it, when its manifests are read as they are. -/
theorem selects_of_wants {world : World} {data : Data} {row : RefRow} (hrow : row ∈ data.rows)
    (hwants : world.wants row.project row.lib = true) :
    (liveReference world (world.discover row.project) data row.project row.lib).isSome = true := by
  have hexisting : (keepExistingRow data row.project row.lib).isSome = true := by
    rw [keepExistingRow, Option.isSome_map, List.find?_isSome]
    exact ⟨row, hrow, by simp⟩
  rw [World.wants, Bool.and_eq_true] at hwants
  unfold liveReference
  have hselects := hwants.2
  cases hlibs : world.discover row.project with
  | none => exact hexisting
  | some libs =>
    rw [hlibs] at hselects
    cases hentry : libs.find? fun entry => entry.name == row.lib with
    | none => simp [hentry] at hselects
    | some entry =>
      simp only [hentry, Option.bind_some] at hselects ⊢
      cases hversion : currentVersion world entry row.project with
      | none => exact hexisting
      | some version =>
        rw [hversion] at hselects
        exact hselects

/-- A checkout that a kept row points at is not deleted. -/
theorem not_mem_delete {keep : List RefRow} {worktrees : List (String × List String)} {manifestLibs : List String}
    {row : RefRow} (hrow : row ∈ keep) : (row.lib, row.version) ∉ (planFrom keep worktrees manifestLibs).delete := by
  intro hmem
  simp only [planFrom, List.mem_flatMap, List.mem_map, List.mem_filter] at hmem
  obtain ⟨⟨lib, dirs⟩, _, dir, ⟨_, hunreferenced⟩, heq⟩ := hmem
  rw [heq, List.contains_eq_mem, Bool.not_eq_true', decide_eq_false_iff_not] at hunreferenced
  exact hunreferenced (List.mem_map_of_mem hrow)

/-- What is deleted for one library belongs to it. -/
theorem fst_of_mem_delete {keep : List RefRow} {lib : String} {dirs manifestLibs : List String}
    {pair : String × String} (h : pair ∈ (planFrom keep [(lib, dirs)] manifestLibs).delete) : pair.1 = lib := by
  simp only [planFrom, List.flatMap_singleton, List.mem_map] at h
  obtain ⟨dir, _, rfl⟩ := h
  rfl

end Lookups

end Devkit.Docs
