import Mathlib.Data.List.Basic

/-!
# The status of issue worktrees

Each worktree is judged on its record, its tree, its pull request, its landing on the default branch and
its issue's state. A pull request is found by the locator the worktree's record holds, or else by the
branch; both are asked in one batch and paired with the worktrees again.

Hash maps are their lookup functions. The forge, the tracker and the repository are what they answer;
comparisons with a merged head are those read after its fetch was tried.
-/

namespace Devkit.Ticket

/-- A repository on a host. -/
structure Repo where
  host : String
  slug : String
deriving DecidableEq

/-- A pull request by number, in the named repository or in the default one. -/
structure PrLocator where
  repo : Option String
  number : ℕ
deriving DecidableEq

/-- What a lookup reads of a pull request. -/
structure PrBrief where
  number : ℕ
  state : String
  url : String
  headRefOid : String
  isDraft : Bool
deriving DecidableEq

/-- The answer for one branch. -/
inductive HeadLookup
  | unique (pr : PrBrief)
  | noMatch
  | ambiguous (candidates : List PrBrief)
  | unavailable (reason : String)
deriving DecidableEq

/-- A pull request to name. -/
structure PrRef where
  url : String
  number : ℕ
deriving DecidableEq

/-- A worktree's pull request, as the report knows it. -/
inductive PrStatus
  | none
  | unique (number : ℕ) (state url : String) (isDraft : Bool) (ahead : Option ℕ)
  | ambiguous (candidates : List PrRef)
  | unknown (reason : String)
  | untracked (pushed : Bool)
deriving DecidableEq

/-- Whether a worktree holds uncommitted changes. -/
inductive Tree
  | clean
  | dirty
  | unknown (why : String)
deriving DecidableEq

/-- Whether a worktree may be removed. -/
inductive Verdict
  | finished
  | held (reasons : List String)
  | unknown (reasons : List String)
deriving DecidableEq

/-- Whether HEAD is on the remote's default branch. -/
inductive Landed
  | yes
  | no (base : String)
  | unknown (why : String)
deriving DecidableEq

/-- A worktree's issue. -/
inductive IssueId
  | tracker (id : String)
  | noIssue
  | unknown
deriving DecidableEq

/-- The id to ask the tracker about. -/
def IssueId.asked : IssueId → Option String
  | .tracker id => some id
  | .noIssue | .unknown => none

/-- The kinds of issue states. -/
inductive StateKind
  | triage
  | backlog
  | unstarted
  | started
  | completed
  | canceled
deriving DecidableEq

/-- An issue's state in the tracker. -/
structure State where
  kind : StateKind
  name : String
deriving DecidableEq

/-- The kinds of trackers. -/
inductive TrackerKind
  | linear
  | github
  | none
deriving DecidableEq

/-- What the verdict reads of the tracker. -/
structure TrackerInfo where
  kind : TrackerKind
  ready : Bool
  declared : Bool
deriving DecidableEq

/-- One worktree with its pull request, its issue's state and its verdict. -/
structure IssueWorktree where
  worktree : String
  branch : String
  issueId : IssueId
  recordUnreadable : Bool
  tree : Tree
  pr : PrStatus
  state : Option State
  landed : Landed
  verdict : Verdict
deriving DecidableEq

/-- What discovery reads of a worktree. -/
structure Found where
  worktree : String
  branch : String
  issueId : IssueId
  recordUnreadable : Bool
deriving DecidableEq

/-- The row of a worktree before anything else is read. -/
def IssueWorktree.at (found : Found) : IssueWorktree where
  worktree := found.worktree
  branch := found.branch
  issueId := found.issueId
  recordUnreadable := found.recordUnreadable
  tree := .unknown "not checked"
  pr := .none
  state := none
  landed := .unknown "HEAD not checked against the default branch"
  verdict := .unknown []

/-- The branch name of a detached worktree. -/
def detached : String := "DETACHED"

/-- The row is finished on repository evidence rather than on a merged pull request. -/
def IssueWorktree.provesLanding (row : IssueWorktree) : Bool :=
  row.branch != detached && (row.issueId == .unknown || row.pr == .none)

/-- A hash map. -/
abbrev Table (V : Type) := String → Option V

/-- The map of the pairs; a later pair of one key replaces an earlier one. -/
def collect {V : Type} (pairs : List (String × V)) : Table V := fun key =>
  (pairs.reverse.find? fun pair => pair.1 == key).map Prod.snd

/-- The map with the entries of another one put in. -/
def extend {V : Type} (table entries : Table V) : Table V := fun key => (entries key).or (table key)

/-- The answers of a forge: many pull requests by number, in order, and many by branch. -/
structure Forge where
  prs : List (Repo × ℕ) → Except String (List (Except String (Option PrBrief)))
  prsByHead : Repo → List String → Table HeadLookup

/-- The kinds of forges. -/
inductive ForgeKind
  | github
  | gitlab
  | forgejo
  | none
deriving DecidableEq

/-- The forge a project resolved to, and its pull-request repository. -/
structure ResolvedForge where
  kind : ForgeKind
  declared : Bool
  reason : String
  repo : Except String Repo
  forge : Forge

/-- The answers of the repository. A fetch of the default branch gives the comparisons read after it. -/
structure Repository where
  ahead : String → String → Except String ℕ
  pushed : String → Except String Bool
  defaultBranch : String → Except String String
  fetch : String → String → String → Except String (String → String → Except String ℕ)

/-- A segment of a slug that forges allow. -/
def okSegment (segment : String) : Bool :=
  !segment.isEmpty && segment.toList.all (fun c => c.isAlphanum || c == '-' || c == '_' || c == '.') &&
    segment != "." && segment != ".."

/-- A slug has two or more segments that forges allow. -/
def validateSlug (slug : String) : Except String Unit :=
  let segments := (slug.toList.splitOn '/').map String.ofList
  if 2 ≤ segments.length && segments.all okSegment then .ok ()
  else .error ("`" ++ slug ++ "` is not an owner/repo repository slug")

/-- The repository a locator names, or the default one. -/
def PrLocator.resolveOr (loc : PrLocator) (default : Repo) : Except String Repo :=
  match loc.repo with
  | some slug => (validateSlug slug).map fun _ => ⟨default.host, slug⟩
  | none => .ok default

/-- The rows a record binds to a pull request, and the branches of the others. -/
def partitionByRecord (recorded : String → String → Option PrLocator) :
    List IssueWorktree → List (String × PrLocator) × List String
  | [] => ([], [])
  | row :: rest =>
    let (bound, branches) := partitionByRecord recorded rest
    if row.branch = detached then (bound, branches)
    else
      match recorded row.worktree row.branch with
      | some loc => ((row.branch, loc) :: bound, branches)
      | none => (bound, row.branch :: branches)

/-- The lookup a recorded pull request's answer stands for. -/
def recordedResult (found : Except String (Option PrBrief)) (n : ℕ) : HeadLookup :=
  match found with
  | .ok (some pr) => .unique pr
  | .ok none => .unavailable ("recorded PR #" ++ toString n ++ " no longer resolves")
  | .error reason => .unavailable reason

/-- Pair each recorded branch with its answer; a branch past the end of the answers has none. -/
def recordedAnswers (pending : List (String × ℕ)) (answers : List (Except String (Option PrBrief))) :
    Table HeadLookup :=
  let padded := (answers.map some ++ List.replicate (pending.length - answers.length) none).take pending.length
  collect ((pending.zip padded).map fun pair =>
    (pair.1.1, recordedResult (pair.2.getD (.error
      ("the batched lookup did not answer for #" ++ toString pair.1.2))) pair.1.2))

/-- The targets to ask for, with the branches they stand for, and the locators that name no repository. -/
def targetsOf (default : Repo) :
    List (String × PrLocator) → List (Repo × ℕ) × List (String × ℕ) × List (String × HeadLookup)
  | [] => ([], [], [])
  | (branch, loc) :: rest =>
    let (targets, pending, out) := targetsOf default rest
    match loc.resolveOr default with
    | .ok repo => ((repo, loc.number) :: targets, (branch, loc.number) :: pending, out)
    | .error reason => (targets, pending, (branch, .unavailable reason) :: out)

/-- Every recorded pull request, by one read. -/
def recordedLookups (bound : List (String × PrLocator)) (default : Repo) (forge : Forge) : Table HeadLookup :=
  if bound.isEmpty then fun _ => none
  else
    let (targets, pending, out) := targetsOf default bound
    let answers :=
      match forge.prs targets with
      | .ok found => found
      | .error reason => pending.map fun _ => .error reason
    extend (collect out) (recordedAnswers pending answers)

/-- The recorded lookups, and the batch's for the branches they leave out. -/
def mergeLookups (recorded batch : Table HeadLookup) : Table HeadLookup := extend batch recorded

/-- Every branch marked unavailable for one reason. -/
def unavailableAll (branches : List String) (reason : String) : Table HeadLookup :=
  collect (branches.map fun branch => (branch, .unavailable reason))

/-- How many commits at HEAD a commit does not reach, if that can be worked out. -/
def aheadOf (repository : Repository) (worktree oid : String) : Option ℕ :=
  let hexDigit (c : Char) : Bool := c.isDigit || ('a' ≤ c && c ≤ 'f') || ('A' ≤ c && c ≤ 'F')
  if oid.isEmpty || !oid.toList.all hexDigit then none
  else (repository.ahead worktree oid).toOption

/-- Whether the checked-out commit is on a remote; no answer reads as no. -/
def pushedOf (repository : Repository) (worktree : String) : Bool :=
  match repository.pushed worktree with
  | .ok pushed => pushed
  | .error _ => false

/-- A lookup as the report's status. -/
def prStatusOf : HeadLookup → PrStatus
  | .unique pr => .unique pr.number pr.state pr.url pr.isDraft none
  | .noMatch => .none
  | .ambiguous candidates => .ambiguous (candidates.map fun pr => ⟨pr.url, pr.number⟩)
  | .unavailable reason => .unknown reason

/-- The lookups as statuses, a merged head compared with the worktree on its branch. -/
def Prs.of (repository : Repository) (lookups : Table HeadLookup) (rows : List IssueWorktree) : Table PrStatus :=
  let worktreeOn := collect (rows.map fun row => (row.branch, row.worktree))
  fun branch => (lookups branch).map fun lookup =>
    match lookup, worktreeOn branch with
    | .unique pr, some worktree =>
      if pr.state = "MERGED" then
        .unique pr.number pr.state pr.url pr.isDraft (aheadOf repository worktree pr.headRefOid)
      else prStatusOf lookup
    | _, _ => prStatusOf lookup

/-- Lay a row's branch's status on the row. -/
def Prs.apply (prs : Table PrStatus) (row : IssueWorktree) : IssueWorktree :=
  if row.branch = detached then row
  else
    match prs row.branch with
    | some status => { row with pr := status }
    | none => row

/-- The status of every branch's pull request. -/
def fetchPrs (repository : Repository) (recorded : String → String → Option PrLocator) (f : ResolvedForge)
    (rows : List IssueWorktree) : Except String (Table PrStatus) :=
  let attached := rows.filter fun row => row.branch != detached
  match f.kind with
  | .none =>
    if f.declared then
      .ok (collect (attached.map fun row => (row.branch, .untracked (pushedOf repository row.worktree))))
    else .ok (Prs.of repository (unavailableAll (attached.map (·.branch)) ("no forge: " ++ f.reason)) rows)
  | .github | .gitlab | .forgejo => do
    let repo ← f.repo
    let (bound, branches) := partitionByRecord recorded rows
    let recorded := recordedLookups bound repo f.forge
    let batch := f.forge.prsByHead repo branches
    .ok (Prs.of repository (mergeLookups recorded batch) rows)

/-- The text before and after the first separator. -/
def splitOnce (sep : Char) (text : String) : Option (String × String) :=
  match text.toList.dropWhile (· != sep) with
  | [] => none
  | _ :: rest => some (String.ofList (text.toList.takeWhile (· != sep)), String.ofList rest)

/-- The default branch, freshly fetched: its name and the comparisons read after the fetch. -/
def freshBase (repository : Repository) (repo : String) :
    Except String (String × (String → String → Except String ℕ)) := do
  let base ← repository.defaultBranch repo
  match splitOnce '/' base with
  | none => .error (base ++ " names no remote")
  | some (remote, branch) =>
    match repository.fetch repo remote ("+refs/heads/" ++ branch ++ ":refs/remotes/" ++ base) with
    | .ok compare => .ok (base, compare)
    | .error reason => .error ("fetch of " ++ base ++ " failed: " ++ reason)

/-- Whether the worktree's HEAD is on the default branch. -/
def landedOn (base : Except String (String × (String → String → Except String ℕ))) (worktree : String) : Landed :=
  match base with
  | .error reason => .unknown reason
  | .ok (base, compare) =>
    match compare worktree base with
    | .ok 0 => .yes
    | .ok _ => .no base
    | .error reason => .unknown ("HEAD not compared with " ++ base ++ ": " ++ reason)

/-- Compare the rows that prove landing with the default branch, fetched once from the first one. -/
def checkLandedRows (repository : Repository) (rows : List IssueWorktree) : List IssueWorktree :=
  match rows.filter IssueWorktree.provesLanding with
  | [] => rows
  | first :: _ =>
    let base := freshBase repository first.worktree
    rows.map fun row =>
      if row.provesLanding then { row with landed := landedOn base row.worktree } else row

/-- Lay the statuses on the rows and compare those that prove landing. -/
def checkLanded (repository : Repository) (rows : List IssueWorktree) (prs : Table PrStatus) : List IssueWorktree :=
  checkLandedRows repository (rows.map (Prs.apply prs))

/-- How a tracker names itself. -/
def label : TrackerKind → String
  | .linear => "Linear"
  | .github => "GitHub"
  | .none => "tracker"

/-- The reasons that hold a row, and whether one of them is that an input could not be read. -/
structure Reasons where
  held : List String
  unknown : Bool

namespace Reasons

/-- A reason that holds the row. -/
def hold (reasons : Reasons) (reason : String) : Reasons := { reasons with held := reasons.held ++ [reason] }

/-- A reason that is an input not read. -/
def doubt (reasons : Reasons) (reason : String) : Reasons := ⟨reasons.held ++ [reason], true⟩

end Reasons

/-- The landing gate: no open pull request, and HEAD on the default branch. -/
def landingGate (row : IssueWorktree) (reasons : Reasons) : Reasons :=
  let reasons := match row.pr with
    | .unique number state _ _ _ =>
      if state = "OPEN" then reasons.hold ("PR #" ++ toString number ++ " open") else reasons
    | .none | .untracked _ => reasons
    | .ambiguous _ => reasons.hold "PR ambiguous"
    | .unknown reason => reasons.doubt ("PR unknown: " ++ reason)
  match row.landed with
  | .yes => reasons
  | .no base => reasons.hold ("HEAD not on " ++ base)
  | .unknown why => reasons.doubt why

/-- The merge gate: one merged pull request that reaches HEAD, or the commits on a remote. -/
def mergeGate (row : IssueWorktree) (reasons : Reasons) : Reasons :=
  match row.pr with
  | .unique _ state _ _ ahead =>
    if state = "MERGED" then
      match ahead with
      | some 0 => reasons
      | some n => reasons.hold (toString n ++ " commit(s) past the merged PR")
      | none => reasons.doubt "HEAD not compared with the merged PR"
    else reasons.hold "PR not merged"
  | .none => reasons.hold "no PR"
  | .ambiguous _ => reasons.hold "PR ambiguous"
  | .unknown reason => reasons.doubt ("PR unknown: " ++ reason)
  | .untracked true => reasons
  | .untracked false => reasons.hold "commits not on a remote"

/-- The state gate. -/
def stateGate (row : IssueWorktree) (tracker : TrackerInfo) (prOnly : Bool) (reasons : Reasons) : Reasons :=
  let nothingToWaitFor := row.issueId == .noIssue || row.issueId == .unknown ||
    (tracker.kind == .none && tracker.declared)
  if !prOnly && !nothingToWaitFor then
    match row.state with
    | some s => if s.kind != .completed then reasons.hold (label tracker.kind ++ " " ++ s.name) else reasons
    | none => if tracker.ready then reasons.doubt "tracker state unknown" else reasons.doubt "no tracker key"
  else reasons

/-- The tree gate. -/
def treeGate (row : IssueWorktree) (reasons : Reasons) : Reasons :=
  match row.tree with
  | .clean => reasons
  | .dirty => reasons.hold "dirty"
  | .unknown why => reasons.doubt ("tree unknown: " ++ why)

/-- Every reason the gates find. -/
def reasonsOf (row : IssueWorktree) (tracker : TrackerInfo) (prOnly byLanding : Bool) : Reasons :=
  let reasons : Reasons := ⟨[], false⟩
  let reasons := if row.recordUnreadable then reasons.doubt "issue record unreadable" else reasons
  let reasons := if byLanding then landingGate row reasons else mergeGate row reasons
  treeGate row (stateGate row tracker prOnly reasons)

/-- Whether the worktree may be removed, and every reason it may not. -/
def verdict (row : IssueWorktree) (tracker : TrackerInfo) (prOnly : Bool) : Verdict :=
  let byLanding := !prOnly && row.provesLanding
  if !row.recordUnreadable && !prOnly && !byLanding && row.issueId == .unknown then
    .held ["not an issue worktree"]
  else
    let reasons := reasonsOf row tracker prOnly byLanding
    if reasons.held.isEmpty then .finished
    else if reasons.unknown then .unknown reasons.held else .held reasons.held

/-- The row with the tree read for it, if one was. -/
def IssueWorktree.withTree (row : IssueWorktree) : Option Tree → IssueWorktree
  | some tree => { row with tree }
  | none => row

/-- The row with the state the tracker has for its issue, if it has one. -/
def IssueWorktree.withState (row : IssueWorktree) : Option State → IssueWorktree
  | some state => { row with state := some state }
  | none => row

/-- Attach trees in row order, pull requests and states, and judge every row. -/
def assemble (rows : List IssueWorktree) (trees : List Tree) (prs : Table PrStatus) (states : Table State)
    (tracker : TrackerInfo) (prOnly : Bool) : List IssueWorktree :=
  rows.mapIdx fun i row =>
    let row := Prs.apply prs (row.withTree trees[i]?)
    let row := row.withState (row.issueId.asked.bind states)
    { row with verdict := verdict row tracker prOnly }

/-- The report of the discovered worktrees. -/
def gather (repository : Repository) (recorded : String → String → Option PrLocator) (f : ResolvedForge)
    (found : List Found) (trees : List Tree) (states : Table State) (tracker : TrackerInfo) (prOnly : Bool) :
    Except String (List IssueWorktree) := do
  let rows := found.map IssueWorktree.at
  if rows.isEmpty then .ok (assemble rows [] (fun _ => none) (fun _ => none) tracker prOnly)
  else
    let prs ← fetchPrs repository recorded f rows
    .ok (assemble (checkLanded repository rows prs) trees prs states tracker prOnly)

end Devkit.Ticket
