import Devkit.Common.Segments
import Devkit.Library.OrderedMap

/-!
# The lock registry

Rows are keyed by checkout root and path. The operations are those of the registry's
model: acquiring a batch of paths, deciding one write, releasing by name, by holder or
by holder prefix, and pruning rows whose lease lapsed or whose anchor process is gone.

Each operation sees one moment: the clock reading it was called with and the answers the
process probe gives while it runs. Reading and writing the registry file, and the gate
that keeps a direct writer off a running daemon's registry, are outside the model.
-/

namespace Devkit.Locks

open Devkit.Common
open Devkit.Library
open Std

/-- A checkout root. It names a directory, so it holds no NUL character. -/
structure Root where
  text : String
  noNul : '\x00' ∉ text.toList
deriving DecidableEq

/-- One claim: `path` under `root`, held by `holder` since `ts` for `ttl` seconds, where a
`ttl` of zero never expires. -/
structure LockEntry where
  path : String
  root : Root
  holder : String
  pid : Option ℕ
  note : Option String
  ts : ℕ
  ttl : ℕ
deriving DecidableEq

/-- The registry: rows under their composite keys. -/
structure Data where
  locks : ExtTreeMap String LockEntry

/-- What an operation sees of the world: the clock it is given and the process probe. -/
structure Moment where
  now : ℕ
  pidAlive : ℕ → Bool

/-- Registry key for a claim: root and path joined by a NUL. -/
def keyFor (root : Root) (path : String) : String := root.text ++ "\x00" ++ path

/-- Two root-relative paths overlap: equal, or one a path-component ancestor of the other.
The project root "." overlaps everything. -/
def pathsOverlap (a b : String) : Bool :=
  if a == b || a == "." || b == "." then true
  else
    let (short, long) := if a.utf8ByteSize ≤ b.utf8ByteSize then (a, b) else (b, a)
    continues short long

/-- `existing` is the writer itself or an ancestor of it in the agent tree. -/
def isAncestorOrSelf (existing writer : String) : Bool :=
  existing == writer || continues existing writer

/-- Two holders on one session line: equal, or one an ancestor of the other. -/
def onOneAncestryLine (a b : String) : Bool := isAncestorOrSelf a b || isAncestorOrSelf b a

/-- A path acquired by a request, with the lease it was given. -/
structure Acquired where
  path : String
  ttlSecs : ℕ
deriving DecidableEq

/-- A requested path that a live row of the caller's own session line already covers. -/
structure AlreadyHeld where
  path : String
  ttlSecs : ℕ
deriving DecidableEq

/-- Why a release left a row alone. -/
inductive RefusedBecause
  | sameSessionLine
  | otherSession
deriving DecidableEq

/-- A path a release left alone, and who holds it. -/
structure Refusal where
  path : String
  heldBy : String
  reason : RefusedBecause
deriving DecidableEq

/-- A live row in the way of a request. -/
structure Conflict where
  path : String
  heldBy : String
  ageSecs : ℕ
  note : Option String
deriving DecidableEq

/-- Outcome of evaluating one write against the registry. -/
inductive WriteDecision
  | acquired
  | allowedByOwnership
  | denied (conflicts : List Conflict)
deriving DecidableEq

/-- Outcome of a batch request. -/
structure AcquireOutcome where
  acquired : List Acquired
  alreadyHeld : List AlreadyHeld
  conflicts : List Conflict
deriving DecidableEq

/-- A lock is dead when its lease has lapsed, or its anchor process is known and gone. -/
def entryDead (m : Moment) (e : LockEntry) : Bool :=
  if e.ttl != 0 && e.ttl ≤ m.now - e.ts then true
  else
    match e.pid with
    | some pid => !m.pidAlive pid
    | none => false

/-- `claim` covers every path created fresh under `dir`: it is `dir` or a directory above it. -/
def coversChildren (claim dir : String) : Bool := claim == "." || claim == dir || continues claim dir

namespace Data

/-- The registry before any claim. -/
def empty : Data := ⟨∅⟩

/-- Remove every dead lock; also how many were dropped. -/
def pruneDead (m : Moment) (d : Data) : Data × ℕ :=
  let kept := d.locks.filter fun _ e => !entryDead m e
  (⟨kept⟩, d.locks.size - kept.size)

/-- Conflicts that would block acquiring `paths`: live rows of another session line whose
path overlaps a requested one. -/
def check (m : Moment) (d : Data) (root : Root) (paths : List String) (holder : String) :
    List Conflict :=
  paths.flatMap fun req =>
    (rows d.locks).filterMap fun e =>
      if e.root == root && !onOneAncestryLine e.holder holder && !entryDead m e &&
          pathsOverlap e.path req then
        some ⟨req, e.holder, m.now - e.ts, e.note⟩
      else none

/-- Conflicts that would block creating a fresh name under each of `dirs`; each names the row. -/
def checkCovering (m : Moment) (d : Data) (root : Root) (dirs : List String) (holder : String) :
    List Conflict :=
  dirs.flatMap fun dir =>
    (rows d.locks).filterMap fun e =>
      if e.root == root && !onOneAncestryLine e.holder holder && !entryDead m e &&
          coversChildren e.path dir then
        some ⟨e.path, e.holder, m.now - e.ts, e.note⟩
      else none

/-- One path of a granted batch: renew a live row of another holder on the line, else write
the caller's own row. -/
def acquireOne (m : Moment) (root : Root) (holder : String) (pid : Option ℕ) (note : Option String)
    (ttl : ℕ) (state : Data × List Acquired × List AlreadyHeld) (req : String) :
    Data × List Acquired × List AlreadyHeld :=
  let (d, acquired, alreadyHeld) := state
  let key := keyFor root req
  let own : LockEntry := ⟨req, root, holder, pid, note, m.now, ttl⟩
  match d.locks[key]? with
  | some e =>
    -- Only a row of the very same holder is rewritten; the lease of a kept row stays its holder's.
    if e.holder != holder && !entryDead m e then
      (⟨d.locks.insert key { e with ts := m.now }⟩, acquired, alreadyHeld ++ [⟨req, e.ttl⟩])
    else (⟨d.locks.insert key own⟩, acquired ++ [⟨req, ttl⟩], alreadyHeld)
  | none => (⟨d.locks.insert key own⟩, acquired ++ [⟨req, ttl⟩], alreadyHeld)

/-- All-or-nothing acquire: with any conflict nothing changes, else every path is acquired
or found held on the caller's own session line. -/
def tryAcquire (m : Moment) (d : Data) (root : Root) (paths : List String) (holder : String)
    (pid : Option ℕ) (note : Option String) (ttl : ℕ) : Data × AcquireOutcome :=
  let conflicts := d.check m root paths holder
  if !conflicts.isEmpty then (d, ⟨[], [], conflicts⟩)
  else
    let (d', acquired, alreadyHeld) :=
      paths.foldl (acquireOne m root holder pid note ttl) (d, [], [])
    (d', ⟨acquired, alreadyHeld, []⟩)

/-- One path of a release. -/
def releaseOne (root : Root) (holder : String) (force : Bool)
    (state : Data × List String × List Refusal) (req : String) : Data × List String × List Refusal :=
  let (d, released, refused) := state
  let key := keyFor root req
  match d.locks[key]? with
  | some e =>
    if e.holder == holder || force then (⟨d.locks.erase key⟩, released ++ [req], refused)
    else
      let reason := if onOneAncestryLine e.holder holder then .sameSessionLine else .otherSession
      (d, released, refused ++ [⟨req, e.holder, reason⟩])
  | none => (d, released, refused)

/-- Release named paths. Without `force` a path of another holder is refused. -/
def doRelease (d : Data) (root : Root) (paths : List String) (holder : String) (force : Bool) :
    Data × List String × List Refusal :=
  paths.foldl (releaseOne root holder force) (d, [], [])

/-- Keys of every dead lock. -/
def deadKeys (m : Moment) (d : Data) : List String :=
  (d.locks.toList.filter fun row => entryDead m row.2).map Prod.fst

/-- Release every lock held by exactly `holder`, in every root; also the freed paths. -/
def releaseAll (d : Data) (holder : String) : Data × List String :=
  (⟨d.locks.filter fun _ e => !(e.holder == holder)⟩,
    ((rows d.locks).filter fun e => e.holder == holder).map (·.path))

/-- The live overlapping locks whose holder is not an ancestor-or-self of the writer. -/
def writeBlockers (m : Moment) (d : Data) (root : Root) (path writer : String) : List Conflict :=
  (rows d.locks).filterMap fun e =>
    if e.root == root && !entryDead m e && pathsOverlap e.path path &&
        !isAncestorOrSelf e.holder writer then
      some ⟨path, e.holder, m.now - e.ts, e.note⟩
    else none

/-- A live row under `root` whose path overlaps `path`: the rows a granted write renews. -/
def concerns (m : Moment) (root : Root) (path : String) (e : LockEntry) : Bool :=
  e.root == root && !entryDead m e && pathsOverlap e.path path

/-- Decide one write, renewing the writer's own and its ancestors' overlapping rows. Only a
row at or above `path` permits it without a new row. -/
def decideWrite (m : Moment) (d : Data) (root : Root) (path writer : String) (pid : Option ℕ)
    (note : Option String) (ttl : ℕ) : Data × WriteDecision :=
  let blockers := d.writeBlockers m root path writer
  if !blockers.isEmpty then (d, .denied blockers)
  else
    let covered := (rows d.locks).any fun e => concerns m root path e && coversChildren e.path path
    let renewed := d.locks.map fun _ e => if concerns m root path e then { e with ts := m.now } else e
    if covered then (⟨renewed⟩, .allowedByOwnership)
    else
      (⟨renewed.insert (keyFor root path) ⟨path, root, writer, pid, note, m.now, ttl⟩⟩, .acquired)

/-- Release every lock whose holder is `top` or a descendant, across all roots. -/
def releasePrefix (d : Data) (top : String) : Data × List String :=
  let matching := d.locks.toList.filter fun row => isAncestorOrSelf top row.2.holder
  (⟨eraseAll d.locks (matching.map Prod.fst)⟩, matching.map fun row => row.2.path)

end Data

end Devkit.Locks
