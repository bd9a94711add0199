import Devkit.Locks.Resolver

/-!
# The write gate

What a write asks of the lock registry: paths to claim, directories to claim whole, and scopes to check
without claiming. The gate checks every scope first, then claims every path and every directory, each
at a clock reading of its own. An error ends the gate and denies the call.
-/

namespace Devkit.Hook

open Devkit.Common
open Devkit.Locks

/-- What a policy does with a finding. -/
inductive PolicyAction
  | block
  | warn
  | allow
deriving DecidableEq

/-- The text a gate's findings begin with. -/
def findingPrefix : String := "devkit write-harness:"

/-- The note the gate's rows carry. -/
def note : String := "write-harness"

/-- The lease of the gate's rows, in seconds. -/
def ttlSecs : ℕ := 1800

/-- A directory the registry is asked about, and which question to ask of it. -/
inductive ScopeCheck
  | tree (dir : String) (wholeCheckout : Bool)
  | fresh (dir : String)
  | covering (path : String)
deriving DecidableEq

/-- What a write asks of the registry. -/
structure Claims where
  paths : List String
  trees : List String
  scopes : List ScopeCheck
deriving DecidableEq

/-- The directory is the other one, or spelled below it. -/
def under (inner outer : String) : Bool := inner == outer || continues outer inner

namespace Claims

/-- Ask for nothing. -/
def empty : Claims := ⟨[], [], []⟩

/-- Ask for a path, once. -/
def path (claims : Claims) (path : String) : Claims :=
  if claims.paths.contains path then claims else { claims with paths := claims.paths ++ [path] }

/-- Ask for a check, once. -/
def scope (claims : Claims) (check : ScopeCheck) : Claims :=
  if claims.scopes.contains check then claims else { claims with scopes := claims.scopes ++ [check] }

/-- Ask for a directory whole, unless one above it is asked for; those below it are dropped. -/
def tree (claims : Claims) (dir : String) : Claims :=
  if claims.trees.any fun tree => under dir tree then claims
  else { claims with trees := (claims.trees.filter fun tree => !under tree dir) ++ [dir] }

end Claims

/-- A path from the session's working directory. -/
def resolveAgainst (cwd path : String) : String :=
  if path.toList.head? = some '/' then path
  else if cwd.toList.getLast? = some '/' then cwd ++ path else cwd ++ "/" ++ path

/-- The check, with its path resolved against the working directory. -/
def ScopeCheck.resolvedAgainst (cwd : String) : ScopeCheck → ScopeCheck
  | .tree dir wholeCheckout => .tree (resolveAgainst cwd dir) wholeCheckout
  | .fresh dir => .fresh (resolveAgainst cwd dir)
  | .covering path => .covering (resolveAgainst cwd path)

/-- The claims, with their paths resolved against the working directory. -/
def Claims.resolvedAgainst (claims : Claims) (cwd : String) : Claims :=
  ⟨claims.paths.map (resolveAgainst cwd), claims.trees.map (resolveAgainst cwd),
    claims.scopes.map (ScopeCheck.resolvedAgainst cwd)⟩

/-- The correction for a target that could not be determined. -/
def unresolvedFix : PolicyAction → String
  | .warn =>
    "Claim the destinations with `lockm acquire` before writing, or name a literal path and they are " ++
      "claimed for you."
  | .block | .allow =>
    "Name a literal path, or a variable assigned a literal earlier in the same command, or make the edit " ++
      "with a structured edit tool; those targets are claimed for you. A glob, or `find` from one " ++
      "directory, below the checkout root claims that directory instead. `lockm acquire` does not lift " ++
      "this block."

/-- What the gate found: blocks deny the call, warnings ride along with it. -/
structure WriteVerdict where
  blocks : List String
  warnings : List String
deriving DecidableEq

/-- Record a finding as the policy says. -/
def WriteVerdict.finding (verdict : WriteVerdict) (action : PolicyAction) (message : String) : WriteVerdict :=
  match action with
  | .block => { verdict with blocks := verdict.blocks ++ [message] }
  | .warn => { verdict with warnings := verdict.warnings ++ [message] }
  | .allow => verdict

/-- The deny reason naming every holder in the way. -/
def conflictMessage (conflicts : List Conflict) : String :=
  let who := ", ".intercalate (conflicts.map fun conflict => conflict.path ++ " (held by " ++ conflict.heldBy ++ ")")
  findingPrefix ++ " " ++ who ++ " is locked by another agent; edit a different file or wait for it to finish"

/-- The finding for a directory no claim can stand for. -/
def unlistedMessage (dir : String) (unresolved : PolicyAction) : String :=
  findingPrefix ++ " a write reaches paths under `" ++ dir ++ "` that could not be listed, and devkit claims " ++
    "such a set only in a directory below a checkout root. " ++ unresolvedFix unresolved

/-- The gate under way: the registry, how often it was asked, the conflicts met and the verdict so far. -/
structure Enforcing where
  data : Data
  asked : ℕ
  conflicts : List Conflict
  verdict : WriteVerdict

/-- The conflicts a decision names. -/
def deniedBy : WriteDecision → List Conflict
  | .denied conflicts => conflicts
  | .acquired | .allowedByOwnership => []

section Gate

variable (w : Checkouts) (clock : ℕ → Moment) (holder : String) (unresolved : PolicyAction)

/-- Ask one check. -/
def askScope (m : Moment) (d : Data) : ScopeCheck → Except String (List Conflict)
  | .tree dir wholeCheckout => w.checkScope m d dir wholeCheckout holder
  | .fresh dir => w.checkCovering m d dir holder
  | .covering path => w.checkCovering m d path holder

/-- Ask one check and keep its conflicts. An error leaves the registry as it is. -/
def checkOne (state : Enforcing) (check : ScopeCheck) : Except (Data × String) Enforcing :=
  match askScope w holder (clock state.asked) state.data check with
  | .error reason => .error (state.data, reason)
  | .ok conflicts => .ok { state with asked := state.asked + 1, conflicts := state.conflicts ++ conflicts }

/-- Claim one path. -/
def claimPath (state : Enforcing) (path : String) : Except (Data × String) Enforcing :=
  match w.decideWrite (clock state.asked) state.data path holder (some note) ttlSecs with
  | .error reason => .error (state.data, reason)
  | .ok (data, decision) =>
    .ok { state with data, asked := state.asked + 1, conflicts := state.conflicts ++ deniedBy decision }

/-- Claim one directory whole; one no claim can stand for is an unresolved write. -/
def claimDir (state : Enforcing) (dir : String) : Except (Data × String) Enforcing :=
  match w.claimTree (clock state.asked) state.data dir holder (some note) ttlSecs with
  | .error reason => .error (state.data, reason)
  | .ok (data, some decision) =>
    .ok { state with data, asked := state.asked + 1, conflicts := state.conflicts ++ deniedBy decision }
  | .ok (data, none) =>
    .ok { state with data, verdict := state.verdict.finding unresolved (unlistedMessage dir unresolved) }

/-- Check every scope, then claim every path and every directory. A scope conflict stops before any
claim. -/
def enforce (d : Data) (claims : Claims) : Except (Data × String) (Data × WriteVerdict) := do
  let checked ← claims.scopes.foldlM (checkOne w clock holder) ⟨d, 0, [], ⟨[], []⟩⟩
  if checked.conflicts.isEmpty then
    let claimed ← claims.paths.foldlM (claimPath w clock holder) checked
    let done ← claims.trees.foldlM (claimDir w clock holder unresolved) claimed
    if done.conflicts.isEmpty then .ok (done.data, done.verdict)
    else .ok (done.data, done.verdict.finding .block (conflictMessage done.conflicts))
  else .ok (checked.data, ⟨[conflictMessage checked.conflicts], []⟩)

/-- The gate's answer: a registry error denies. -/
def WriteGate.decide (d : Data) (claims : Claims) (cwd : String) : Data × WriteVerdict :=
  match enforce w clock holder unresolved d (claims.resolvedAgainst cwd) with
  | .ok answer => answer
  | .error (data, reason) =>
    (data, ⟨[findingPrefix ++ " registry error (fail-closed): " ++ reason], []⟩)

end Gate

end Devkit.Hook
