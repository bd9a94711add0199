import Devkit.Ports.Rows
import Mathlib.Data.List.AList

/-!
# The supervisor table

The daemon's record of the servers it watches, by owner, in the table's own order. A child
it spawned can be launched again; a survivor of a previous daemon cannot. Memory and health
counters are outside the model: what they lead to is a signal, seen as the child's exit.
-/

namespace Devkit.Daemon

open Devkit.Ports

/-- Everything needed to spawn a process again. -/
structure Launch where
  argv : List String
  cwd : String
  env : List (String × String)
deriving DecidableEq

/-- How a process is watched: reaped as a child, or polled as a survivor. -/
inductive Watch
  | owned
  | adopted
deriving DecidableEq

/-- One watched server. -/
structure Child where
  pid : ℕ
  port : UInt16
  logfile : String
  watch : Watch
  restarts : List ℕ
  launch : Option Launch
deriving DecidableEq

/-- The table and the crash-loop budget. -/
structure Supervisor where
  children : AList fun _ : Owner => Child
  maxRestarts : ℕ
  window : ℕ

namespace Supervisor

/-- The child watched under a key. -/
def child (sup : Supervisor) (key : Owner) : Option Child := sup.children.lookup key

/-- Write a child under a key. -/
def put (sup : Supervisor) (key : Owner) (child : Child) : Supervisor :=
  { sup with children := sup.children.insert key child }

/-- Watch a child the daemon spawned. -/
def insertOwned (sup : Supervisor) (key : Owner) (pid : ℕ) (port : UInt16) (logfile : String)
    (launch : Launch) : Supervisor :=
  sup.put key ⟨pid, port, logfile, .owned, [], some launch⟩

/-- Watch a survivor of a previous daemon. -/
def insertAdopted (sup : Supervisor) (key : Owner) (pid : ℕ) (port : UInt16) (logfile : String) :
    Supervisor :=
  sup.put key ⟨pid, port, logfile, .adopted, [], none⟩

/-- Stop watching a key. -/
def remove (sup : Supervisor) (key : Owner) : Supervisor :=
  { sup with children := sup.children.erase key }

/-- What is needed to respawn a key: only a child the daemon spawned has it. -/
def launchOf (sup : Supervisor) (key : Owner) : Option (Launch × String × UInt16) :=
  (sup.child key).bind fun c => c.launch.map fun launch => (launch, c.logfile, c.port)

/-- Record a key's new process after a respawn. -/
def setPid (sup : Supervisor) (key : Owner) (pid : ℕ) : Supervisor :=
  match sup.child key with
  | some c => sup.put key { c with pid, watch := .owned }
  | none => sup

/-- The restarts still inside the window. -/
def recent (sup : Supervisor) (now : ℕ) (restarts : List ℕ) : List ℕ :=
  restarts.filter fun time => now - time < sup.window

/-- Charge one restart to a key's budget, if one is left in the window. -/
def mayRestart (sup : Supervisor) (now : ℕ) (key : Owner) : Supervisor × Bool :=
  match sup.child key with
  | none => (sup, false)
  | some c =>
    let restarts := sup.recent now c.restarts
    if restarts.length < sup.maxRestarts then
      (sup.put key { c with restarts := restarts ++ [now] }, true)
    else (sup.put key { c with restarts }, false)

/-- Whether a key's budget allows a restart, without charging one. -/
def canRestart (sup : Supervisor) (now : ℕ) (key : Owner) : Supervisor × Bool :=
  match sup.child key with
  | none => (sup, false)
  | some c =>
    let restarts := sup.recent now c.restarts
    (sup.put key { c with restarts }, restarts.length < sup.maxRestarts)

/-- The keys whose process is gone, given the answer for each watched process. -/
def reapOnce (sup : Supervisor) (gone : Child → Bool) : List Owner :=
  (sup.children.entries.filter fun row => row.2.pid != 0 && gone row.2).map Sigma.fst

/-- A lookup after a child is written. -/
theorem child_put (sup : Supervisor) (key other : Owner) (c : Child) :
    (sup.put key c).child other = if other = key then some c else sup.child other := by
  split
  · rename_i heq
    subst heq
    exact AList.lookup_insert sup.children
  · rename_i hne
    exact AList.lookup_insert_ne hne

/-- A lookup after a key is removed. -/
theorem child_remove (sup : Supervisor) (key other : Owner) :
    (sup.remove key).child other = if other = key then none else sup.child other := by
  split
  · rename_i heq
    subst heq
    exact AList.lookup_erase other sup.children
  · rename_i hne
    exact AList.lookup_erase_ne hne

/-- A new process is recorded on a watched key only. -/
theorem child_setPid (sup : Supervisor) (key other : Owner) (pid : ℕ) :
    (sup.setPid key pid).child other =
      if other = key then (sup.child key).map fun c => { c with pid, watch := .owned }
      else sup.child other := by
  unfold setPid
  cases hchild : sup.child key with
  | none =>
    by_cases heq : other = key
    · subst heq
      simp [hchild]
    · simp [heq]
  | some c => simp [child_put]

/-- Charging a restart keeps the processes of the table. -/
theorem pid_mayRestart (sup : Supervisor) (now : ℕ) (key other : Owner) :
    ((sup.mayRestart now key).1.child other).map Child.pid = (sup.child other).map Child.pid := by
  unfold mayRestart
  cases hchild : sup.child key with
  | none => rfl
  | some c =>
    dsimp only
    split <;> rw [child_put] <;> split <;> simp_all

end Supervisor

end Devkit.Daemon
