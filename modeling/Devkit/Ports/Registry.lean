import Devkit.Library.OrderedMap

/-!
# The port registry

Rows are keyed by port. A client reads a snapshot, probes processes and ports on it outside
the lock, and then commits in one critical section; the two halves are separate functions
here. A search for a free port that runs past the last port panics, which is no result.
-/

namespace Devkit.Ports

open Devkit.Library
open Std

/-- Whose server a row is for: a worktree's own, or a baseline. -/
inductive Role
  | workspace
  | baseline
deriving DecidableEq

/-- The key a reservation is idempotent for. -/
structure Owner where
  holder : String
  app : String
  role : Role
deriving DecidableEq

/-- One row: who holds the port, and the process serving it once it is recorded. -/
structure Entry where
  app : String
  holder : String
  role : Role
  pid : Option ℕ
  logfile : Option String
  ts : ℕ
deriving DecidableEq

/-- The key of a row. -/
def Entry.owner (e : Entry) : Owner := ⟨e.holder, e.app, e.role⟩

/-- The registry: rows by port. -/
structure Data where
  entries : ExtTreeMap UInt16 Entry

/-- The answers of the clock and the probes while a section of a call runs. -/
structure World where
  now : ℕ
  holderAlive : String → Bool
  pidAlive : ℕ → Bool
  listening : UInt16 → Bool

/-- How long a reservation without a process survives with nothing listening on its port. -/
def reservationGraceSecs : ℕ := 300

/-- A pid-less reservation of an owner. -/
def Owner.reservation (owner : Owner) (now : ℕ) : Entry :=
  ⟨owner.app, owner.holder, owner.role, none, none, now⟩

/-- The row is live: its holder exists, and its process lives or its reservation is backed or young. -/
def entryAlive (world : World) (port : UInt16) (e : Entry) : Bool :=
  world.holderAlive e.holder &&
    match e.pid with
    | some pid => world.pidAlive pid
    | none => world.listening port || world.now - e.ts < reservationGraceSecs

/-- The first port from `port` on that is not taken, searching at most `above` ports past it. -/
def freeFrom (taken : UInt16 → Bool) : ℕ → UInt16 → Option UInt16
  | 0, port => if taken port then none else some port
  | above + 1, port => if taken port then freeFrom taken above (port + 1) else some port

/-- The first port at or above `base` that is not taken. -/
def freePort (taken : UInt16 → Bool) (base : UInt16) : Option UInt16 :=
  freeFrom taken (65535 - base.toNat) base

namespace Data

/-- The registry before any reservation. -/
def empty : Data := ⟨∅⟩

/-- Ports whose row is no longer live. -/
def deadPorts (world : World) (d : Data) : List UInt16 :=
  (d.entries.toList.filter fun row => !entryAlive world row.1 row.2).map Prod.fst

/-- Remove the rows at a list of ports. -/
def removePorts (d : Data) (ports : List UInt16) : Data := ⟨eraseAll d.entries ports⟩

/-- The first port an owner holds. -/
def holds (d : Data) (owner : Owner) : Option UInt16 :=
  (d.entries.toList.find? fun row => row.2.owner == owner).map Prod.fst

/-- Write a reservation for an owner. -/
def reserve (d : Data) (owner : Owner) (port : UInt16) (now : ℕ) : Data :=
  ⟨d.entries.insert port (owner.reservation now)⟩

/-- Reserve a port for one owner, idempotently. -/
def allocOne (world : World) (d : Data) (owner : Owner) (base : UInt16) : Option (Data × UInt16) :=
  match d.holds owner with
  | some port => some (d, port)
  | none =>
    (freePort (fun port => d.entries.contains port || world.listening port) base).map fun port =>
      (d.reserve owner port world.now, port)

/-- Attach a process to a port's reservation, re-establishing the row if it is gone. -/
def recordPid (world : World) (d : Data) (port : UInt16) (owner : Owner) (pid : ℕ) (logfile : String) :
    Data :=
  let ts := match d.entries[port]? with
    | some e => e.ts
    | none => world.now
  ⟨d.entries.insert port ⟨owner.app, owner.holder, owner.role, some pid, some logfile, ts⟩⟩

/-- Release the listed ports that are present; returns them. -/
def releasePorts (d : Data) (ports : List UInt16) : Data × List UInt16 :=
  let freed := ports.filter d.entries.contains
  (d.removePorts freed, freed)

/-- Release every row of a holder, or those of one role; returns the ports freed. -/
def release (d : Data) (holder : String) (role : Option Role) : Data × List UInt16 :=
  let freed := (d.entries.toList.filter fun row =>
    row.2.holder == holder && role.all (row.2.role == ·)).map Prod.fst
  (d.removePorts freed, freed)

end Data

/-- A request for a port: the app and the port to search from. -/
structure Request where
  app : String
  base : UInt16
deriving DecidableEq

/-- Choose a port for one request on a snapshot that holds the choices made so far. -/
def chooseOne (world : World) (holder : String) (role : Role) (state : Data × List (String × UInt16))
    (req : Request) : Option (Data × List (String × UInt16)) :=
  let (data, chosen) := state
  let owner : Owner := ⟨holder, req.app, role⟩
  match data.holds owner with
  | some port => some (data, chosen ++ [(req.app, port)])
  | none =>
    let taken port := data.entries.contains port || chosen.any (·.2 == port) || world.listening port
    (freePort taken req.base).map fun port =>
      (data.reserve owner port world.now, chosen ++ [(req.app, port)])

/-- The first half of an allocation: choose a port for each request on a snapshot. -/
def choose (world : World) (snapshot : Data) (holder : String) (role : Role) (reqs : List Request) :
    Option (List (String × UInt16)) :=
  (reqs.foldlM (chooseOne world holder role) (snapshot, [])).map Prod.snd

/-- Commit one choice: the owner's port, a new search when the choice is taken, or the choice. -/
def commitOne (world : World) (holder : String) (role : Role) (reqs : List Request)
    (state : Data × List (String × UInt16)) (choice : String × UInt16) :
    Option (Data × List (String × UInt16)) :=
  let (d, out) := state
  let (app, port) := choice
  let owner : Owner := ⟨holder, app, role⟩
  match d.holds owner with
  | some held => some (d, out ++ [(app, held)])
  | none =>
    if d.entries.contains port then
      let base := ((reqs.find? fun req => req.app == app).map Request.base).getD port
      (d.allocOne world owner base).map fun (d', found) => (d', out ++ [(app, found)])
    else some (d.reserve owner port world.now, out ++ [(app, port)])

/-- The second half of an allocation: reserve the choices, re-checked against the registry. -/
def commitAlloc (world : World) (d : Data) (holder : String) (role : Role) (reqs : List Request)
    (chosen : List (String × UInt16)) : Option (Data × List (String × UInt16)) :=
  chosen.foldlM (commitOne world holder role reqs) (d, [])

end Devkit.Ports
