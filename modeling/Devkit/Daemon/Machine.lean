import Devkit.Daemon.Supervisor
import Devkit.Library.Runs

/-!
# The daemon and its processes

One request at a time spawns, under the spawning mutex; any number of stop requests and the
one supervision tick run beside it. Each label is one critical section of one of them, or
an exit of a process, so a list of labels is an interleaving. What the operating system and
the disk answer comes with the label; a section not reached yet does nothing.

A request to supervise begins when it takes the mutex. An exited child stays a zombie until
the tick reaps it, and a process id may be used again once its process is gone.
-/

namespace Devkit.Daemon

open Devkit.Ports

/-- A request to supervise one server. -/
structure Supervise where
  key : Owner
  launch : Launch
  logfile : String
  basePort : UInt16
deriving DecidableEq

/-- How far the request under the spawning mutex has come. -/
inductive Supervising
  | reading
  | allocating (chosen : List (String × UInt16))
  | checking (port : UInt16)
  | spawning (port : UInt16)
  | recording (port : UInt16) (pid : ℕ)
  | inserting (port : UInt16) (pid : ℕ)
deriving DecidableEq

/-- A request to stop servers: by holder and perhaps role, or by port. -/
inductive Down
  | ofHolder (name : String) (role : Option Role)
  | ofPorts (wanted : List UInt16)
deriving DecidableEq

/-- How far a stop request has come. -/
inductive Stopping
  | idle
  | pruning (request : Down) (snapshot : Data) (dead : List UInt16)
  | stopping (request : Down) (keys : List Owner)
  | releasing (request : Down)

/-- What the supervision tick is doing with one reaped key. -/
inductive Respawn
  | resting
  | launching (key : Owner)
  | spawning (key : Owner) (launch : Launch) (logfile : String) (port : UInt16)
  | recording (key : Owner) (logfile : String) (port : UInt16) (pid : ℕ)
  | setting (key : Owner) (pid : ℕ)
deriving DecidableEq

/-- The state of a process the daemon spawned. -/
inductive Life
  | running
  | zombie
  | gone
deriving DecidableEq

/-- A process the daemon spawned, and whether a stop request has signalled it. -/
structure Process where
  key : Owner
  life : Life
  signalled : Bool
deriving DecidableEq

/-- The daemon: registry, table, spawned processes and what is under way. `downed` marks the
keys a stop by holder has returned for and no later request has named. -/
structure State where
  registry : Data
  sup : Supervisor
  processes : ℕ → Option Process
  supervising : Option (Supervise × Supervising)
  downs : ℕ → Stopping
  reaped : List Owner
  respawn : Respawn
  downed : Owner → Bool

/-- One section of the daemon, or a process exiting. -/
inductive Label
  | superviseStart (request : Supervise)
  | superviseNext (world : World) (saved : Bool) (spawned : Option ℕ)
  | downStart (client : ℕ) (request : Down) (world : World)
  | downNext (client : ℕ) (saved : Bool)
  | reap (world : World)
  | restart (key : Owner) (now : ℕ)
  | respawnNext (world : World) (saved : Bool) (spawned : Option ℕ)
  | exit (pid : ℕ)

/-- The stop request is for the key. -/
def Down.covers (key : Owner) : Down → Bool
  | .ofHolder name role => key.holder == name && role.all (key.role == ·)
  | .ofPorts _ => false

/-- The row is one the stop request resolves to its key. -/
def Down.selects (request : Down) (port : UInt16) (e : Entry) : Bool :=
  match request with
  | .ofHolder name role => e.holder == name && role.all (e.role == ·)
  | .ofPorts wanted => wanted.contains port

/-- The keys a stop request finds in a registry. -/
def Down.keys (request : Down) (d : Data) : List Owner :=
  (d.entries.toList.filter fun row => request.selects row.1 row.2).map fun row => row.2.owner

/-- The registry after a stop request releases its rows. -/
def Down.release (request : Down) (d : Data) : Data :=
  match request with
  | .ofHolder name role => (d.release name role).1
  | .ofPorts wanted => (d.releasePorts wanted).1

namespace State

/-- The table a new daemon starts with: the rows whose process survives and has a log. -/
def adopt (world : World) (d : Data) (sup : Supervisor) : Supervisor :=
  d.entries.toList.foldl (fun sup row =>
    match row.2.pid, row.2.logfile with
    | some pid, some logfile =>
      if world.pidAlive pid then sup.insertAdopted row.2.owner pid row.1 logfile else sup
    | _, _ => sup) sup

/-- A daemon that has loaded its registry and adopted the survivors. -/
def boot (world : World) (d : Data) (maxRestarts window : ℕ) : State where
  registry := d
  sup := adopt world d ⟨∅, maxRestarts, window⟩
  processes _ := none
  supervising := none
  downs _ := .idle
  reaped := []
  respawn := .resting
  downed _ := false

/-- The process id is in use by a process the daemon spawned. -/
def inUse (s : State) (pid : ℕ) : Bool := (s.processes pid).any fun p => p.life != .gone

/-- What a probe answers: a zombie still exists. -/
def probes (s : State) (world : World) : World :=
  { world with pidAlive := fun pid => if (s.processes pid).isSome then s.inUse pid else world.pidAlive pid }

/-- A new process for a key, under an id not in use. -/
def spawn (s : State) (key : Owner) (pid : ℕ) : State :=
  { s with processes := Function.update s.processes pid (some ⟨key, .running, false⟩) }

/-- Signal a process to stop. -/
def stop (s : State) (pid : ℕ) : State :=
  { s with processes :=
      Function.update s.processes pid ((s.processes pid).map fun p => { p with signalled := true }) }

/-- The live server an owner's row at a port names, if its process lives. -/
def liveServer (s : State) (world : World) (key : Owner) (port : UInt16) : Bool :=
  (s.registry.entries[port]?).any fun e => e.owner == key && e.pid.any (s.probes world).pidAlive

/-- The next section of the request under the spawning mutex. Every failure drops the mutex. -/
def superviseNext (s : State) (world : World) (saved : Bool) (spawned : Option ℕ) : State :=
  match s.supervising with
  | none => s
  | some (request, .reading) =>
    match choose (s.probes world) s.registry request.key.holder request.key.role
        [⟨request.key.app, request.basePort⟩] with
    | some chosen => { s with supervising := some (request, .allocating chosen) }
    | none => { s with supervising := none }
  | some (request, .allocating chosen) =>
    match commitAlloc (s.probes world) s.registry request.key.holder request.key.role
        [⟨request.key.app, request.basePort⟩] chosen with
    | some (registry, out) =>
      if saved then
        { s with registry, supervising :=
            (out.find? fun grant => grant.1 == request.key.app).map fun grant =>
              (request, .checking grant.2) }
      else { s with supervising := none }
    | none => { s with supervising := none }
  | some (request, .checking port) =>
    if s.liveServer world request.key port then { s with supervising := none }
    else { s with supervising := some (request, .spawning port) }
  | some (request, .spawning port) =>
    match spawned with
    | none => { s with supervising := none }
    | some pid =>
      if s.inUse pid then s
      else { s.spawn request.key pid with supervising := some (request, .recording port pid) }
  | some (request, .recording port pid) =>
    if saved then
      { s with
        registry := s.registry.recordPid world port request.key pid request.logfile
        supervising := some (request, .inserting port pid) }
    else { s with supervising := none }
  | some (request, .inserting port pid) =>
    { s with
      sup := s.sup.insertOwned request.key pid port request.logfile request.launch
      supervising := none }

/-- The first section of a stop request: a snapshot probed for dead rows. -/
def downStart (s : State) (client : ℕ) (request : Down) (world : World) : State :=
  match s.downs client with
  | .idle =>
    let dead := s.registry.deadPorts (s.probes world)
    let next :=
      if dead.isEmpty then Stopping.stopping request (request.keys s.registry)
      else .pruning request s.registry dead
    { s with downs := Function.update s.downs client next }
  | _ => s

/-- Remove a key from the table and signal its process. -/
def stopKey (s : State) (key : Owner) : State :=
  match s.sup.child key with
  | some c => { s.stop c.pid with sup := s.sup.remove key }
  | none => s

/-- The next section of a stop request: prune, stop what the table holds, release and return. -/
def downNext (s : State) (client : ℕ) (saved : Bool) : State :=
  match s.downs client with
  | .idle => s
  | .pruning request snapshot dead =>
    let registry := if saved then s.registry.removePorts dead else s.registry
    let view := if saved then registry else snapshot.removePorts dead
    { s with
      registry
      downs := Function.update s.downs client (.stopping request (request.keys view)) }
  | .stopping request keys =>
    let stopped := keys.foldl stopKey s
    { stopped with downs := Function.update s.downs client (.releasing request) }
  | .releasing request =>
    { s with
      registry := if saved then request.release s.registry else s.registry
      downs := Function.update s.downs client .idle
      downed := fun key => s.downed key || request.covers key }

/-- A watched process is gone: a reaped child, or a survivor that no longer exists. -/
def childGone (s : State) (world : World) (c : Child) : Bool :=
  match c.watch with
  | .owned => (s.processes c.pid).all fun p => p.life != .running
  | .adopted => !(s.probes world).pidAlive c.pid

/-- The children a reap waits for lose their zombies. -/
def reapZombies (s : State) (pid : ℕ) : Option Process :=
  (s.processes pid).map fun p =>
    if p.life = .zombie ∧ pid ≠ 0 ∧
        s.sup.children.entries.any fun row => row.2.watch == .owned && row.2.pid == pid then
      { p with life := .gone }
    else p

/-- The tick collects the keys whose process is gone. -/
def reap (s : State) (world : World) : State :=
  match s.respawn, s.reaped with
  | .resting, [] => { s with reaped := s.sup.reapOnce (s.childGone world), processes := s.reapZombies }
  | _, _ => s

/-- The tick decides on one reaped key: gone from the table, dropped, or to be launched. -/
def restart (s : State) (key : Owner) (now : ℕ) : State :=
  match s.respawn with
  | .resting =>
    if key ∈ s.reaped then
      let s := { s with reaped := s.reaped.erase key }
      if (s.sup.child key).isNone then s
      else if (s.sup.launchOf key).isNone then { s with sup := s.sup.remove key }
      else
        let (sup, allowed) := s.sup.mayRestart now key
        if allowed then { s with sup, respawn := .launching key }
        else { s with sup := sup.remove key }
    else s
  | _ => s

/-- The next section of the tick's respawn of a key. -/
def respawnNext (s : State) (world : World) (saved : Bool) (spawned : Option ℕ) : State :=
  match s.respawn with
  | .resting => s
  | .launching key =>
    match s.sup.launchOf key with
    | some (launch, logfile, port) => { s with respawn := .spawning key launch logfile port }
    | none => { s with respawn := .resting }
  | .spawning key _ logfile port =>
    match spawned with
    | none => { s with respawn := .resting }
    | some pid =>
      if s.inUse pid then s
      else { s.spawn key pid with respawn := .recording key logfile port pid }
  | .recording key logfile port pid =>
    { s with
      registry := if saved then s.registry.recordPid world port key pid logfile else s.registry
      respawn := .setting key pid }
  | .setting key pid => { s with sup := s.sup.setPid key pid, respawn := .resting }

/-- One section of the daemon, or a process exiting. -/
def step (s : State) (label : Label) : State :=
  match label with
  | .superviseStart request =>
    match s.supervising with
    | none =>
      { s with
        supervising := some (request, .reading)
        downed := Function.update s.downed request.key false }
    | some _ => s
  | .superviseNext world saved spawned => s.superviseNext world saved spawned
  | .downStart client request world => s.downStart client request world
  | .downNext client saved => s.downNext client saved
  | .reap world => s.reap world
  | .restart key now => s.restart key now
  | .respawnNext world saved spawned => s.respawnNext world saved spawned
  | .exit pid =>
    { s with processes := Function.update s.processes pid ((s.processes pid).map fun p =>
        if p.life = .running then { p with life := .zombie } else p) }

end State

end Devkit.Daemon
