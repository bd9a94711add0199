import Devkit.Daemon.NoRespawn
import Devkit.Daemon.OneProcess

/-!
# A row for each table entry

The row and the table entry of a key are written at different steps, and rows are pruned and released
without a look at the table. So an entry keeps its row as long as none is dead when a stop request probes,
no process is recorded at the port of an entry that names another, and a request writes its entry under no
stop request that has read its keys without it.
-/

namespace Devkit.Ports.Data

/-- The port's row is the key's and carries the process. -/
def CarriedAt (d : Data) (port : UInt16) (key : Owner) (pid : ℕ) : Prop :=
  ∃ e, d.Row port e ∧ e.owner = key ∧ e.pid = some pid

/-- A row of the key carries the process. -/
def Carried (d : Data) (key : Owner) (pid : ℕ) : Prop := ∃ port, d.CarriedAt port key pid

/-- Whether a process is carried is seen in the list of rows. -/
theorem carried_iff_toList {d : Data} {key : Owner} {pid : ℕ} :
    (∃ row ∈ d.entries.toList, row.2.owner = key ∧ row.2.pid = some pid) ↔ d.Carried key pid := by
  constructor
  · intro ⟨row, hrow, hcarries⟩
    exact ⟨row.1, row.2, mem_toList.mp hrow, hcarries⟩
  · intro ⟨port, e, hrow, hcarries⟩
    exact ⟨(port, e), mem_toList.mpr hrow, hcarries⟩

instance (d : Data) (key : Owner) (pid : ℕ) : Decidable (d.Carried key pid) :=
  decidable_of_iff _ carried_iff_toList

/-- After rows are removed the others carry what they did. -/
theorem CarriedAt.removePorts {d : Data} {ports : List UInt16} {port : UInt16} {key : Owner} {pid : ℕ}
    (h : d.CarriedAt port key pid) (hkept : port ∉ ports) : (d.removePorts ports).CarriedAt port key pid := by
  obtain ⟨e, hrow, hcarries⟩ := h
  exact ⟨e, row_removePorts.mpr ⟨hkept, hrow⟩, hcarries⟩

/-- After a process is recorded the rows at other ports carry what they did. -/
theorem CarriedAt.recordPid {world : World} {d : Data} {port other : UInt16} {owner key : Owner} {recorded pid : ℕ}
    {logfile : String} (h : d.CarriedAt port key pid) (hne : other ≠ port) :
    (d.recordPid world other owner recorded logfile).CarriedAt port key pid := by
  obtain ⟨e, hrow, hcarries⟩ := h
  exact ⟨e, (row_recordPid hne).mpr hrow, hcarries⟩

/-- The row at the port a process is recorded at carries it. -/
theorem carriedAt_recordPid (world : World) (d : Data) (port : UInt16) (key : Owner) (pid : ℕ) (logfile : String) :
    (d.recordPid world port key pid logfile).CarriedAt port key pid := by
  obtain ⟨e, hrow⟩ := exists_row_recordPid world d port key pid logfile
  exact ⟨e, hrow, owner_recordPid hrow⟩

/-- An allocation takes no row away. -/
theorem CarriedAt.commitAlloc {world : World} {d : Data} {holder : String} {role : Role} {reqs : List Request}
    {chosen : List (String × UInt16)} {result : Data × List (String × UInt16)} {port : UInt16} {key : Owner} {pid : ℕ}
    (h : d.CarriedAt port key pid) (hcommit : Ports.commitAlloc world d holder role reqs chosen = some result) :
    result.1.CarriedAt port key pid := by
  refine commitAlloc_invariant (fun d => d.CarriedAt port key pid) (fun d d' owner hd hreserves => ?_) hcommit h
  cases hreserves with
  | inl hsame =>
    obtain ⟨_, _, rfl⟩ := hsame
    exact hd
  | inr hnew =>
    obtain ⟨taken, _, hfree, rfl⟩ := hnew
    obtain ⟨e, hrow, hcarries⟩ := hd
    refine ⟨e, ?_, hcarries⟩
    rw [row_reserve, if_neg]
    · exact hrow
    · rintro rfl
      rw [Free, hrow] at hfree
      cases hfree

end Devkit.Ports.Data

namespace Devkit.Daemon

open Devkit.Ports
open Devkit.Library

/-- A stop request is for what is held at the port under the key. -/
def Down.takes (key : Owner) (port : UInt16) : Down → Bool
  | .ofHolder name role => key.holder == name && role.all (key.role == ·)
  | .ofPorts wanted => wanted.contains port

/-- A stop request selects a row by what it holds. -/
theorem Down.selects_eq (request : Down) (port : UInt16) (e : Entry) :
    request.selects port e = request.takes e.owner port := by
  cases request with
  | ofHolder | ofPorts => rfl

/-- The key of a row a stop request is for is among those it finds. -/
theorem Down.mem_keys {request : Down} {d : Data} {port : UInt16} {e : Entry} (hrow : d.Row port e)
    (htakes : request.takes e.owner port = true) : e.owner ∈ request.keys d :=
  List.mem_map.mpr ⟨(port, e), List.mem_filter.mpr
    ⟨Data.mem_toList.mpr hrow, (request.selects_eq port e).trans htakes⟩, rfl⟩

/-- A stop request under way leaves the row at the port, or has found the key to take its entry first. -/
def Stopping.spares (key : Owner) (port : UInt16) : Stopping → Prop
  | .idle => True
  | .pruning _ _ dead => port ∉ dead
  | .stopping request keys => request.takes key port = true → key ∈ keys
  | .releasing request => request.takes key port = false

namespace State

/-- Every table entry has a row of its key that carries its process. -/
def Rowed (s : State) : Prop := ∀ key pid, s.Listed key pid → s.registry.Carried key pid

/-- The table holds the process at the port under the key, or a request is about to write that entry. -/
def Holding (s : State) (key : Owner) (port : UInt16) (pid : ℕ) : Prop :=
  (∃ c, s.sup.child key = some c ∧ c.port = port ∧ c.pid = pid) ∨
    ∃ request, s.supervising = some (request, .inserting port pid) ∧ request.key = key

/-- The step keeps the row of what is held. Whatever is held lives when a stop request probes; a process is
recorded only at a port where nothing else is held, and by the tick only where the table does not name another
under its key; a request records and writes its entry under no stop request that would take the row alone; and
a request and the tick are not past their looks for one key together. -/
def KeepsRows (s : State) : Label → Prop
  | .superviseNext world saved _ =>
    (∀ request port, s.supervising = some (request, .checking port) → s.liveServer world request.key port = false →
      s.respawn.under ≠ some request.key) ∧
    ∀ request port pid, s.supervising = some (request, .recording port pid) → saved = true →
      (∀ key old, s.Holding key port old → key = request.key ∧ old = pid) ∧
      ∀ client, (s.downs client).spares request.key port
  | .downStart client _ world => s.downs client = .idle → ∀ key port pid, s.Holding key port pid →
    world.holderAlive key.holder = true ∧ (s.probes world).pidAlive pid = true
  | .downNext client saved =>
    (∀ request snapshot dead, s.downs client = .pruning request snapshot dead → saved = false →
      ∀ key port pid, s.Holding key port pid → request.takes key port = true →
        ∃ e, snapshot.Row port e ∧ e.owner = key) ∧
    ∀ down keys, s.downs client = .stopping down keys →
      ∀ request port pid, s.supervising = some (request, .inserting port pid) → down.takes request.key port = false
  | .restart key now => s.respawn = .resting → key ∈ s.reaped → (s.sup.launchOf key).isSome = true →
    (s.sup.mayRestart now key).2 = true → ¬ s.Starting key
  | .respawnNext _ saved _ => ∀ key logfile port pid, s.respawn = .recording key logfile port pid →
    (∀ old, s.Listed key old → old = pid) ∧
    (saved = true → ∀ other old, s.Holding other port old → other = key ∧ old = pid)
  | _ => True

/-- What is held has its row and no stop request under way takes the row alone. -/
structure Seated (s : State) : Prop where
  rowed : ∀ key port pid, s.Holding key port pid → s.registry.CarriedAt port key pid
  spared : ∀ key port pid, s.Holding key port pid → ∀ client, (s.downs client).spares key port
  request : ∀ request phase, s.supervising = some (request, phase) → phase.past = true →
    s.respawn.under ≠ some request.key
  setting : ∀ key pid c, s.respawn = .setting key pid → s.sup.child key = some c → c.pid = pid

/-- Where what is held has its row, every table entry has one. -/
theorem Seated.all_rowed {s : State} (h : s.Seated) : s.Rowed := by
  intro key pid hlisted
  obtain ⟨c, hchild, hpid⟩ := Option.map_eq_some_iff.mp hlisted
  exact ⟨c.port, h.rowed key c.port pid (Or.inl ⟨c, hchild, rfl, hpid⟩)⟩

/-- A section that adds nothing to what is held keeps its rows where it takes none of them away. -/
theorem Seated.of_holding {s s' : State} (h : s.Seated)
    (hholding : ∀ key port pid, s'.Holding key port pid → s.Holding key port pid)
    (hrows : ∀ key port pid, s.registry.CarriedAt port key pid → s'.registry.CarriedAt port key pid)
    (hdowns : s'.downs = s.downs)
    (hrequest : ∀ request phase, s'.supervising = some (request, phase) → phase.past = true →
      s'.respawn.under ≠ some request.key)
    (hsetting : ∀ key pid c, s'.respawn = .setting key pid → s'.sup.child key = some c → c.pid = pid) :
    s'.Seated where
  rowed key port pid hin := hrows key port pid (h.rowed key port pid (hholding key port pid hin))
  spared key port pid hin client := by
    rw [hdowns]
    exact h.spared key port pid (hholding key port pid hin) client
  request := hrequest
  setting := hsetting

/-- A request that records its process where nothing else is held keeps the rows of what is held. -/
theorem Seated.request_record {s : State} (h : s.Seated) {world : World} {spawned : Option ℕ} {request : Supervise}
    {port : UInt16} {pid : ℕ} (hsup : s.supervising = some (request, .recording port pid))
    (hplace : ∀ key old, s.Holding key port old → key = request.key ∧ old = pid)
    (hspared : ∀ client, (s.downs client).spares request.key port) : (s.superviseNext world true spawned).Seated := by
  have hnext : s.superviseNext world true spawned = { s with
      registry := s.registry.recordPid world port request.key pid request.logfile
      supervising := some (request, .inserting port pid) } := by simp [State.superviseNext, hsup]
  have hholding : ∀ key spot held, (s.superviseNext world true spawned).Holding key spot held →
      s.Holding key spot held ∨ key = request.key ∧ spot = port ∧ held = pid := by
    intro key spot held hin
    rw [hnext] at hin
    cases hin with
    | inl hchild => exact Or.inl (Or.inl hchild)
    | inr hinserting =>
      obtain ⟨_, hphase, rfl⟩ := hinserting
      cases hphase
      exact Or.inr ⟨rfl, rfl, rfl⟩
  refine ⟨fun key spot held hin => ?_, fun key spot held hin client => ?_, fun request' phase' hphase hpast => ?_,
    fun key other c hphase hchild => ?_⟩
  · have hnew := Data.carriedAt_recordPid world s.registry port request.key pid request.logfile
    rw [hnext]
    cases hholding key spot held hin with
    | inl hold =>
      by_cases hport : port = spot
      · subst hport
        obtain ⟨rfl, rfl⟩ := hplace key held hold
        exact hnew
      · exact (h.rowed key spot held hold).recordPid hport
    | inr hsame =>
      obtain ⟨rfl, rfl, rfl⟩ := hsame
      exact hnew
  · have hdowns : (s.superviseNext world true spawned).downs = s.downs := by rw [hnext]
    rw [hdowns]
    cases hholding key spot held hin with
    | inl hold => exact h.spared key spot held hold client
    | inr hsame =>
      obtain ⟨rfl, rfl, _⟩ := hsame
      exact hspared client
  · rw [hnext] at hphase ⊢
    cases hphase
    exact h.request request _ hsup rfl
  · rw [hnext] at hphase hchild
    exact h.setting key other c hphase hchild

/-- A request that writes its entry holds what it already did. -/
theorem Seated.request_insert {s : State} (h : s.Seated) {world : World} {saved : Bool} {spawned : Option ℕ}
    {request : Supervise} {port : UInt16} {pid : ℕ} (hsup : s.supervising = some (request, .inserting port pid)) :
    (s.superviseNext world saved spawned).Seated := by
  have hunder := h.request request _ hsup rfl
  have hchild : ∀ key, (s.sup.insertOwned request.key pid port request.logfile request.launch).child key =
      if key = request.key then some ⟨pid, port, request.logfile, .owned, [], some request.launch⟩
      else s.sup.child key := fun key => Supervisor.child_put _ _ _ _
  have hnext : s.superviseNext world saved spawned = { s with
      sup := s.sup.insertOwned request.key pid port request.logfile request.launch
      supervising := none } := by simp only [State.superviseNext, hsup]
  rw [hnext]
  refine h.of_holding (fun key spot held hin => ?_) (fun _ _ _ => id) rfl (by simp)
    fun key other c hphase hentry => ?_
  · cases hin with
    | inl hentry =>
      obtain ⟨c, hentry, rfl, rfl⟩ := hentry
      rw [hchild] at hentry
      split at hentry
      next hkey =>
        cases hentry
        exact Or.inr ⟨request, hsup, hkey.symm⟩
      · exact Or.inl ⟨c, hentry, rfl, rfl⟩
    | inr hinserting =>
      obtain ⟨_, hphase, _⟩ := hinserting
      cases hphase
  · rw [hchild] at hentry
    split at hentry
    next hkey =>
      refine absurd ?_ hunder
      change s.respawn = .setting key other at hphase
      rw [hphase, ← hkey]
      rfl
    · exact h.setting key other c hphase hentry

/-- A section of the request under the mutex keeps the rows of what is held. -/
theorem Seated.superviseNext {s : State} (h : s.Seated) {world : World} {saved : Bool} {spawned : Option ℕ}
    (hgood : s.KeepsRows (.superviseNext world saved spawned)) : (s.superviseNext world saved spawned).Seated := by
  cases hsup : s.supervising with
  | none =>
    have hsame : s.superviseNext world saved spawned = s := by simp only [State.superviseNext, hsup]
    rw [hsame]
    exact h
  | some current =>
    obtain ⟨request, phase⟩ := current
    -- A section before the record leaves the table, and a request under way only moves on.
    have hmoves : ∀ s' : State, s.superviseNext world saved spawned = s' → s'.sup = s.sup → s'.downs = s.downs →
        s'.respawn = s.respawn →
        (∀ key port pid, s.registry.CarriedAt port key pid → s'.registry.CarriedAt port key pid) →
        (∀ request' phase', s'.supervising = some (request', phase') → (∀ port pid, phase' ≠ .inserting port pid) ∧
          (phase'.past = true → s.respawn.under ≠ some request'.key)) →
        (s.superviseNext world saved spawned).Seated := by
      intro s' heq hsame hdowns hrespawn hrows hrequest
      rw [heq]
      refine h.of_holding (fun key port pid hin => ?_) hrows hdowns (fun request' phase' hnext hpast => ?_)
        fun key pid c hphase hchild => ?_
      · cases hin with
        | inl hchild =>
          rw [hsame] at hchild
          exact Or.inl hchild
        | inr hinserting =>
          obtain ⟨request', hnext, _⟩ := hinserting
          exact absurd rfl ((hrequest request' _ hnext).1 port pid)
      · rw [hrespawn]
        exact (hrequest request' phase' hnext).2 hpast
      · rw [hrespawn] at hphase
        rw [hsame] at hchild
        exact h.setting key pid c hphase hchild
    have hends : s.superviseNext world saved spawned = { s with supervising := none } →
        (s.superviseNext world saved spawned).Seated := by
      intro heq
      refine hmoves _ heq rfl rfl rfl (fun _ _ _ => id) fun _ _ hnext => ?_
      cases hnext
    cases phase with
    | reading =>
      cases hchoose : choose (s.probes world) s.registry request.key.holder request.key.role
          [⟨request.key.app, request.basePort⟩] with
      | none =>
        exact hends (by simp only [State.superviseNext, hsup, hchoose])
      | some chosen =>
        refine hmoves { s with supervising := some (request, .allocating chosen) }
          (by simp only [State.superviseNext, hsup, hchoose]) rfl rfl rfl (fun _ _ _ => id) fun _ _ hnext => ?_
        cases hnext
        exact ⟨by simp, by simp [Supervising.past]⟩
    | allocating chosen =>
      cases hcommit : commitAlloc (s.probes world) s.registry request.key.holder request.key.role
          [⟨request.key.app, request.basePort⟩] chosen with
      | none =>
        exact hends (by simp only [State.superviseNext, hsup, hcommit])
      | some result =>
        obtain ⟨registry, out⟩ := result
        cases saved with
        | false =>
          exact hends (by simp [State.superviseNext, hsup, hcommit])
        | true =>
          refine hmoves { s with
            registry
            supervising := (out.find? fun grant => grant.1 == request.key.app).map fun grant =>
              (request, .checking grant.2) } (by simp [State.superviseNext, hsup, hcommit]) rfl rfl rfl
            (fun _ _ _ hcarried => hcarried.commitAlloc hcommit) fun _ _ hnext => ?_
          obtain ⟨grant, _, heq⟩ := Option.map_eq_some_iff.mp hnext
          cases heq
          exact ⟨by simp, by simp [Supervising.past]⟩
    | checking port =>
      cases hlook : s.liveServer world request.key port with
      | true =>
        exact hends (by simp [State.superviseNext, hsup, hlook])
      | false =>
        refine hmoves { s with supervising := some (request, .spawning port) }
          (by simp [State.superviseNext, hsup, hlook]) rfl rfl rfl (fun _ _ _ => id) fun _ _ hnext => ?_
        cases hnext
        exact ⟨by simp, fun _ => hgood.1 request port hsup hlook⟩
    | spawning port =>
      have hunder := h.request request _ hsup rfl
      cases spawned with
      | none =>
        exact hends (by simp only [State.superviseNext, hsup])
      | some pid =>
        cases huse : s.inUse pid with
        | true =>
          have hsame : s.superviseNext world saved (some pid) = s := by simp [State.superviseNext, hsup, huse]
          rw [hsame]
          exact h
        | false =>
          refine hmoves { s.spawn request.key pid with supervising := some (request, .recording port pid) }
            (by simp [State.superviseNext, hsup, huse]) rfl rfl rfl (fun _ _ _ => id) fun _ _ hnext => ?_
          cases hnext
          exact ⟨by simp, fun _ => hunder⟩
    | recording port pid =>
      cases saved with
      | false =>
        exact hends (by simp [State.superviseNext, hsup])
      | true =>
        obtain ⟨hplace, hspared⟩ := hgood.2 request port pid hsup rfl
        exact h.request_record hsup hplace hspared
    | inserting port pid => exact h.request_insert hsup

/-- The first section of a stop request finds no row of what is held dead. -/
theorem Seated.downStart {s : State} (h : s.Seated) {client : ℕ} {request : Down} {world : World}
    (hgood : s.KeepsRows (.downStart client request world)) : (s.downStart client request world).Seated := by
  cases hphase : s.downs client with
  | pruning | stopping | releasing =>
    have hsame : s.downStart client request world = s := by simp only [State.downStart, hphase]
    rw [hsame]
    exact h
  | idle =>
    obtain ⟨next, hnext, hspared⟩ : ∃ next, s.downStart client request world =
        { s with downs := Function.update s.downs client next } ∧
        ∀ key port pid, s.Holding key port pid → next.spares key port := by
      refine ⟨_, by simp only [State.downStart, hphase]; rfl, fun key port pid hin => ?_⟩
      obtain ⟨e, hrow, howner, hpid⟩ := h.rowed key port pid hin
      split
      · intro htakes
        rw [← howner] at htakes ⊢
        exact Down.mem_keys hrow htakes
      · intro hdead
        obtain ⟨e', hrow', hnot⟩ := Data.mem_deadPorts.mp hdead
        obtain rfl := hrow'.unique hrow
        obtain ⟨hholder, hlives⟩ := hgood hphase key port pid hin
        have halive : entryAlive (s.probes world) port e' = true := by
          rw [← howner] at hholder
          rw [entryAlive, hpid, Bool.and_eq_true]
          exact ⟨hholder, hlives⟩
        rw [halive] at hnot
        cases hnot
    rw [hnext]
    refine ⟨h.rowed, fun key port pid hin other => ?_, h.request, h.setting⟩
    by_cases hother : other = client
    · subst hother
      dsimp only
      rw [Function.update_self]
      exact hspared key port pid hin
    · dsimp only
      rw [Function.update_of_ne hother]
      exact h.spared key port pid hin other

/-- A section of a stop request keeps the rows of what is still held where it removes none of them and its own
next section spares them. -/
theorem Seated.of_down {s : State} (h : s.Seated) {client : ℕ} {saved : Bool} (next : Stopping)
    (hdowns : (s.downNext client saved).downs = Function.update s.downs client next)
    (hholding : ∀ key port pid, (s.downNext client saved).Holding key port pid → s.Holding key port pid)
    (hchild : ∀ key c, (s.downNext client saved).sup.child key = some c → s.sup.child key = some c)
    (hremoves : ∀ key port pid, (s.downNext client saved).Holding key port pid → saved = true →
      ¬ (s.downs client).removes s.registry port)
    (hspared : ∀ key port pid, (s.downNext client saved).Holding key port pid → next.spares key port) :
    (s.downNext client saved).Seated := by
  obtain ⟨hsupervising, hrespawn, hregistry⟩ := downNext_frame s client saved
  refine ⟨fun key port pid hin => ?_, fun key port pid hin other => ?_, ?_, fun key pid c hphase hentry => ?_⟩
  · have hcarried := h.rowed key port pid (hholding key port pid hin)
    cases hregistry with
    | inl hsame =>
      rw [hsame]
      exact hcarried
    | inr hremoved =>
      obtain ⟨hsaved, ports, hafter, hports⟩ := hremoved
      rw [hafter]
      exact hcarried.removePorts fun hmem => hremoves key port pid hin hsaved ((hports port).mp hmem)
  · rw [hdowns]
    by_cases hother : other = client
    · subst hother
      rw [Function.update_self]
      exact hspared key port pid hin
    · rw [Function.update_of_ne hother]
      exact h.spared key port pid (hholding key port pid hin) other
  · rw [hsupervising, hrespawn]
    exact h.request
  · rw [hrespawn] at hphase
    exact h.setting key pid c hphase (hchild key c hentry)

/-- A stop request that prunes finds no held row dead, and next stops the keys of those it is for. -/
theorem Seated.down_prune {s : State} (h : s.Seated) {client : ℕ} {saved : Bool} {request : Down} {snapshot : Data}
    {dead : List UInt16} (hphase : s.downs client = .pruning request snapshot dead)
    (hsnapshot : saved = false → ∀ key port pid, s.Holding key port pid → request.takes key port = true →
      ∃ e, snapshot.Row port e ∧ e.owner = key) : (s.downNext client saved).Seated := by
  have hnext : s.downNext client saved = { s with
      registry := if saved then s.registry.removePorts dead else s.registry
      downs := Function.update s.downs client (.stopping request (request.keys
        (if saved then s.registry.removePorts dead else snapshot.removePorts dead))) } := by
    cases saved <;> simp [State.downNext, hphase]
  have hdead : ∀ key port pid, s.Holding key port pid → port ∉ dead := by
    intro key port pid hin
    have hspares := h.spared key port pid hin client
    rw [hphase] at hspares
    exact hspares
  refine h.of_down (.stopping request (request.keys
    (if saved then s.registry.removePorts dead else snapshot.removePorts dead))) (by rw [hnext]) ?_ ?_ ?_ ?_
  · rw [hnext]
    exact fun _ _ _ => id
  · rw [hnext]
    exact fun _ _ => id
  · rw [hnext, hphase]
    exact fun key port pid hin _ => hdead key port pid hin
  · intro key port pid hin htakes
    rw [hnext] at hin
    have hkept := hdead key port pid hin
    cases saved with
    | true =>
      obtain ⟨e, hrow, howner, _⟩ := h.rowed key port pid hin
      rw [← howner] at htakes ⊢
      exact Down.mem_keys (Data.row_removePorts.mpr ⟨hkept, hrow⟩) htakes
    | false =>
      obtain ⟨e, hrow, howner⟩ := hsnapshot rfl key port pid hin htakes
      rw [← howner] at htakes ⊢
      exact Down.mem_keys (Data.row_removePorts.mpr ⟨hkept, hrow⟩) htakes

/-- A stop request that takes entries leaves nothing held that it is for, unless a request writes it next. -/
theorem Seated.down_stop {s : State} (h : s.Seated) {client : ℕ} {saved : Bool} {request : Down} {keys : List Owner}
    (hphase : s.downs client = .stopping request keys)
    (hinserts : ∀ starting port pid, s.supervising = some (starting, .inserting port pid) →
      request.takes starting.key port = false) : (s.downNext client saved).Seated := by
  have hnext : s.downNext client saved = { keys.foldl stopKey s with
      downs := Function.update s.downs client (.releasing request) } := by simp only [State.downNext, hphase]
  have hchild : ∀ key, (s.downNext client saved).sup.child key = if key ∈ keys then none else s.sup.child key := by
    intro key
    rw [hnext]
    exact child_stopKeys keys s key
  have hheld : ∀ key port pid, (s.downNext client saved).Holding key port pid →
      s.Holding key port pid ∧ request.takes key port = false := by
    intro key port pid hin
    cases hin with
    | inl hentry =>
      obtain ⟨c, hentry, rfl, rfl⟩ := hentry
      rw [hchild] at hentry
      split at hentry
      · cases hentry
      next hkey =>
        have hin : s.Holding key c.port c.pid := Or.inl ⟨c, hentry, rfl, rfl⟩
        have hspares := h.spared key c.port c.pid hin client
        rw [hphase] at hspares
        exact ⟨hin, Bool.eq_false_iff.mpr fun htakes => hkey (hspares htakes)⟩
    | inr hinserting =>
      obtain ⟨starting, hsup, rfl⟩ := hinserting
      rw [(downNext_frame s client saved).1] at hsup
      exact ⟨Or.inr ⟨starting, hsup, rfl⟩, hinserts starting port pid hsup⟩
  refine h.of_down (.releasing request) (by rw [hnext]) (fun key port pid hin => (hheld key port pid hin).1)
    (fun key c hentry => ?_) ?_ fun key port pid hin => (hheld key port pid hin).2
  · rw [hchild] at hentry
    split at hentry
    · cases hentry
    · exact hentry
  · rw [hphase]
    exact fun _ _ _ _ _ => id

/-- A stop request that releases its rows takes none of what is held. -/
theorem Seated.down_release {s : State} (h : s.Seated) {client : ℕ} {saved : Bool} {request : Down}
    (hphase : s.downs client = .releasing request) : (s.downNext client saved).Seated := by
  have hnext : s.downNext client saved = { s with
      registry := if saved then request.release s.registry else s.registry
      downs := Function.update s.downs client .idle
      downed := fun key => s.downed key || request.covers key } := by simp only [State.downNext, hphase]
  refine h.of_down .idle (by rw [hnext]) ?_ ?_ ?_ fun _ _ _ _ => trivial
  · rw [hnext]
    exact fun _ _ _ => id
  · rw [hnext]
    exact fun _ _ => id
  · intro key port pid hin _
    rw [hnext] at hin
    have hspares := h.spared key port pid hin client
    obtain ⟨e, hrow, howner, _⟩ := h.rowed key port pid hin
    rw [hphase] at hspares ⊢
    intro ⟨e', hrow', hselects⟩
    obtain rfl := hrow'.unique hrow
    rw [Down.selects_eq, howner, hspares] at hselects
    cases hselects

/-- A section of a stop request takes no row of what is held and not taken with it. -/
theorem Seated.downNext {s : State} (h : s.Seated) {client : ℕ} {saved : Bool}
    (hgood : s.KeepsRows (.downNext client saved)) : (s.downNext client saved).Seated := by
  cases hphase : s.downs client with
  | idle =>
    have hsame : s.downNext client saved = s := by simp only [State.downNext, hphase]
    rw [hsame]
    exact h
  | pruning request snapshot dead => exact h.down_prune hphase (hgood.1 request snapshot dead hphase)
  | stopping request keys => exact h.down_stop hphase (hgood.2 request keys hphase)
  | releasing request => exact h.down_release hphase

/-- Charging a restart keeps the process and the port of each entry. -/
theorem child_mayRestart {sup : Supervisor} {now : ℕ} {key other : Owner} {c : Child}
    (h : (sup.mayRestart now key).1.child other = some c) :
    ∃ before, sup.child other = some before ∧ before.port = c.port ∧ before.pid = c.pid := by
  unfold Supervisor.mayRestart at h
  cases hchild : sup.child key with
  | none =>
    rw [hchild] at h
    exact ⟨c, h, rfl, rfl⟩
  | some charged =>
    rw [hchild] at h
    dsimp only at h
    split at h
    · rw [Supervisor.child_put] at h
      split at h
      next hkey =>
        cases h
        exact ⟨charged, hkey ▸ hchild, rfl, rfl⟩
      · exact ⟨c, h, rfl, rfl⟩
    · rw [Supervisor.child_put] at h
      split at h
      next hkey =>
        cases h
        exact ⟨charged, hkey ▸ hchild, rfl, rfl⟩
      · exact ⟨c, h, rfl, rfl⟩

/-- A decision of the tick leaves each entry its process and its port, or takes it. -/
theorem child_restart {s : State} {reaped : Owner} {now : ℕ} {key : Owner} {c : Child}
    (h : (s.restart reaped now).sup.child key = some c) :
    ∃ before, s.sup.child key = some before ∧ before.port = c.port ∧ before.pid = c.pid := by
  have hremove : ∀ {sup : Supervisor}, (sup.remove reaped).child key = some c → sup.child key = some c := by
    intro sup hentry
    rw [Supervisor.child_remove] at hentry
    split at hentry
    · cases hentry
    · exact hentry
  unfold State.restart at h
  split at h
  · split at h
    · dsimp only at h
      split at h
      · exact ⟨c, h, rfl, rfl⟩
      · split at h
        · exact ⟨c, hremove h, rfl, rfl⟩
        · split at h
          · exact child_mayRestart h
          · exact child_mayRestart (hremove h)
    · exact ⟨c, h, rfl, rfl⟩
  · exact ⟨c, h, rfl, rfl⟩

/-- A decision of the tick leaves the stop requests. -/
theorem Seated.restart {s : State} (h : s.Seated) {key : Owner} {now : ℕ} (hgood : s.KeepsRows (.restart key now)) :
    (s.restart key now).Seated := by
  obtain ⟨hsupervising, hregistry, hrespawn⟩ := restart_frame s key now
  refine h.of_holding (fun other port pid hin => ?_) (fun _ _ _ hcarried => ?_) (restart_stops s key now).2
    (fun request phase hphase hpast => ?_) fun other pid c hphase hchild => ?_
  · cases hin with
    | inl hentry =>
      obtain ⟨c, hentry, rfl, rfl⟩ := hentry
      exact Or.inl (child_restart hentry)
    | inr hinserting =>
      rw [hsupervising] at hinserting
      exact Or.inr hinserting
  · rw [hregistry]
    exact hcarried
  · rw [hsupervising] at hphase
    cases hrespawn with
    | inl hsame =>
      rw [hsame]
      exact h.request request phase hphase hpast
    | inr hlaunches =>
      obtain ⟨hrest, hlaunching, hreaped, hlaunch, hallowed⟩ := hlaunches
      rw [hlaunching]
      intro hkey
      exact hgood hrest hreaped hlaunch hallowed ⟨request, phase, hphase, (Option.some.inj hkey).symm, hpast⟩
  · obtain ⟨before, hbefore, _, hpid⟩ := child_restart hchild
    cases hrespawn with
    | inl hsame =>
      rw [hsame] at hphase
      exact hpid.symm.trans (h.setting other pid before hphase hbefore)
    | inr hlaunches =>
      rw [hlaunches.2.1] at hphase
      cases hphase

/-- A respawn that records its process where nothing else is held keeps the rows of what is held. -/
theorem Seated.respawn_record {s : State} (h : s.Seated) {world : World} {saved : Bool} {spawned : Option ℕ}
    {key : Owner} {logfile : String} {port : UInt16} {pid : ℕ} (hphase : s.respawn = .recording key logfile port pid)
    (hentry : ∀ old, s.Listed key old → old = pid)
    (hplace : saved = true → ∀ other old, s.Holding other port old → other = key ∧ old = pid) :
    (s.respawnNext world saved spawned).Seated := by
  have hnext : s.respawnNext world saved spawned = { s with
      registry := if saved then s.registry.recordPid world port key pid logfile else s.registry
      respawn := .setting key pid } := by simp only [State.respawnNext, hphase]
  rw [hnext]
  refine ⟨fun other spot held hin => ?_, fun other spot held hin => h.spared other spot held hin,
    fun request phase hrequest hpast hkey => ?_, fun other held c hsetting hchild => ?_⟩
  · have hcarried : s.registry.CarriedAt spot other held := h.rowed other spot held hin
    cases saved with
    | false => exact hcarried
    | true =>
      change (s.registry.recordPid world port key pid logfile).CarriedAt spot other held
      by_cases hport : port = spot
      · subst hport
        obtain ⟨rfl, rfl⟩ := hplace rfl other held hin
        exact Data.carriedAt_recordPid world s.registry port other held logfile
      · exact hcarried.recordPid hport
  · refine h.request request phase hrequest hpast ?_
    rw [hphase]
    exact hkey
  · cases hsetting
    exact hentry c.pid (congrArg (Option.map Child.pid) hchild)

/-- A respawn that sets its entry's process sets the one the entry already names. -/
theorem Seated.respawn_set {s : State} (h : s.Seated) {world : World} {saved : Bool} {spawned : Option ℕ}
    {key : Owner} {pid : ℕ} (hphase : s.respawn = .setting key pid) : (s.respawnNext world saved spawned).Seated := by
  have hnext : s.respawnNext world saved spawned = { s with sup := s.sup.setPid key pid, respawn := .resting } := by
    simp only [State.respawnNext, hphase]
  rw [hnext]
  refine h.of_holding (fun other port held hin => ?_) (fun _ _ _ => id) rfl (by simp [Respawn.under]) (by simp)
  cases hin with
  | inl hchild =>
    obtain ⟨c, hchild, rfl, rfl⟩ := hchild
    change (s.sup.setPid key pid).child other = some c at hchild
    rw [Supervisor.child_setPid] at hchild
    split at hchild
    next hkey =>
      obtain ⟨before, hbefore, rfl⟩ := Option.map_eq_some_iff.mp hchild
      exact Or.inl ⟨before, hkey ▸ hbefore, rfl, h.setting key pid before hphase hbefore⟩
    · exact Or.inl ⟨c, hchild, rfl, rfl⟩
  | inr hinserting => exact Or.inr hinserting

/-- A section of the tick's respawn keeps the rows of what is held. -/
theorem Seated.respawnNext {s : State} (h : s.Seated) {world : World} {saved : Bool} {spawned : Option ℕ}
    (hgood : s.KeepsRows (.respawnNext world saved spawned)) : (s.respawnNext world saved spawned).Seated := by
  -- A section before the record leaves the table and the registry, and stays under the key or comes to rest.
  have hmoves : ∀ s' : State, s.respawnNext world saved spawned = s' → s'.sup = s.sup → s'.downs = s.downs →
      s'.supervising = s.supervising → s'.registry = s.registry →
      (∀ key, s'.respawn.under = some key → s.respawn.under = some key ∧ ∀ pid, s'.respawn ≠ .setting key pid) →
      (s.respawnNext world saved spawned).Seated := by
    intro s' heq hsame hdowns hsupervising hregistry hunder
    rw [heq]
    refine h.of_holding (fun key port pid hin => ?_) (fun _ _ _ hcarried => hregistry ▸ hcarried) hdowns
      (fun request phase hphase hpast hkey => ?_) fun key pid c hphase _ => ?_
    · rw [Holding, hsame, hsupervising] at hin
      exact hin
    · rw [hsupervising] at hphase
      exact h.request request phase hphase hpast (hunder request.key hkey).1
    · exact absurd hphase ((hunder key (by rw [hphase]; rfl)).2 pid)
  have hrests : s.respawnNext world saved spawned = { s with respawn := .resting } →
      (s.respawnNext world saved spawned).Seated := by
    intro heq
    refine hmoves _ heq rfl rfl rfl rfl fun _ hunder => ?_
    cases hunder
  cases hphase : s.respawn with
  | resting =>
    have hsame : s.respawnNext world saved spawned = s := by simp only [State.respawnNext, hphase]
    rw [hsame]
    exact h
  | launching key =>
    cases hlaunch : s.sup.launchOf key with
    | none =>
      exact hrests (by simp only [State.respawnNext, hphase, hlaunch])
    | some found =>
      obtain ⟨launch, logfile, port⟩ := found
      refine hmoves { s with respawn := .spawning key launch logfile port }
        (by simp only [State.respawnNext, hphase, hlaunch]) rfl rfl rfl rfl fun other hother => ?_
      cases hother
      exact ⟨by rw [hphase]; rfl, by simp⟩
  | spawning key launch logfile port =>
    cases spawned with
    | none =>
      exact hrests (by simp only [State.respawnNext, hphase])
    | some pid =>
      cases huse : s.inUse pid with
      | true =>
        have hsame : s.respawnNext world saved (some pid) = s := by simp [State.respawnNext, hphase, huse]
        rw [hsame]
        exact h
      | false =>
        refine hmoves { s.spawn key pid with respawn := .recording key logfile port pid }
          (by simp [State.respawnNext, hphase, huse]) rfl rfl rfl rfl fun other hother => ?_
        cases hother
        exact ⟨by rw [hphase]; rfl, by simp⟩
  | recording key logfile port pid =>
    obtain ⟨hentry, hplace⟩ := hgood key logfile port pid hphase
    exact h.respawn_record hphase hentry hplace
  | setting key pid => exact h.respawn_set hphase

/-- Steps that keep the rows of what is held keep every table entry its row. -/
theorem Seated.step {s : State} (h : s.Seated) {label : Label} (hgood : s.KeepsRows label) :
    (s.step label).Seated := by
  cases label with
  | superviseStart request =>
    rw [State.step]
    split
    next hidle =>
      refine h.of_holding (fun key port pid hin => ?_) (fun _ _ _ => id) rfl (fun request' phase hphase hpast => ?_)
        h.setting
      · cases hin with
        | inl hchild => exact Or.inl hchild
        | inr hinserting =>
          obtain ⟨_, hphase, _⟩ := hinserting
          cases hphase
      · cases hphase
        cases hpast
    · exact h
  | superviseNext world saved spawned => exact h.superviseNext hgood
  | downStart client request world => exact h.downStart hgood
  | downNext client saved => exact h.downNext hgood
  | reap world =>
    rw [State.step, State.reap]
    split
    · exact ⟨h.rowed, h.spared, h.request, h.setting⟩
    · exact h
  | restart key now => exact h.restart hgood
  | respawnNext world saved spawned => exact h.respawnNext hgood
  | exit pid => exact ⟨h.rowed, h.spared, h.request, h.setting⟩

/-- A new daemon adopts only processes that rows carry. -/
theorem boot_seated (world : World) (d : Data) (maxRestarts window : ℕ) : (boot world d maxRestarts window).Seated := by
  have hadopted : ∀ (adoptOne : Supervisor → UInt16 × Entry → Supervisor),
      (∀ sup row, adoptOne sup row = sup ∨
        ∃ pid logfile, row.2.pid = some pid ∧ adoptOne sup row = sup.insertAdopted row.2.owner pid row.1 logfile) →
      ∀ rows : List (UInt16 × Entry), (∀ row ∈ rows, row ∈ d.entries.toList) → ∀ sup : Supervisor,
      (∀ key c, sup.child key = some c → d.CarriedAt c.port key c.pid) →
      ∀ key c, (rows.foldl adoptOne sup).child key = some c → d.CarriedAt c.port key c.pid := by
    intro adoptOne hone rows
    induction rows with
    | nil => exact fun _ _ hsup => hsup
    | cons row rest ih =>
      intro hrows sup hsup
      rw [List.foldl_cons]
      refine ih (fun other hother => hrows other (List.mem_cons_of_mem _ hother)) _ fun key c hchild => ?_
      cases hone sup row with
      | inl hsame =>
        rw [hsame] at hchild
        exact hsup key c hchild
      | inr hinserted =>
        obtain ⟨pid, logfile, hpid, hinsert⟩ := hinserted
        rw [hinsert, Supervisor.insertAdopted, Supervisor.child_put] at hchild
        split at hchild
        next hkey =>
          cases hchild
          exact ⟨row.2, Data.mem_toList.mp (hrows row List.mem_cons_self), hkey.symm, hpid⟩
        · exact hsup key c hchild
  refine ⟨fun key port pid hin => ?_, fun _ _ _ _ _ => trivial, nofun, nofun⟩
  cases hin with
  | inl hchild =>
    obtain ⟨c, hchild, rfl, rfl⟩ := hchild
    refine hadopted _ (fun sup row => ?_) d.entries.toList (fun _ hrow => hrow) ⟨∅, maxRestarts, window⟩
      (fun _ _ hnone => ?_) key c hchild
    · split
      next pid logfile hpid _ =>
        split
        · exact Or.inr ⟨pid, logfile, hpid, rfl⟩
        · exact Or.inl rfl
      · exact Or.inl rfl
    · cases hnone
  | inr hinserting => exact nomatch hinserting

/-- In a run whose steps keep the two ways to spawn apart each key has at most one process alive in every state
reached, and in one whose steps keep the rows of what is held every table entry has a row that carries its
process in every state reached. -/
theorem one_process_throughout (world : World) (d : Data) (maxRestarts window : ℕ) (labels : List Label) :
    (Along step KeepsApart (boot world d maxRestarts window) labels →
      Throughout step Single (boot world d maxRestarts window) labels) ∧
    (Along step KeepsRows (boot world d maxRestarts window) labels →
      Throughout step Rowed (boot world d maxRestarts window) labels) :=
  ⟨fun hgood => (hgood.throughout Apart (fun _ _ h => h.step) (boot_apart world d maxRestarts window)).imp
    fun _ h => h.single,
   fun hgood => (hgood.throughout Seated (fun _ _ h => h.step) (boot_seated world d maxRestarts window)).imp
    fun _ h => h.all_rowed⟩

section Example

/-- The process a section was given. -/
def givenPid : Label → Option ℕ
  | .superviseNext _ _ spawned | .respawnNext _ _ spawned => spawned
  | _ => none

/-- An id nothing runs under stays so while no section is given it. -/
theorem idle_runFrom {pid : ℕ} (labels : List Label) (hgiven : pid ∉ labels.filterMap givenPid) {s : State}
    (hs : ∀ key, ¬ s.Alive key pid) (key : Owner) : ¬ (runFrom step s labels).Alive key pid := by
  induction labels generalizing s with
  | nil => exact hs key
  | cons label rest ih =>
    rw [← List.singleton_append, List.filterMap_append, List.mem_append, not_or] at hgiven
    refine ih hgiven.2 fun other halive => ?_
    cases alive_step label halive with
    | inl hold => exact hs other hold
    | inr hspawns =>
      refine hgiven.1 (List.mem_filterMap.mpr ⟨label, List.mem_singleton_self label, ?_⟩)
      cases label with
      | superviseNext | respawnNext => exact hspawns.1
      | superviseStart | downStart | downNext | reap | restart | exit => exact hspawns.elim

/-- No process is alive where only one was spawned and it does not run. -/
theorem none_alive_runFrom {s : State} (hs : ∀ key pid, ¬ s.Alive key pid) (labels : List Label) (pid : ℕ)
    (hgiven : ∀ other, other ≠ pid → other ∉ labels.filterMap givenPid)
    (hexited : ((runFrom step s labels).processes pid).all (fun p => p.life != .running) = true) (key : Owner)
    (other : ℕ) : ¬ (runFrom step s labels).Alive key other := by
  by_cases hother : other = pid
  · intro ⟨p, hp, _, hlife⟩
    rw [hother] at hp
    rw [hp, Option.all_some, hlife] at hexited
    cases hexited
  · exact idle_runFrom labels (hgiven other hother) (fun key => hs key other) key

/-- A new daemon has no process alive. -/
theorem none_alive_boot (world : World) (d : Data) (maxRestarts window : ℕ) (key : Owner) (pid : ℕ) :
    ¬ (boot world d maxRestarts window).Alive key pid := by
  intro ⟨p, hp, _⟩
  cases hp

/-- A section of a request that neither looks nor records keeps the two apart. -/
theorem keepsApart_moving {s : State} (hphase : s.supervising.all (fun current => match current.2 with
    | .checking _ | .recording _ _ => false
    | _ => true) = true) (world : World) (saved : Bool) (spawned : Option ℕ) :
    s.KeepsApart (.superviseNext world saved spawned) := by
  refine ⟨fun request port hsup => ?_, fun request port pid hsup => ?_⟩
  · rw [hsup] at hphase
    cases hphase
  · rw [hsup] at hphase
    cases hphase

/-- A process recorded at the port of its key is recorded well when it is saved. -/
theorem recordsWell_of_holds {s : State} {key : Owner} {port : UInt16} (hholds : s.registry.holds key = some port)
    (pid : ℕ) : s.RecordsWell key port pid true := by
  refine ⟨fun _ => ⟨rfl, Or.inr hholds⟩, fun _ e other hrow hne => ?_⟩
  obtain ⟨e', hrow', howner⟩ := Data.row_of_holds hholds
  obtain rfl := hrow'.unique hrow
  exact absurd howner hne

/-- A request that records its process at the port of its key keeps the two apart. -/
theorem keepsApart_recording {s : State} (request : Supervise) (port : UInt16) (pid : ℕ)
    (hsup : s.supervising = some (request, .recording port pid)) (hholds : s.registry.holds request.key = some port)
    (world : World) (spawned : Option ℕ) : s.KeepsApart (.superviseNext world true spawned) := by
  refine ⟨fun _ _ hphase => ?_, fun _ _ _ hphase => ?_⟩
  · rw [hsup] at hphase
    cases hphase
  · rw [hsup] at hphase
    cases hphase
    exact recordsWell_of_holds hholds pid

/-- A request that finds its key's port keeps the two apart while the tick rests, if its server lives or no
process is alive. -/
theorem keepsApart_checking {s : State} {world : World} (request : Supervise) (port : UInt16)
    (hsup : s.supervising = some (request, .checking port)) (hrest : s.respawn = .resting)
    (hholds : s.registry.holds request.key = some port)
    (hlook : s.liveServer world request.key port = true ∨ ∀ key pid, ¬ s.Alive key pid) (saved : Bool)
    (spawned : Option ℕ) : s.KeepsApart (.superviseNext world saved spawned) := by
  refine ⟨fun _ _ hphase hdead => ?_, fun _ _ _ hphase => ?_⟩
  · rw [hsup] at hphase
    cases hphase
    rw [hrest]
    refine ⟨nofun, fun pid hsignalled => ?_, Or.inr hholds⟩
    cases hlook with
    | inl hlive =>
      rw [hdead] at hlive
      cases hlive
    | inr hnone => exact hnone request.key pid ⟨_, hsignalled, rfl, rfl⟩
  · rw [hsup] at hphase
    cases hphase

/-- A tick that decides while no request is under way and no process is alive keeps the two apart. -/
theorem keepsApart_restart {s : State} (hsup : s.supervising.isNone = true) (hnone : ∀ key pid, ¬ s.Alive key pid)
    (key : Owner) (now : ℕ) : s.KeepsApart (.restart key now) := by
  refine fun _ _ => ⟨fun pid _ hrunning => hnone key pid hrunning.alive, fun _ _ => ⟨fun hstarting => ?_,
    fun pid hsignalled => hnone key pid ⟨_, hsignalled, rfl, rfl⟩⟩⟩
  obtain ⟨_, _, hphase, _⟩ := hstarting
  rw [hphase] at hsup
  cases hsup

/-- A respawn that records its process at the port of its key and finds its entry keeps the two apart. -/
theorem keepsApart_respawning {s : State} (hphase : (match s.respawn with
    | .recording key _ port _ => s.registry.holds key == some port
    | .setting key _ => (s.sup.child key).isSome
    | _ => true) = true) (world : World) (spawned : Option ℕ) : s.KeepsApart (.respawnNext world true spawned) := by
  refine ⟨fun key logfile port pid hrecording => ?_, fun key pid hsetting _ => ?_⟩
  · rw [hrecording] at hphase
    exact recordsWell_of_holds (beq_iff_eq.mp hphase) pid
  · rw [hsetting] at hphase
    exact hphase

/-- A request that does not record keeps the rows while the tick rests. -/
theorem keepsRows_moving {s : State} (hrest : s.respawn = .resting)
    (hphase : s.supervising.all (fun current => match current.2 with
      | .recording _ _ => false
      | _ => true) = true) (world : World) (saved : Bool) (spawned : Option ℕ) :
    s.KeepsRows (.superviseNext world saved spawned) := by
  refine ⟨fun request port _ _ => ?_, fun request port pid hsup => ?_⟩
  · rw [hrest]
    exact nofun
  · rw [hsup] at hphase
    cases hphase

/-- A request that records while the table is empty and no stop request is under way keeps the rows. -/
theorem keepsRows_recording {s : State} (htable : s.sup.children.entries = [])
    (hphase : s.supervising.all (fun current => match current.2 with
      | .recording _ _ => true
      | _ => false) = true) (hdowns : ∀ client, s.downs client = .idle) (world : World) (saved : Bool)
    (spawned : Option ℕ) : s.KeepsRows (.superviseNext world saved spawned) := by
  refine ⟨fun request port hsup => ?_, fun request port pid hsup _ => ⟨fun key old hin => ?_, fun client => ?_⟩⟩
  · rw [hsup] at hphase
    cases hphase
  · cases hin with
    | inl hchild =>
      obtain ⟨c, hchild, _⟩ := hchild
      rw [Supervisor.child, AList.lookup, htable] at hchild
      cases hchild
    | inr hinserting =>
      obtain ⟨_, hother, _⟩ := hinserting
      rw [hsup] at hother
      cases hother
  · rw [hdowns client]
    trivial

/-- A stop request that probes while every entry's process lives and no request is under way keeps the rows. -/
theorem keepsRows_downStart {s : State} {world : World} (hholders : ∀ name, world.holderAlive name = true)
    (htable : (s.sup.children.entries.all fun row => (s.probes world).pidAlive row.2.pid) = true)
    (hsup : s.supervising.isNone = true) (client : ℕ) (request : Down) :
    s.KeepsRows (.downStart client request world) := by
  refine fun _ key port pid hin => ⟨hholders key.holder, ?_⟩
  cases hin with
  | inl hchild =>
    obtain ⟨c, hchild, _, rfl⟩ := hchild
    exact List.all_eq_true.mp htable ⟨key, c⟩ (AList.mem_lookup_iff.mp hchild)
  | inr hinserting =>
    obtain ⟨_, hphase, _⟩ := hinserting
    rw [hphase] at hsup
    cases hsup

/-- A stop request whose sections are saved keeps the rows while no request is under way. -/
theorem keepsRows_downNext {s : State} (hsup : s.supervising.isNone = true) (client : ℕ) :
    s.KeepsRows (.downNext client true) := by
  refine ⟨fun _ _ _ _ hunsaved => ?_, fun _ _ _ request port pid hphase => ?_⟩
  · cases hunsaved
  · rw [hphase] at hsup
    cases hsup

/-- The request comes again once the tick has launched the dead server, and finds it live. -/
def askAgain : List Label :=
  [.superviseStart api, .superviseNext quietWorld true none, .superviseNext quietWorld true none,
    .superviseNext quietWorld true none]

/-- A request serves, the server dies, the tick launches it again, and the request comes once more; and a request
serves and a stop request stops it. -/
theorem one_process_throughout_sample :
    Throughout step Single (boot quietWorld Data.empty 5 60) (serve ++ crash ++ relaunch ++ askAgain) ∧
      Throughout step Rowed (boot quietWorld Data.empty 5 60)
        (serve ++ [startDown, .downNext 1 true, .downNext 1 true]) := by
  have hboot := none_alive_boot quietWorld Data.empty 5 60
  have hnew := none_alive_runFrom hboot [.superviseStart api, .superviseNext quietWorld true none,
    .superviseNext quietWorld true none] 7 (fun _ _ => List.not_mem_nil) rfl
  have hexited := none_alive_runFrom hboot (serve ++ [.exit 7, .reap quietWorld]) 7
    (fun other hother => by change other ∉ [7]; simpa using hother) (by decide +kernel)
  have hdowns : ∀ (s : State) spawned client, (s.step (.superviseNext quietWorld true spawned)).downs client =
      s.downs client := fun s spawned client => congrFun (superviseNext_stops s quietWorld true spawned).2 client
  refine ⟨(one_process_throughout quietWorld Data.empty 5 60 _).1 ?_,
    (one_process_throughout quietWorld Data.empty 5 60 _).2 ?_⟩
  · exact ⟨trivial, keepsApart_moving (by decide +kernel) _ _ _, keepsApart_moving (by decide +kernel) _ _ _,
      keepsApart_checking api 4000 (by decide +kernel) (by decide +kernel) (by decide +kernel) (Or.inr hnew) _ _,
      keepsApart_moving (by decide +kernel) _ _ _,
      keepsApart_recording api 4000 7 (by decide +kernel) (by decide +kernel) _ _,
      keepsApart_moving (by decide +kernel) _ _ _, trivial, trivial, keepsApart_restart (by decide +kernel) hexited _ _,
      keepsApart_respawning (by decide +kernel) _ _, keepsApart_respawning (by decide +kernel) _ _,
      keepsApart_respawning (by decide +kernel) _ _, keepsApart_respawning (by decide +kernel) _ _, trivial,
      keepsApart_moving (by decide +kernel) _ _ _, keepsApart_moving (by decide +kernel) _ _ _,
      keepsApart_checking api 4000 (by decide +kernel) (by decide +kernel) (by decide +kernel)
        (Or.inl (by decide +kernel)) _ _, trivial⟩
  · refine ⟨trivial, keepsRows_moving (by decide +kernel) (by decide +kernel) _ _ _,
      keepsRows_moving (by decide +kernel) (by decide +kernel) _ _ _,
      keepsRows_moving (by decide +kernel) (by decide +kernel) _ _ _,
      keepsRows_moving (by decide +kernel) (by decide +kernel) _ _ _,
      keepsRows_recording (by decide +kernel) (by decide +kernel) (fun client => ?_) _ _ _,
      keepsRows_moving (by decide +kernel) (by decide +kernel) _ _ _,
      keepsRows_downStart (fun _ => rfl) (by decide +kernel) (by decide +kernel) _ _,
      keepsRows_downNext (by decide +kernel) _, keepsRows_downNext (by decide +kernel) _, trivial⟩
    rw [hdowns, hdowns, hdowns, hdowns]
    rfl

/-- The request for the server comes again, up to its spawn of process 8. -/
def serveAgain : List Label :=
  [.superviseStart api, .superviseNext quietWorld true none, .superviseNext quietWorld true none,
    .superviseNext quietWorld true none, .superviseNext quietWorld true (some 8)]

/-- A request that comes while the tick is to launch the dead server spawns one beside the tick's; and
once the tick has recorded its process, the table still names the dead one, which no row carries. -/
theorem two_processes_of_one_key :
    let beside := runFrom step (boot quietWorld Data.empty 5 60) (serve ++ crash ++ serveAgain ++
      [.respawnNext quietWorld true none, .respawnNext quietWorld true (some 9)])
    let recorded := runFrom step (boot quietWorld Data.empty 5 60) (serve ++ crash ++
      [.respawnNext quietWorld true none, .respawnNext quietWorld true (some 8), .respawnNext quietWorld true none])
    ¬ beside.Single ∧ ¬ recorded.Rowed := by
  intro beside recorded
  constructor
  · intro hsingle
    have hfirst : beside.Alive api.key 8 := ⟨⟨api.key, .running, false⟩, by decide +kernel, rfl, rfl⟩
    have hsecond : beside.Alive api.key 9 := ⟨⟨api.key, .running, false⟩, by decide +kernel, rfl, rfl⟩
    cases hsingle api.key 8 9 hfirst hsecond
  · intro hrowed
    have hlisted : recorded.Listed api.key 7 := by unfold Listed; decide +kernel
    have hcarried : ¬ recorded.registry.Carried api.key 7 := by decide +kernel
    exact hcarried (hrowed api.key 7 hlisted)

end Example

end State

end Devkit.Daemon
