import Devkit.Daemon.Stopped

/-!
# One process for each key

A request spawns under the spawning mutex and the tick spawns without it. Each of them looks first: the
request at the process its port's row carries, the tick at the process the table names. So a key has at
most one process alive as long as the two are not past their looks for one key together, its running
process stays in the row a request would look at, and a stopped process has exited before the next look.
-/

namespace Devkit.Ports.Data

/-- The row an allocation would find for the owner carries the process. -/
def Serves (d : Data) (owner : Owner) (pid : ℕ) : Prop :=
  ∃ port e, d.holds owner = some port ∧ d.Row port e ∧ e.pid = some pid

/-- A process is still served where the owner's first row is not among those removed. -/
theorem Serves.removePorts {d : Data} {owner : Owner} {pid : ℕ} {ports : List UInt16} (h : d.Serves owner pid)
    (hkept : ∀ port e, d.Row port e → e.owner = owner → e.pid = some pid → port ∉ ports) :
    (d.removePorts ports).Serves owner pid := by
  obtain ⟨port, e, hholds, hrow, hpid⟩ := h
  obtain ⟨⟨e', hrow', howner⟩, hleast⟩ := holds_eq_some_iff.mp hholds
  obtain rfl := hrow'.unique hrow
  have hafter := row_removePorts.mpr ⟨hkept port e' hrow howner hpid, hrow⟩
  exact ⟨port, e', holds_eq_some_iff.mpr ⟨⟨e', hafter, howner⟩, fun other e hother =>
    hleast other e (row_removePorts.mp hother).2⟩, hafter, hpid⟩

/-- A process recorded at the owner's first port, or where the owner has none, is served. -/
theorem serves_recordPid {world : World} {d : Data} {owner : Owner} {port : UInt16} {pid : ℕ} {logfile : String}
    (hport : d.holds owner = none ∨ d.holds owner = some port) :
    (d.recordPid world port owner pid logfile).Serves owner pid := by
  obtain ⟨e, hrow⟩ := exists_row_recordPid world d port owner pid logfile
  obtain ⟨howner, hpid⟩ := owner_recordPid hrow
  refine ⟨port, e, holds_eq_some_iff.mpr ⟨⟨e, hrow, howner⟩, fun other e' hother howner' => ?_⟩, hrow, hpid⟩
  by_cases hsame : port = other
  · exact hsame ▸ UInt16.le_refl port
  · have hbefore := (row_recordPid hsame).mp hother
    cases hport with
    | inl hnone => exact absurd howner' (not_row_of_holds_eq_none hnone hbefore)
    | inr hsome => exact (holds_eq_some_iff.mp hsome).2 other e' hbefore howner'

/-- A process stays served where another owner's is recorded in the place of another row. -/
theorem Serves.recordPid {world : World} {d : Data} {owner other : Owner} {port : UInt16} {pid recorded : ℕ}
    {logfile : String} (h : d.Serves owner pid) (hne : owner ≠ other)
    (hplace : ∀ e, d.Row port e → e.owner = owner → e.pid ≠ some pid) :
    (d.recordPid world port other recorded logfile).Serves owner pid := by
  obtain ⟨held, e, hholds, hrow, hpid⟩ := h
  obtain ⟨⟨e', hrow', howner⟩, hleast⟩ := holds_eq_some_iff.mp hholds
  obtain rfl := hrow'.unique hrow
  have hother : port ≠ held := by
    intro hport
    exact hplace e' (hport ▸ hrow) howner hpid
  have hafter : (d.recordPid world port other recorded logfile).Row held e' := (row_recordPid hother).mpr hrow
  refine ⟨held, e', holds_eq_some_iff.mpr ⟨⟨e', hafter, howner⟩, fun spot e hspot hspotOwner => ?_⟩, hafter, hpid⟩
  by_cases hport : port = spot
  · exact absurd ((owner_recordPid (hport ▸ hspot)).1.symm.trans hspotOwner).symm hne
  · exact hleast spot e ((row_recordPid hport).mp hspot) hspotOwner

/-- An allocation keeps a process served. -/
theorem Serves.commitAlloc {world : World} {d : Data} {holder : String} {role : Role} {reqs : List Request}
    {chosen : List (String × UInt16)} {result : Data × List (String × UInt16)} {owner : Owner} {pid : ℕ}
    (h : d.Serves owner pid) (hcommit : Ports.commitAlloc world d holder role reqs chosen = some result) :
    result.1.Serves owner pid := by
  refine commitAlloc_invariant (fun d => d.Serves owner pid) (fun d d' other hd hreserves => ?_) hcommit h
  cases hreserves with
  | inl hsame =>
    obtain ⟨_, _, rfl⟩ := hsame
    exact hd
  | inr hnew =>
    obtain ⟨port, hnone, hfree, rfl⟩ := hnew
    obtain ⟨held, e, hholds, hrow, hpid⟩ := hd
    obtain ⟨⟨e', hrow', howner⟩, hleast⟩ := holds_eq_some_iff.mp hholds
    obtain rfl := hrow'.unique hrow
    have hne : port ≠ held := by
      intro hport
      rw [Free, hport, hrow] at hfree
      cases hfree
    have hafter : (d.reserve other port world.now).Row held e' := row_reserve.mpr (by rw [if_neg hne]; exact hrow)
    refine ⟨held, e', holds_eq_some_iff.mpr ⟨⟨e', hafter, howner⟩, fun spot e hspot hspotOwner => ?_⟩, hafter, hpid⟩
    rw [row_reserve] at hspot
    split at hspot
    · subst hspot
      have hsame : other = owner := hspotOwner
      rw [hsame, hholds] at hnone
      cases hnone
    · exact hleast spot e hspot hspotOwner

end Devkit.Ports.Data

namespace Devkit.Daemon

open Devkit.Ports
open Devkit.Library

/-- The request has found no live server and has not registered its own yet. -/
def Supervising.past : Supervising → Bool
  | .spawning _ | .recording _ _ | .inserting _ _ => true
  | _ => false

/-- The key the tick has decided to launch again. -/
def Respawn.under : Respawn → Option Owner
  | .resting => none
  | .launching key | .spawning key _ _ _ | .recording key _ _ _ | .setting key _ => some key

/-- A stop request releases the ports whose rows it selects. -/
theorem Down.release_eq (request : Down) (d : Data) : ∃ ports, request.release d = d.removePorts ports ∧
    ∀ port, port ∈ ports ↔ ∃ e, d.Row port e ∧ request.selects port e = true := by
  cases request with
  | ofHolder name role =>
    refine ⟨_, rfl, fun port => ?_⟩
    rw [List.mem_map]
    constructor
    · intro ⟨⟨other, e⟩, hmem, heq⟩
      obtain rfl : other = port := heq
      obtain ⟨hin, hselects⟩ := List.mem_filter.mp hmem
      exact ⟨e, Data.mem_toList.mp hin, hselects⟩
    · intro ⟨e, hrow, hselects⟩
      exact ⟨(port, e), List.mem_filter.mpr ⟨Data.mem_toList.mpr hrow, hselects⟩, rfl⟩
  | ofPorts wanted =>
    refine ⟨_, rfl, fun port => ?_⟩
    rw [List.mem_filter]
    constructor
    · intro ⟨hwanted, hcontains⟩
      rw [Std.ExtTreeMap.contains_eq_isSome_getElem?] at hcontains
      obtain ⟨e, hrow⟩ := Option.isSome_iff_exists.mp hcontains
      exact ⟨e, hrow, List.contains_iff_mem.mpr hwanted⟩
    · intro ⟨e, hrow, hselects⟩
      refine ⟨List.contains_iff_mem.mp hselects, ?_⟩
      rw [Std.ExtTreeMap.contains_eq_isSome_getElem?, hrow]
      rfl

/-- The next section of a stop request takes the row at this port, when it is saved. -/
def Stopping.removes (d : Data) (port : UInt16) : Stopping → Prop
  | .pruning _ _ dead => port ∈ dead
  | .releasing request => ∃ e, d.Row port e ∧ request.selects port e = true
  | _ => False

namespace State

/-- A process the daemon spawned for the key is alive, signalled or not. -/
def Alive (s : State) (key : Owner) (pid : ℕ) : Prop :=
  ∃ p, s.processes pid = some p ∧ p.key = key ∧ p.life = .running

/-- At most one process of each key is alive. -/
def Single (s : State) : Prop := ∀ key pid other, s.Alive key pid → s.Alive key other → pid = other

/-- A request is past its look for the key: it found no live server and has registered none yet. -/
def Starting (s : State) (key : Owner) : Prop :=
  ∃ request phase, s.supervising = some (request, phase) ∧ request.key = key ∧ phase.past = true

/-- Every process of the key that a stop request signalled has exited. -/
def Ceased (s : State) (key : Owner) : Prop := ∀ pid, s.processes pid ≠ some ⟨key, .running, true⟩

/-- The port is the one an allocation for the key would find, or it would find none. -/
def KeyPort (s : State) (key : Owner) (port : UInt16) : Prop :=
  s.registry.holds key = none ∨ s.registry.holds key = some port

/-- A process is recorded well: if it runs, it is saved at the port of its key, and what is saved takes the
place of no row that carries a running process of another key. -/
def RecordsWell (s : State) (key : Owner) (port : UInt16) (pid : ℕ) (saved : Bool) : Prop :=
  (s.Running key pid → saved = true ∧ s.KeyPort key port) ∧
    (saved = true → ∀ e other, s.registry.Row port e → e.owner ≠ key → e.pid = some other →
      ¬ s.Running e.owner other)

/-- The step keeps the two ways to spawn apart and leaves a running process where a look finds it. A request
passes its look only while the tick is not launching the key and what was stopped has exited, and the tick
decides to launch only while no request is past its look and the process of the entry does not run. -/
def KeepsApart (s : State) : Label → Prop
  | .superviseNext world saved _ =>
    (∀ request port, s.supervising = some (request, .checking port) → s.liveServer world request.key port = false →
      s.respawn.under ≠ some request.key ∧ s.Ceased request.key ∧ s.KeyPort request.key port) ∧
    ∀ request port pid, s.supervising = some (request, .recording port pid) → s.RecordsWell request.key port pid saved
  | .downNext client saved => saved = true → ∀ port e pid, (s.downs client).removes s.registry port →
    s.registry.Row port e → e.pid = some pid → ¬ s.Running e.owner pid
  | .restart key now => s.respawn = .resting → key ∈ s.reaped →
    (∀ pid, s.Listed key pid → ¬ s.Running key pid) ∧
    ((s.sup.launchOf key).isSome = true → (s.sup.mayRestart now key).2 = true → ¬ s.Starting key ∧ s.Ceased key)
  | .respawnNext _ saved _ =>
    (∀ key logfile port pid, s.respawn = .recording key logfile port pid → s.RecordsWell key port pid saved) ∧
    ∀ key pid, s.respawn = .setting key pid → s.Running key pid → (s.sup.child key).isSome = true
  | _ => True

/-- The section spawns the process for the key. -/
def Spawns (s : State) (key : Owner) (pid : ℕ) : Label → Prop
  | .superviseNext _ _ spawned => spawned = some pid ∧ s.inUse pid = false ∧
    ∃ request port, s.supervising = some (request, .spawning port) ∧ request.key = key
  | .respawnNext _ _ spawned => spawned = some pid ∧ s.inUse pid = false ∧
    ∃ launch logfile port, s.respawn = .spawning key launch logfile port
  | _ => False

/-- A process of the key that runs is alive. -/
theorem Running.alive {s : State} {key : Owner} {pid : ℕ} (h : s.Running key pid) : s.Alive key pid :=
  ⟨_, h, rfl, rfl⟩

/-- A process that is alive runs, where what was stopped has exited. -/
theorem Alive.running {s : State} {key : Owner} {pid : ℕ} (h : s.Alive key pid) (hceased : s.Ceased key) :
    s.Running key pid := by
  obtain ⟨⟨key', life, signalled⟩, hp, hkey, hlife⟩ := h
  dsimp only at hkey hlife
  subst hkey
  subst hlife
  cases signalled with
  | false => exact hp
  | true => exact absurd hp (hceased pid)

/-- A process that is alive is in use. -/
theorem Alive.inUse {s : State} {key : Owner} {pid : ℕ} (h : s.Alive key pid) : s.inUse pid = true := by
  obtain ⟨p, hp, _, hlife⟩ := h
  simp [State.inUse, hp, hlife]

/-- What the section may do to a process: keep it, signal it, or end it. -/
def Fades (before after : Option Process) : Prop :=
  ∀ p, after = some p → p.life = .running →
    ∃ q, before = some q ∧ q.key = p.key ∧ q.life = .running ∧ (p.signalled = false → q.signalled = false)

/-- A process that is kept fades. -/
theorem Fades.refl (p : Option Process) : Fades p p := fun q hq hlife => ⟨q, hq, rfl, hlife, id⟩

/-- A process fades in steps. -/
theorem Fades.trans {first second third : Option Process} (h : Fades first second) (h' : Fades second third) :
    Fades first third := by
  intro p hp hlife
  obtain ⟨q, hq, hkey, hlife, hsignal⟩ := h' p hp hlife
  obtain ⟨r, hr, hkey', hlife', hsignal'⟩ := h q hq hlife
  exact ⟨r, hr, hkey'.trans hkey, hlife', fun hp => hsignal' (hsignal hp)⟩

/-- A process that a change leaves its key, does not start, and does not take a signal from, fades. -/
theorem Fades.map {before : Option Process} {change : Process → Process}
    (hchange : ∀ p, (change p).key = p.key ∧ ((change p).life = .running → p.life = .running) ∧
      ((change p).signalled = false → p.signalled = false)) : Fades before (before.map change) := by
  intro p hp hlife
  obtain ⟨q, rfl, rfl⟩ := Option.map_eq_some_iff.mp hp
  obtain ⟨hkey, hran, hsignal⟩ := hchange q
  exact ⟨q, rfl, hkey.symm, hran hlife, hsignal⟩

/-- Stopping the keys of a list starts no process. -/
theorem fades_stopKeys (keys : List Owner) (s : State) (pid : ℕ) :
    Fades (s.processes pid) ((keys.foldl stopKey s).processes pid) := by
  induction keys generalizing s with
  | nil => exact Fades.refl _
  | cons key rest ih =>
    refine Fades.trans ?_ (ih (s.stopKey key))
    unfold stopKey
    split
    next c _ =>
      change Fades _ (Function.update s.processes c.pid _ pid)
      by_cases hpid : pid = c.pid
      · subst hpid
        rw [Function.update_self]
        exact Fades.map fun p => ⟨rfl, id, fun hsignal => nomatch hsignal⟩
      · rw [Function.update_of_ne hpid]
        exact Fades.refl _
    · exact Fades.refl _

/-- Stopping the keys of a list leaves the registry. -/
theorem registry_stopKeys (keys : List Owner) (s : State) : (keys.foldl stopKey s).registry = s.registry := by
  induction keys generalizing s with
  | nil => rfl
  | cons key rest ih =>
    rw [List.foldl_cons, ih, stopKey]
    split
    · rfl
    · rfl

/-- A section of the request under the mutex that is not its spawn leaves the processes. -/
theorem superviseNext_processes {s : State} (world : World) (saved : Bool) (spawned : Option ℕ)
    (hphase : ∀ request port, s.supervising ≠ some (request, .spawning port)) :
    (s.superviseNext world saved spawned).processes = s.processes := by
  unfold superviseNext
  split
  · rfl
  · split <;> rfl
  · split
    · split <;> rfl
    · rfl
  · split <;> rfl
  next request port hspawning => exact absurd hspawning (hphase request port)
  · split <;> rfl
  · rfl

/-- A section of the tick's respawn that is not its spawn leaves the processes. -/
theorem respawnNext_processes {s : State} (world : World) (saved : Bool) (spawned : Option ℕ)
    (hphase : ∀ key launch logfile port, s.respawn ≠ .spawning key launch logfile port) :
    (s.respawnNext world saved spawned).processes = s.processes := by
  unfold respawnNext
  split
  · rfl
  · split <;> rfl
  next key launch logfile port hspawning => exact absurd hspawning (hphase key launch logfile port)
  · rfl
  · rfl

/-- A decision of the tick leaves the processes. -/
theorem restart_processes (s : State) (key : Owner) (now : ℕ) : (s.restart key now).processes = s.processes := by
  unfold restart
  split
  · split
    · dsimp only
      split
      · rfl
      · split
        · rfl
        · split <;> rfl
    · rfl
  · rfl

/-- Processes that stay fade. -/
theorem Fades.of_eq {s s' : State} (heq : s'.processes = s.processes) (pid : ℕ) :
    Fades (s.processes pid) (s'.processes pid) := by
  rw [heq]
  exact Fades.refl _

/-- A spawn changes only the process it spawns. -/
theorem processes_spawn (s : State) (key : Owner) (new pid : ℕ) :
    Fades (s.processes pid) ((s.spawn key new).processes pid) ∨
      pid = new ∧ (s.spawn key new).processes pid = some ⟨key, .running, false⟩ := by
  by_cases hpid : pid = new
  · subst hpid
    exact Or.inr ⟨rfl, Function.update_self ..⟩
  · left
    change Fades _ (Function.update s.processes new _ pid)
    rw [Function.update_of_ne hpid]
    exact Fades.refl _

/-- A section of the request under the mutex spawns its process at most. -/
theorem processes_superviseNext (s : State) (world : World) (saved : Bool) (spawned : Option ℕ) (pid : ℕ) :
    Fades (s.processes pid) ((s.superviseNext world saved spawned).processes pid) ∨
      ∃ key, s.Spawns key pid (.superviseNext world saved spawned) ∧
        (s.superviseNext world saved spawned).processes pid = some ⟨key, .running, false⟩ := by
  by_cases hphase : ∃ request port, s.supervising = some (request, .spawning port)
  · obtain ⟨request, port, hphase⟩ := hphase
    cases spawned with
    | none => exact Or.inl (Fades.of_eq (by simp [superviseNext, hphase]) pid)
    | some new =>
      cases huse : s.inUse new with
      | true => exact Or.inl (Fades.of_eq (by simp [superviseNext, hphase, huse]) pid)
      | false =>
        have hprocesses : (s.superviseNext world saved (some new)).processes = (s.spawn request.key new).processes := by
          simp [superviseNext, hphase, huse]
        rw [hprocesses]
        refine (s.processes_spawn request.key new pid).imp_right fun hnew => ⟨request.key, ?_, hnew.2⟩
        exact ⟨congrArg some hnew.1.symm, hnew.1 ▸ huse, request, port, hphase, rfl⟩
  · exact Or.inl (Fades.of_eq (superviseNext_processes world saved spawned fun request port hspawning =>
      hphase ⟨request, port, hspawning⟩) pid)

/-- A section of the tick's respawn spawns its process at most. -/
theorem processes_respawnNext (s : State) (world : World) (saved : Bool) (spawned : Option ℕ) (pid : ℕ) :
    Fades (s.processes pid) ((s.respawnNext world saved spawned).processes pid) ∨
      ∃ key, s.Spawns key pid (.respawnNext world saved spawned) ∧
        (s.respawnNext world saved spawned).processes pid = some ⟨key, .running, false⟩ := by
  by_cases hphase : ∃ key launch logfile port, s.respawn = .spawning key launch logfile port
  · obtain ⟨key, launch, logfile, port, hphase⟩ := hphase
    cases spawned with
    | none => exact Or.inl (Fades.of_eq (by simp [respawnNext, hphase]) pid)
    | some new =>
      cases huse : s.inUse new with
      | true => exact Or.inl (Fades.of_eq (by simp [respawnNext, hphase, huse]) pid)
      | false =>
        have hprocesses : (s.respawnNext world saved (some new)).processes = (s.spawn key new).processes := by
          simp [respawnNext, hphase, huse]
        rw [hprocesses]
        refine (s.processes_spawn key new pid).imp_right fun hnew => ⟨key, ?_, hnew.2⟩
        exact ⟨congrArg some hnew.1.symm, hnew.1 ▸ huse, launch, logfile, port, hphase⟩
  · exact Or.inl (Fades.of_eq (respawnNext_processes world saved spawned fun key launch logfile port hspawning =>
      hphase ⟨key, launch, logfile, port, hspawning⟩) pid)

/-- A process after a step was there before and has faded at most, or the step spawned it. -/
theorem processes_step (s : State) (label : Label) (pid : ℕ) :
    Fades (s.processes pid) ((s.step label).processes pid) ∨
      ∃ key, s.Spawns key pid label ∧ (s.step label).processes pid = some ⟨key, .running, false⟩ := by
  cases label with
  | superviseStart request =>
    refine Or.inl (Fades.of_eq ?_ pid)
    rw [step]
    split <;> rfl
  | superviseNext world saved spawned => exact s.processes_superviseNext world saved spawned pid
  | downStart client request world =>
    refine Or.inl (Fades.of_eq ?_ pid)
    rw [step, downStart]
    split <;> rfl
  | downNext client saved =>
    left
    rw [step]
    unfold downNext
    split
    · exact Fades.refl _
    · exact Fades.refl _
    next request keys _ => exact fades_stopKeys keys s pid
    · exact Fades.refl _
  | reap world =>
    left
    rw [step, reap]
    split
    · refine Fades.map fun p => ?_
      split
      · exact ⟨rfl, (by simp), id⟩
      · exact ⟨rfl, id, id⟩
    · exact Fades.refl _
  | restart key now => exact Or.inl (Fades.of_eq (restart_processes s key now) pid)
  | respawnNext world saved spawned => exact s.processes_respawnNext world saved spawned pid
  | exit other =>
    left
    change Fades _ (Function.update s.processes other _ pid)
    by_cases hpid : pid = other
    · subst hpid
      rw [Function.update_self]
      refine Fades.map fun p => ?_
      split
      · exact ⟨rfl, (by simp), id⟩
      · exact ⟨rfl, id, id⟩
    · rw [Function.update_of_ne hpid]
      exact Fades.refl _

/-- A process that is alive after a step was alive before, or the step spawned it. -/
theorem alive_step {s : State} (label : Label) {key : Owner} {pid : ℕ} (h : (s.step label).Alive key pid) :
    s.Alive key pid ∨ s.Spawns key pid label := by
  obtain ⟨p, hp, hkey, hlife⟩ := h
  cases processes_step s label pid with
  | inl hfades =>
    obtain ⟨q, hq, hsame, hran, _⟩ := hfades p hp hlife
    exact Or.inl ⟨q, hq, hsame.trans hkey, hran⟩
  | inr hspawned =>
    obtain ⟨key', hspawns, hnew⟩ := hspawned
    rw [hnew] at hp
    cases hp
    exact Or.inr (hkey ▸ hspawns)

/-- A process that runs after a step ran before, or the step spawned it. -/
theorem running_step {s : State} (label : Label) {key : Owner} {pid : ℕ} (h : (s.step label).Running key pid) :
    s.Running key pid ∨ s.Spawns key pid label := by
  cases processes_step s label pid with
  | inl hfades =>
    obtain ⟨⟨key', life, signalled⟩, hq, hkey, hlife, hsignal⟩ := hfades _ h rfl
    dsimp only at hkey hlife hsignal
    rw [hkey, hlife, hsignal rfl] at hq
    exact Or.inl hq
  | inr hspawned =>
    obtain ⟨key', hspawns, hnew⟩ := hspawned
    rw [Running, hnew] at h
    cases h
    exact Or.inr hspawns

/-- A step that spawns only for a key with none alive leaves each key at most one process. -/
theorem Single.step {s : State} (h : s.Single) {label : Label}
    (halone : ∀ key pid, s.Spawns key pid label → ∀ other, ¬ s.Alive key other) : (s.step label).Single := by
  intro key pid other hpid hother
  cases alive_step label hpid with
  | inl hold =>
    cases alive_step label hother with
    | inl hold' => exact h key pid other hold hold'
    | inr hnew => exact absurd hold (halone key other hnew pid)
  | inr hnew =>
    cases alive_step label hother with
    | inl hold => exact absurd hold (halone key pid hnew other)
    | inr hnew' =>
      cases label with
      | superviseNext _ _ spawned => exact Option.some.inj (hnew.1.symm.trans hnew'.1)
      | respawnNext _ _ spawned => exact Option.some.inj (hnew.1.symm.trans hnew'.1)
      | _ => exact hnew.elim

/-- The process waits to be recorded by what spawned it for the key. -/
def Unrecorded (s : State) (key : Owner) (pid : ℕ) : Prop :=
  (∃ request port, s.supervising = some (request, .recording port pid) ∧ request.key = key) ∨
    ∃ logfile port, s.respawn = .recording key logfile port pid

/-- The two ways to spawn are apart: a running process is tracked and, once recorded, served by the row an
allocation finds, and what is past its look for a key has spawned every process of the key that is alive. -/
structure Apart (s : State) : Prop where
  single : s.Single
  tracked : s.Tracked
  served : ∀ key pid, s.Running key pid → s.Unrecorded key pid ∨ s.registry.Serves key pid
  request : ∀ request phase, s.supervising = some (request, phase) → phase.past = true →
    s.respawn.under ≠ some request.key ∧ ∀ pid, s.Alive request.key pid → phase.pid = some pid
  respawn : ∀ key, s.respawn.under = some key → ∀ pid, s.Alive key pid → s.respawn.hand = some (key, pid)

/-- A request that holds a process is past its look. -/
theorem past_of_pid {phase : Supervising} {pid : ℕ} (h : phase.pid = some pid) : phase.past = true := by
  cases phase with
  | recording | inserting => rfl
  | reading | allocating | checking | spawning => cases h

/-- A spawn finds no process of its key alive. -/
theorem Apart.alone {s : State} (h : s.Apart) (label : Label) (key : Owner) (pid : ℕ) (hspawns : s.Spawns key pid label)
    (other : ℕ) : ¬ s.Alive key other := by
  intro halive
  cases label with
  | superviseNext world saved spawned =>
    obtain ⟨_, _, request, port, hphase, rfl⟩ := hspawns
    cases (h.request request _ hphase rfl).2 other halive
  | respawnNext world saved spawned =>
    obtain ⟨_, _, launch, logfile, port, hphase⟩ := hspawns
    have hhand := h.respawn key (by rw [hphase]; rfl) other halive
    rw [hphase] at hhand
    cases hhand
  | superviseStart | downStart | downNext | reap | restart | exit => exact hspawns

/-- Where the two are apart, a step that keeps them apart drops no running process from what tracks it. -/
theorem Apart.keepsTrack {s : State} (h : s.Apart) {label : Label} (hgood : s.KeepsApart label) :
    s.KeepsTrack label := by
  cases label with
  | superviseNext world saved spawned =>
    unfold KeepsTrack
    dsimp only
    split
    next request port pid hphase =>
      intro hsaved hrunning
      rw [((hgood.2 request port pid hphase).1 hrunning).1] at hsaved
      cases hsaved
    next request port pid hphase =>
      intro old _ hne hrunning
      exact hne (Option.some.inj ((h.request request _ hphase rfl).2 old hrunning.alive)).symm
    · trivial
  | restart key now =>
    intro hnone old hlisted
    by_cases hdecides : s.respawn = .resting ∧ key ∈ s.reaped
    · exact (hgood hdecides.1 hdecides.2).1 old hlisted
    · have hsame : s.restart key now = s := by
        unfold State.restart
        split
        next hrest =>
          split
          next hreaped => exact absurd ⟨hrest, hreaped⟩ hdecides
          · rfl
        · rfl
      rw [hsame] at hnone
      rw [Listed, hnone] at hlisted
      cases hlisted
  | respawnNext world saved spawned =>
    unfold KeepsTrack
    dsimp only
    split
    next key pid hphase =>
      refine ⟨hgood.2 key pid hphase, fun old _ hne hrunning => ?_⟩
      have hhand := h.respawn key (by rw [hphase]; rfl) old hrunning.alive
      rw [hphase] at hhand
      exact hne (Prod.mk.inj (Option.some.inj hhand)).2.symm
    · trivial
  | superviseStart | downStart | downNext | reap | exit => trivial

/-- A look of a request that finds no live server finds none of its key alive. -/
theorem Apart.none_alive_of_look {s : State} (h : s.Apart) {request : Supervise} {port : UInt16} {world : World}
    (hphase : s.supervising = some (request, .checking port)) (hlook : s.liveServer world request.key port = false)
    (hunder : s.respawn.under ≠ some request.key) (hceased : s.Ceased request.key) (hport : s.KeyPort request.key port)
    (pid : ℕ) : ¬ s.Alive request.key pid := by
  intro halive
  cases h.served _ _ (halive.running hceased) with
  | inl hunrecorded =>
    cases hunrecorded with
    | inl hrequest =>
      obtain ⟨_, _, hother, _⟩ := hrequest
      rw [hphase] at hother
      cases hother
    | inr hrespawn =>
      obtain ⟨_, _, hother⟩ := hrespawn
      exact hunder (by rw [hother]; rfl)
  | inr hserves =>
    obtain ⟨held, e, hholds, hrow, hpid⟩ := hserves
    have hsame : held = port := by
      cases hport with
      | inl hnone =>
        rw [hholds] at hnone
        cases hnone
      | inr hsome => exact Option.some.inj (hholds.symm.trans hsome)
    subst hsame
    obtain ⟨⟨e', hrow', howner⟩, _⟩ := Data.holds_eq_some_iff.mp hholds
    obtain rfl := hrow'.unique hrow
    have hlives : (s.probes world).pidAlive pid = true := by
      have huse := halive.inUse
      obtain ⟨p, hp, _⟩ := halive
      simp [probes, hp, huse]
    have hfound : s.liveServer world request.key held = true := by
      rw [Data.Row] at hrow
      simp [liveServer, hrow, howner, hpid, hlives]
    rw [hlook] at hfound
    cases hfound

/-- A tick that decides to launch finds no process of the key alive. -/
theorem Apart.none_alive_of_exited {s : State} (h : s.Apart) {key : Owner} (hrest : s.respawn = .resting)
    (hentry : ∀ pid, s.Listed key pid → ¬ s.Running key pid) (hstarting : ¬ s.Starting key) (hceased : s.Ceased key)
    (pid : ℕ) : ¬ s.Alive key pid := by
  intro halive
  have hrunning := halive.running hceased
  cases h.tracked key pid hrunning with
  | inl hlisted => exact hentry pid hlisted hrunning
  | inr hhand =>
    cases hhand with
    | inl hrequest =>
      obtain ⟨request, phase, hsup, hkey, hpid⟩ := hrequest
      exact hstarting ⟨request, phase, hsup, hkey, past_of_pid hpid⟩
    | inr hrespawn =>
      rw [hrest] at hrespawn
      cases hrespawn

/-- A step that keeps the processes keeps the two apart where what is past its look, what waits to be recorded
and what the rows serve still fit together. -/
theorem Apart.of_processes {s s' : State} (h : s.Apart) (htracked : s'.Tracked) (hsame : s'.processes = s.processes)
    (hserved : ∀ key pid, s.Running key pid → s'.Unrecorded key pid ∨ s'.registry.Serves key pid)
    (hrequest : ∀ request phase, s'.supervising = some (request, phase) → phase.past = true →
      s'.respawn.under ≠ some request.key ∧ ∀ pid, s.Alive request.key pid → phase.pid = some pid)
    (hrespawn : ∀ key, s'.respawn.under = some key → ∀ pid, s.Alive key pid → s'.respawn.hand = some (key, pid)) :
    s'.Apart := by
  have halive : ∀ key pid, s'.Alive key pid → s.Alive key pid := by
    intro key pid hpid
    rw [Alive, hsame] at hpid
    exact hpid
  refine ⟨fun key pid other hpid hother => h.single key pid other (halive key pid hpid) (halive key other hother),
    htracked, fun key pid hrunning => ?_, fun request phase hsup hpast => ?_, fun key hunder pid hpid => ?_⟩
  · rw [Running, hsame] at hrunning
    exact hserved key pid hrunning
  · exact (hrequest request phase hsup hpast).imp_right fun hhand pid hpid => hhand pid (halive _ pid hpid)
  · exact hrespawn key hunder pid (halive key pid hpid)

/-- What serves a running process still does after another process is recorded well. -/
theorem Apart.served_record {s : State} (h : s.Apart) {world : World} {key : Owner} {port : UInt16} {pid : ℕ}
    {logfile : String} (hgood : s.RecordsWell key port pid true) (halone : ∀ other, s.Alive key other → other = pid)
    {owner : Owner} {other : ℕ} (hrunning : s.Running owner other) :
    (owner ≠ key ∧ s.Unrecorded owner other) ∨
      (s.registry.recordPid world port key pid logfile).Serves owner other := by
  by_cases howner : owner = key
  · subst howner
    obtain rfl := halone other hrunning.alive
    exact Or.inr (Data.serves_recordPid (hgood.1 hrunning).2)
  · cases h.served owner other hrunning with
    | inl hunrecorded => exact Or.inl ⟨howner, hunrecorded⟩
    | inr hserves =>
      refine Or.inr (hserves.recordPid howner fun e hrow hkey hpid => ?_)
      exact hgood.2 rfl e other hrow (hkey ▸ howner) hpid (hkey.symm ▸ hrunning)

/-- A section of the request that spawns nothing moves the request, and the registry if it writes it. -/
theorem Apart.of_request {s s' : State} (h : s.Apart) (htracked : s'.Tracked) (hsame : s'.processes = s.processes)
    (hrespawn : s'.respawn = s.respawn)
    (hserved : ∀ key pid, s.Running key pid → s'.Unrecorded key pid ∨ s'.registry.Serves key pid)
    (hrequest : ∀ request phase, s'.supervising = some (request, phase) → phase.past = true →
      s.respawn.under ≠ some request.key ∧ ∀ pid, s.Alive request.key pid → phase.pid = some pid) : s'.Apart := by
  refine h.of_processes htracked hsame hserved ?_ ?_
  · rw [hrespawn]
    exact hrequest
  · rw [hrespawn]
    exact h.respawn

/-- What waits to be recorded is the respawn's, unless the request is about to record it. -/
theorem Apart.served_request {s : State} (h : s.Apart) {request : Supervise} {phase : Supervising}
    (hsup : s.supervising = some (request, phase)) (hphase : ∀ port pid, phase ≠ .recording port pid) (s' : State)
    (hrespawn : s'.respawn = s.respawn)
    (hserves : ∀ key pid, s.registry.Serves key pid → s'.registry.Serves key pid) (key : Owner) (pid : ℕ)
    (hrunning : s.Running key pid) : s'.Unrecorded key pid ∨ s'.registry.Serves key pid := by
  refine (h.served key pid hrunning).imp (fun hunrecorded => ?_) (hserves key pid)
  cases hunrecorded with
  | inl hrequest =>
    obtain ⟨_, port, hother, _⟩ := hrequest
    rw [hsup] at hother
    cases hother
    exact absurd rfl (hphase port pid)
  | inr hother =>
    right
    rw [hrespawn]
    exact hother

/-- A section that leaves the request before its look, or ends it unrecorded, keeps the two apart. -/
theorem Apart.of_before {s s' : State} (h : s.Apart) {request : Supervise} {phase : Supervising}
    (hsup : s.supervising = some (request, phase)) (hphase : ∀ port pid, phase ≠ .recording port pid)
    (htracked : s'.Tracked) (hsame : s'.processes = s.processes) (hrespawn : s'.respawn = s.respawn)
    (hserves : ∀ key pid, s.registry.Serves key pid → s'.registry.Serves key pid)
    (hbefore : ∀ request' phase', s'.supervising = some (request', phase') → phase'.past = false) : s'.Apart := by
  refine h.of_request htracked hsame hrespawn (h.served_request hsup hphase s' hrespawn hserves)
    fun request' phase' hnext hpast => ?_
  rw [hbefore request' phase' hnext] at hpast
  cases hpast

/-- A request past its look that spawns its process keeps the two apart. -/
theorem Apart.request_spawn {s : State} (h : s.Apart) {world : World} {saved : Bool} {request : Supervise}
    {port : UInt16} {pid : ℕ} (hsup : s.supervising = some (request, .spawning port)) (huse : s.inUse pid = false)
    (htracked : (s.superviseNext world saved (some pid)).Tracked) :
    (s.superviseNext world saved (some pid)).Apart := by
  have hspawn : s.superviseNext world saved (some pid) =
      { s.spawn request.key pid with supervising := some (request, .recording port pid) } := by
    simp [State.superviseNext, hsup, huse]
  obtain ⟨hunder, hnone⟩ := h.request request _ hsup rfl
  have hnew : ∀ {key other}, s.Spawns key other (.superviseNext world saved (some pid)) →
      request.key = key ∧ pid = other := by
    intro key other hspawns
    obtain ⟨hpid, _, _, _, hphase, hkey⟩ := hspawns
    rw [hsup] at hphase
    cases hphase
    exact ⟨hkey, Option.some.inj hpid⟩
  refine ⟨Single.step h.single (h.alone (.superviseNext world saved (some pid))), htracked,
    fun key other hrunning => ?_, fun request' phase' hnext _ => ?_, fun key hkey other halive => ?_⟩
  · rw [hspawn]
    cases running_step (.superviseNext world saved (some pid)) hrunning with
    | inl hold =>
      exact h.served_request hsup (by simp)
        { s.spawn request.key pid with supervising := some (request, .recording port pid) } rfl (fun _ _ => id) key
        other hold
    | inr hspawns =>
      obtain ⟨rfl, rfl⟩ := hnew hspawns
      exact Or.inl (Or.inl ⟨request, port, rfl, rfl⟩)
  · rw [hspawn] at hnext ⊢
    cases hnext
    refine ⟨hunder, fun other halive => ?_⟩
    rw [← hspawn] at halive
    cases alive_step (.superviseNext world saved (some pid)) halive with
    | inl hold => cases hnone other hold
    | inr hspawns => exact congrArg some (hnew hspawns).2
  · rw [hspawn] at hkey ⊢
    cases alive_step (.superviseNext world saved (some pid)) halive with
    | inl hold => exact h.respawn key hkey other hold
    | inr hspawns =>
      rw [← (hnew hspawns).1] at hkey
      exact absurd hkey hunder

/-- A request that records its process well, or drops it exited, keeps the two apart. -/
theorem Apart.request_record {s : State} (h : s.Apart) {world : World} {saved : Bool} {spawned : Option ℕ}
    {request : Supervise} {port : UInt16} {pid : ℕ} (hsup : s.supervising = some (request, .recording port pid))
    (hwell : s.RecordsWell request.key port pid saved) (htracked : (s.superviseNext world saved spawned).Tracked) :
    (s.superviseNext world saved spawned).Apart := by
  obtain ⟨hunder, hhand⟩ := h.request request _ hsup rfl
  have halone : ∀ other, s.Alive request.key other → other = pid := fun other halive =>
    (Option.some.inj (hhand other halive)).symm
  cases saved with
  | false =>
    have heq : s.superviseNext world false spawned = { s with supervising := none } := by
      simp [State.superviseNext, hsup]
    rw [heq] at htracked ⊢
    refine h.of_request htracked rfl rfl (fun key other hrunning => ?_) (by simp)
    refine (h.served key other hrunning).imp_left fun hunrecorded => ?_
    cases hunrecorded with
    | inl hrequest =>
      obtain ⟨_, _, hother, rfl⟩ := hrequest
      rw [hsup] at hother
      cases hother
      cases (hwell.1 hrunning).1
    | inr hrespawn => exact Or.inr hrespawn
  | true =>
    have heq : s.superviseNext world true spawned = { s with
        registry := s.registry.recordPid world port request.key pid request.logfile
        supervising := some (request, .inserting port pid) } := by simp [State.superviseNext, hsup]
    rw [heq] at htracked ⊢
    refine h.of_request htracked rfl rfl (fun key other hrunning => ?_) fun request' phase' hnext _ => ?_
    · refine (h.served_record hwell halone hrunning).imp_left fun ⟨hkey, hunrecorded⟩ => ?_
      cases hunrecorded with
      | inl hrequest =>
        obtain ⟨_, _, hother, hsame⟩ := hrequest
        rw [hsup] at hother
        cases hother
        exact absurd hsame.symm hkey
      | inr hrespawn => exact Or.inr hrespawn
    · cases hnext
      exact ⟨hunder, hhand⟩

/-- A section of the request under the mutex keeps the two apart. -/
theorem Apart.superviseNext {s : State} (h : s.Apart) {world : World} {saved : Bool} {spawned : Option ℕ}
    (hgood : s.KeepsApart (.superviseNext world saved spawned)) : (s.superviseNext world saved spawned).Apart := by
  have htracked : (s.superviseNext world saved spawned).Tracked := h.tracked.superviseNext (h.keepsTrack hgood)
  cases hsup : s.supervising with
  | none =>
    have hsame : s.superviseNext world saved spawned = s := by simp only [State.superviseNext, hsup]
    rw [hsame]
    exact h
  | some current =>
    obtain ⟨request, phase⟩ := current
    have hmoves : ∀ s' : State, s.superviseNext world saved spawned = s' → s'.processes = s.processes →
        s'.respawn = s.respawn → (∀ key pid, s.registry.Serves key pid → s'.registry.Serves key pid) →
        (∀ port pid, phase ≠ .recording port pid) →
        (∀ request' phase', s'.supervising = some (request', phase') → phase'.past = false) →
        (s.superviseNext world saved spawned).Apart := by
      intro s' heq hsame hrespawn hserves hphase hbefore
      rw [heq] at htracked ⊢
      exact h.of_before hsup hphase htracked hsame hrespawn hserves hbefore
    have hends : s.superviseNext world saved spawned = { s with supervising := none } →
        (∀ port pid, phase ≠ .recording port pid) → (s.superviseNext world saved spawned).Apart := fun heq hphase =>
      hmoves { s with supervising := none } heq rfl rfl (fun _ _ => id) hphase (by simp)
    cases phase with
    | reading =>
      cases hchoose : choose (s.probes world) s.registry request.key.holder request.key.role
          [⟨request.key.app, request.basePort⟩] with
      | none => exact hends (by simp only [State.superviseNext, hsup, hchoose]) (by simp)
      | some chosen =>
        refine hmoves { s with supervising := some (request, .allocating chosen) }
          (by simp only [State.superviseNext, hsup, hchoose]) rfl rfl (fun _ _ => id) (by simp) fun _ _ hnext => ?_
        cases hnext
        rfl
    | allocating chosen =>
      cases hcommit : commitAlloc (s.probes world) s.registry request.key.holder request.key.role
          [⟨request.key.app, request.basePort⟩] chosen with
      | none => exact hends (by simp only [State.superviseNext, hsup, hcommit]) (by simp)
      | some result =>
        obtain ⟨registry, out⟩ := result
        cases saved with
        | false => exact hends (by simp [State.superviseNext, hsup, hcommit]) (by simp)
        | true =>
          refine hmoves { s with
            registry
            supervising := (out.find? fun grant => grant.1 == request.key.app).map fun grant =>
              (request, .checking grant.2) } (by simp [State.superviseNext, hsup, hcommit]) rfl rfl
            (fun _ _ hserves => hserves.commitAlloc hcommit) (by simp) fun _ _ hnext => ?_
          obtain ⟨grant, _, heq⟩ := Option.map_eq_some_iff.mp hnext
          cases heq
          rfl
    | checking port =>
      cases hlook : s.liveServer world request.key port with
      | true => exact hends (by simp [State.superviseNext, hsup, hlook]) (by simp)
      | false =>
        -- The look found no live server, so no process of the key is alive.
        have heq : s.superviseNext world saved spawned = { s with supervising := some (request, .spawning port) } := by
          simp [State.superviseNext, hsup, hlook]
        obtain ⟨hunder, hceased, hport⟩ := hgood.1 request port hsup hlook
        rw [heq] at htracked ⊢
        refine h.of_request htracked rfl rfl (h.served_request hsup (by simp) _ rfl fun _ _ => id)
          fun request' phase' hnext _ => ?_
        cases hnext
        exact ⟨hunder, fun pid halive => absurd halive (h.none_alive_of_look hsup hlook hunder hceased hport pid)⟩
    | spawning port =>
      cases spawned with
      | none => exact hends (by simp only [State.superviseNext, hsup]) (by simp)
      | some pid =>
        cases huse : s.inUse pid with
        | true =>
          have hsame : s.superviseNext world saved (some pid) = s := by simp [State.superviseNext, hsup, huse]
          rw [hsame]
          exact h
        | false => exact h.request_spawn hsup huse htracked
    | recording port pid => exact h.request_record hsup (hgood.2 request port pid hsup) htracked
    | inserting port pid =>
      exact hmoves { s with
        sup := s.sup.insertOwned request.key pid port request.logfile request.launch
        supervising := none } (by simp only [State.superviseNext, hsup]) rfl rfl (fun _ _ => id) (by simp) (by simp)

/-- A section of the respawn that spawns nothing leaves it under its key or brings it to rest. -/
theorem Apart.of_respawn {s s' : State} (h : s.Apart) (htracked : s'.Tracked) (hsame : s'.processes = s.processes)
    (hsupervising : s'.supervising = s.supervising)
    (hserved : ∀ key pid, s.Running key pid → s'.Unrecorded key pid ∨ s'.registry.Serves key pid)
    (hunder : ∀ key, s'.respawn.under = some key →
      s.respawn.under = some key ∧ ∀ pid, s.Alive key pid → s'.respawn.hand = some (key, pid)) : s'.Apart := by
  refine h.of_processes htracked hsame hserved (fun request phase hphase hpast => ?_) fun key hkey =>
    (hunder key hkey).2
  rw [hsupervising] at hphase
  obtain ⟨hne, hhand⟩ := h.request request phase hphase hpast
  exact ⟨fun hkey => hne (hunder request.key hkey).1, hhand⟩

/-- What waits to be recorded is the request's, unless the respawn is about to record it. -/
theorem Apart.served_respawn {s : State} (h : s.Apart)
    (hphase : ∀ key logfile port pid, s.respawn ≠ .recording key logfile port pid) (s' : State)
    (hsupervising : s'.supervising = s.supervising) (hregistry : s'.registry = s.registry) (key : Owner) (pid : ℕ)
    (hrunning : s.Running key pid) : s'.Unrecorded key pid ∨ s'.registry.Serves key pid := by
  refine (h.served key pid hrunning).imp (fun hunrecorded => ?_) fun hserves => hregistry ▸ hserves
  cases hunrecorded with
  | inl hrequest =>
    left
    rw [hsupervising]
    exact hrequest
  | inr hother =>
    obtain ⟨logfile, port, hother⟩ := hother
    exact absurd hother (hphase key logfile port pid)

/-- A respawn that spawns its process keeps the two apart. -/
theorem Apart.respawn_spawn {s : State} (h : s.Apart) {world : World} {saved : Bool} {key : Owner} {launch : Launch}
    {logfile : String} {port : UInt16} {pid : ℕ} (hphase : s.respawn = .spawning key launch logfile port)
    (huse : s.inUse pid = false) (htracked : (s.respawnNext world saved (some pid)).Tracked) :
    (s.respawnNext world saved (some pid)).Apart := by
  have hspawn : s.respawnNext world saved (some pid) =
      { s.spawn key pid with respawn := .recording key logfile port pid } := by
    simp [State.respawnNext, hphase, huse]
  have hunder : s.respawn.under = some key := by rw [hphase]; rfl
  have hnew : ∀ {owner other}, s.Spawns owner other (.respawnNext world saved (some pid)) →
      key = owner ∧ pid = other := by
    intro owner other hspawns
    obtain ⟨hpid, _, _, _, _, hother⟩ := hspawns
    rw [hphase] at hother
    cases hother
    exact ⟨rfl, Option.some.inj hpid⟩
  refine ⟨Single.step h.single (h.alone (.respawnNext world saved (some pid))), htracked,
    fun owner other hrunning => ?_, fun request phase hnext hpast => ?_, fun owner howner other halive => ?_⟩
  · rw [hspawn]
    cases running_step (.respawnNext world saved (some pid)) hrunning with
    | inl hold =>
      exact h.served_respawn (by simp [hphase]) { s.spawn key pid with respawn := .recording key logfile port pid } rfl
        rfl owner other hold
    | inr hspawns =>
      obtain ⟨rfl, rfl⟩ := hnew hspawns
      exact Or.inl (Or.inr ⟨logfile, port, rfl⟩)
  · have hbefore : s.supervising = some (request, phase) := by
      rw [hspawn] at hnext
      exact hnext
    obtain ⟨hne, hhand⟩ := h.request request phase hbefore hpast
    refine ⟨?_, fun other halive => ?_⟩
    · rw [hspawn]
      exact fun hkey => hne (hunder.trans hkey)
    · cases alive_step (.respawnNext world saved (some pid)) halive with
      | inl hold => exact hhand other hold
      | inr hspawns => exact absurd (hunder.trans (congrArg some (hnew hspawns).1)) hne
  · cases alive_step (.respawnNext world saved (some pid)) halive with
    | inl hold =>
      rw [hspawn] at howner
      have hhand := h.respawn owner (hunder.trans howner) other hold
      rw [hphase] at hhand
      cases hhand
    | inr hspawns =>
      obtain ⟨rfl, rfl⟩ := hnew hspawns
      rw [hspawn]
      rfl

/-- A respawn that records its process well, or finds it exited, keeps the two apart. -/
theorem Apart.respawn_record {s : State} (h : s.Apart) {world : World} {saved : Bool} {spawned : Option ℕ}
    {key : Owner} {logfile : String} {port : UInt16} {pid : ℕ} (hphase : s.respawn = .recording key logfile port pid)
    (hwell : s.RecordsWell key port pid saved) (htracked : (s.respawnNext world saved spawned).Tracked) :
    (s.respawnNext world saved spawned).Apart := by
  have hunder : s.respawn.under = some key := by rw [hphase]; rfl
  have halone : ∀ other, s.Alive key other → other = pid := by
    intro other halive
    have hsome := h.respawn key hunder other halive
    rw [hphase] at hsome
    exact (Prod.mk.inj (Option.some.inj hsome)).2.symm
  have heq : s.respawnNext world saved spawned = { s with
      registry := if saved then s.registry.recordPid world port key pid logfile else s.registry
      respawn := .setting key pid } := by simp only [State.respawnNext, hphase]
  rw [heq] at htracked ⊢
  refine h.of_respawn htracked rfl rfl (fun owner other hrunning => ?_) fun owner howner => ?_
  · cases saved with
    | false =>
      refine (h.served owner other hrunning).imp_left fun hunrecorded => ?_
      cases hunrecorded with
      | inl hrequest => exact Or.inl hrequest
      | inr hrespawn =>
        obtain ⟨_, _, hother⟩ := hrespawn
        rw [hphase] at hother
        cases hother
        cases (hwell.1 hrunning).1
    | true =>
      refine (h.served_record hwell halone hrunning).imp_left fun ⟨hkey, hunrecorded⟩ => ?_
      cases hunrecorded with
      | inl hrequest => exact Or.inl hrequest
      | inr hrespawn =>
        obtain ⟨_, _, hother⟩ := hrespawn
        rw [hphase] at hother
        cases hother
        exact absurd rfl hkey
  · cases howner
    refine ⟨hunder, fun other halive => ?_⟩
    rw [halone other halive]
    rfl

/-- A section of the tick's respawn keeps the two apart. -/
theorem Apart.respawnNext {s : State} (h : s.Apart) {world : World} {saved : Bool} {spawned : Option ℕ}
    (hgood : s.KeepsApart (.respawnNext world saved spawned)) : (s.respawnNext world saved spawned).Apart := by
  have htracked : (s.respawnNext world saved spawned).Tracked := h.tracked.respawnNext (h.keepsTrack hgood)
  have hrests : (∀ key logfile port pid, s.respawn ≠ .recording key logfile port pid) → ∀ s' : State,
      s.respawnNext world saved spawned = s' → s'.processes = s.processes → s'.supervising = s.supervising →
      s'.registry = s.registry → s'.respawn = .resting → (s.respawnNext world saved spawned).Apart := by
    intro hother s' heq hsame hsupervising hregistry hrest
    rw [heq] at htracked ⊢
    refine h.of_respawn htracked hsame hsupervising (h.served_respawn hother s' hsupervising hregistry) fun key hkey => ?_
    rw [hrest] at hkey
    cases hkey
  cases hphase : s.respawn with
  | resting =>
    have hsame : s.respawnNext world saved spawned = s := by simp only [State.respawnNext, hphase]
    rw [hsame]
    exact h
  | launching key =>
    cases hlaunch : s.sup.launchOf key with
    | none =>
      exact hrests (by simp [hphase]) { s with respawn := .resting }
        (by simp only [State.respawnNext, hphase, hlaunch]) rfl rfl rfl rfl
    | some found =>
      obtain ⟨launch, logfile, port⟩ := found
      have heq : s.respawnNext world saved spawned = { s with respawn := .spawning key launch logfile port } := by
        simp only [State.respawnNext, hphase, hlaunch]
      rw [heq] at htracked ⊢
      refine h.of_respawn htracked rfl rfl (h.served_respawn (by simp [hphase]) _ rfl rfl) fun other hother => ?_
      cases hother
      refine ⟨by rw [hphase]; rfl, fun pid halive => ?_⟩
      have hhand := h.respawn key (by rw [hphase]; rfl) pid halive
      rw [hphase] at hhand
      cases hhand
  | spawning key launch logfile port =>
    cases spawned with
    | none =>
      exact hrests (by simp [hphase]) { s with respawn := .resting } (by simp only [State.respawnNext, hphase]) rfl rfl
        rfl rfl
    | some pid =>
      cases huse : s.inUse pid with
      | true =>
        have hsame : s.respawnNext world saved (some pid) = s := by simp [State.respawnNext, hphase, huse]
        rw [hsame]
        exact h
      | false => exact h.respawn_spawn hphase huse htracked
  | recording key logfile port pid =>
    exact h.respawn_record hphase (hgood.1 key logfile port pid hphase) htracked
  | setting key pid =>
    exact hrests (by simp [hphase]) { s with sup := s.sup.setPid key pid, respawn := .resting }
      (by simp only [State.respawnNext, hphase]) rfl rfl rfl rfl

/-- A decision of the tick leaves the request, the registry and, unless it launches the key, the respawn. -/
theorem restart_frame (s : State) (key : Owner) (now : ℕ) :
    (s.restart key now).supervising = s.supervising ∧ (s.restart key now).registry = s.registry ∧
      ((s.restart key now).respawn = s.respawn ∨ s.respawn = .resting ∧ (s.restart key now).respawn = .launching key ∧
        key ∈ s.reaped ∧ (s.sup.launchOf key).isSome = true ∧ (s.sup.mayRestart now key).2 = true) := by
  unfold State.restart
  split
  next hrest =>
    split
    next hreaped =>
      dsimp only
      split
      · exact ⟨rfl, rfl, Or.inl rfl⟩
      · split
        · exact ⟨rfl, rfl, Or.inl rfl⟩
        next hlaunch =>
          split
          next hallowed =>
            refine ⟨rfl, rfl, Or.inr ⟨hrest, rfl, hreaped, ?_, hallowed⟩⟩
            rw [Bool.not_eq_true, Option.isNone_eq_false_iff] at hlaunch
            exact hlaunch
          · exact ⟨rfl, rfl, Or.inl rfl⟩
    · exact ⟨rfl, rfl, Or.inl rfl⟩
  · exact ⟨rfl, rfl, Or.inl rfl⟩

/-- A decision of the tick keeps the two apart. -/
theorem Apart.restart {s : State} (h : s.Apart) {key : Owner} {now : ℕ} (hgood : s.KeepsApart (.restart key now)) :
    (s.restart key now).Apart := by
  obtain ⟨hsupervising, hregistry, hrespawn⟩ := restart_frame s key now
  refine h.of_processes (h.tracked.restart (h.keepsTrack hgood)) (restart_processes s key now)
    (fun owner pid hrunning => ?_) (fun request phase hphase hpast => ?_) fun owner howner pid halive => ?_
  · rw [hregistry]
    refine (h.served owner pid hrunning).imp_left fun hunrecorded => ?_
    rw [Unrecorded, hsupervising]
    refine hunrecorded.imp_right fun ⟨logfile, port, hother⟩ => ?_
    cases hrespawn with
    | inl hsame => exact ⟨logfile, port, hsame.trans hother⟩
    | inr hlaunches =>
      rw [hlaunches.1] at hother
      cases hother
  · rw [hsupervising] at hphase
    obtain ⟨hunder, hhand⟩ := h.request request phase hphase hpast
    refine ⟨?_, hhand⟩
    cases hrespawn with
    | inl hsame => rwa [hsame]
    | inr hlaunches =>
      obtain ⟨hrest, hlaunching, hreaped, hlaunch, hallowed⟩ := hlaunches
      rw [hlaunching]
      intro hkey
      exact ((hgood hrest hreaped).2 hlaunch hallowed).1 ⟨request, phase, hphase, (Option.some.inj hkey).symm, hpast⟩
  · cases hrespawn with
    | inl hsame =>
      rw [hsame] at howner ⊢
      exact h.respawn owner howner pid halive
    | inr hlaunches =>
      obtain ⟨hrest, hlaunching, hreaped, hlaunch, hallowed⟩ := hlaunches
      rw [hlaunching] at howner
      obtain rfl : key = owner := Option.some.inj howner
      obtain ⟨hentry, hlooks⟩ := hgood hrest hreaped
      obtain ⟨hstarting, hceased⟩ := hlooks hlaunch hallowed
      exact absurd halive (h.none_alive_of_exited hrest hentry hstarting hceased pid)

/-- A step that moves neither the request nor the respawn and starts no process keeps the two apart where the
rows of the running processes stay. -/
theorem Apart.of_fading {s s' : State} (h : s.Apart) (htracked : s'.Tracked)
    (halive : ∀ key pid, s'.Alive key pid → s.Alive key pid)
    (hrunning : ∀ key pid, s'.Running key pid → s.Running key pid) (hsupervising : s'.supervising = s.supervising)
    (hrespawn : s'.respawn = s.respawn)
    (hserves : ∀ key pid, s.Running key pid → s.registry.Serves key pid → s'.registry.Serves key pid) : s'.Apart := by
  refine ⟨fun key pid other hpid hother => h.single key pid other (halive key pid hpid) (halive key other hother),
    htracked, fun key pid hafter => ?_, fun request phase hphase hpast => ?_, fun key hunder pid hpid => ?_⟩
  · have hbefore := hrunning key pid hafter
    rw [Unrecorded, hsupervising, hrespawn]
    exact (h.served key pid hbefore).imp_right (hserves key pid hbefore)
  · rw [hsupervising] at hphase
    rw [hrespawn]
    exact (h.request request phase hphase hpast).imp_right fun hhand pid hpid => hhand pid (halive _ pid hpid)
  · rw [hrespawn] at hunder ⊢
    exact h.respawn key hunder pid (halive key pid hpid)

/-- A section of a stop request leaves the request under the mutex and the respawn, and the registry except for
the ports it removes when it is saved. -/
theorem downNext_frame (s : State) (client : ℕ) (saved : Bool) :
    (s.downNext client saved).supervising = s.supervising ∧ (s.downNext client saved).respawn = s.respawn ∧
      ((s.downNext client saved).registry = s.registry ∨ saved = true ∧
        ∃ ports, (s.downNext client saved).registry = s.registry.removePorts ports ∧
          ∀ port, port ∈ ports ↔ (s.downs client).removes s.registry port) := by
  unfold State.downNext
  split
  · exact ⟨rfl, rfl, Or.inl rfl⟩
  next request snapshot dead hphase =>
    refine ⟨rfl, rfl, ?_⟩
    cases saved with
    | false => exact Or.inl rfl
    | true => exact Or.inr ⟨rfl, dead, rfl, fun _ => by rw [hphase]; rfl⟩
  next request keys _ =>
    obtain ⟨hsupervising, hrespawn, _, _⟩ := stopKeys_frame keys s
    exact ⟨hsupervising, hrespawn, Or.inl (registry_stopKeys keys s)⟩
  next request hphase =>
    refine ⟨rfl, rfl, ?_⟩
    cases saved with
    | false => exact Or.inl rfl
    | true =>
      obtain ⟨ports, hrelease, hports⟩ := request.release_eq s.registry
      exact Or.inr ⟨rfl, ports, hrelease, fun port => by rw [hphase]; exact hports port⟩

/-- A section of a stop request keeps the two apart. -/
theorem Apart.downNext {s : State} (h : s.Apart) {client : ℕ} {saved : Bool}
    (hgood : s.KeepsApart (.downNext client saved)) : (s.downNext client saved).Apart := by
  obtain ⟨hsupervising, hrespawn, hregistry⟩ := downNext_frame s client saved
  refine h.of_fading (h.tracked.downNext client saved) (fun key pid halive => ?_) (fun key pid hrunning => ?_)
    hsupervising hrespawn fun key pid hrunning hserves => ?_
  · exact (alive_step (.downNext client saved) halive).resolve_right id
  · exact (running_step (.downNext client saved) hrunning).resolve_right id
  · cases hregistry with
    | inl hsame =>
      rw [hsame]
      exact hserves
    | inr hremoved =>
      obtain ⟨hsaved, ports, hafter, hports⟩ := hremoved
      rw [hafter]
      refine hserves.removePorts fun port e hrow howner hpid hmem => ?_
      exact hgood hsaved port e pid ((hports port).mp hmem) hrow hpid (howner.symm ▸ hrunning)

/-- Steps that keep the two ways to spawn apart keep them apart. -/
theorem Apart.step {s : State} (h : s.Apart) {label : Label} (hgood : s.KeepsApart label) : (s.step label).Apart := by
  have hquiet : (∀ key pid, ¬ s.Spawns key pid label) → (s.step label).supervising = s.supervising →
      (s.step label).respawn = s.respawn → (s.step label).registry = s.registry → (s.step label).Apart := by
    intro hnone hsupervising hrespawn hregistry
    refine h.of_fading (h.tracked.step (h.keepsTrack hgood)) (fun key pid halive => ?_) (fun key pid hrunning => ?_)
      hsupervising hrespawn fun _ _ _ hserves => ?_
    · exact (alive_step label halive).resolve_right (hnone key pid)
    · exact (running_step label hrunning).resolve_right (hnone key pid)
    · rw [hregistry]
      exact hserves
  cases label with
  | superviseStart request =>
    have htracked := h.tracked.step (h.keepsTrack hgood)
    rw [State.step] at htracked ⊢
    split
    next hidle =>
      rw [hidle] at htracked
      refine h.of_processes htracked rfl (fun key pid hrunning => ?_) (fun request' phase hphase hpast => ?_) h.respawn
      · refine (h.served key pid hrunning).imp_left fun hunrecorded => ?_
        cases hunrecorded with
        | inl hrequest =>
          obtain ⟨_, _, hother, _⟩ := hrequest
          rw [hidle] at hother
          cases hother
        | inr hrespawn => exact Or.inr hrespawn
      · cases hphase
        cases hpast
    · exact h
  | superviseNext world saved spawned => exact h.superviseNext hgood
  | downStart client request world =>
    have hframe : (s.downStart client request world).supervising = s.supervising ∧
        (s.downStart client request world).respawn = s.respawn ∧
        (s.downStart client request world).registry = s.registry := by
      unfold State.downStart
      split <;> exact ⟨rfl, rfl, rfl⟩
    exact hquiet (fun _ _ => id) hframe.1 hframe.2.1 hframe.2.2
  | downNext client saved => exact h.downNext hgood
  | reap world =>
    have hframe : (s.reap world).supervising = s.supervising ∧ (s.reap world).respawn = s.respawn ∧
        (s.reap world).registry = s.registry := by
      unfold State.reap
      split
      next hrest _ => exact ⟨rfl, rfl, rfl⟩
      · exact ⟨rfl, rfl, rfl⟩
    exact hquiet (fun _ _ => id) hframe.1 hframe.2.1 hframe.2.2
  | restart key now => exact h.restart hgood
  | respawnNext world saved spawned => exact h.respawnNext hgood
  | exit pid => exact hquiet (fun _ _ => id) rfl rfl rfl

/-- A new daemon has spawned nothing. -/
theorem boot_apart (world : World) (d : Data) (maxRestarts window : ℕ) : (boot world d maxRestarts window).Apart where
  single := nofun
  tracked key pid hrunning := by cases hrunning
  served key pid hrunning := by cases hrunning
  request := nofun
  respawn := nofun

end State

end Devkit.Daemon
