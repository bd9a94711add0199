import Devkit.Daemon.Tracking

/-!
# What a stop request has ended

A stop request ends the keys it covers when it has taken what it found of them from the table. A
key is clean when the table holds no entry for it and nothing under way is for it; sections
that are not for a clean key leave it clean, and a clean key runs no process.
-/

namespace Devkit.Daemon

open Devkit.Ports
open Devkit.Library

/-- What a stop request is for and the keys it has found. -/
def Stopping.found : Stopping → Option (Down × List Owner)
  | .stopping request keys => some (request, keys)
  | _ => none

/-- What a stop request is for once it has stopped the keys it found. -/
def Stopping.stopped : Stopping → Option Down
  | .releasing request => some request
  | _ => none

namespace State

/-- Neither the request under the mutex nor a respawn with its launch spec is for the key. -/
def Quiet (s : State) (key : Owner) : Prop :=
  (∀ request phase, s.supervising = some (request, phase) → request.key ≠ key) ∧ s.respawn.key ≠ some key

/-- Nothing is watched under the key and nothing under way is for it. -/
def Clean (s : State) (key : Owner) : Prop := s.sup.child key = none ∧ s.Quiet key

/-- A stop request has stopped what it found for the key, and no request has named the key since
it returned. -/
def Ended (s : State) (key : Owner) : Prop :=
  s.downed key = true ∨
    ∃ client request, (s.downs client).stopped = some request ∧ request.covers key = true

/-- Every key a stop request has ended is clean. -/
def EndedClean (s : State) : Prop := ∀ key, s.Ended key → s.Clean key

/-- A request begins for no key a stop request has still to return for, and where a stop request
takes its keys from the table, the covered entries are among them and their keys are quiet. -/
def KeepsDown (s : State) (label : Label) : Prop :=
  match label with
  | .superviseStart request =>
    s.supervising = none → ∀ client down, (s.downs client).stopped = some down →
      down.covers request.key = false
  | .downNext client _ =>
    ∀ request keys, (s.downs client).found = some (request, keys) → ∀ key, request.covers key = true →
      ((s.sup.child key).isSome = true → key ∈ keys) ∧ s.Quiet key
  | _ => True

/-- The step keeps track of the running processes and keeps what is stopped down. -/
def Good (s : State) (label : Label) : Prop := s.KeepsTrack label ∧ s.KeepsDown label

/-- A clean key runs no process. -/
theorem Tracked.not_running {s : State} (h : s.Tracked) {key : Owner} (hclean : s.Clean key) (pid : ℕ) :
    ¬ s.Running key pid := by
  intro hrun
  obtain ⟨hchild, hrequest, hrespawn⟩ := hclean
  rcases h key pid hrun with hlist | ⟨request, phase, hsup, hkey, _⟩ | hhand
  · rw [Listed, hchild] at hlist
    contradiction
  · exact hrequest request phase hsup hkey
  · cases hphase : s.respawn with
    | resting | launching | spawning => rw [hphase] at hhand; contradiction
    | recording key' logfile port pid' | setting key' pid' =>
      rw [hphase] at hhand hrespawn
      exact hrespawn (congrArg (Option.map Prod.fst) hhand)

/-- Stopping a key takes its entry and leaves the other entries. -/
theorem child_stopKey (s : State) (key other : Owner) :
    (s.stopKey key).sup.child other = if other = key then none else s.sup.child other := by
  unfold stopKey
  cases hchild : s.sup.child key with
  | none =>
    by_cases heq : other = key
    · rw [if_pos heq, heq]
      exact hchild
    · rw [if_neg heq]
  | some c => exact Supervisor.child_remove _ _ _

/-- Stopping a key touches the table and the processes only. -/
theorem stopKey_frame (s : State) (key : Owner) :
    (s.stopKey key).supervising = s.supervising ∧ (s.stopKey key).respawn = s.respawn ∧
      (s.stopKey key).downed = s.downed ∧ (s.stopKey key).downs = s.downs := by
  unfold stopKey
  split <;> exact ⟨rfl, rfl, rfl, rfl⟩

/-- Stopping the keys of a list takes exactly their entries. -/
theorem child_stopKeys (keys : List Owner) (s : State) (other : Owner) :
    (keys.foldl stopKey s).sup.child other = if other ∈ keys then none else s.sup.child other := by
  induction keys generalizing s with
  | nil => rfl
  | cons key rest ih =>
    rw [List.foldl_cons, ih, child_stopKey]
    by_cases hrest : other ∈ rest <;> by_cases hkey : other = key <;> simp [hrest, hkey]

/-- Stopping the keys of a list touches the table and the processes only. -/
theorem stopKeys_frame (keys : List Owner) (s : State) :
    (keys.foldl stopKey s).supervising = s.supervising ∧ (keys.foldl stopKey s).respawn = s.respawn ∧
      (keys.foldl stopKey s).downed = s.downed ∧ (keys.foldl stopKey s).downs = s.downs := by
  induction keys generalizing s with
  | nil => exact ⟨rfl, rfl, rfl, rfl⟩
  | cons key rest ih =>
    obtain ⟨hsupervising, hrespawn, hdowned, hdowns⟩ := ih (s.stopKey key)
    obtain ⟨hsupervising', hrespawn', hdowned', hdowns'⟩ := stopKey_frame s key
    exact ⟨hsupervising.trans hsupervising', hrespawn.trans hrespawn', hdowned.trans hdowned',
      hdowns.trans hdowns'⟩

/-- A section of the request under the mutex changes nothing of another key. -/
theorem Clean.superviseNext {s : State} {key : Owner} (h : s.Clean key) (world : World) (saved : Bool)
    (spawned : Option ℕ) : (s.superviseNext world saved spawned).Clean key := by
  obtain ⟨hchild, hrequest, hrespawn⟩ := h
  -- Every section keeps the request or ends it, and the respawn stays as it is.
  have hkeep : ∀ (s' : State), s'.sup.child key = none → s'.respawn = s.respawn →
      (∀ request phase, s'.supervising = some (request, phase) →
        ∃ phase', s.supervising = some (request, phase')) → s'.Clean key := by
    intro s' hchild' hrespawn' hsame
    refine ⟨hchild', fun request phase hsup => ?_, by rw [hrespawn']; exact hrespawn⟩
    obtain ⟨phase', hsup'⟩ := hsame request phase hsup
    exact hrequest request phase' hsup'
  unfold State.superviseNext
  cases hsup : s.supervising with
  | none => exact ⟨hchild, hrequest, hrespawn⟩
  | some current =>
    obtain ⟨request, phase⟩ := current
    have hend : ∀ s' : State, s'.sup.child key = none → s'.respawn = s.respawn → s'.supervising = none →
        s'.Clean key := fun s' hchild' hrespawn' hnone =>
      hkeep s' hchild' hrespawn' fun _ _ hsome => by rw [hnone] at hsome; contradiction
    have hnext : ∀ (s' : State) phase', s'.sup.child key = none → s'.respawn = s.respawn →
        s'.supervising = some (request, phase') → s'.Clean key := by
      intro s' phase' hchild' hrespawn' hsame
      refine hkeep s' hchild' hrespawn' fun request' phase'' hsome => ⟨phase, ?_⟩
      obtain ⟨rfl, _⟩ := Prod.mk.inj (Option.some.inj (hsame.symm.trans hsome))
      exact hsup
    cases phase with
    | reading =>
      dsimp only
      split
      · exact hnext _ _ hchild rfl rfl
      · exact hend _ hchild rfl rfl
    | allocating chosen =>
      dsimp only
      split
      · rename_i registry out _
        split
        · cases hgrant : out.find? fun grant => grant.1 == request.key.app with
          | none => exact hend _ hchild rfl rfl
          | some grant => exact hnext _ _ hchild rfl rfl
        · exact hend _ hchild rfl rfl
      · exact hend _ hchild rfl rfl
    | checking port =>
      dsimp only
      split
      · exact hend _ hchild rfl rfl
      · exact hnext _ _ hchild rfl rfl
    | spawning port =>
      cases spawned with
      | none => exact hend _ hchild rfl rfl
      | some pid =>
        dsimp only
        split
        · exact ⟨hchild, hrequest, hrespawn⟩
        · exact hnext _ _ hchild rfl rfl
    | recording port pid =>
      dsimp only
      split
      · exact hnext _ _ hchild rfl rfl
      · exact hend _ hchild rfl rfl
    | inserting port pid =>
      refine hend _ ?_ rfl rfl
      have hne : key ≠ request.key := (hrequest request _ hsup).symm
      rw [← hchild]
      exact (Supervisor.child_put _ _ _ _).trans (if_neg hne)

/-- A decision of the tick about a reaped key puts no entry under a clean one. -/
theorem Clean.restart {s : State} {key : Owner} (h : s.Clean key) (reaped : Owner) (now : ℕ) :
    (s.restart reaped now).Clean key := by
  obtain ⟨hchild, hrequest, hrespawn⟩ := h
  have hcharged : (s.sup.mayRestart now reaped).1.child key = none := by
    have hpid := s.sup.pid_mayRestart now reaped key
    rw [hchild] at hpid
    exact Option.map_eq_none_iff.mp hpid
  have hremoved : ∀ sup : Supervisor, sup.child key = none → (sup.remove reaped).child key = none := by
    intro sup hnone
    rw [Supervisor.child_remove, hnone, ite_self]
  unfold State.restart
  split
  · split
    · dsimp only
      split
      · exact ⟨hchild, hrequest, hrespawn⟩
      · split
        · exact ⟨hremoved _ hchild, hrequest, hrespawn⟩
        · split
          · exact ⟨hcharged, hrequest, by simp [Respawn.key]⟩
          · exact ⟨hremoved _ hcharged, hrequest, hrespawn⟩
    · exact ⟨hchild, hrequest, hrespawn⟩
  · exact ⟨hchild, hrequest, hrespawn⟩

/-- A section of the tick's respawn of another key leaves a clean key clean: the tick finds no
launch spec for it. -/
theorem Clean.respawnNext {s : State} {key : Owner} (h : s.Clean key) (world : World) (saved : Bool)
    (spawned : Option ℕ) : (s.respawnNext world saved spawned).Clean key := by
  obtain ⟨hchild, hrequest, hrespawn⟩ := h
  have hrest : s.Clean key := ⟨hchild, hrequest, hrespawn⟩
  unfold State.respawnNext
  cases hphase : s.respawn with
  | resting => exact hrest
  | launching launched =>
    dsimp only
    split
    · rename_i hlaunch
      refine ⟨hchild, hrequest, fun heq => ?_⟩
      obtain rfl : launched = key := Option.some.inj heq
      rw [Supervisor.launchOf, hchild] at hlaunch
      contradiction
    · exact ⟨hchild, hrequest, by simp [Respawn.key]⟩
  | spawning launched launch logfile port =>
    rw [hphase] at hrespawn
    cases spawned with
    | none => exact ⟨hchild, hrequest, by simp [Respawn.key]⟩
    | some pid =>
      dsimp only
      split
      · exact hrest
      · exact ⟨hchild, hrequest, hrespawn⟩
  | recording launched logfile port pid =>
    rw [hphase] at hrespawn
    exact ⟨hchild, hrequest, hrespawn⟩
  | setting launched pid =>
    rw [hphase] at hrespawn
    have hne : key ≠ launched := fun heq => hrespawn (congrArg some heq.symm)
    refine ⟨?_, hrequest, by simp [Respawn.key]⟩
    rw [Supervisor.child_setPid, if_neg hne, hchild]

end State

end Devkit.Daemon
