import Devkit.Daemon.Machine

/-!
# Every running process is tracked

A process the daemon spawned and has not signalled is the one its key's table entry names,
or is in the hands of the request or the respawn that spawned it. Steps keep this unless
they drop a process in hand or drop or overwrite the entry of a running one.
-/

namespace Devkit.Daemon

open Devkit.Ports
open Devkit.Library

/-- The process a request under the mutex has spawned. -/
def Supervising.pid : Supervising → Option ℕ
  | .recording _ pid | .inserting _ pid => some pid
  | _ => none

/-- The process a respawn has spawned, and its key. -/
def Respawn.hand : Respawn → Option (Owner × ℕ)
  | .recording key _ _ pid | .setting key pid => some (key, pid)
  | _ => none

/-- The key a respawn has the launch spec of. -/
def Respawn.key : Respawn → Option Owner
  | .spawning key _ _ _ | .recording key _ _ _ | .setting key _ => some key
  | _ => none

namespace State

/-- A process spawned for the key runs and no stop request has signalled it. -/
def Running (s : State) (key : Owner) (pid : ℕ) : Prop := s.processes pid = some ⟨key, .running, false⟩

instance (s : State) (key : Owner) (pid : ℕ) : Decidable (s.Running key pid) :=
  inferInstanceAs (Decidable (s.processes pid = some ⟨key, .running, false⟩))

/-- The process is in the hands of what spawned it for the key. -/
def InHand (s : State) (key : Owner) (pid : ℕ) : Prop :=
  (∃ request phase, s.supervising = some (request, phase) ∧ request.key = key ∧ phase.pid = some pid) ∨
    s.respawn.hand = some (key, pid)

/-- The key's table entry names the process. -/
def Listed (s : State) (key : Owner) (pid : ℕ) : Prop := (s.sup.child key).map Child.pid = some pid

/-- Every running process of a key is listed or in hand. -/
def Tracked (s : State) : Prop := ∀ key pid, s.Running key pid → s.Listed key pid ∨ s.InHand key pid

/-- The step neither drops a running process in hand nor drops or overwrites the table entry of
a running one. -/
def KeepsTrack (s : State) (label : Label) : Prop :=
  match label with
  | .superviseNext _ saved _ =>
    match s.supervising with
    | some (request, .recording _ pid) => saved = false → ¬ s.Running request.key pid
    | some (request, .inserting _ pid) =>
      ∀ old, s.Listed request.key old → old ≠ pid → ¬ s.Running request.key old
    | _ => True
  | .restart key now =>
    (s.restart key now).sup.child key = none → ∀ old, s.Listed key old → ¬ s.Running key old
  | .respawnNext _ _ _ =>
    match s.respawn with
    | .setting key pid => (s.Running key pid → (s.sup.child key).isSome = true) ∧
        ∀ old, s.Listed key old → old ≠ pid → ¬ s.Running key old
    | _ => True
  | _ => True

/-- A running process after a spawn is the spawned one or ran before. -/
theorem running_spawn {s : State} {key key' : Owner} {pid pid' : ℕ}
    (h : (s.spawn key pid).Running key' pid') : key' = key ∧ pid' = pid ∨ s.Running key' pid' := by
  by_cases heq : pid' = pid
  · subst heq
    have hprocess : Process.mk key .running false = ⟨key', .running, false⟩ := by
      simpa [Running, spawn] using h
    exact Or.inl ⟨(congrArg Process.key hprocess).symm, rfl⟩
  · exact Or.inr (by simpa [Running, spawn, heq] using h)

/-- Running processes listed or in hand before stay tracked by a step that keeps the processes,
the entries and what is in hand. -/
theorem Tracked.frame {s s' : State} (h : s.Tracked)
    (hrunning : ∀ key pid, s'.Running key pid → s.Running key pid)
    (hlisted : ∀ key pid, s'.Running key pid → s.Listed key pid → s'.Listed key pid)
    (hhand : ∀ key pid, s'.Running key pid → s.InHand key pid → s'.Listed key pid ∨ s'.InHand key pid) :
    s'.Tracked := by
  intro key pid hrun
  rcases h key pid (hrunning key pid hrun) with hlist | hin
  · exact Or.inl (hlisted key pid hrun hlist)
  · exact hhand key pid hrun hin

/-- A section of the request under the mutex that keeps track keeps every running process tracked. -/
theorem Tracked.superviseNext {s : State} (h : s.Tracked) {world : World} {saved : Bool}
    {spawned : Option ℕ} (hgood : s.KeepsTrack (.superviseNext world saved spawned)) :
    (s.superviseNext world saved spawned).Tracked := by
  -- What is in hand belongs to the respawn while the request holds no process.
  have hrespawn : ∀ key pid, (∀ request phase, s.supervising = some (request, phase) → phase.pid = none) →
      s.InHand key pid → s.respawn.hand = some (key, pid) := by
    rintro key pid hnone (⟨request, phase, hsup, _, hpid⟩ | hhand)
    · rw [hnone request phase hsup] at hpid
      contradiction
    · exact hhand
  have hdrop : ∀ request phase next, s.supervising = some (request, phase) → phase.pid = none →
      ∀ registry, Tracked { s with registry, supervising := next } := by
    intro request phase next hsup hpid registry
    refine h.frame (fun _ _ h => h) (fun _ _ _ h => h) fun key pid _ hin => Or.inr (Or.inr ?_)
    refine hrespawn key pid (fun request' phase' hsup' => ?_) hin
    obtain ⟨_, rfl⟩ := Prod.mk.inj (Option.some.inj (hsup.symm.trans hsup'))
    exact hpid
  unfold State.superviseNext
  cases hsup : s.supervising with
  | none => exact h
  | some current =>
    obtain ⟨request, phase⟩ := current
    cases phase with
    | reading =>
      dsimp only
      split <;> exact hdrop request .reading _ hsup rfl _
    | allocating chosen =>
      dsimp only
      split
      · split <;> exact hdrop request _ _ hsup rfl _
      · exact hdrop request _ _ hsup rfl _
    | checking port =>
      dsimp only
      split <;> exact hdrop request _ _ hsup rfl _
    | spawning port =>
      cases spawned with
      | none => exact hdrop request _ _ hsup rfl _
      | some pid =>
        dsimp only
        split
        · exact h
        · intro key pid' hrun
          rcases running_spawn hrun with ⟨rfl, rfl⟩ | hold
          · exact Or.inr (Or.inl ⟨request, _, rfl, rfl, rfl⟩)
          · rcases h key pid' hold with hlist | hin
            · exact Or.inl hlist
            · refine Or.inr (Or.inr (hrespawn key pid' (fun request' phase' hsup' => ?_) hin))
              obtain ⟨_, rfl⟩ := Prod.mk.inj (Option.some.inj (hsup.symm.trans hsup'))
              rfl
    | recording port pid =>
      dsimp only
      have hin : ∀ key pid', s.InHand key pid' →
          (key = request.key ∧ pid' = pid) ∨ s.respawn.hand = some (key, pid') := by
        rintro key pid' (⟨request', phase', hsup', rfl, hpid⟩ | hhand)
        · obtain ⟨rfl, rfl⟩ := Prod.mk.inj (Option.some.inj (hsup.symm.trans hsup'))
          exact Or.inl ⟨rfl, (Option.some.inj hpid).symm⟩
        · exact Or.inr hhand
      split
      · refine h.frame (fun _ _ h => h) (fun _ _ _ h => h) fun key pid' _ hhand => Or.inr ?_
        rcases hin key pid' hhand with ⟨rfl, rfl⟩ | hhand
        · exact Or.inl ⟨request, _, rfl, rfl, rfl⟩
        · exact Or.inr hhand
      · rename_i hsaved
        simp only [KeepsTrack, hsup] at hgood
        refine h.frame (fun _ _ h => h) (fun _ _ _ h => h) fun key pid' hrun hhand => Or.inr ?_
        rcases hin key pid' hhand with ⟨rfl, rfl⟩ | hhand
        · exact absurd hrun (hgood (Bool.not_eq_true _ ▸ hsaved))
        · exact Or.inr hhand
    | inserting port pid =>
      simp only [KeepsTrack, hsup] at hgood
      intro key pid' hrun
      change s.Running key pid' at hrun
      have hnew : (s.sup.insertOwned request.key pid port request.logfile request.launch).child key =
          if key = request.key then some ⟨pid, port, request.logfile, .owned, [], some request.launch⟩
          else s.sup.child key := Supervisor.child_put _ _ _ _
      rcases h key pid' hrun with hlist | hin
      · left
        rw [Listed, hnew]
        split
        · rename_i heq
          subst heq
          by_contra hne
          exact hgood pid' hlist (fun heq => hne (by rw [heq]; rfl)) hrun
        · exact hlist
      · rcases hin with ⟨request', phase', hsup', rfl, hpid⟩ | hhand
        · obtain ⟨rfl, rfl⟩ := Prod.mk.inj (Option.some.inj (hsup.symm.trans hsup'))
          left
          rw [Listed, hnew, if_pos rfl]
          exact hpid
        · exact Or.inr (Or.inr hhand)

/-- A section of the tick's respawn that keeps track keeps every running process tracked. -/
theorem Tracked.respawnNext {s : State} (h : s.Tracked) {world : World} {saved : Bool}
    {spawned : Option ℕ} (hgood : s.KeepsTrack (.respawnNext world saved spawned)) :
    (s.respawnNext world saved spawned).Tracked := by
  have hdrop : s.respawn.hand = none → ∀ next, Tracked { s with respawn := next } := by
    intro hnone next
    refine h.frame (fun _ _ h => h) (fun _ _ _ h => h) fun key pid _ hin => Or.inr ?_
    rcases hin with hrequest | hhand
    · exact Or.inl hrequest
    · rw [hnone] at hhand
      contradiction
  unfold State.respawnNext
  cases hphase : s.respawn with
  | resting => exact h
  | launching key =>
    have hnone : s.respawn.hand = none := by rw [hphase]; rfl
    dsimp only
    split <;> exact hdrop hnone _
  | spawning key launch logfile port =>
    have hnone : s.respawn.hand = none := by rw [hphase]; rfl
    cases spawned with
    | none => exact hdrop hnone _
    | some pid =>
      dsimp only
      split
      · exact h
      · intro key' pid' hrun
        rcases running_spawn hrun with ⟨rfl, rfl⟩ | hold
        · exact Or.inr (Or.inr rfl)
        · rcases h key' pid' hold with hlist | hin | hhand
          · exact Or.inl hlist
          · exact Or.inr (Or.inl hin)
          · rw [hnone] at hhand
            contradiction
  | recording key logfile port pid =>
    refine h.frame (fun _ _ h => h) (fun _ _ _ h => h) fun key' pid' _ hin => Or.inr ?_
    rcases hin with hrequest | hhand
    · exact Or.inl hrequest
    · rw [hphase] at hhand
      exact Or.inr hhand
  | setting key pid =>
    simp only [KeepsTrack, hphase] at hgood
    obtain ⟨hentry, hold⟩ := hgood
    have hset : ∀ other, ((s.sup.setPid key pid).child other).map Child.pid =
        if other = key then (s.sup.child key).map fun _ => pid else (s.sup.child other).map Child.pid := by
      intro other
      rw [Supervisor.child_setPid]
      split
      · rw [Option.map_map]
        rfl
      · rfl
    intro key' pid' hrun
    change s.Running key' pid' at hrun
    rcases h key' pid' hrun with hlist | hrequest | hhand
    · left
      rw [Listed, hset]
      split
      · rename_i heq
        subst heq
        by_cases hne : pid' = pid
        · subst hne
          obtain ⟨c, hc, _⟩ := Option.map_eq_some_iff.mp hlist
          simp [hc]
        · exact absurd hrun (hold pid' hlist hne)
      · exact hlist
    · exact Or.inr (Or.inl hrequest)
    · rw [hphase] at hhand
      obtain ⟨rfl, rfl⟩ := Prod.mk.inj (Option.some.inj hhand)
      left
      obtain ⟨c, hc⟩ := Option.isSome_iff_exists.mp (hentry hrun)
      rw [Listed, hset, if_pos rfl, hc]
      rfl

/-- Charging, launching or dropping a reaped key keeps every running process tracked. -/
theorem Tracked.restart {s : State} (h : s.Tracked) {key : Owner} {now : ℕ}
    (hgood : s.KeepsTrack (.restart key now)) : (s.restart key now).Tracked := by
  have hremove : ∀ sup : Supervisor, (∀ other, (sup.child other).map Child.pid =
      (s.sup.child other).map Child.pid) → (∀ old, s.Listed key old → ¬ s.Running key old) →
      ∀ reaped, Tracked { s with reaped, sup := sup.remove key } := by
    intro sup hsame hdead reaped
    refine h.frame (fun _ _ h => h) (fun key' pid hrun hlist => ?_) fun _ _ _ h => Or.inr h
    rw [Listed, Supervisor.child_remove]
    split
    · rename_i heq
      subst heq
      exact absurd hrun (hdead pid hlist)
    · rw [hsame]
      exact hlist
  simp only [KeepsTrack] at hgood
  unfold State.restart at hgood ⊢
  split
  · rename_i hrest
    split
    · rename_i hreaped
      simp only [hrest, hreaped, if_true] at hgood
      dsimp only at hgood ⊢
      split
      · exact h
      · rename_i hchild
        simp only [hchild] at hgood
        split
        · rename_i hlaunch
          simp only [hlaunch, if_true] at hgood
          exact hremove s.sup (fun _ => rfl) (hgood (by simp [Supervisor.child_remove])) _
        · rename_i hlaunch
          simp only [hlaunch] at hgood
          have hsame := fun other => s.sup.pid_mayRestart now key other
          split
          · refine h.frame (fun _ _ h => h) (fun key' pid _ hlist => ?_) fun key' pid _ hin => Or.inr ?_
            · rw [Listed, hsame]
              exact hlist
            · rcases hin with hrequest | hhand
              · exact Or.inl hrequest
              · rw [hrest] at hhand
                contradiction
          · rename_i hallowed
            simp only [hallowed] at hgood
            exact hremove _ hsame (hgood (by simp [Supervisor.child_remove])) _
    · exact h
  · exact h

/-- Stopping a key signals the process its entry names. -/
theorem Tracked.stopKey {s : State} (h : s.Tracked) (key : Owner) : (s.stopKey key).Tracked := by
  unfold State.stopKey
  cases hchild : s.sup.child key with
  | none => exact h
  | some c =>
    have hrunning : ∀ key' pid, State.Running { s.stop c.pid with sup := s.sup.remove key } key' pid →
        pid ≠ c.pid ∧ s.Running key' pid := by
      intro key' pid hrun
      by_cases heq : pid = c.pid
      · subst heq
        simp [Running, State.stop] at hrun
      · exact ⟨heq, by simpa [Running, State.stop, heq] using hrun⟩
    refine h.frame (fun key' pid hrun => (hrunning key' pid hrun).2) (fun key' pid hrun hlist => ?_)
      fun _ _ _ h => Or.inr h
    rw [Listed, Supervisor.child_remove]
    split
    · rename_i heq
      subst heq
      rw [Listed, hchild] at hlist
      exact absurd (Option.some.inj hlist).symm (hrunning key' pid hrun).1
    · exact hlist

/-- A step that changes neither the table nor what is in hand, and starts no process, keeps every
running process tracked. -/
theorem Tracked.of_quiet {s s' : State} (h : s.Tracked)
    (hrunning : ∀ key pid, s'.Running key pid → s.Running key pid) (hsup : s'.sup = s.sup)
    (hsupervising : s'.supervising = s.supervising) (hrespawn : s'.respawn = s.respawn) : s'.Tracked := by
  refine h.frame hrunning (fun key pid _ hlist => ?_) fun key pid _ hin => Or.inr ?_
  · rw [Listed, hsup]
    exact hlist
  · rw [InHand, hsupervising, hrespawn]
    exact hin

/-- A section of a stop request keeps every running process tracked. -/
theorem Tracked.downNext {s : State} (h : s.Tracked) (client : ℕ) (saved : Bool) :
    (s.downNext client saved).Tracked := by
  unfold State.downNext
  split
  · exact h
  · exact h.of_quiet (fun _ _ h => h) rfl rfl rfl
  · rename_i request keys _
    have hstopped : (keys.foldl State.stopKey s).Tracked :=
      List.foldlRecOn keys State.stopKey h fun _ ih key _ => ih.stopKey key
    exact hstopped.of_quiet (fun _ _ h => h) rfl rfl rfl
  · exact h.of_quiet (fun _ _ h => h) rfl rfl rfl

/-- Steps that keep track keep every running process tracked. -/
theorem Tracked.step {s : State} (h : s.Tracked) {label : Label} (hgood : s.KeepsTrack label) :
    (s.step label).Tracked := by
  cases label with
  | superviseStart request =>
    simp only [State.step]
    split
    · rename_i hnone
      refine h.frame (fun _ _ h => h) (fun _ _ _ h => h) fun key pid _ hin => Or.inr ?_
      rcases hin with ⟨_, _, hsome, _⟩ | hhand
      · rw [hnone] at hsome
        contradiction
      · exact Or.inr hhand
    · exact h
  | superviseNext world saved spawned => exact h.superviseNext hgood
  | downStart client request world =>
    simp only [State.step, State.downStart]
    split
    · exact h.of_quiet (fun _ _ h => h) rfl rfl rfl
    · exact h
  | downNext client saved => exact h.downNext client saved
  | reap world =>
    simp only [State.step, State.reap]
    split
    · refine h.of_quiet (fun key pid hrun => ?_) rfl rfl rfl
      obtain ⟨p, hp, heq⟩ := Option.map_eq_some_iff.mp hrun
      split at heq
      · cases heq
      · subst heq
        exact hp
    · exact h
  | restart key now => exact h.restart hgood
  | respawnNext world saved spawned => exact h.respawnNext hgood
  | exit pid =>
    refine h.of_quiet (fun key pid' hrun => ?_) rfl rfl rfl
    by_cases heq : pid' = pid
    · subst heq
      simp only [Running, State.step, Function.update_self, Option.map_eq_some_iff] at hrun
      obtain ⟨p, hp, heq⟩ := hrun
      split at heq
      · cases heq
      · subst heq
        exact hp
    · simpa [Running, State.step, heq] using hrun

end State

end Devkit.Daemon
