import Devkit.Daemon.Stopped

/-!
# A stopped server stays stopped

Once a stop by holder has returned, and until a request names the key again, the table, the
tick and the running processes hold nothing of the key. This needs the keys the stop read from
the registry to include the covered entries of the table: the read drops the row of a process
that has died, and the table still holds the entry the tick launches again.
-/

namespace Devkit.Daemon

open Devkit.Ports
open Devkit.Library

namespace State

/-- A section of the request under the mutex leaves the stop requests alone. -/
theorem superviseNext_stops (s : State) (world : World) (saved : Bool) (spawned : Option ℕ) :
    (s.superviseNext world saved spawned).downed = s.downed ∧
      (s.superviseNext world saved spawned).downs = s.downs := by
  unfold superviseNext
  split
  · exact ⟨rfl, rfl⟩
  · split <;> exact ⟨rfl, rfl⟩
  · split
    · split <;> exact ⟨rfl, rfl⟩
    · exact ⟨rfl, rfl⟩
  · split <;> exact ⟨rfl, rfl⟩
  · split
    · exact ⟨rfl, rfl⟩
    · split <;> exact ⟨rfl, rfl⟩
  · split <;> exact ⟨rfl, rfl⟩
  · exact ⟨rfl, rfl⟩

/-- A decision of the tick leaves the stop requests alone. -/
theorem restart_stops (s : State) (key : Owner) (now : ℕ) :
    (s.restart key now).downed = s.downed ∧ (s.restart key now).downs = s.downs := by
  unfold restart
  split
  · split
    · dsimp only
      split
      · exact ⟨rfl, rfl⟩
      · split
        · exact ⟨rfl, rfl⟩
        · split <;> exact ⟨rfl, rfl⟩
    · exact ⟨rfl, rfl⟩
  · exact ⟨rfl, rfl⟩

/-- A section of the tick's respawn leaves the stop requests alone. -/
theorem respawnNext_stops (s : State) (world : World) (saved : Bool) (spawned : Option ℕ) :
    (s.respawnNext world saved spawned).downed = s.downed ∧
      (s.respawnNext world saved spawned).downs = s.downs := by
  unfold respawnNext
  split
  · exact ⟨rfl, rfl⟩
  · split <;> exact ⟨rfl, rfl⟩
  · split
    · exact ⟨rfl, rfl⟩
    · split <;> exact ⟨rfl, rfl⟩
  · exact ⟨rfl, rfl⟩
  · exact ⟨rfl, rfl⟩

/-- A section of a stop request keeps every ended key clean. -/
theorem EndedClean.downNext {s : State} (h : s.EndedClean) {client : ℕ} {saved : Bool}
    (hgood : s.KeepsDown (.downNext client saved)) : (s.downNext client saved).EndedClean := by
  intro key hended
  unfold State.downNext at hended ⊢
  cases hphase : s.downs client with
  | idle =>
    simp only [hphase] at hended
    exact h key hended
  | pruning request snapshot dead =>
    simp only [hphase] at hended
    refine h key (hended.imp id fun ⟨other, down, hstopped, hcovers⟩ => ⟨other, down, ?_, hcovers⟩)
    by_cases heq : other = client
    · subst heq
      simp [Stopping.stopped] at hstopped
    · simpa [heq] using hstopped
  | stopping request keys =>
    simp only [hphase] at hended
    obtain ⟨hsupervising, hrespawn, hdowned, hdowns⟩ := stopKeys_frame keys s
    have hclean : ∀ (covered : (s.sup.child key).isSome = true → key ∈ keys), s.Quiet key →
        (keys.foldl stopKey s).Clean key := by
      intro hcovered hquiet
      refine ⟨?_, by rw [Quiet, hsupervising, hrespawn]; exact hquiet⟩
      rw [child_stopKeys]
      split
      · rfl
      · rename_i hnot
        exact Option.not_isSome_iff_eq_none.mp fun hsome => hnot (hcovered hsome)
    have hbefore : s.Ended key → (keys.foldl stopKey s).Clean key := fun hended =>
      hclean (fun hsome => by rw [(h key hended).1] at hsome; contradiction) (h key hended).2
    rcases hended with hreturned | ⟨other, down, hstopped, hcovers⟩
    · exact hbefore (Or.inl (congrFun hdowned key ▸ hreturned))
    · by_cases heq : other = client
      · obtain rfl : request = down := by simpa [heq, Stopping.stopped] using hstopped
        obtain ⟨hcovered, hquiet⟩ := hgood request keys (by rw [hphase]; rfl) key hcovers
        exact hclean hcovered hquiet
      · refine hbefore (Or.inr ⟨other, down, ?_, hcovers⟩)
        simpa [heq] using hstopped
  | releasing request =>
    simp only [hphase] at hended
    refine h key ?_
    rcases hended with hreturned | ⟨other, down, hstopped, hcovers⟩
    · rcases Bool.or_eq_true_iff.mp hreturned with hdowned | hcovers
      · exact Or.inl hdowned
      · exact Or.inr ⟨client, request, by rw [hphase]; rfl, hcovers⟩
    · by_cases heq : other = client
      · subst heq
        simp [Stopping.stopped] at hstopped
      · exact Or.inr ⟨other, down, by simpa [heq] using hstopped, hcovers⟩

/-- Steps that keep what is stopped down keep every ended key clean. -/
theorem EndedClean.step {s : State} (h : s.EndedClean) {label : Label} (hgood : s.KeepsDown label) :
    (s.step label).EndedClean := by
  cases label with
  | superviseStart request =>
    simp only [State.step]
    split
    · rename_i hnone
      intro key hended
      have hne : request.key ≠ key := by
        rintro rfl
        rcases hended with hdowned | ⟨client, down, hstopped, hcovers⟩
        · simp at hdowned
        · rw [hgood hnone client down hstopped] at hcovers
          contradiction
      have hbefore : s.Ended key := by
        refine hended.imp (fun hdowned => ?_) id
        simpa [hne.symm] using hdowned
      obtain ⟨hchild, _, hrespawn⟩ := h key hbefore
      refine ⟨hchild, fun request' phase hsup => ?_, hrespawn⟩
      obtain ⟨rfl, _⟩ := Prod.mk.inj (Option.some.inj hsup)
      exact hne
    · exact h
  | superviseNext world saved spawned =>
    intro key hended
    refine (h key ?_).superviseNext world saved spawned
    have hsame : (s.superviseNext world saved spawned).downed = s.downed ∧
        (s.superviseNext world saved spawned).downs = s.downs := superviseNext_stops s world saved spawned
    rw [Ended, State.step, hsame.1, hsame.2] at hended
    exact hended
  | downStart client request world =>
    intro key hended
    simp only [State.step, State.downStart] at hended ⊢
    cases hphase : s.downs client with
    | pruning | stopping | releasing => simp only [hphase] at hended; exact h key hended
    | idle =>
      simp only [hphase] at hended
      refine h key (hended.imp id fun hbefore => ?_)
      obtain ⟨other, down, hstopped, hcovers⟩ := hbefore
      refine ⟨other, down, ?_, hcovers⟩
      by_cases heq : other = client
      · subst heq
        dsimp only at hstopped
        rw [Function.update_self] at hstopped
        split at hstopped <;> contradiction
      · simpa [heq] using hstopped
  | downNext client saved => exact h.downNext hgood
  | reap world =>
    simp only [State.step, State.reap]
    split <;> exact h
  | restart reaped now =>
    intro key hended
    refine (h key ?_).restart reaped now
    have hsame : (s.restart reaped now).downed = s.downed ∧ (s.restart reaped now).downs = s.downs :=
      restart_stops s reaped now
    rw [Ended, State.step, hsame.1, hsame.2] at hended
    exact hended
  | respawnNext world saved spawned =>
    intro key hended
    refine (h key ?_).respawnNext world saved spawned
    have hsame : (s.respawnNext world saved spawned).downed = s.downed ∧
        (s.respawnNext world saved spawned).downs = s.downs := respawnNext_stops s world saved spawned
    rw [Ended, State.step, hsame.1, hsame.2] at hended
    exact hended
  | exit pid => exact h

/-- A new daemon tracks its processes and has ended nothing. -/
theorem boot_tracked (world : World) (d : Data) (maxRestarts window : ℕ) :
    (boot world d maxRestarts window).Tracked ∧ (boot world d maxRestarts window).EndedClean := by
  constructor
  · intro key pid hrun
    simp [Running, boot] at hrun
  · rintro key (hdowned | ⟨client, down, hstopped, _⟩)
    · simp [boot] at hdowned
    · simp [boot, Stopping.stopped] at hstopped

/-- **A stopped server stays stopped.** In a run whose steps keep track and keep what is stopped
down, a key whose stop by holder has returned, with no request for it since, is not in the table,
is not being respawned and runs no process. -/
theorem stopped_stays_down (world : World) (d : Data) (maxRestarts window : ℕ) (labels : List Label)
    (hgood : Along State.step State.Good (boot world d maxRestarts window) labels) (key : Owner)
    (hdowned : (runFrom State.step (boot world d maxRestarts window) labels).downed key = true) :
    (runFrom State.step (boot world d maxRestarts window) labels).sup.child key = none ∧
      (runFrom State.step (boot world d maxRestarts window) labels).respawn.key ≠ some key ∧
      ∀ pid, ¬ (runFrom State.step (boot world d maxRestarts window) labels).Running key pid := by
  obtain ⟨htracked, hended⟩ := hgood.invariant (fun s => s.Tracked ∧ s.EndedClean)
    (fun s label hs hlabel => ⟨hs.1.step hlabel.1, hs.2.step hlabel.2⟩)
    (boot_tracked world d maxRestarts window)
  have hclean := hended key (Or.inl hdowned)
  exact ⟨hclean.1, hclean.2.2, htracked.not_running hclean⟩

section Example

/-- A world where every process that was not spawned lives and no port is bound. -/
def quietWorld : World := ⟨0, fun _ => true, fun _ => true, fun _ => false⟩

/-- A server of a workspace and the request that starts it. -/
def api : Supervise := ⟨⟨"/w", "api", .workspace⟩, ⟨["serve"], "/w", []⟩, "/w/api.log", 4000⟩

/-- The request starts the server as process 7. -/
def serve : List Label :=
  [.superviseStart api, .superviseNext quietWorld true none, .superviseNext quietWorld true none,
    .superviseNext quietWorld true none, .superviseNext quietWorld true (some 7),
    .superviseNext quietWorld true none, .superviseNext quietWorld true none]

/-- The server dies and the tick decides to launch it again. -/
def crash : List Label := [.exit 7, .reap quietWorld, .restart api.key 0]

/-- The tick's respawn finishes: the server runs as process 8. -/
def relaunch : List Label :=
  [.respawnNext quietWorld true none, .respawnNext quietWorld true (some 8),
    .respawnNext quietWorld true none, .respawnNext quietWorld true none]

/-- The first section of a request to stop the workspace's servers. -/
def startDown : Label := .downStart 1 (.ofHolder "/w" none) quietWorld

/-- A section of a saved request keeps track when nothing is watched under the key it is for. -/
theorem good_superviseNext {s : State}
    (hfree : s.supervising.all (fun current => (s.sup.child current.1.key).isNone) = true)
    (world : World) (spawned : Option ℕ) : s.Good (.superviseNext world true spawned) := by
  refine ⟨?_, trivial⟩
  unfold KeepsTrack
  dsimp only
  split
  · intro hsaved
    contradiction
  · rename_i request port pid hsup
    intro old hlist
    rw [hsup, Option.all_some, Option.isNone_iff_eq_none] at hfree
    rw [Listed, hfree] at hlist
    contradiction
  · trivial

/-- A stop request that has found every key of the table keeps it down when nothing is under way. -/
theorem good_downNext {s : State} {client : ℕ}
    (hfound : ((s.downs client).found.all fun found => s.sup.children.keys.all (· ∈ found.2)) = true)
    (hrequest : s.supervising.isNone = true) (hrespawn : s.respawn.key = none) (saved : Bool) :
    s.Good (.downNext client saved) := by
  refine ⟨trivial, fun request keys hsome key _ => ⟨fun hchild => ?_, fun _ _ hsup => ?_, ?_⟩⟩
  · rw [hsome, Option.all_some, List.all_eq_true] at hfound
    exact of_decide_eq_true (hfound key (AList.mem_keys.mp (AList.lookup_isSome.mp hchild)))
  · rw [hsup] at hrequest
    contradiction
  · rw [hrespawn]
    exact (Option.some_ne_none key).symm

/-- A served workspace is stopped while its server runs. -/
theorem stopped_stays_down_sample :
    (runFrom step (boot quietWorld Data.empty 5 60)
        (serve ++ [startDown, .downNext 1 true, .downNext 1 true])).sup.child api.key = none ∧
      (runFrom step (boot quietWorld Data.empty 5 60)
        (serve ++ [startDown, .downNext 1 true, .downNext 1 true])).respawn.key ≠ some api.key ∧
      ∀ pid, ¬ (runFrom step (boot quietWorld Data.empty 5 60)
        (serve ++ [startDown, .downNext 1 true, .downNext 1 true])).Running api.key pid := by
  refine stopped_stays_down quietWorld Data.empty 5 60 _ ?_ api.key (by decide +kernel)
  refine ⟨⟨trivial, fun _ _ _ hstopped => by simp [boot, Stopping.stopped] at hstopped⟩, ?_⟩
  refine ⟨good_superviseNext (by decide +kernel) _ _, good_superviseNext (by decide +kernel) _ _,
    good_superviseNext (by decide +kernel) _ _, good_superviseNext (by decide +kernel) _ _,
    good_superviseNext (by decide +kernel) _ _, good_superviseNext (by decide +kernel) _ _, ?_⟩
  exact ⟨⟨trivial, trivial⟩, good_downNext (by decide +kernel) (by decide +kernel) (by decide +kernel) _,
    good_downNext (by decide +kernel) (by decide +kernel) (by decide +kernel) _, trivial⟩

/-- A stop request that comes while the tick is to launch the dead server finds no row of it, and
returns; the tick then launches the server again. -/
theorem relaunch_after_down :
    (runFrom step (boot quietWorld Data.empty 5 60) (serve ++ crash ++
        [startDown, .downNext 1 true, .downNext 1 true, .downNext 1 true] ++ relaunch)).downed api.key = true ∧
      ((runFrom step (boot quietWorld Data.empty 5 60) (serve ++ crash ++
        [startDown, .downNext 1 true, .downNext 1 true, .downNext 1 true] ++ relaunch)).sup.child
          api.key).map Child.pid = some 8 ∧
      (runFrom step (boot quietWorld Data.empty 5 60) (serve ++ crash ++
        [startDown, .downNext 1 true, .downNext 1 true, .downNext 1 true] ++ relaunch)).Running api.key 8 := by
  decide +kernel

end Example

end State

end Devkit.Daemon
