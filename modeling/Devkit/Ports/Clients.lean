import Devkit.Library.Runs
import Devkit.Ports.Rows

/-!
# Clients of one port registry

Every client is idle or between the two sections of a call: it has chosen ports for an
allocation, or it has probed a snapshot for a prune (a registry read prunes too). The
sections of different clients interleave freely. A client may give up between its sections,
as when its commit is refused, and a search that panics commits nothing.

A prune remembers ports, not rows. While no step puts a new row on a port that a prune under
way has probed dead, the row there is still the probed one, and the commit removes nothing
else. One such step is enough for a commit to remove a live row.
-/

namespace Devkit.Ports

/-- What a client has done of a call in two sections. -/
inductive Pending
  | idle
  | allocating (holder : String) (role : Role) (reqs : List Request) (chosen : List (String × UInt16))
  | pruning (world : World) (snapshot : Data) (dead : List UInt16)

/-- A port an allocation returned to a client. -/
structure Grant where
  client : ℕ
  owner : Owner
  port : UInt16
deriving DecidableEq

/-- The registry, the calls under way and the ports handed out so far. -/
structure Clients where
  registry : Data
  pending : ℕ → Pending
  grants : List Grant

/-- One critical section of some client's call. -/
inductive Label
  | allocRead (client : ℕ) (world : World) (holder : String) (role : Role) (reqs : List Request)
  | pruneProbe (client : ℕ) (world : World)
  | commit (client : ℕ) (world : World)
  | giveUp (client : ℕ)
  | recordPid (client : ℕ) (world : World) (port : UInt16) (owner : Owner) (pid : ℕ) (logfile : String)
  | release (holder : String) (role : Option Role)
  | releasePorts (ports : List UInt16)

namespace Clients

/-- No call under way. -/
def start (registry : Data) : Clients := ⟨registry, fun _ => .idle, []⟩

/-- Set what one client has under way. -/
def withPending (s : Clients) (client : ℕ) (pending : Pending) : Clients :=
  { s with pending := Function.update s.pending client pending }

/-- The second section of a client's call. -/
def commit (s : Clients) (client : ℕ) (world : World) : Clients :=
  match s.pending client with
  | .idle => s
  | .allocating holder role reqs chosen =>
    match commitAlloc world s.registry holder role reqs chosen with
    | none => s.withPending client .idle
    | some (registry, out) =>
      let granted := out.map fun (app, port) => ⟨client, ⟨holder, app, role⟩, port⟩
      { s.withPending client .idle with registry, grants := s.grants ++ granted }
  | .pruning _ _ dead => { s.withPending client .idle with registry := s.registry.removePorts dead }

/-- One section. A first section needs an idle client. -/
def step (s : Clients) (label : Label) : Clients :=
  match label with
  | .allocRead client world holder role reqs =>
    match s.pending client, choose world s.registry holder role reqs with
    | .idle, some chosen => s.withPending client (.allocating holder role reqs chosen)
    | _, _ => s
  | .pruneProbe client world =>
    match s.pending client with
    | .idle => s.withPending client (.pruning world s.registry (s.registry.deadPorts world))
    | _ => s
  | .commit client world => s.commit client world
  | .giveUp client => s.withPending client .idle
  | .recordPid _ world port owner pid logfile =>
    { s with registry := s.registry.recordPid world port owner pid logfile }
  | .release holder role => { s with registry := (s.registry.release holder role).1 }
  | .releasePorts ports => { s with registry := (s.registry.releasePorts ports).1 }

/-- A client has a prune under way. -/
def Pruning (s : Clients) (client : ℕ) (world : World) (snapshot : Data) (dead : List UInt16) : Prop :=
  s.pending client = .pruning world snapshot dead

/-- A prune under way after a call's end was under way before, for another client. -/
theorem pruning_withPending_idle (s : Clients) (client : ℕ) {other : ℕ} {world : World} {snapshot : Data}
    {dead : List UInt16} (h : (s.withPending client .idle).Pruning other world snapshot dead) :
    s.Pruning other world snapshot dead := by
  by_cases heq : other = client
  · subst heq
    simp [Pruning, withPending] at h
  · simpa [Pruning, withPending, heq] using h

end Clients

open Devkit.Library
open Std
open Clients

/-- A commit removes a row only if the prune's snapshot held that very row and probed it dead. -/
def RemovesOnlyProbed (s : Clients) : Label → Prop
  | .commit client world => ∀ probed snapshot dead, s.Pruning client probed snapshot dead →
    ∀ port e, s.registry.Row port e → ¬ (s.step (.commit client world)).registry.Row port e →
      snapshot.Row port e ∧ entryAlive probed port e = false
  | _ => True

/-- The step puts no new row on a port that a prune under way has probed dead. -/
def LeavesProbed (s : Clients) (label : Label) : Prop :=
  ∀ client probed snapshot dead, s.Pruning client probed snapshot dead → ∀ port ∈ dead, ∀ e,
    (s.step label).registry.Row port e → s.registry.Row port e

/-- A row at a port probed dead is the one the probe read. -/
def Probed (s : Clients) : Prop :=
  ∀ client probed snapshot dead, s.Pruning client probed snapshot dead →
    dead = snapshot.deadPorts probed ∧ ∀ port ∈ dead, ∀ e, s.registry.Row port e → snapshot.Row port e

/-- A prune under way after a step was under way before it, or was begun by it. -/
theorem pruning_step {s : Clients} {label : Label} {client : ℕ} {probed : World} {snapshot : Data}
    {dead : List UInt16} (h : (s.step label).Pruning client probed snapshot dead) :
    s.Pruning client probed snapshot dead ∨
      snapshot = s.registry ∧ dead = s.registry.deadPorts probed ∧ (s.step label).registry = s.registry := by
  cases label with
  | allocRead other world holder role reqs =>
    simp only [Clients.step] at h ⊢
    split at h
    · left
      by_cases heq : client = other
      · subst heq
        simp [Pruning, withPending] at h
      · simpa [Pruning, withPending, heq] using h
    · exact Or.inl h
  | pruneProbe other world =>
    simp only [Clients.step] at h ⊢
    split at h
    · by_cases heq : client = other
      · subst heq
        simp only [Pruning, withPending, Function.update_self, Pending.pruning.injEq] at h
        obtain ⟨rfl, rfl, rfl⟩ := h
        exact Or.inr ⟨rfl, rfl, rfl⟩
      · exact Or.inl (by simpa [Pruning, withPending, heq] using h)
    · exact Or.inl h
  | commit other world =>
    left
    simp only [Clients.step, Clients.commit] at h
    split at h
    · exact h
    · split at h
      · exact pruning_withPending_idle _ other h
      · exact pruning_withPending_idle s other h
    · exact pruning_withPending_idle s other h
  | giveUp other => exact Or.inl (pruning_withPending_idle _ other h)
  | recordPid | release | releasePorts => exact Or.inl h

/-- Steps that leave probed ports alone keep their rows the probed ones. -/
theorem Probed.step {s : Clients} {label : Label} (h : Probed s) (hleaves : LeavesProbed s label) :
    Probed (s.step label) := by
  intro client probed snapshot dead hpruning
  rcases pruning_step hpruning with hold | ⟨rfl, rfl, hregistry⟩
  · obtain ⟨hdead, hrows⟩ := h client probed snapshot dead hold
    exact ⟨hdead, fun port hport e hrow =>
      hrows port hport e (hleaves client probed snapshot dead hold port hport e hrow)⟩
  · exact ⟨rfl, fun port _ e hrow => hregistry ▸ hrow⟩

/-- While probed ports carry probed rows, a commit removes only what was probed dead. -/
theorem Probed.removes {s : Clients} (h : Probed s) (label : Label) : RemovesOnlyProbed s label := by
  cases label with
  | commit client world =>
    intro probed snapshot dead hpruning port e hrow hgone
    obtain ⟨rfl, hrows⟩ := h client probed snapshot dead hpruning
    have hport : port ∈ snapshot.deadPorts probed := by
      by_contra hnot
      refine hgone ?_
      rw [Clients.step, Clients.commit, hpruning]
      exact Data.row_removePorts.mpr ⟨hnot, hrow⟩
    have hprobed := hrows port hport e hrow
    obtain ⟨e', hrow', hdead⟩ := Data.mem_deadPorts.mp hport
    exact ⟨hprobed, hprobed.unique hrow' ▸ hdead⟩
  | allocRead | pruneProbe | giveUp | recordPid | release | releasePorts => trivial

/-- In every run from a registry no call is under way on, in which no step puts a new row on a
port that a prune under way has probed dead, every commit of a prune or snapshot removes only
rows it probed dead. -/
theorem prune_removes_only_probed (d : Data) (labels : List Label)
    (h : Along Clients.step LeavesProbed (Clients.start d) labels) :
    Along Clients.step RemovesOnlyProbed (Clients.start d) labels := by
  have hstart : Probed (Clients.start d) := fun _ _ _ _ hpruning => by
    simp [Pruning, Clients.start] at hpruning
  exact h.strengthen Probed (fun s label => Probed.step) (fun s label hprobed _ => hprobed.removes label)
    hstart

section Example

/-- A worktree's server. -/
def apiOwner : Owner := ⟨"/w", "api", .workspace⟩

/-- A registry with one row, of process 7. -/
def servedRegistry : Data :=
  ⟨(∅ : ExtTreeMap UInt16 Entry).insert 4000 ⟨"api", "/w", .workspace, some 7, none, 0⟩⟩

/-- Process 8 lives and process 7 does not. -/
def sampleWorld : World := ⟨1000, fun _ => true, fun pid => pid == 8, fun _ => false⟩

/-- A client probes process 7 dead, another records process 8 on the row, and the first commits. -/
def respawnLabels : List Label :=
  [.pruneProbe 1 sampleWorld, .recordPid 2 sampleWorld 4000 apiOwner 8 "/w/api.log", .commit 1 sampleWorld]

/-- The commit removes the row of the live process 8. -/
theorem respawn_not_removes_only_probed :
    ¬ Along Clients.step RemovesOnlyProbed (Clients.start servedRegistry) respawnLabels := by
  intro h
  have hcommit := Along.at_step (respawnLabels.take 2) [] (.commit 1 sampleWorld) h
  have hrow : (runFrom Clients.step (Clients.start servedRegistry) (respawnLabels.take 2)).registry.Row 4000
      ⟨"api", "/w", .workspace, some 8, some "/w/api.log", 0⟩ := by decide +kernel
  have hremoved := hcommit sampleWorld servedRegistry _ rfl 4000 _ hrow (by decide +kernel)
  exact absurd hremoved.1 (by decide +kernel)

/-- Process 7 is pruned when nothing is recorded in between. -/
theorem prune_removes_only_probed_sample :
    Along Clients.step RemovesOnlyProbed (Clients.start servedRegistry)
      [.pruneProbe 1 sampleWorld, .commit 1 sampleWorld] := by
  refine prune_removes_only_probed servedRegistry _ ⟨fun _ _ _ _ _ _ _ _ hrow => hrow, ?_, trivial⟩
  intro client probed snapshot dead _ port _ e hrow
  exact (Data.row_removePorts.mp hrow).2

end Example

end Devkit.Ports
