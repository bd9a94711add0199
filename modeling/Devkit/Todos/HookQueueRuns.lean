import Devkit.Todos.HookQueue

/-!
# What the deferred queue loses and repeats

Only the process that holds the drain lock removes entries, and it removes the one it applied. So
entries are applied in the order they were pushed, and one is applied again only where its removal
failed. While entries are queued and no drain gave up, some process is inside and will look.
-/

namespace Devkit.Todos.HookQueue

open Devkit.Library
open Std

variable {E : Type}

/-- How often the entry at a place was applied. -/
def timesApplied (s : HookQueue E) (place : ℕ) : ℕ := (s.applied.map Prod.snd).count place

/-- How often the removal of the entry at a place failed. -/
def timesUnpopped (s : HookQueue E) (place : ℕ) : ℕ := (s.unpopped.map Prod.snd).count place

/-- The entry is the one being applied or removed. -/
def atHand (s : HookQueue E) (entry : E × ℕ) : Prop :=
  ∃ process, s.drainer = some (process, .apply entry) ∨ s.drainer = some (process, .pop entry)

/-- What every step keeps: the file holds the pushed entries that were not removed, the entry at hand
is the oldest, and applied entries come no later than queued ones, each at most once but for the
failed removals. -/
structure Sound (s : HookQueue E) : Prop where
  filed : s.pushed.zipIdx = s.popped ++ s.queue
  oldest : ∀ entry, s.atHand entry → s.queue.head? = some entry
  genuine : ∀ entry ∈ s.applied, entry ∈ s.pushed.zipIdx
  ordered : (s.applied.map Prod.snd).Pairwise (· ≤ ·)
  earlier : ∀ entry ∈ s.applied, ∀ later ∈ s.queue, entry.2 ≤ later.2
  once : ∀ place, s.timesApplied place ≤ s.timesUnpopped place + 1
  pending : ∀ entry ∈ s.queue, (∀ process, s.drainer ≠ some (process, .pop entry)) →
    s.timesApplied entry.2 ≤ s.timesUnpopped entry.2
  settled : ∀ entry, entry ∈ s.popped ∨ (∃ process, s.drainer = some (process, .pop entry)) →
    entry ∈ s.applied ∨ entry ∈ s.reported
  attended : s.queue ≠ [] → s.gaveUp = false → ¬ s.Quiet

/-- The empty queue is sound. -/
theorem sound_start : (start : HookQueue E).Sound where
  filed := rfl
  oldest := fun entry ⟨process, h⟩ => by cases h with | inl h => cases h | inr h => cases h
  genuine := fun entry h => absurd h List.not_mem_nil
  ordered := List.Pairwise.nil
  earlier := fun entry h => absurd h List.not_mem_nil
  once := fun place => Nat.zero_le _
  pending := fun entry h => absurd h List.not_mem_nil
  settled := fun entry h => by
    cases h with
    | inl h => exact absurd h List.not_mem_nil
    | inr h => obtain ⟨process, h⟩ := h; cases h
  attended := fun h => absurd rfl h

/-- Queued entries stand in the order of their places, no two at one place. -/
theorem Sound.queue_pairwise {s : HookQueue E} (h : s.Sound) :
    (s.queue.map Prod.snd).Pairwise (· < ·) := by
  have hplaces : (s.pushed.zipIdx.map Prod.snd).Pairwise (· < ·) := by
    rw [List.zipIdx_map_snd]
    exact List.pairwise_lt_range'
  rw [h.filed, List.map_append] at hplaces
  exact (List.pairwise_append.mp hplaces).2.1

/-- The entry at hand and the entries behind it. -/
theorem Sound.queue_eq {s : HookQueue E} (h : s.Sound) {entry : E × ℕ} (hentry : s.atHand entry) :
    ∃ rest, s.queue = entry :: rest ∧ ∀ later ∈ rest, entry.2 < later.2 := by
  have hhead := h.oldest entry hentry
  cases hqueue : s.queue with
  | nil => rw [hqueue] at hhead; cases hhead
  | cons first rest =>
    rw [hqueue] at hhead
    obtain rfl : first = entry := Option.some.inj hhead
    refine ⟨rest, rfl, fun later hlater => ?_⟩
    have hplaces := h.queue_pairwise
    rw [hqueue, List.map_cons] at hplaces
    exact (List.pairwise_cons.mp hplaces).1 later.2 (List.mem_map_of_mem hlater)

/-- An applied entry stands before the end of what was pushed. -/
theorem Sound.applied_lt {s : HookQueue E} (h : s.Sound) {entry : E × ℕ} (hentry : entry ∈ s.applied) :
    entry.2 < s.pushed.length := by
  have hplace := List.snd_lt_of_mem_zipIdx (h.genuine entry hentry)
  simpa using hplace

/-- Moving between sections keeps the queue sound: a process that reaches an entry found it at the
front, and none begins or ends a removal. -/
theorem Sound.moved {s : HookQueue E} (h : s.Sound) (drainer : Option (ℕ × Inside E))
    (others : ExtTreeMap ℕ (Outside E)) (gaveUp : Bool)
    (holdest : ∀ entry, ({ s with drainer } : HookQueue E).atHand entry → s.queue.head? = some entry)
    (hpop : ∀ process entry, drainer = some (process, .pop entry) ↔ s.drainer = some (process, .pop entry))
    (hattended : s.queue ≠ [] → gaveUp = false → ¬ (drainer = none ∧ others = ∅)) :
    ({ s with drainer, others, gaveUp } : HookQueue E).Sound where
  filed := h.filed
  oldest := holdest
  genuine := h.genuine
  ordered := h.ordered
  earlier := h.earlier
  once := h.once
  pending := fun entry hentry hnone =>
    h.pending entry hentry fun process hdrainer => hnone process ((hpop process entry).mpr hdrainer)
  settled := fun entry hentry => h.settled entry <| hentry.imp_right fun ⟨process, hdrainer⟩ =>
    ⟨process, (hpop process entry).mp hdrainer⟩
  attended := hattended

/-- A process comes in and reaches no entry yet. -/
theorem Sound.placed {s : HookQueue E} (h : s.Sound) (process : ℕ) (place : Outside E) :
    ({ s with others := s.others.insert process place } : HookQueue E).Sound :=
  h.moved s.drainer _ s.gaveUp h.oldest (fun _ _ => Iff.rfl)
    fun _ _ hquiet => ExtTreeMap.insert_ne_empty hquiet.2

/-- A drain that gives up before it removed anything leaves the queue sound. -/
theorem Sound.gaveUp {s : HookQueue E} (h : s.Sound)
    (hpop : ∀ process entry, s.drainer ≠ some (process, .pop entry)) : s.giveUp.Sound :=
  h.moved none s.others true
    (fun entry ⟨process, hhand⟩ => by cases hhand with | inl hhand => cases hhand | inr hhand => cases hhand)
    (fun process entry => ⟨fun hnone => (nomatch hnone), fun hdrainer => absurd hdrainer (hpop process entry)⟩)
    (fun _ hgave => nomatch hgave)

/-- A push puts its entry behind all others. -/
theorem Sound.pushed {s : HookQueue E} (h : s.Sound) (process : ℕ) (entry : E) :
    ({ s with others := s.others.insert process .tryLock, queue := s.queue ++ [(entry, s.pushed.length)],
              pushed := s.pushed ++ [entry] } : HookQueue E).Sound where
  filed := by
    change (s.pushed ++ [entry]).zipIdx = s.popped ++ (s.queue ++ [(entry, s.pushed.length)])
    rw [List.zipIdx_append, h.filed, List.append_assoc]
    simp
  oldest := fun first hfirst => by
    have hhand : s.atHand first := hfirst
    obtain ⟨rest, hqueue, _⟩ := h.queue_eq hhand
    change (s.queue ++ [(entry, s.pushed.length)]).head? = some first
    rw [hqueue]
    rfl
  genuine := fun done hdone => by
    change done ∈ (s.pushed ++ [entry]).zipIdx
    rw [List.zipIdx_append]
    exact List.mem_append_left _ (h.genuine done hdone)
  ordered := h.ordered
  earlier := fun done hdone later hlater => by
    cases List.mem_append.mp hlater with
    | inl hlater => exact h.earlier done hdone later hlater
    | inr hlater =>
      obtain rfl := List.mem_singleton.mp hlater
      exact Nat.le_of_lt (h.applied_lt hdone)
  once := h.once
  pending := fun later hlater hnone => by
    cases List.mem_append.mp hlater with
    | inl hlater => exact h.pending later hlater hnone
    | inr hlater =>
      obtain rfl := List.mem_singleton.mp hlater
      -- nothing was applied at a place nobody had pushed to
      have hnever : s.timesApplied s.pushed.length = 0 := by
        apply List.count_eq_zero.mpr
        intro hplace
        obtain ⟨done, hdone, hplace⟩ := List.mem_map.mp hplace
        have := h.applied_lt hdone
        omega
      change s.timesApplied s.pushed.length ≤ _
      rw [hnever]
      exact Nat.zero_le _
  settled := h.settled
  attended := fun _ _ hquiet => ExtTreeMap.insert_ne_empty hquiet.2

/-- An entry that was applied is the next to be removed. -/
theorem Sound.applied {s : HookQueue E} (h : s.Sound) {process : ℕ} {oldest : E × ℕ}
    (hdrainer : s.drainer = some (process, .apply oldest)) :
    ({ s with drainer := some (process, .pop oldest), applied := s.applied ++ [oldest] } : HookQueue E).Sound := by
  have hhand : s.atHand oldest := ⟨process, Or.inl hdrainer⟩
  obtain ⟨rest, hqueue, hlater⟩ := h.queue_eq hhand
  have hmem : oldest ∈ s.queue := by rw [hqueue]; exact List.mem_cons_self
  have hnone : ∀ other entry, s.drainer ≠ some (other, .pop entry) := by
    intro other entry hother
    rw [hdrainer] at hother
    cases hother
  have hcount : ∀ place, ((s.applied ++ [oldest]).map Prod.snd).count place =
      s.timesApplied place + [oldest.2].count place := by
    intro place
    rw [List.map_append, List.count_append]
    rfl
  exact {
    filed := h.filed
    oldest := fun entry ⟨other, hhand⟩ => by
      cases hhand with
      | inl hhand => cases hhand
      | inr hhand => cases hhand; exact h.oldest oldest ⟨process, Or.inl hdrainer⟩
    genuine := fun entry hentry => by
      cases List.mem_append.mp hentry with
      | inl hentry => exact h.genuine entry hentry
      | inr hentry =>
        obtain rfl := List.mem_singleton.mp hentry
        rw [h.filed]
        exact List.mem_append_right _ hmem
    ordered := by
      rw [List.map_append]
      refine List.pairwise_append.mpr ⟨h.ordered, List.pairwise_singleton _ _, fun place hplace later hlast => ?_⟩
      obtain ⟨entry, hentry, rfl⟩ := List.mem_map.mp hplace
      obtain rfl := List.mem_singleton.mp hlast
      exact h.earlier entry hentry oldest hmem
    earlier := fun entry hentry later hin => by
      cases List.mem_append.mp hentry with
      | inl hentry => exact h.earlier entry hentry later hin
      | inr hentry =>
        obtain rfl := List.mem_singleton.mp hentry
        rw [hqueue] at hin
        cases List.mem_cons.mp hin with
        | inl hin => rw [hin]
        | inr hin => exact Nat.le_of_lt (hlater later hin)
    once := fun place => by
      change ((s.applied ++ [oldest]).map Prod.snd).count place ≤ s.timesUnpopped place + 1
      rw [hcount]
      by_cases hplace : place = oldest.2
      · have := h.pending oldest hmem fun other => hnone other oldest
        rw [hplace, List.count_singleton_self]
        omega
      · rw [List.count_singleton, if_neg (by simpa using fun h => hplace h.symm)]
        exact h.once place
    pending := fun entry hentry hother => by
      change ((s.applied ++ [oldest]).map Prod.snd).count entry.2 ≤ s.timesUnpopped entry.2
      rw [hqueue] at hentry
      cases List.mem_cons.mp hentry with
      | inl hentry => exact absurd (by rw [hentry]) (hother process)
      | inr hentry =>
        have hplace := hlater entry hentry
        rw [hcount, List.count_singleton, if_neg (by simp; omega)]
        exact h.pending entry (by rw [hqueue]; exact List.mem_cons_of_mem _ hentry) fun other => hnone other entry
    settled := fun entry hentry => by
      cases hentry with
      | inl hpopped => exact (h.settled entry (Or.inl hpopped)).imp_left (List.mem_append_left _)
      | inr hpop =>
        obtain ⟨other, hpop⟩ := hpop
        cases hpop
        exact Or.inl (List.mem_append_right _ (List.mem_singleton_self _))
    attended := fun _ _ hquiet => nomatch hquiet.1 }

/-- An entry whose write failed is reported and is the next to be removed. -/
theorem Sound.reported {s : HookQueue E} (h : s.Sound) {process : ℕ} {oldest : E × ℕ}
    (hdrainer : s.drainer = some (process, .apply oldest)) :
    ({ s with drainer := some (process, .pop oldest), reported := s.reported ++ [oldest] } : HookQueue E).Sound where
  filed := h.filed
  oldest := fun entry ⟨other, hhand⟩ => by
    cases hhand with
    | inl hhand => cases hhand
    | inr hhand => cases hhand; exact h.oldest oldest ⟨process, Or.inl hdrainer⟩
  genuine := h.genuine
  ordered := h.ordered
  earlier := h.earlier
  once := h.once
  pending := fun entry hentry _ => h.pending entry hentry fun other hother => by
    rw [hdrainer] at hother
    cases hother
  settled := fun entry hentry => by
    cases hentry with
    | inl hpopped => exact (h.settled entry (Or.inl hpopped)).imp_right (List.mem_append_left _)
    | inr hpop =>
      obtain ⟨other, hpop⟩ := hpop
      cases hpop
      exact Or.inr (List.mem_append_right _ (List.mem_singleton_self _))
  attended := fun _ _ hquiet => nomatch hquiet.1

/-- The entry that was applied or reported is removed, and the drain looks for the next. -/
theorem Sound.popped {s : HookQueue E} (h : s.Sound) {process : ℕ} {oldest : E × ℕ}
    (hdrainer : s.drainer = some (process, .pop oldest)) :
    ({ s with drainer := some (process, .peek), queue := s.queue.tail,
              popped := s.popped ++ s.queue.head?.toList } : HookQueue E).Sound := by
  have hhand : s.atHand oldest := ⟨process, Or.inr hdrainer⟩
  obtain ⟨rest, hqueue, hlater⟩ := h.queue_eq hhand
  rw [hqueue]
  exact {
    filed := by
      change s.pushed.zipIdx = (s.popped ++ [oldest]) ++ rest
      rw [h.filed, hqueue, List.append_assoc]
      rfl
    oldest := fun entry ⟨other, hhand⟩ => by
      cases hhand with
      | inl hhand => cases hhand
      | inr hhand => cases hhand
    genuine := h.genuine
    ordered := h.ordered
    earlier := fun entry hentry later hin =>
      h.earlier entry hentry later (by rw [hqueue]; exact List.mem_cons_of_mem _ hin)
    once := h.once
    pending := fun entry hentry _ => by
      refine h.pending entry (by rw [hqueue]; exact List.mem_cons_of_mem _ hentry) fun other hother => ?_
      rw [hdrainer] at hother
      cases hother
      exact Nat.lt_irrefl _ (hlater _ hentry)
    settled := fun entry hentry => by
      cases hentry with
      | inr hpop => obtain ⟨other, hpop⟩ := hpop; cases hpop
      | inl hpopped =>
        cases List.mem_append.mp hpopped with
        | inl hpopped => exact h.settled entry (Or.inl hpopped)
        | inr hlast =>
          obtain rfl := List.mem_singleton.mp hlast
          exact h.settled _ (Or.inr ⟨process, hdrainer⟩)
    attended := fun _ _ hquiet => nomatch hquiet.1 }

/-- A removal that fails leaves its entry queued, and it may be applied once more. -/
theorem Sound.unpopped {s : HookQueue E} (h : s.Sound) {process : ℕ} {oldest : E × ℕ}
    (hdrainer : s.drainer = some (process, .pop oldest)) :
    ({ s.giveUp with unpopped := s.unpopped ++ [oldest] } : HookQueue E).Sound := by
  have hcount : ∀ place, ((s.unpopped ++ [oldest]).map Prod.snd).count place =
      s.timesUnpopped place + [oldest.2].count place := by
    intro place
    rw [List.map_append, List.count_append]
    rfl
  exact {
    filed := h.filed
    oldest := fun entry ⟨other, hhand⟩ => by
      cases hhand with
      | inl hhand => cases hhand
      | inr hhand => cases hhand
    genuine := h.genuine
    ordered := h.ordered
    earlier := h.earlier
    once := fun place => by
      change s.timesApplied place ≤ ((s.unpopped ++ [oldest]).map Prod.snd).count place + 1
      rw [hcount]
      have := h.once place
      omega
    pending := fun entry hentry _ => by
      change s.timesApplied entry.2 ≤ ((s.unpopped ++ [oldest]).map Prod.snd).count entry.2
      rw [hcount]
      by_cases hplace : entry.2 = oldest.2
      · have := h.once entry.2
        rw [← hplace, List.count_singleton_self]
        omega
      · have := h.pending entry hentry fun other hother => by
          rw [hdrainer] at hother
          cases hother
          exact hplace rfl
        omega
    settled := fun entry hentry => by
      cases hentry with
      | inl hpopped => exact h.settled entry (Or.inl hpopped)
      | inr hpop => obtain ⟨other, hpop⟩ := hpop; cases hpop
    attended := fun _ hgave => nomatch hgave }

/-- A process that comes in leaves the queue sound. -/
theorem Sound.enter {s : HookQueue E} (h : s.Sound) (process : ℕ) (place : Outside E) :
    (s.enter process place).Sound := by
  unfold HookQueue.enter
  by_cases hbusy : s.busy process
  · rw [if_pos hbusy]
    exact h
  · rw [if_neg hbusy]
    exact h.placed process place

/-- A step outside the drain lock leaves the queue sound. -/
theorem Sound.stepOutside {s : HookQueue E} (h : s.Sound) (process : ℕ) (outcome : Outcome)
    (place : Outside E) : (s.stepOutside process outcome place).Sound := by
  cases place with
  | push entry =>
    change Sound (ite _ _ _)
    split
    · exact h.placed process .tryLock
    · exact h.pushed process entry
  | tryLock =>
    change Sound (ite _ _ _)
    split
    · refine h.moved s.drainer _ true h.oldest (fun _ _ => Iff.rfl) fun _ hgave => ?_
      cases hgave
    · dsimp only
      split
      next hdrainer =>
        refine h.moved (some (process, .peek)) _ s.gaveUp (fun entry hhand => ?_)
          (fun other entry => ?_) (fun _ _ hquiet => ?_)
        · obtain ⟨other, hhand⟩ := hhand
          cases hhand with | inl hhand => cases hhand | inr hhand => cases hhand
        · rw [hdrainer]
          constructor
          · intro hpop
            cases hpop
          · intro hpop
            cases hpop
        · cases hquiet.1
      next holder hdrainer =>
        -- whoever holds the lock looks again after letting it go
        refine h.moved s.drainer _ s.gaveUp h.oldest (fun _ _ => Iff.rfl) (fun _ _ hquiet => ?_)
        rw [hdrainer] at hquiet
        cases hquiet.1
  | recheck =>
    change Sound (ite _ _ _)
    split
    · refine h.moved s.drainer _ true h.oldest (fun _ _ => Iff.rfl) fun _ hgave => ?_
      cases hgave
    · split
      next hqueue =>
        exact h.moved s.drainer _ s.gaveUp h.oldest (fun _ _ => Iff.rfl) fun hsome => absurd hqueue hsome
      next => exact h.placed process .tryLock

/-- A step of the process that holds the drain lock leaves the queue sound. -/
theorem Sound.stepInside {s : HookQueue E} (h : s.Sound) {process : ℕ} {place : Inside E}
    (hdrainer : s.drainer = some (process, place)) (outcome : Outcome) :
    (s.stepInside process outcome place).Sound := by
  cases place with
  | peek =>
    have hpop : ∀ other entry, s.drainer ≠ some (other, .pop entry) := by
      intro other entry hother
      rw [hdrainer] at hother
      cases hother
    change Sound (ite _ _ _)
    split
    · exact h.gaveUp hpop
    · split
      next =>
        refine h.moved (some (process, .unlock)) s.others s.gaveUp (fun entry ⟨other, hhand⟩ => ?_)
          (fun other entry => ⟨fun hnew => (nomatch hnew), fun hold => absurd hold (hpop other entry)⟩)
          (fun _ _ hquiet => nomatch hquiet.1)
        cases hhand with | inl hhand => cases hhand | inr hhand => cases hhand
      next oldest rest hqueue =>
        refine h.moved (some (process, .apply oldest)) s.others s.gaveUp (fun entry ⟨other, hhand⟩ => ?_)
          (fun other entry => ⟨fun hnew => (nomatch hnew), fun hold => absurd hold (hpop other entry)⟩)
          (fun _ _ hquiet => nomatch hquiet.1)
        cases hhand with
        | inl hhand => cases hhand; rw [hqueue]; rfl
        | inr hhand => cases hhand
  | apply oldest =>
    cases outcome with
    | busy =>
      refine h.gaveUp fun other entry hother => ?_
      rw [hdrainer] at hother
      cases hother
    | ok => exact h.applied hdrainer
    | failed => exact h.reported hdrainer
    | ioError => exact h.reported hdrainer
  | pop oldest =>
    change Sound (ite _ _ _)
    split
    · exact h.unpopped hdrainer
    · exact h.popped hdrainer
  | unlock =>
    refine h.moved none _ s.gaveUp (fun entry ⟨other, hhand⟩ => ?_) (fun other entry => ?_)
      (fun _ _ hquiet => ExtTreeMap.insert_ne_empty hquiet.2)
    · cases hhand with | inl hhand => cases hhand | inr hhand => cases hhand
    · rw [hdrainer]
      exact ⟨fun hpop => (nomatch hpop), fun hpop => nomatch hpop⟩

/-- Every step leaves the queue sound. -/
theorem Sound.step {s : HookQueue E} (h : s.Sound) (label : QueueLabel E) : (s.step label).Sound := by
  cases label with
  | record process entry => exact h.enter process (.push entry)
  | drain process => exact h.enter process .tryLock
  | outside process outcome =>
    dsimp only [HookQueue.step]
    cases s.others[process]? with
    | none => exact h
    | some place => exact h.stepOutside process outcome place
  | inside outcome =>
    dsimp only [HookQueue.step]
    cases hdrainer : s.drainer with
    | none => exact h
    | some holder => exact h.stepInside hdrainer outcome

/-- The queue is sound after every run. -/
theorem sound_run (labels : List (QueueLabel E)) : (runFrom HookQueue.step start labels).Sound :=
  runFrom_invariant Sound (fun _ label h => h.step label) sound_start labels

/-- After every run: entries were applied in the order they were pushed, each at most once more than its
removal failed, one that left the queue was applied or reported, and once nobody is inside and no
drain gave up nothing is left. -/
theorem queue_keeps_order (labels : List (QueueLabel E)) :
    let s := runFrom HookQueue.step start labels
    ((∀ entry ∈ s.applied, entry ∈ s.pushed.zipIdx) ∧ (s.applied.map Prod.snd).Pairwise (· ≤ ·)) ∧
      (∀ place, s.timesApplied place ≤ s.timesUnpopped place + 1) ∧
      (s.pushed.zipIdx = s.popped ++ s.queue ∧ ∀ entry ∈ s.popped, entry ∈ s.applied ∨ entry ∈ s.reported) ∧
      (s.Quiet → s.gaveUp = false → s.queue = []) := by
  intro s
  have h : s.Sound := sound_run labels
  refine ⟨⟨h.genuine, h.ordered⟩, h.once, ⟨h.filed, fun entry hentry => h.settled entry (Or.inl hentry)⟩, ?_⟩
  intro hquiet hgave
  by_contra hsome
  exact h.attended hsome hgave hquiet

/-- One process records an entry and applies it, its removal fails, and the next drain applies it again. -/
theorem unremoved_applied_twice :
    let labels : List (QueueLabel Bool) :=
      [.record 0 true, .outside 0 .ok, .outside 0 .ok, .inside .ok, .inside .ok, .inside .ioError,
        .drain 1, .outside 1 .ok, .inside .ok, .inside .ok]
    let s := runFrom HookQueue.step start labels
    s.pushed = [true] ∧ s.timesApplied 0 = 2 := by
  decide +kernel

end Devkit.Todos.HookQueue
