import Devkit.Daemon.Supervisor
import Devkit.Library.Runs

/-!
# The restart budget

The supervisor keeps, for each child, the times of the restarts it granted that are still inside the window, and
grants another one while there are fewer of them than the budget. Times that both calls read from the clock do not
decrease, so a grant that was dropped from the list is outside the window at every later call, and the list never
counts fewer grants than the window holds.
-/

namespace Devkit.Daemon

open Devkit.Library Devkit.Ports

/-- A call on the supervisor's table. -/
inductive TableCall
  | mayRestart (key : Owner)
  | canRestart (key : Owner)
  | setPid (key : Owner) (pid : ℕ)
  | insertOwned (key : Owner) (pid : ℕ) (port : UInt16) (logfile : String) (launch : Launch)
  | insertAdopted (key : Owner) (pid : ℕ) (port : UInt16) (logfile : String)
  | remove (key : Owner)
deriving DecidableEq

/-- The call inserts the key's child anew. -/
def TableCall.Inserts (key : Owner) : TableCall → Prop
  | .insertOwned other _ _ _ _ => other = key
  | .insertAdopted other _ _ _ => other = key
  | _ => False

/-- The call only asks whether a restart is allowed. -/
def TableCall.Peeks : TableCall → Prop
  | .canRestart _ => True
  | _ => False

namespace Supervisor

/-- The table after a call at a time, and the answer of the calls that give one. -/
def call (sup : Supervisor) (now : ℕ) : TableCall → Supervisor × Option Bool
  | .mayRestart key => ((sup.mayRestart now key).1, some (sup.mayRestart now key).2)
  | .canRestart key => ((sup.canRestart now key).1, some (sup.canRestart now key).2)
  | .setPid key pid => (sup.setPid key pid, none)
  | .insertOwned key pid port logfile launch => (sup.insertOwned key pid port logfile launch, none)
  | .insertAdopted key pid port logfile => (sup.insertAdopted key pid port logfile, none)
  | .remove key => (sup.remove key, none)

/-- The table after a timed call. -/
def step (sup : Supervisor) (timed : ℕ × TableCall) : Supervisor := (sup.call timed.1 timed.2).1

/-- The answers of a run of timed calls. -/
def answers : Supervisor → List (ℕ × TableCall) → List (Option Bool)
  | _, [] => []
  | sup, timed :: rest => (sup.call timed.1 timed.2).2 :: answers (sup.step timed) rest

/-- The time of a call that grants the key's child a restart. -/
def granted (key : Owner) (sup : Supervisor) (timed : ℕ × TableCall) : List ℕ :=
  if timed.2 = .mayRestart key ∧ (sup.mayRestart timed.1 key).2 = true then [timed.1] else []

/-- The times at which a run of timed calls grants the key's child a restart. -/
def grants (key : Owner) : Supervisor → List (ℕ × TableCall) → List ℕ
  | _, [] => []
  | sup, timed :: rest => granted key sup timed ++ grants key (sup.step timed) rest

/-- A key's child with the restarts that are still inside the window at a time. -/
def view (sup : Supervisor) (later : ℕ) (key : Owner) : Option Child :=
  (sup.child key).map fun c => { c with restarts := sup.recent later c.restarts }

/-- A restart that is outside the window stays outside it. -/
theorem recent_recent (sup : Supervisor) {now later : ℕ} (hlater : now ≤ later) (restarts : List ℕ) :
    sup.recent later (sup.recent now restarts) = sup.recent later restarts := by
  rw [recent, recent, recent, List.filter_filter]
  apply List.filter_congr
  intro time _
  rw [← Bool.decide_and]
  apply decide_eq_decide.mpr
  omega

/-- What is inside the window of two lists of restarts together. -/
theorem recent_append (sup : Supervisor) (now : ℕ) (restarts more : List ℕ) :
    sup.recent now (restarts ++ more) = sup.recent now restarts ++ sup.recent now more :=
  List.filter_append restarts more

section Calls

variable {sup : Supervisor} {now later : ℕ} {key other : Owner}

/-- What is seen of a child after it is written. -/
theorem view_put (c : Child) : (sup.put key c).view later other =
    if other = key then some { c with restarts := sup.recent later c.restarts } else sup.view later other := by
  rw [view, child_put]
  split
  · rfl
  · rfl

/-- The recording call grants a restart when fewer than the budget are seen inside the window. -/
theorem mayRestart_snd : (sup.mayRestart now key).2 =
    (sup.view now key).any fun c => decide (c.restarts.length < sup.maxRestarts) := by
  rw [view, mayRestart]
  cases sup.child key with
  | none => rfl
  | some c =>
    rw [Option.map_some, Option.any_some]
    dsimp only
    split
    · rename_i hbudget
      exact (decide_eq_true hbudget).symm
    · rename_i hbudget
      exact (decide_eq_false hbudget).symm

/-- A peek answers what the recording call would. -/
theorem canRestart_snd (sup : Supervisor) (now : ℕ) (key : Owner) :
    (sup.canRestart now key).2 = (sup.mayRestart now key).2 := by
  rw [mayRestart_snd, view, canRestart]
  cases sup.child key with
  | none => rfl
  | some c => rfl

/-- A peek changes nothing that is seen later. -/
theorem view_canRestart (hlater : now ≤ later) : (sup.canRestart now key).1.view later other = sup.view later other := by
  unfold canRestart
  cases hchild : sup.child key with
  | none => rfl
  | some c =>
    dsimp only
    rw [view_put, recent_recent sup hlater]
    split
    · rename_i heq
      rw [heq, view, hchild, Option.map_some]
    · rfl

/-- After the recording call a grant is seen after the restarts seen before. -/
theorem view_mayRestart (hlater : now ≤ later) : (sup.mayRestart now key).1.view later other =
    if other = key then (sup.view later key).map fun c => { c with
      restarts := c.restarts ++ sup.recent later (if (sup.mayRestart now key).2 then [now] else []) }
    else sup.view later other := by
  unfold mayRestart
  cases hchild : sup.child key with
  | none =>
    dsimp only
    by_cases heq : other = key
    · rw [if_pos heq, heq, view, hchild]
      rfl
    · rw [if_neg heq]
  | some c =>
    have hview : sup.view later key = some { c with restarts := sup.recent later c.restarts } := by
      rw [view, hchild]
      rfl
    rw [hview]
    dsimp only
    split
    · simp only [view_put, recent_append, recent_recent sup hlater, Option.map_some, if_true]
    · have hnone : sup.recent later [] = [] := rfl
      simp only [view_put, recent_recent sup hlater, Option.map_some, Bool.false_eq_true, if_false, hnone,
        List.append_nil]

/-- A recorded process is seen on the key's child, with the same restarts. -/
theorem view_setPid (pid : ℕ) : (sup.setPid key pid).view later other =
    if other = key then (sup.view later key).map fun c => { c with pid, watch := .owned } else sup.view later other := by
  have hrecent : ∀ restarts, (sup.setPid key pid).recent later restarts = sup.recent later restarts := by
    intro restarts
    unfold setPid
    split <;> rfl
  rw [view, child_setPid]
  split
  · rw [view, Option.map_map, Option.map_map]
    simp only [Function.comp_def, hrecent]
  · simp only [view, hrecent]

/-- Nothing is seen of a key that was removed. -/
theorem view_remove : (sup.remove key).view later other = if other = key then none else sup.view later other := by
  rw [view, child_remove]
  split
  · rfl
  · rfl

end Calls

/-- Two tables that differ at most in restarts that are outside the window from a time on. -/
structure Agree (now : ℕ) (sup other : Supervisor) : Prop where
  maxRestarts : sup.maxRestarts = other.maxRestarts
  window : sup.window = other.window
  view : ∀ later, now ≤ later → ∀ key, sup.view later key = other.view later key

/-- The budget is no part of what a call changes. -/
theorem step_budget (sup : Supervisor) (timed : ℕ × TableCall) :
    (sup.step timed).maxRestarts = sup.maxRestarts ∧ (sup.step timed).window = sup.window := by
  obtain ⟨now, what⟩ := timed
  cases what with
  | mayRestart key =>
    simp only [step, call, mayRestart]
    split
    · exact ⟨rfl, rfl⟩
    · split <;> exact ⟨rfl, rfl⟩
  | canRestart key =>
    simp only [step, call, canRestart]
    split <;> exact ⟨rfl, rfl⟩
  | setPid key pid =>
    simp only [step, call, setPid]
    split <;> exact ⟨rfl, rfl⟩
  | insertOwned | insertAdopted | remove => exact ⟨rfl, rfl⟩

/-- Where nothing seen of one table differs from the other, a call at the time gives the same answer, and nothing
seen of the tables it leaves differs. -/
theorem Agree.call {now : ℕ} {sup other : Supervisor} (h : Agree now sup other) {time : ℕ} (htime : now ≤ time)
    (what : TableCall) :
    (sup.call time what).2 = (other.call time what).2 ∧ Agree time (sup.step (time, what)) (other.step (time, what)) := by
  have hbudget := step_budget sup (time, what)
  have hother := step_budget other (time, what)
  have hrecent : ∀ later restarts, sup.recent later restarts = other.recent later restarts := by
    intro later restarts
    rw [recent, recent, h.window]
  have hanswer : ∀ key, (sup.mayRestart time key).2 = (other.mayRestart time key).2 := by
    intro key
    rw [mayRestart_snd, mayRestart_snd, h.view time htime, h.maxRestarts]
  have hagree : (∀ later, time ≤ later → ∀ key, (sup.step (time, what)).view later key =
      (other.step (time, what)).view later key) → Agree time (sup.step (time, what)) (other.step (time, what)) := by
    intro hview
    exact ⟨by rw [hbudget.1, hother.1, h.maxRestarts], by rw [hbudget.2, hother.2, h.window], hview⟩
  have hlast : ∀ later, time ≤ later → ∀ key, sup.view later key = other.view later key := by
    intro later hlater
    exact h.view later (Nat.le_trans htime hlater)
  cases what with
  | mayRestart key =>
    refine ⟨congrArg some (hanswer key), hagree fun later hlater asked => ?_⟩
    simp only [step, Supervisor.call]
    rw [view_mayRestart hlater, view_mayRestart hlater, hlast later hlater, hlast later hlater, hanswer]
    simp only [hrecent]
  | canRestart key =>
    refine ⟨?_, hagree fun later hlater asked => ?_⟩
    · simp only [Supervisor.call, canRestart_snd, hanswer]
    · simp only [step, Supervisor.call]
      rw [view_canRestart hlater, view_canRestart hlater, hlast later hlater]
  | setPid key pid =>
    refine ⟨rfl, hagree fun later hlater asked => ?_⟩
    simp only [step, Supervisor.call]
    rw [view_setPid, view_setPid, hlast later hlater, hlast later hlater]
  | insertOwned key pid port logfile launch =>
    refine ⟨rfl, hagree fun later hlater asked => ?_⟩
    simp only [step, Supervisor.call, insertOwned]
    rw [view_put, view_put, hlast later hlater, hrecent]
  | insertAdopted key pid port logfile =>
    refine ⟨rfl, hagree fun later hlater asked => ?_⟩
    simp only [step, Supervisor.call, insertAdopted]
    rw [view_put, view_put, hlast later hlater, hrecent]
  | remove key =>
    refine ⟨rfl, hagree fun later hlater asked => ?_⟩
    simp only [step, Supervisor.call]
    rw [view_remove, view_remove, hlast later hlater]

/-- Where nothing seen of one table differs from the other, calls from then on give the same answers. -/
theorem Agree.answers {now : ℕ} {sup other : Supervisor} (h : Agree now sup other) {calls : List (ℕ × TableCall)}
    (hnow : ∀ timed ∈ calls, now ≤ timed.1) (htimes : (calls.map Prod.fst).Pairwise (· ≤ ·)) :
    sup.answers calls = other.answers calls := by
  induction calls generalizing now sup other with
  | nil => rfl
  | cons timed rest ih =>
    rw [List.map_cons, List.pairwise_cons] at htimes
    obtain ⟨hanswer, hagree⟩ := h.call (hnow timed List.mem_cons_self) timed.2
    rw [Supervisor.answers, Supervisor.answers, hanswer]
    congr 1
    exact ih hagree (fun later hlater => htimes.1 later.1 (List.mem_map_of_mem hlater)) htimes.2

/-- Peeks change nothing that is seen from their times on. -/
theorem agree_peeks {now : ℕ} (sup : Supervisor) {peeks : List (ℕ × TableCall)}
    (hpeeks : ∀ timed ∈ peeks, timed.1 ≤ now ∧ timed.2.Peeks) : Agree now sup (runFrom step sup peeks) := by
  induction peeks generalizing sup with
  | nil => exact ⟨rfl, rfl, fun _ _ _ => rfl⟩
  | cons timed rest ih =>
    have hrest := ih (sup.step timed) fun later hlater => hpeeks later (List.mem_cons_of_mem timed hlater)
    have hbudget := step_budget sup timed
    obtain ⟨hnow, hpeek⟩ := hpeeks timed List.mem_cons_self
    obtain ⟨time, what⟩ := timed
    refine ⟨hbudget.1.symm.trans hrest.maxRestarts, hbudget.2.symm.trans hrest.window, fun later hlater key => ?_⟩
    rw [runFrom_cons, ← hrest.view later hlater]
    cases what with
    | canRestart asked => exact (view_canRestart (Nat.le_trans hnow hlater)).symm
    | mayRestart | setPid | insertOwned | insertAdopted | remove => exact absurd hpeek id

/-- The grants so far: each is still counted while it is inside the window, and none break the budget. -/
structure Charged (key : Owner) (now : ℕ) (past : List ℕ) (sup : Supervisor) : Prop where
  past_le : ∀ time ∈ past, time ≤ now
  counted : ∀ later, now ≤ later → ∀ c, sup.view later key = some c →
    past.countP (fun time => decide (later - time < sup.window)) ≤ c.restarts.length
  within : ∀ first last, last < first + sup.window →
    past.countP (fun time => decide (first ≤ time ∧ time ≤ last)) ≤ sup.maxRestarts

/-- A call grants nothing, or it is the recording call of the key's child, which a restart within the budget is seen
for. -/
theorem granted_cases (key : Owner) (sup : Supervisor) (time : ℕ) (what : TableCall) :
    granted key sup (time, what) = [] ∨ granted key sup (time, what) = [time] ∧ what = .mayRestart key ∧
      ∃ c, sup.view time key = some c ∧ c.restarts.length < sup.maxRestarts := by
  rw [granted]
  split
  · rename_i hgrant
    have hseen := hgrant.2
    rw [mayRestart_snd, Option.any_eq_true] at hseen
    obtain ⟨c, hc, hbudget⟩ := hseen
    exact Or.inr ⟨rfl, hgrant.1, c, hc, of_decide_eq_true hbudget⟩
  · exact Or.inl rfl

/-- What is seen of a child that a call does not insert: what was seen before and the restart granted to it. -/
theorem exists_view_of_step {key : Owner} {sup : Supervisor} {time later : ℕ} (hlater : time ≤ later)
    {what : TableCall} (hkept : ¬ what.Inserts key) {c : Child} (hc : (sup.step (time, what)).view later key = some c) :
    ∃ before, sup.view later key = some before ∧
      c.restarts = before.restarts ++ sup.recent later (granted key sup (time, what)) := by
  have hnone : what ≠ .mayRestart key → granted key sup (time, what) = [] := fun hother => if_neg fun hgrant =>
    hother hgrant.1
  have hsame : what ≠ .mayRestart key → ∀ before, c.restarts = before →
      c.restarts = before ++ sup.recent later (granted key sup (time, what)) := by
    intro hother before hbefore
    rw [hnone hother, hbefore]
    exact (List.append_nil before).symm
  cases what with
  | mayRestart asked =>
    simp only [step, call] at hc
    rw [view_mayRestart hlater] at hc
    by_cases heq : key = asked
    · rw [if_pos heq, ← heq] at hc
      obtain ⟨before, hbefore, rfl⟩ := Option.map_eq_some_iff.mp hc
      refine ⟨before, hbefore, ?_⟩
      rw [granted, heq]
      simp only [true_and]
    · rw [if_neg heq] at hc
      refine ⟨c, hc, hsame (fun hasked => heq ?_) _ rfl⟩
      cases hasked
      rfl
  | canRestart asked =>
    simp only [step, call] at hc
    rw [view_canRestart hlater] at hc
    exact ⟨c, hc, hsame TableCall.noConfusion _ rfl⟩
  | setPid asked pid =>
    simp only [step, call] at hc
    rw [view_setPid] at hc
    split at hc
    · rename_i heq
      obtain ⟨before, hbefore, rfl⟩ := Option.map_eq_some_iff.mp hc
      exact ⟨before, heq ▸ hbefore, hsame TableCall.noConfusion _ rfl⟩
    · exact ⟨c, hc, hsame TableCall.noConfusion _ rfl⟩
  | insertOwned asked =>
    simp only [step, call, insertOwned] at hc
    rw [view_put, if_neg fun heq => hkept heq.symm] at hc
    exact ⟨c, hc, hsame TableCall.noConfusion _ rfl⟩
  | insertAdopted asked =>
    simp only [step, call, insertAdopted] at hc
    rw [view_put, if_neg fun heq => hkept heq.symm] at hc
    exact ⟨c, hc, hsame TableCall.noConfusion _ rfl⟩
  | remove asked =>
    simp only [step, call] at hc
    rw [view_remove] at hc
    split at hc
    · cases hc
    · exact ⟨c, hc, hsame TableCall.noConfusion _ rfl⟩

/-- A call that does not insert the child keeps the grants charged, one it makes among them. -/
theorem Charged.step {key : Owner} {now : ℕ} {past : List ℕ} {sup : Supervisor} (h : Charged key now past sup)
    {time : ℕ} (htime : now ≤ time) {what : TableCall} (hkept : ¬ what.Inserts key) :
    Charged key time (past ++ granted key sup (time, what)) (sup.step (time, what)) := by
  obtain ⟨hmax, hwindow⟩ := step_budget sup (time, what)
  refine ⟨fun grant hgrant => ?_, fun later hlater c hc => ?_, fun first last hshort => ?_⟩
  · cases List.mem_append.mp hgrant with
    | inl hold => exact Nat.le_trans (h.past_le grant hold) htime
    | inr hnew =>
      rcases granted_cases key sup time what with hnone | ⟨hone, _⟩
      · rw [hnone] at hnew
        exact absurd hnew List.not_mem_nil
      · rw [hone, List.mem_singleton] at hnew
        exact Nat.le_of_eq hnew
  · obtain ⟨before, hbefore, hrestarts⟩ := exists_view_of_step hlater hkept hc
    have hcounted := h.counted later (Nat.le_trans htime hlater) before hbefore
    rw [hwindow, hrestarts, List.countP_append, List.length_append, recent, ← List.countP_eq_length_filter]
    omega
  · rw [hwindow] at hshort
    rw [hmax, List.countP_append]
    have hwithin := h.within first last hshort
    rcases granted_cases key sup time what with hnone | ⟨hone, _, c, hc, hbudget⟩
    · rw [hnone, List.countP_nil]
      omega
    · rw [hone, List.countP_singleton]
      by_cases hin : first ≤ time ∧ time ≤ last
      · -- Every grant inside the interval is still counted at this one.
        have hcounted := h.counted time htime c hc
        have hall : past.countP (fun grant => decide (first ≤ grant ∧ grant ≤ last)) ≤
            past.countP fun grant => decide (time - grant < sup.window) := by
          apply List.countP_mono_left
          intro grant _ hgrant
          rw [decide_eq_true_eq] at hgrant ⊢
          omega
        rw [decide_eq_true hin, if_pos rfl]
        omega
      · rw [decide_eq_false hin, if_neg Bool.false_ne_true]
        omega

/-- Along a run that does not insert the child the grants stay within the budget. -/
theorem Charged.grants {key : Owner} {now : ℕ} {past : List ℕ} {sup : Supervisor} (h : Charged key now past sup)
    {calls : List (ℕ × TableCall)} (hnow : ∀ timed ∈ calls, now ≤ timed.1)
    (htimes : (calls.map Prod.fst).Pairwise (· ≤ ·)) (hkept : ∀ timed ∈ calls, ¬ timed.2.Inserts key) {first last : ℕ}
    (hshort : last < first + sup.window) :
    (past ++ Supervisor.grants key sup calls).countP (fun time => decide (first ≤ time ∧ time ≤ last)) ≤
      sup.maxRestarts := by
  induction calls generalizing now past sup with
  | nil =>
    rw [Supervisor.grants, List.append_nil]
    exact h.within first last hshort
  | cons timed rest ih =>
    obtain ⟨hmax, hwindow⟩ := step_budget sup timed
    rw [List.map_cons, List.pairwise_cons] at htimes
    have hstep := h.step (hnow timed List.mem_cons_self) (hkept timed List.mem_cons_self)
    have hrest := ih hstep (fun later hlater => htimes.1 later.1 (List.mem_map_of_mem hlater)) htimes.2
      (fun later hlater => hkept later (List.mem_cons_of_mem timed hlater)) (by rw [hwindow]; exact hshort)
    rw [List.append_assoc, hmax] at hrest
    exact hrest

/-- Over a run of calls at times that do not decrease: at most the budget of grants to a child that is not inserted
anew falls within any interval shorter than the window; a peek answers at any time what the recording call would; and
peeks change no later answer. -/
theorem restart_budget (sup : Supervisor) (key : Owner) (calls : List (ℕ × TableCall))
    (htimes : (calls.map Prod.fst).Pairwise (· ≤ ·)) :
    ((∀ timed ∈ calls, ¬ timed.2.Inserts key) → ∀ first last, last < first + sup.window →
      (grants key sup calls).countP (fun time => decide (first ≤ time ∧ time ≤ last)) ≤ sup.maxRestarts) ∧
    (∀ before, before <+: calls → ∀ now, ((runFrom step sup before).canRestart now key).2 =
      ((runFrom step sup before).mayRestart now key).2) ∧
    ∀ before peeks after, calls = before ++ (peeks ++ after) → (∀ timed ∈ peeks, timed.2.Peeks) →
      (runFrom step sup (before ++ peeks)).answers after = (runFrom step sup before).answers after := by
  refine ⟨fun hkept first last hshort => ?_, fun before _ now => canRestart_snd _ now key,
    fun before peeks after hcalls hpeeks => ?_⟩
  · have hstart : Charged key 0 [] sup := ⟨fun time htime => absurd htime List.not_mem_nil,
      fun _ _ _ _ => Nat.zero_le _, fun _ _ _ => Nat.zero_le _⟩
    exact hstart.grants (fun _ _ => Nat.zero_le _) htimes hkept hshort
  · rw [hcalls, List.map_append, List.map_append] at htimes
    obtain ⟨_, hlater, _⟩ := List.pairwise_append.mp htimes
    obtain ⟨_, hafter, hbetween⟩ := List.pairwise_append.mp hlater
    rw [runFrom_append]
    cases after with
    | nil => rfl
    | cons timed rest =>
      have hagree : Agree timed.1 (runFrom step sup before) (runFrom step (runFrom step sup before) peeks) := by
        apply agree_peeks
        intro peek hpeek
        exact ⟨hbetween peek.1 (List.mem_map_of_mem hpeek) timed.1 List.mem_cons_self, hpeeks peek hpeek⟩
      refine (hagree.answers (fun later hmem => ?_) hafter).symm
      rw [List.map_cons, List.pairwise_cons] at hafter
      cases List.mem_cons.mp hmem with
      | inl heq => exact Nat.le_of_eq (congrArg Prod.fst heq.symm)
      | inr hrest => exact hafter.1 later.1 (List.mem_map_of_mem hrest)

/-- With a budget of one, an interval shorter than the window holds one grant of the two asked for in it. -/
theorem restart_budget_sample :
    (grants ⟨"holder", "web", .workspace⟩
      ((⟨∅, 1, 10⟩ : Supervisor).insertOwned ⟨"holder", "web", .workspace⟩ 7 3000 "web.log" ⟨[], "", []⟩)
      [(0, .mayRestart ⟨"holder", "web", .workspace⟩), (5, .canRestart ⟨"holder", "web", .workspace⟩),
        (6, .mayRestart ⟨"holder", "web", .workspace⟩), (12, .mayRestart ⟨"holder", "web", .workspace⟩)]).countP
      (fun time => decide (0 ≤ time ∧ time ≤ 9)) ≤ 1 := by
  refine (restart_budget _ _ _ (by decide)).1 ?_ 0 9 (by decide)
  intro timed htimed
  simp only [List.mem_cons, List.not_mem_nil, or_false] at htimed
  rcases htimed with rfl | rfl | rfl | rfl <;> exact id

end Supervisor

end Devkit.Daemon
