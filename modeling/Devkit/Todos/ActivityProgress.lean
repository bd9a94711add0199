import Mathlib.Data.List.Forall2
import Mathlib.Logic.Function.Basic
import Devkit.Library.Runs
import Devkit.Library.Stretches
import Devkit.Todos.ActivityClaims

/-!
# Claim intervals tell what happened

The claims of one todo follow its own status changes alone. Along any run of changes, each of which
begins from the status the todo has, they are one interval for each maximal stretch in which one holder
had it in progress.
-/

namespace Devkit.Todos

open Devkit.Library

/-- Who has a todo of this status in progress. -/
def Status.holder : Status → Option Holder
  | .inProgress holder => some holder
  | _ => none

/-- Who has the todo in progress after the change. -/
def StatusChange.holder (change : StatusChange) : Option Holder := change.target.bind Status.holder

/-- How a claim ends that a change to this status ends. -/
def endOf : Option Status → ClaimEnd
  | some (.inProgress _) => .handed
  | some (.completed _) => .completed
  | some (.cancelled _) => .cancelled
  | some .pending => .released
  | none => .cancelled

/-- Closing the open claims of a todo twice closes them at the first time. -/
theorem closeOpen_closeOpen (todo : String) (first second : Instant) (outcome other : ClaimEnd) (claim : Interval) :
    closeOpen todo second other (closeOpen todo first outcome claim) = closeOpen todo first outcome claim := by
  by_cases hmatch : claim.todo = todo ∧ claim.finish = none
  · rw [closeOpen, closeOpen, if_pos hmatch, if_neg fun h => Option.some_ne_none _ h.2]
  · rw [closeOpen, closeOpen, if_neg hmatch, if_neg hmatch]

/-- Closing claims changes no todo. -/
@[simp] theorem closeOpen_todo (todo : String) (time : Instant) (outcome : ClaimEnd) (claim : Interval) :
    (closeOpen todo time outcome claim).todo = claim.todo := by
  rw [closeOpen]
  split
  · rfl
  · rfl

/-- The interval a change opens, if it leaves the todo in progress. -/
def StatusChange.opened (change : StatusChange) : Option Interval :=
  change.holder.map fun holder => ⟨change.todo, change.node, holder, change.time, none, none⟩

/-- The events of one change close the todo's open claims and open the next, where its holder changes. -/
theorem foldl_claimEvents (claims : List Interval) (change : StatusChange) :
    (eventsOf [change]).foldl pairClaims claims =
      if change.source.holder = change.holder then claims
      else claims.map (closeOpen change.todo change.time (endOf change.target)) ++ change.opened.toList := by
  obtain ⟨todo, node, source, target, time⟩ := change
  have hidle : source.holder = none → (eventsOf [⟨todo, node, source, target, time⟩]).foldl pairClaims claims =
      if source.holder = target.bind Status.holder then claims
      else claims.map (closeOpen todo time (endOf target)) ++
        (StatusChange.opened ⟨todo, node, source, target, time⟩).toList := by
    intro hsource
    rw [hsource]
    cases source with
    | inProgress holder => cases hsource
    | _ =>
      cases target with
      | none => rfl
      | some target => cases target <;> rfl
  cases source with
  | inProgress holder =>
    cases target with
    | none => exact (List.append_nil _).symm
    | some target =>
      cases target with
      | inProgress next =>
        have hevents : eventsOf [⟨todo, node, .inProgress holder, some (.inProgress next), time⟩] =
            if holder ≠ next then [⟨time, .unclaim todo holder .handed⟩, ⟨time, .claim todo node next⟩] else [] := by
          change (ite _ _ _ : List What).map _ ++ [] = _
          rw [List.append_nil]
          split
          · rfl
          · rfl
        rw [hevents]
        change _ = ite (some holder = some next) _ _
        by_cases hsame : holder = next
        · rw [if_pos (congrArg some hsame), if_neg (not_not.mpr hsame)]
          rfl
        · rw [if_neg fun h => hsame (Option.some.inj h), if_pos hsame]
          change (claims.map _).map _ ++ _ = _
          rw [List.map_map]
          congr 1
          exact List.map_congr_left fun claim _ => closeOpen_closeOpen todo time time .handed .handed claim
      | _ => exact (List.append_nil _).symm
  | _ => exact hidle rfl

/-- The interval tells of the stretch: who held the todo, the change that began it, and the one that
ended it. -/
structure Interval.Records (interval : Interval) (todo : String) (own : List StatusChange)
    (stretch : Stretch Holder) : Prop where
  todo_eq : interval.todo = todo
  holder_eq : interval.holder = stretch.key
  began : ∃ change, own[stretch.start]? = some change ∧ interval.node = change.node ∧ interval.start = change.time
  open_iff : stretch.finish = none ↔ interval.finish = none
  held : stretch.finish = none → interval.outcome = none
  ended : ∀ place, stretch.finish = some place → ∃ change, own[place]? = some change ∧
    interval.finish = some change.time ∧ interval.outcome = some (endOf change.target)

/-- A change that comes later leaves what an interval tells. -/
theorem Interval.Records.concat {interval : Interval} {todo : String} {own : List StatusChange}
    {stretch : Stretch Holder} (h : interval.Records todo own stretch) (change : StatusChange) :
    interval.Records todo (own ++ [change]) stretch := by
  have hkept : ∀ {place : ℕ} {old : StatusChange}, own[place]? = some old → (own ++ [change])[place]? = some old := by
    intro place old hold
    rw [getElem?_concat_lt (List.getElem?_eq_some_iff.mp hold).1]
    exact hold
  exact {
    todo_eq := h.todo_eq
    holder_eq := h.holder_eq
    began := h.began.imp fun old hold => ⟨hkept hold.1, hold.2⟩
    open_iff := h.open_iff
    held := h.held
    ended := fun place hplace => (h.ended place hplace).imp fun old hold => ⟨hkept hold.1, hold.2⟩ }

/-- A change that ends the stretch under way closes its interval. -/
theorem Interval.Records.close {interval : Interval} {own : List StatusChange} {stretch : Stretch Holder}
    {change : StatusChange} (h : interval.Records change.todo own stretch) :
    (closeOpen change.todo change.time (endOf change.target) interval).Records change.todo (own ++ [change])
      (stretch.close own.length) := by
  have hlater := h.concat change
  cases hfinish : stretch.finish with
  | none =>
    have hmatch : interval.todo = change.todo ∧ interval.finish = none := ⟨h.todo_eq, h.open_iff.mp hfinish⟩
    rw [closeOpen, if_pos hmatch]
    exact {
      todo_eq := hlater.todo_eq
      holder_eq := hlater.holder_eq
      began := hlater.began
      open_iff := iff_of_false (Option.some_ne_none _) (Option.some_ne_none _)
      held := fun hnone => absurd hnone (Option.some_ne_none _)
      ended := fun place hplace => by
        rw [Stretch.close, hfinish] at hplace
        obtain rfl : own.length = place := Option.some.inj hplace
        exact ⟨change, List.getElem?_concat_length, rfl, rfl⟩ }
  | some place =>
    have hclosed : ¬ (interval.todo = change.todo ∧ interval.finish = none) := by
      intro hmatch
      rw [h.open_iff.mpr hmatch.2] at hfinish
      cases hfinish
    have hstretch : stretch.close own.length = stretch := by
      rw [Stretch.close, hfinish, Option.getD_some, ← hfinish]
    rw [closeOpen, if_neg hclosed, hstretch]
    exact hlater

/-- The statuses after a change. A todo whose record was removed is pending if it comes back. -/
def applyChange (status : String → Status) (change : StatusChange) : String → Status :=
  Function.update status change.todo (change.target.getD .pending)

/-- Each change begins from the status its todo has. -/
def Follows (status : String → Status) (changes : List StatusChange) : Prop :=
  Along applyChange (fun status change => change.source = status change.todo) status changes

instance (status : String → Status) (changes : List StatusChange) : Decidable (Follows status changes) :=
  decidableAlong status changes

/-- The changes of one todo. -/
def changesOf (todo : String) (changes : List StatusChange) : List StatusChange :=
  changes.filter fun change => change.todo = todo

/-- The intervals of one todo. -/
def claimsOf (todo : String) (claims : List Interval) : List Interval :=
  claims.filter fun claim => claim.todo = todo

/-- The stretches in which the todo was in progress by one holder. -/
def progress (initial : String → Status) (todo : String) (changes : List StatusChange) : Stretches Holder :=
  stretches (initial todo).holder ((changesOf todo changes).map StatusChange.holder)

/-- What one change makes of a todo's intervals: those of the others stay. -/
theorem claimsOf_concat (todo : String) (changes : List StatusChange) (change : StatusChange) :
    claimsOf todo (derive (eventsOf (changes ++ [change]))).claims =
      if change.todo ≠ todo ∨ change.source.holder = change.holder then
        claimsOf todo (derive (eventsOf changes)).claims
      else (claimsOf todo (derive (eventsOf changes)).claims).map
        (closeOpen change.todo change.time (endOf change.target)) ++ change.opened.toList := by
  have hevents : eventsOf (changes ++ [change]) = eventsOf changes ++ eventsOf [change] := List.flatMap_append
  have hfilter : claimsOf todo ((derive (eventsOf changes)).claims.map
      (closeOpen change.todo change.time (endOf change.target))) =
      (claimsOf todo (derive (eventsOf changes)).claims).map
        (closeOpen change.todo change.time (endOf change.target)) := by
    rw [claimsOf, List.filter_map]
    congr 2
    funext claim
    simp
  have hopened : claimsOf todo change.opened.toList = if change.todo = todo then change.opened.toList else [] := by
    rw [StatusChange.opened]
    cases change.holder with
    | none => simp [claimsOf]
    | some holder => simp [claimsOf, List.filter_singleton]
  rw [hevents, derive_claims, List.foldl_append, ← derive_claims, foldl_claimEvents]
  by_cases hsame : change.source.holder = change.holder
  · rw [if_pos hsame, if_pos (Or.inr hsame)]
  · rw [if_neg hsame, claimsOf, List.filter_append]
    change claimsOf todo _ ++ claimsOf todo _ = _
    rw [hfilter, hopened]
    by_cases htodo : change.todo = todo
    · rw [if_pos htodo, if_neg]
      simp [htodo, hsame]
    · rw [if_neg htodo, if_pos (Or.inl htodo), List.append_nil]
      refine (List.map_congr_left fun claim hclaim => ?_).trans (List.map_id _)
      have hclaim : claim.todo = todo := by simpa [claimsOf] using (List.mem_filter.mp hclaim).2
      rw [closeOpen, if_neg fun hmatch => htodo (hmatch.1.symm.trans hclaim)]
      rfl

/-- The changes of a todo, with one more change. -/
theorem changesOf_concat (todo : String) (changes : List StatusChange) (change : StatusChange) :
    changesOf todo (changes ++ [change]) =
      if change.todo = todo then changesOf todo changes ++ [change] else changesOf todo changes := by
  rw [changesOf, List.filter_append]
  by_cases htodo : change.todo = todo
  · simp [changesOf, htodo]
  · simp [changesOf, htodo]

/-- The interval a change opens tells of the stretch it begins. -/
theorem records_opened (change : StatusChange) (own : List StatusChange) :
    List.Forall₂ (fun stretch interval => Interval.Records interval change.todo (own ++ [change]) stretch)
      (change.holder.map fun key => (⟨key, own.length, none⟩ : Stretch Holder)).toList change.opened.toList := by
  rw [StatusChange.opened]
  cases change.holder with
  | none => exact List.Forall₂.nil
  | some holder =>
    refine List.Forall₂.cons ?_ List.Forall₂.nil
    exact {
      todo_eq := rfl
      holder_eq := rfl
      began := ⟨change, List.getElem?_concat_length, rfl, rfl⟩
      open_iff := ⟨fun _ => rfl, fun _ => rfl⟩
      held := fun _ => rfl
      ended := fun _ hplace => nomatch hplace }

/-- Along every run of changes, the intervals of a todo tell of its stretches one by one, and the status
it now has is the one the last stretch leaves. -/
theorem records_progress (initial : String → Status) (changes : List StatusChange)
    (hfollows : Follows initial changes) (todo : String) :
    List.Forall₂ (fun stretch interval => Interval.Records interval todo (changesOf todo changes) stretch)
        (progress initial todo changes).found (claimsOf todo (derive (eventsOf changes)).claims) ∧
      (runFrom applyChange initial changes todo).holder = (progress initial todo changes).now := by
  induction changes using List.reverseRecOn with
  | nil => exact ⟨List.Forall₂.nil, rfl⟩
  | append_singleton changes change ih =>
    obtain ⟨hbefore, hchange⟩ := along_append.mp hfollows
    obtain ⟨hrecords, hnow⟩ := ih hbefore
    have hsource : change.source = runFrom applyChange initial changes change.todo := hchange.1
    rw [claimsOf_concat, progress, changesOf_concat, runFrom_append]
    change _ ∧ (Function.update (runFrom applyChange initial changes) change.todo
      (change.target.getD .pending) todo).holder = _
    by_cases htodo : change.todo = todo
    · subst htodo
      rw [if_pos rfl, List.map_append, List.map_singleton, stretches_concat, Function.update_self]
      change List.Forall₂ _ ((progress initial change.todo changes).next change.holder).found _ ∧
        _ = ((progress initial change.todo changes).next change.holder).now
      have hplace : (progress initial change.todo changes).place = (changesOf change.todo changes).length := by
        rw [progress, stretches_place, List.length_map]
      have hstatus : (change.target.getD .pending).holder = change.holder := by
        rw [StatusChange.holder]
        cases change.target with
        | none => rfl
        | some target => rfl
      rw [hstatus, Stretches.next, ← hnow, ← hsource, hplace]
      by_cases hsame : change.source.holder = change.holder
      · rw [if_pos (Or.inr hsame), if_pos hsame]
        exact ⟨hrecords.imp fun stretch interval h => h.concat change, hsame.symm⟩
      · rw [if_neg hsame, if_neg fun h => h.elim (fun hne => hne rfl) hsame]
        refine ⟨List.rel_append ?_ (records_opened change _), rfl⟩
        rw [List.forall₂_map_left_iff, List.forall₂_map_right_iff]
        exact hrecords.imp fun stretch interval h => h.close
    · rw [if_neg htodo, if_pos (Or.inl htodo), Function.update_of_ne fun h => htodo h.symm]
      exact ⟨hrecords, hnow⟩

/-- Where two lists correspond, one has a member of some kind exactly when the other has one. -/
theorem exists_mem_of_forall₂ {A B : Type*} {R : A → B → Prop} {P : A → Prop} {Q : B → Prop}
    (hPQ : ∀ a b, R a b → (P a ↔ Q b)) {l : List A} {l' : List B} (h : List.Forall₂ R l l') :
    (∃ a ∈ l, P a) ↔ ∃ b ∈ l', Q b := by
  induction h with
  | nil => simp
  | cons hab _ ih => simp [hPQ _ _ hab, ih]

/-- Where two lists correspond, each member of the one has its counterpart in the other. -/
theorem exists_of_mem_forall₂ {A B : Type*} {R : A → B → Prop} {l : List A} {l' : List B}
    (h : List.Forall₂ R l l') {b : B} (hb : b ∈ l') : ∃ a ∈ l, R a b := by
  induction h with
  | nil => cases hb
  | cons hab _ ih =>
    cases List.mem_cons.mp hb with
    | inl hfirst => exact ⟨_, List.mem_cons_self, hfirst ▸ hab⟩
    | inr hrest =>
      obtain ⟨a, ha, hR⟩ := ih hrest
      exact ⟨a, List.mem_cons_of_mem _ ha, hR⟩

/-- Where two lists correspond, what holds between all pairs of one carries over to the other. -/
theorem pairwise_of_forall₂ {A B : Type*} {R : A → B → Prop} {S : A → A → Prop} {T : B → B → Prop}
    (hST : ∀ a b a' b', R a b → R a' b' → S a a' → T b b') {l : List A} {l' : List B}
    (h : List.Forall₂ R l l') (hS : l.Pairwise S) : l'.Pairwise T := by
  induction h with
  | nil => exact List.Pairwise.nil
  | cons hab hrest ih =>
    obtain ⟨hfirst, hpairs⟩ := List.pairwise_cons.mp hS
    refine List.pairwise_cons.mpr ⟨fun b' hb' => ?_, ih hpairs⟩
    obtain ⟨a', ha', hab'⟩ := exists_of_mem_forall₂ hrest hb'
    exact hST _ _ a' b' hab hab' (hfirst a' ha')

/-- In a list in order, a later place holds no smaller value. -/
theorem le_of_pairwise {A : Type*} {R : A → A → Prop} (hrefl : ∀ a, R a a) {l : List A} (h : l.Pairwise R)
    {i j : ℕ} (hij : i ≤ j) {a b : A} (ha : l[i]? = some a) (hb : l[j]? = some b) : R a b := by
  obtain ⟨hi, rfl⟩ := List.getElem?_eq_some_iff.mp ha
  obtain ⟨hj, rfl⟩ := List.getElem?_eq_some_iff.mp hb
  cases Nat.lt_or_eq_of_le hij with
  | inl hlt => exact List.pairwise_iff_getElem.mp h i j hi hj hlt
  | inr heq => subst heq; exact hrefl _

/-- The derived claims of each todo are one interval for each maximal stretch in which one holder had it
in progress, in order, each with the change that began it and the one that ended it. The open one is of
who has the todo in progress now, since a change and not from before the first; and where the changes
come in the order of their times, each interval ends before the next begins. -/
theorem derive_tells_progress (initial : String → Status) (changes : List StatusChange)
    (hfollows : Follows initial changes) (todo : String) :
    let own := changesOf todo changes
    let claims := claimsOf todo (derive (eventsOf changes)).claims
    (∃ found : List (Stretch Holder),
      (∀ stretch, stretch ∈ found ↔ IsStretch (initial todo).holder (own.map StatusChange.holder) stretch) ∧
        found.Pairwise (fun a b => ∃ finish, a.finish = some finish ∧ finish ≤ b.start) ∧
        List.Forall₂ (fun stretch interval => Interval.Records interval todo own stretch) found claims) ∧
      (∀ holder, (∃ interval ∈ claims, interval.finish = none ∧ interval.holder = holder) ↔
        (runFrom applyChange initial changes todo).holder = some holder ∧
          ((initial todo).holder = some holder → ∃ change ∈ own, change.holder ≠ some holder)) ∧
      (changes.Pairwise (fun a b => a.time.nanos ≤ b.time.nanos) →
        claims.Pairwise fun a b => ∃ finish, a.finish = some finish ∧ finish.nanos ≤ b.start.nanos) := by
  intro own claims
  obtain ⟨hrecords, hnow⟩ := records_progress initial changes hfollows todo
  have hordered := stretches_pairwise (initial todo).holder (own.map StatusChange.holder)
  refine ⟨⟨_, mem_stretches _ _, hordered, hrecords⟩, fun holder => ?_, fun htimes => ?_⟩
  · have hopen := exists_open_iff (initial todo).holder (own.map StatusChange.holder) holder
    rw [hnow]
    refine (exists_mem_of_forall₂ (fun stretch interval h => ?_) hrecords).symm.trans (hopen.trans ?_)
    · rw [h.open_iff, h.holder_eq]
    · refine and_congr_right fun _ => imp_congr_right fun _ => ?_
      simp
  · have htimes : own.Pairwise fun a b => a.time.nanos ≤ b.time.nanos := htimes.filter _
    refine pairwise_of_forall₂ (fun a i b j hi hj hab => ?_) hrecords hordered
    obtain ⟨finish, hfinish, hle⟩ := hab
    obtain ⟨last, hlast, htime, _⟩ := hi.ended finish hfinish
    obtain ⟨first, hfirst, _, hstart⟩ := hj.began
    exact ⟨last.time, htime, hstart ▸ le_of_pairwise
      (fun change => Int.le_refl change.time.nanos) htimes hle hlast hfirst⟩

/-- A claim taken over by a sub-agent and given back, while another todo is finished: three intervals. -/
theorem derive_tells_progress_sample :
    let moment (nanos : ℤ) : Instant := ⟨nanos, ""⟩
    let main : Holder := ⟨"S"⟩
    let agent : Holder := ⟨"S/a"⟩
    let changes : List StatusChange :=
      [⟨"1", "r.main", .pending, some (.inProgress main), moment 1⟩,
        ⟨"2", "r.main", .pending, some (.inProgress main), moment 2⟩,
        ⟨"1", "r.main", .inProgress main, some (.inProgress agent), moment 3⟩,
        ⟨"2", "r.main", .inProgress main, some (.completed (some main)), moment 4⟩,
        ⟨"1", "r.main", .inProgress agent, some .pending, moment 5⟩]
    ((claimsOf "1" (derive (eventsOf changes)).claims).map fun interval => (interval.holder, interval.outcome)) =
        [(main, some .handed), (agent, some .released)] ∧
      (claimsOf "1" (derive (eventsOf changes)).claims).Pairwise
        fun a b => ∃ finish, a.finish = some finish ∧ finish.nanos ≤ b.start.nanos :=
  ⟨by decide +kernel, (derive_tells_progress (fun _ => .pending) _ (by decide +kernel) "1").2.2 (by decide)⟩

end Devkit.Todos
