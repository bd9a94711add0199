import Devkit.Todos.GraphSchedule
import Mathlib.Data.List.Chain

/-!
# Batches and chains

Without a cap a batch takes everything that is ready, so whoever is in a later batch waits for
somebody in the batch before, and there is a chain as long as there are batches. With or without a
cap a chain goes up through the batches, and is no longer than they are many.
-/

namespace Devkit.Todos

open Devkit.Library
open Std

namespace Graph

variable {g : Graph} {offered : Todo → Bool} {cap : Option ℕ+}

/-- The todo is in a batch of the plan. -/
def Placed (g : Graph) (offered : Todo → Bool) (cap : Option ℕ+) (todo : Todo) : Prop :=
  ∃ batch ∈ (g.plan offered cap).batches, todo ∈ batch

/-- A chain of placed todos, each waiting for the one before it. -/
structure Chain (g : Graph) (offered : Todo → Bool) (cap : Option ℕ+) (path : List Todo) : Prop where
  placed : ∀ todo ∈ path, g.Placed offered cap todo
  linked : path.IsChain fun blocker todo => g.Waits todo blocker

/-- What every step of the schedule without a cap keeps. -/
structure Levelled (g : Graph) (offered : Todo → Bool) (s : Schedule) : Prop where
  nonempty : [] ∉ s.batches
  last : ∀ {todo : Todo}, g.Member offered todo → ¬ g.OnCycle offered todo →
    todo.id ∉ g.waitingOutside offered → todo.id ∉ s.placed → s.batches ≠ [] →
      ∃ id ∈ g.waitsOn offered todo, ∀ batch ∈ s.batches.dropLast, id ∉ batch.map Todo.id
  deep : ∀ {k : ℕ} {batch : List Todo} {todo : Todo}, s.batches[k + 1]? = some batch → todo ∈ batch →
    ∃ id ∈ g.waitsOn offered todo, ∃ earlier, s.batches[k]? = some earlier ∧ id ∈ earlier.map Todo.id

/-- The last of some batches is the one no other batch comes after. -/
theorem mem_dropLast_or_last {batches : List (List Todo)} {batch : List Todo} (h : batch ∈ batches) {k : ℕ}
    (hk : k + 1 = batches.length) : batch ∈ batches.dropLast ∨ batches[k]? = some batch := by
  obtain ⟨j, hj⟩ := List.mem_iff_getElem?.mp h
  have hlt := (List.getElem?_eq_some_iff.mp hj).1
  rcases Nat.lt_or_ge j k with hbefore | hlast
  · left
    have hkept : batches.dropLast[j]? = some batch := by
      rw [List.getElem?_dropLast, if_pos (by omega)]
      exact hj
    exact List.mem_of_getElem? hkept
  · right
    have hsame : j = k := by omega
    exact hsame ▸ hj

section Distinct

variable (hdistinct : (g.todos.map Todo.id).Nodup)
include hdistinct

omit hdistinct in
/-- A member off every cycle that waits on nothing outside is ready, or waits on one that is not placed. -/
theorem Scheduled.exists_waitsOn {s : Schedule} (h : g.Scheduled offered cap s) {todo : Todo}
    (hmember : g.Member offered todo) (hclear : ¬ g.OnCycle offered todo)
    (hinside : todo.id ∉ g.waitingOutside offered) (hunplaced : todo.id ∉ s.placed)
    (hready : todo ∉ g.ready offered (g.waitingOutside offered) s) :
    ∃ id ∈ g.waitsOn offered todo, id ∉ s.placed := by
  by_contra hall
  push Not at hall
  refine hready ((g.mem_ready offered _).mpr ⟨mem_members.mpr hmember, hunplaced, hinside, ?_⟩)
  rw [h.counts.clear hmember hclear, Option.getD_some, List.countP_eq_zero]
  exact fun id hid => by simpa using hall id hid

omit hdistinct in
/-- Without a cap a batch takes everything ready. -/
theorem mem_nextBatch_none (outside : List String) (s : Schedule) {todo : Todo} :
    todo ∈ g.nextBatch offered none outside s ↔ todo ∈ g.ready offered outside s := by
  rw [nextBatch_eq, readyStarted, readyPending, List.mem_append, List.mem_filter, List.mem_filter]
  by_cases hstarted : todo.status.kind = .inProgress <;> simp [hstarted]

omit hdistinct in
/-- Placing the next batch keeps the levels. -/
theorem Levelled.step {s next : Schedule} (hscheduled : g.Scheduled offered none s) (h : g.Levelled offered s)
    (hstep : g.scheduleStep offered none (g.waitingOutside offered) s = some next) : g.Levelled offered next := by
  obtain ⟨hbatch, rfl⟩ := (g.scheduleStep_eq_some offered none _).mp hstep
  refine ⟨fun hempty => ?_, fun {todo} hmember hclear hinside hunplaced _ => ?_, fun {k batch todo} hk htodo => ?_⟩
  · rcases List.mem_append.mp hempty with hold | hnew
    · exact h.nonempty hold
    · exact hbatch (List.mem_singleton.mp hnew).symm
  · rw [mem_placed_place, not_or] at hunplaced
    have hready : todo ∉ g.ready offered (g.waitingOutside offered) s := fun hready =>
      hunplaced.2 (List.mem_map_of_mem ((mem_nextBatch_none _ s).mpr hready))
    obtain ⟨id, hid, hlate⟩ := hscheduled.exists_waitsOn hmember hclear hinside hunplaced.1 hready
    refine ⟨id, hid, fun batch hold hin => hlate ((hscheduled.placed id).mpr ⟨batch, ?_, hin⟩)⟩
    change batch ∈ (s.batches ++ [_]).dropLast at hold
    rwa [List.dropLast_concat] at hold
  · have hkeep : ∀ {j : ℕ} {earlier : List Todo}, s.batches[j]? = some earlier →
        (g.place offered s (g.nextBatch offered none (g.waitingOutside offered) s)).batches[j]? = some earlier := by
      intro j earlier hj
      exact (List.getElem?_append_left (List.getElem?_eq_some_iff.mp hj).1).trans hj
    rcases getElem?_concat hk with hold | ⟨hlength, rfl⟩
    · obtain ⟨id, hid, earlier, hearlier, hin⟩ := h.deep hold htodo
      exact ⟨id, hid, earlier, hkeep hearlier, hin⟩
    · obtain ⟨hmember, hclear, hinside, hunplaced, hwaits⟩ :=
        hscheduled.of_ready ((mem_nextBatch_none _ s).mp htodo)
      have hsome : s.batches ≠ [] := fun hnone => by simp [hnone] at hlength
      obtain ⟨id, hid, hlate⟩ := h.last hmember hclear hinside hunplaced hsome
      obtain ⟨earlier, hearlier, hin⟩ := (hscheduled.placed id).mp (hwaits id hid)
      rcases mem_dropLast_or_last hearlier hlength with hbefore | hlast
      · exact absurd hin (hlate earlier hbefore)
      · exact ⟨id, hid, earlier, hkeep hlast, hin⟩

/-- The batches of the plan without a cap are levelled. -/
theorem levelled_schedule : g.Levelled offered (g.schedule offered none) := by
  have hall : g.Scheduled offered none (g.schedule offered none) ∧ g.Levelled offered (g.schedule offered none) := by
    refine loop_invariant (fun s => g.Scheduled offered none s ∧ g.Levelled offered s)
      (fun s next h hstep => ⟨h.1.step hdistinct hstep, h.2.step h.1 hstep⟩)
      ⟨scheduled_start hdistinct, ?_⟩
    exact ⟨List.not_mem_nil, fun _ _ _ _ hsome => absurd rfl hsome, fun h => by simp at h⟩
  exact hall.2

/-- Whoever is placed is a member. -/
theorem Placed.member {todo : Todo} (h : g.Placed offered cap todo) : g.Member offered todo := by
  obtain ⟨batch, hbatch, htodo⟩ := h
  exact ((scheduled_schedule hdistinct).members hbatch htodo).1

/-- Whoever is in a batch, and waited for by one placed, is in an earlier batch than that one. -/
theorem exists_earlier {blocker todo : Todo} (hwaits : g.Waits todo blocker)
    (hblocker : g.Member offered blocker) {j : ℕ} {later : List Todo}
    (hj : (g.plan offered cap).batches[j]? = some later) (htodo : todo ∈ later) :
    ∃ k < j, ∃ earlier, (g.plan offered cap).batches[k]? = some earlier ∧ blocker ∈ earlier := by
  have hscheduled : g.Scheduled offered cap (g.schedule offered cap) := scheduled_schedule hdistinct
  have hmember : g.Member offered todo := (hscheduled.members (List.mem_of_getElem? hj) htodo).1
  obtain ⟨k, hk, earlier, hearlier, hid⟩ := hscheduled.waits hj htodo blocker.id
    ((mem_waitsOn hdistinct hmember).mpr ⟨blocker, ⟨hmember, hblocker, hwaits⟩, rfl⟩)
  obtain ⟨other, hother, heq⟩ := List.mem_map.mp hid
  obtain rfl := eq_of_id_eq hdistinct (hscheduled.members (List.mem_of_getElem? hearlier) hother).1.1 hblocker.1 heq
  exact ⟨k, hk, earlier, hearlier, hother⟩

/-- A chain goes up through the batches: from the batch of its first on, there are as many. -/
theorem Chain.exists_batch {first : Todo} {rest : List Todo} (h : g.Chain offered cap (first :: rest)) :
    ∃ (k : ℕ) (batch : List Todo), (g.plan offered cap).batches[k]? = some batch ∧ first ∈ batch ∧
      (first :: rest).length + k ≤ (g.plan offered cap).batches.length := by
  induction rest generalizing first with
  | nil =>
    obtain ⟨batch, hbatch, hfirst⟩ := h.placed first List.mem_cons_self
    obtain ⟨k, hk⟩ := List.mem_iff_getElem?.mp hbatch
    have hlt := (List.getElem?_eq_some_iff.mp hk).1
    exact ⟨k, batch, hk, hfirst, by rw [List.length_singleton]; omega⟩
  | cons next rest ih =>
    obtain ⟨hwaits, hlinked⟩ := List.isChain_cons_cons.mp h.linked
    obtain ⟨j, later, hj, hnext, hlength⟩ :=
      ih ⟨fun todo htodo => h.placed todo (List.mem_cons_of_mem first htodo), hlinked⟩
    obtain ⟨k, hk, earlier, hearlier, hfirst⟩ :=
      exists_earlier hdistinct hwaits ((h.placed first List.mem_cons_self).member hdistinct) hj hnext
    refine ⟨k, earlier, hearlier, hfirst, ?_⟩
    simp only [List.length_cons] at hlength ⊢
    omega

/-- A chain is no longer than the batches are many. -/
theorem Chain.length_le {path : List Todo} (h : g.Chain offered cap path) :
    path.length ≤ (g.plan offered cap).batches.length := by
  cases path with
  | nil => exact Nat.zero_le _
  | cons first rest =>
    obtain ⟨k, _, _, _, hlength⟩ := h.exists_batch hdistinct
    omega

/-- Without a cap a chain leads to each todo from the first batch on. -/
theorem exists_chain_to {k : ℕ} {batch : List Todo} (hk : (g.plan offered none).batches[k]? = some batch)
    {todo : Todo} (htodo : todo ∈ batch) :
    ∃ path, g.Chain offered none (path ++ [todo]) ∧ path.length = k := by
  have hscheduled : g.Scheduled offered none (g.schedule offered none) := scheduled_schedule hdistinct
  induction k generalizing batch todo with
  | zero =>
    refine ⟨[], ⟨fun other hother => ?_, .singleton todo⟩, rfl⟩
    rw [List.mem_singleton.mp hother]
    exact ⟨batch, List.mem_of_getElem? hk, htodo⟩
  | succ k ih =>
    obtain ⟨id, hid, earlier, hearlier, hin⟩ := (levelled_schedule hdistinct).deep hk htodo
    obtain ⟨blocker, hblocker, rfl⟩ := List.mem_map.mp hin
    have hmember := (hscheduled.members (List.mem_of_getElem? hk) htodo).1
    obtain ⟨other, hwaits, heq⟩ := (mem_waitsOn hdistinct hmember).mp hid
    have hblockerMember := (hscheduled.members (List.mem_of_getElem? hearlier) hblocker).1
    obtain rfl := eq_of_id_eq hdistinct hwaits.2.1.1 hblockerMember.1 heq
    obtain ⟨path, hpath, hlength⟩ := ih hearlier hblocker
    refine ⟨path ++ [other], ⟨fun member hmem => ?_, ?_⟩, by simp [hlength]⟩
    · rcases List.mem_append.mp hmem with hold | hlast
      · exact hpath.placed member hold
      · rw [List.mem_singleton.mp hlast]
        exact ⟨batch, List.mem_of_getElem? hk, htodo⟩
    · refine List.IsChain.append hpath.linked (.singleton todo) fun last hlast first hfirst => ?_
      rw [List.getLast?_concat, Option.mem_some_iff] at hlast
      rw [List.head?_singleton, Option.mem_some_iff] at hfirst
      subst hlast hfirst
      exact hwaits.2.2

/-- Without a cap some chain is as long as the batches are many. -/
theorem exists_chain_of_batches :
    ∃ path, g.Chain offered none path ∧ path.length = (g.plan offered none).batches.length := by
  rcases Nat.eq_zero_or_pos (g.plan offered none).batches.length with hnone | hsome
  · exact ⟨[], ⟨fun todo htodo => absurd htodo List.not_mem_nil, .nil⟩, hnone.symm⟩
  · obtain ⟨batch, hbatch⟩ : ∃ batch, (g.plan offered none).batches[(g.plan offered none).batches.length - 1]? =
        some batch := ⟨_, List.getElem?_eq_getElem (by omega)⟩
    have hne : batch ≠ [] := by
      rintro rfl
      exact (levelled_schedule hdistinct).nonempty (List.mem_of_getElem? hbatch)
    obtain ⟨todo, htodo⟩ := List.exists_mem_of_ne_nil batch hne
    obtain ⟨path, hpath, hlength⟩ := exists_chain_to hdistinct hbatch htodo
    exact ⟨path ++ [todo], hpath, by rw [List.length_append, hlength, List.length_singleton]; omega⟩

end Distinct

end Graph

end Devkit.Todos
