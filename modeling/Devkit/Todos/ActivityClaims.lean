import Devkit.Todos.Activity

/-!
# Pairing the claims of the log

The derivation keeps the place of each todo's open claim, and there is at most one. So ending a todo's
claim is closing every open claim of it, and the derived claims are those of pairing the events one by
one, without the places.
-/

namespace Devkit.Todos

open Devkit.Library
open Std

/-- Close a claim if it is an open one of the todo. -/
def closeOpen (todo : String) (time : Instant) (outcome : ClaimEnd) (claim : Interval) : Interval :=
  if claim.todo = todo ∧ claim.finish = none then closeClaim time outcome claim else claim

/-- What one event makes of the claims. -/
def pairClaims (claims : List Interval) (event : Event) : List Interval :=
  match event.what with
  | .claim todo node holder =>
    claims.map (closeOpen todo event.time .handed) ++ [⟨todo, node, holder, event.time, none, none⟩]
  | .unclaim todo _ outcome => claims.map (closeOpen todo event.time outcome)
  | _ => claims

/-- The open claims are those the derivation has a place for. -/
def Derivation.Indexed (d : Derivation) : Prop :=
  ∀ (todo : String) (place : ℕ), d.claims[todo]? = some place ↔
    ∃ claim : Interval, d.activity.claims[place]? = some claim ∧ claim.todo = todo ∧ claim.finish = none

namespace Derivation

/-- Ending the claim of a todo closes every open claim of it. -/
theorem endClaim_claims {d : Derivation} (h : d.Indexed) (todo : String) (time : Instant) (outcome : ClaimEnd) :
    (d.endClaim todo time outcome).activity.claims = d.activity.claims.map (closeOpen todo time outcome) := by
  refine List.ext_getElem? fun place => ?_
  rw [List.getElem?_map, endClaim]
  cases hopen : d.claims[todo]? with
  | none =>
    change d.activity.claims[place]? = _
    cases hclaim : d.activity.claims[place]? with
    | none => rfl
    | some claim =>
      rw [Option.map_some, closeOpen, if_neg]
      intro hmatch
      rw [(h todo place).mpr ⟨claim, hclaim, hmatch⟩] at hopen
      cases hopen
  | some kept =>
    change (d.activity.claims.modify kept (closeClaim time outcome))[place]? = _
    rw [List.getElem?_modify]
    cases hclaim : d.activity.claims[place]? with
    | none => rfl
    | some claim =>
      refine congrArg some ?_
      change ite (kept = place) _ _ = _
      obtain ⟨found, hfound, hmatch⟩ := (h todo kept).mp hopen
      by_cases hplace : kept = place
      · obtain rfl : found = claim := by
          rw [hplace, hclaim] at hfound
          exact (Option.some.inj hfound).symm
        rw [if_pos hplace, closeOpen, if_pos hmatch]
      · rw [if_neg hplace, closeOpen, if_neg]
        intro hother
        have hsame := (h todo place).mpr ⟨claim, hclaim, hother⟩
        rw [hopen] at hsame
        exact hplace (Option.some.inj hsame)

/-- Ending the claim of a todo leaves it none, and those of the others where they were. -/
theorem getElem?_endClaim (d : Derivation) (todo other : String) (time : Instant) (outcome : ClaimEnd) :
    (d.endClaim todo time outcome).claims[other]? = if todo = other then none else d.claims[other]? := by
  rw [endClaim]
  cases hopen : d.claims[todo]? with
  | none =>
    change d.claims[other]? = _
    split
    next hsame => rw [← hsame, hopen]
    · rfl
  | some place =>
    change (d.claims.erase todo)[other]? = _
    rw [getElem?_erase_eq]

/-- A closed claim is open where it was, unless it is of the todo. -/
theorem closeOpen_open {todo other : String} {time : Instant} {outcome : ClaimEnd} {claim : Interval} :
    (closeOpen todo time outcome claim).todo = other ∧ (closeOpen todo time outcome claim).finish = none ↔
      todo ≠ other ∧ claim.todo = other ∧ claim.finish = none := by
  rw [closeOpen]
  split
  next hmatch =>
    exact ⟨fun h => (nomatch h.2), fun h => absurd (hmatch.1.symm.trans h.2.1) h.1⟩
  next hother =>
    exact ⟨fun h => ⟨fun hsame => hother ⟨h.1.trans hsame.symm, h.2⟩, h⟩, fun h => h.2⟩

/-- Ending a claim keeps the places of the open ones. -/
theorem Indexed.endClaim {d : Derivation} (h : d.Indexed) (todo : String) (time : Instant) (outcome : ClaimEnd) :
    (d.endClaim todo time outcome).Indexed := by
  intro other place
  rw [getElem?_endClaim, endClaim_claims h, List.getElem?_map]
  simp only [Option.map_eq_some_iff, exists_exists_and_eq_and, closeOpen_open]
  by_cases hsame : todo = other
  · rw [if_pos hsame]
    exact ⟨fun hnone => (nomatch hnone), fun ⟨_, _, hne, _⟩ => absurd hsame hne⟩
  · rw [if_neg hsame, h other place]
    exact exists_congr fun claim => and_congr_right fun _ => ⟨fun hmatch => ⟨hsame, hmatch⟩, fun hmatch => hmatch.2⟩

/-- A claim put at the end, of a todo with none open, is found at its place. -/
theorem Indexed.claimed {d : Derivation} (h : d.Indexed) {claim : Interval} (hopen : claim.finish = none)
    (hnone : d.claims[claim.todo]? = none) :
    ({ d with claims := d.claims.insert claim.todo d.activity.claims.length
              activity.claims := d.activity.claims ++ [claim] } : Derivation).Indexed := by
  intro other place
  change (d.claims.insert claim.todo d.activity.claims.length)[other]? = _ ↔
    ∃ found : Interval, (d.activity.claims ++ [claim])[place]? = _ ∧ _
  rw [getElem?_insert_eq]
  rcases Nat.lt_trichotomy place d.activity.claims.length with hlt | rfl | hgt
  · rw [List.getElem?_append_left hlt]
    by_cases hsame : claim.todo = other
    · rw [if_pos hsame, ← h other place, ← hsame, hnone]
      exact ⟨fun hplace => absurd (Option.some.inj hplace) (Nat.ne_of_gt hlt), fun hplace => nomatch hplace⟩
    · rw [if_neg hsame]
      exact h other place
  · rw [List.getElem?_concat_length]
    by_cases hsame : claim.todo = other
    · rw [if_pos hsame]
      exact ⟨fun _ => ⟨claim, rfl, hsame, hopen⟩, fun _ => rfl⟩
    · rw [if_neg hsame]
      constructor
      · intro hplace
        obtain ⟨found, hfound, _⟩ := (h other _).mp hplace
        rw [List.getElem?_eq_none (Nat.le_refl _)] at hfound
        cases hfound
      · rintro ⟨found, hfound, hmatch, _⟩
        cases hfound
        exact absurd hmatch hsame
  · have hbeyond : (d.activity.claims ++ [claim])[place]? = none :=
      List.getElem?_eq_none (by rw [List.length_append, List.length_singleton]; omega)
    rw [hbeyond]
    constructor
    · split
      · exact fun hplace => absurd (Option.some.inj hplace) (Nat.ne_of_lt hgt)
      · intro hplace
        obtain ⟨found, hfound, _⟩ := (h other place).mp hplace
        rw [List.getElem?_eq_none (Nat.le_of_lt hgt)] at hfound
        cases hfound
    · rintro ⟨found, hfound, _⟩
      cases hfound

/-- Closing runs touches no claim. -/
theorem foldl_closeRunAt (rows : List ((String × String) × ℕ)) (time : Instant) (d : Derivation) :
    (rows.foldl (fun d row => d.closeRunAt row.2 time .sessionEnded) d).activity.claims = d.activity.claims ∧
      (rows.foldl (fun d row => d.closeRunAt row.2 time .sessionEnded) d).claims = d.claims := by
  induction rows generalizing d with
  | nil => exact ⟨rfl, rfl⟩
  | cons row rest ih => exact ih (d.closeRunAt row.2 time .sessionEnded)

/-- An event that leaves the claims as they are keeps the places of the open ones. -/
theorem Indexed.kept {d d' : Derivation} (h : d.Indexed) (hclaims : d'.activity.claims = d.activity.claims)
    (hplaces : d'.claims = d.claims) : d'.activity.claims = d.activity.claims ∧ d'.Indexed := by
  refine ⟨hclaims, fun todo place => ?_⟩
  rw [hclaims, hplaces]
  exact h todo place

/-- One event pairs the claims, and keeps the places of the open ones. -/
theorem step_claims {d : Derivation} (h : d.Indexed) (event : Event) :
    (d.step event).activity.claims = pairClaims d.activity.claims event ∧ (d.step event).Indexed := by
  obtain ⟨time, what⟩ := event
  cases what with
  | sessionStart session => exact ⟨rfl, h⟩
  | subagentStart session agent agentType =>
    change (ite _ _ _ : Derivation).activity.claims = d.activity.claims ∧ Indexed (ite _ _ _)
    split
    · exact ⟨rfl, h⟩
    · exact h.kept rfl rfl
  | subagentStop session agent agentType =>
    dsimp only [Derivation.step, pairClaims]
    cases d.runs[(session, agent)]? with
    | none => exact ⟨rfl, h⟩
    | some place => exact h.kept rfl rfl
  | sessionEnd session =>
    obtain ⟨hclaims, hplaces⟩ := foldl_closeRunAt (d.runs.toList.filter fun row => row.1.1 == session) time d
    exact h.kept hclaims hplaces
  | claim todo node holder =>
    have hnone : (d.endClaim todo time .handed).claims[todo]? = none := by rw [getElem?_endClaim, if_pos rfl]
    have hclaimed := (h.endClaim todo time .handed).claimed
      (show (⟨todo, node, holder, time, none, none⟩ : Interval).finish = none from rfl) hnone
    refine ⟨?_, hclaimed⟩
    change (d.endClaim todo time .handed).activity.claims ++ _ = _
    rw [endClaim_claims h]
    rfl
  | unclaim todo holder outcome => exact ⟨endClaim_claims h todo time outcome, h.endClaim todo time outcome⟩

end Derivation

/-- The derived claims are those of pairing the events one by one. -/
theorem derive_claims (events : List Event) : (derive events).claims = events.foldl pairClaims [] := by
  have hpaired : ∀ d : Derivation, d.Indexed →
      (events.foldl Derivation.step d).activity.claims = events.foldl pairClaims d.activity.claims := by
    induction events with
    | nil => exact fun _ _ => rfl
    | cons event rest ih =>
      intro d h
      obtain ⟨hclaims, hindexed⟩ := Derivation.step_claims h event
      rw [List.foldl_cons, List.foldl_cons, ← hclaims]
      exact ih _ hindexed
  exact hpaired .start fun todo place => by simp [Derivation.start]

end Devkit.Todos
