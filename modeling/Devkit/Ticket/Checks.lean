import Devkit.Ticket.GlobMatch
import Mathlib.Data.List.Induction
import Mathlib.Data.List.Nodup
import Mathlib.Data.String.Basic
import Mathlib.Order.WithBot

/-!
# The verdict of a pull request's checks

A forge can return every attempt of a check. The verdict keeps the latest attempt of each name, discounts the
names that a pattern ignores, and counts the ignored failures so that they can still be shown.
-/

namespace Devkit.Ticket

open Devkit.Library

/-- How a check, or a whole commit, stands. -/
inductive CheckState
  | passed
  | running
  | failed
deriving DecidableEq

/-- One check on a head commit, with when this attempt began. -/
structure CheckRun where
  name : String
  state : CheckState
  startedAt : Option String
deriving DecidableEq

/-- When the attempt began, as attempts are compared: an unknown start is before every other. -/
def CheckRun.start (c : CheckRun) : WithBot String :=
  match c.startedAt with
  | none => ⊥
  | some startedAt => startedAt

/-- Every check on a head commit, and the forge's own summary of them. -/
structure ForgeChecks where
  overall : CheckState
  runs : List CheckRun

/-- The verdict on a pull request's checks. -/
inductive Checks
  | none
  | ok (masked : ℕ)
  | run
  | fail (names : List String)
deriving DecidableEq

/-- Keep an attempt where it is the first of its name or began later than the one kept. -/
def keepLatest (c : CheckRun) : List CheckRun → List CheckRun
  | [] => [c]
  | prev :: rest =>
    if prev.name = c.name then (if prev.start < c.start then c else prev) :: rest
    else prev :: keepLatest c rest

/-- The most recent attempt of each name. -/
def latestRuns (runs : List CheckRun) : List CheckRun := runs.foldl (fun latest c => keepLatest c latest) []

/-- What the attempts come to: names that failed, whether one runs, and ignored failures. -/
structure Tally where
  failing : List String
  running : Bool
  masked : ℕ

/-- The verdict of a tally. -/
def Tally.verdict (tally : Tally) : Checks :=
  if !tally.failing.isEmpty then .fail tally.failing
  else if tally.running then .run
  else .ok tally.masked

section Verdict

variable (lower : String → String) (ignored : List String)

/-- Some pattern matches the name. -/
def nameIgnored (name : String) : Bool := ignored.any fun pattern => globMatch lower pattern name

/-- Count an attempt. -/
def Tally.add (tally : Tally) (c : CheckRun) : Tally :=
  match c.state, nameIgnored lower ignored c.name with
  | .failed, true => { tally with masked := tally.masked + 1 }
  | .failed, false => { tally with failing := tally.failing ++ [c.name] }
  | .running, false => { tally with running := true }
  | .running, true => tally
  | .passed, _ => tally

/-- The verdict with some check names ignored. -/
def checkVerdict : Option ForgeChecks → Checks
  | none => .none
  | some checks =>
    if checks.runs.isEmpty then
      match checks.overall with
      | .passed => .ok 0
      | .running => .run
      | .failed => .fail []
    else ((latestRuns checks.runs).foldl (Tally.add lower ignored) ⟨[], false, 0⟩).verdict

end Verdict

section Latest

/-- The attempt is the latest of its name: all listed before it began earlier, and none after it later. -/
def Latest (runs : List CheckRun) (r : CheckRun) : Prop :=
  ∃ before after, runs = before ++ r :: after ∧ (∀ e ∈ before, e.name = r.name → e.start < r.start) ∧
    ∀ e ∈ after, e.name = r.name → e.start ≤ r.start

/-- An attempt is the latest of a longer list where it was and the new one is no later, or it is new and later. -/
theorem latest_concat {runs : List CheckRun} {c r : CheckRun} :
    Latest (runs ++ [c]) r ↔ (Latest runs r ∧ (c.name = r.name → c.start ≤ r.start)) ∨
      (r = c ∧ ∀ e ∈ runs, e.name = c.name → e.start < c.start) := by
  constructor
  · rintro ⟨before, after, hruns, hbefore, hafter⟩
    rcases List.eq_nil_or_concat after with rfl | ⟨rest, last, rfl⟩
    · obtain ⟨rfl, heq⟩ := List.append_inj' hruns rfl
      obtain rfl := List.singleton_inj.mp heq
      exact Or.inr ⟨rfl, hbefore⟩
    · rw [List.concat_eq_append, ← List.cons_append, ← List.append_assoc] at hruns
      obtain ⟨rfl, heq⟩ := List.append_inj' hruns rfl
      obtain rfl := List.singleton_inj.mp heq
      rw [List.concat_eq_append, List.forall_mem_append] at hafter
      exact Or.inl ⟨⟨before, rest, rfl, hbefore, hafter.1⟩, hafter.2 c (List.mem_singleton_self c)⟩
  · rintro (⟨⟨before, after, rfl, hbefore, hafter⟩, hnew⟩ | ⟨rfl, hall⟩)
    · refine ⟨before, after ++ [c], by rw [List.append_assoc, List.cons_append], hbefore, ?_⟩
      refine List.forall_mem_append.mpr ⟨hafter, fun e he => ?_⟩
      obtain rfl := List.mem_singleton.mp he
      exact hnew
    · exact ⟨runs, [], rfl, hall, fun e he => absurd he List.not_mem_nil⟩

/-- The latest attempt of a name is listed. -/
theorem Latest.mem {runs : List CheckRun} {r : CheckRun} (h : Latest runs r) : r ∈ runs := by
  obtain ⟨before, after, rfl, _⟩ := h
  exact List.mem_append_right before List.mem_cons_self

/-- The names kept are those before and the new one. -/
theorem mem_names_keepLatest {c : CheckRun} {latest : List CheckRun} {name : String} :
    name ∈ (keepLatest c latest).map CheckRun.name ↔ name = c.name ∨ name ∈ latest.map CheckRun.name := by
  induction latest with
  | nil => simp [keepLatest]
  | cons prev rest ih =>
    rw [keepLatest]
    split
    · rename_i hname
      split
      · simp [hname]
      · simp [hname]
    · rw [List.map_cons, List.mem_cons, ih, List.map_cons, List.mem_cons]
      exact or_left_comm

/-- One attempt of each name is kept. -/
theorem nodup_keepLatest {c : CheckRun} {latest : List CheckRun} (hnames : (latest.map CheckRun.name).Nodup) :
    ((keepLatest c latest).map CheckRun.name).Nodup := by
  induction latest with
  | nil => exact List.nodup_singleton c.name
  | cons prev rest ih =>
    obtain ⟨hprev, hrest⟩ := List.nodup_cons.mp hnames
    rw [keepLatest]
    split
    · rename_i hname
      split
      · exact List.nodup_cons.mpr ⟨hname ▸ hprev, hrest⟩
      · exact hnames
    · rename_i hname
      refine List.nodup_cons.mpr ⟨fun hmem => ?_, ih hrest⟩
      exact (mem_names_keepLatest.mp hmem).elim hname hprev

/-- An attempt is kept where it was and the new one is no later, or it is new and later than the one kept. -/
theorem mem_keepLatest {c r : CheckRun} {latest : List CheckRun} (hnames : (latest.map CheckRun.name).Nodup) :
    r ∈ keepLatest c latest ↔ (r ∈ latest ∧ (c.name = r.name → c.start ≤ r.start)) ∨
      (r = c ∧ ∀ e ∈ latest, e.name = c.name → e.start < c.start) := by
  induction latest with
  | nil => simp [keepLatest]
  | cons prev rest ih =>
    obtain ⟨hprev, hrest⟩ := List.nodup_cons.mp hnames
    rw [keepLatest]
    by_cases hname : prev.name = c.name
    · -- nothing further on has the name
      have hother : ∀ e ∈ rest, e.name ≠ c.name := fun e he heq => hprev (hname ▸ heq ▸ List.mem_map_of_mem he)
      rw [if_pos hname]
      split
      · rename_i hlater
        constructor
        · rintro hmem
          rcases List.mem_cons.mp hmem with rfl | hold
          · refine Or.inr ⟨rfl, List.forall_mem_cons.mpr ⟨fun _ => hlater, fun e he heq => ?_⟩⟩
            exact absurd heq (hother e he)
          · exact Or.inl ⟨List.mem_cons_of_mem prev hold, fun heq => absurd heq.symm (hother r hold)⟩
        · rintro (⟨hmem, hle⟩ | ⟨rfl, _⟩)
          · rcases List.mem_cons.mp hmem with rfl | hold
            · exact absurd (hle hname.symm) (not_le_of_gt hlater)
            · exact List.mem_cons_of_mem c hold
          · exact List.mem_cons_self
      · rename_i hlater
        constructor
        · intro hmem
          refine Or.inl ⟨hmem, fun heq => ?_⟩
          rcases List.mem_cons.mp hmem with rfl | hold
          · exact not_lt.mp hlater
          · exact absurd heq.symm (hother r hold)
        · rintro (⟨hmem, _⟩ | ⟨_, hall⟩)
          · exact hmem
          · exact absurd (hall prev List.mem_cons_self hname) hlater
    · rw [if_neg hname, List.mem_cons, ih hrest, List.mem_cons, List.forall_mem_cons]
      constructor
      · rintro (rfl | ⟨hmem, hle⟩ | ⟨rfl, hall⟩)
        · exact Or.inl ⟨Or.inl rfl, fun heq => absurd heq.symm hname⟩
        · exact Or.inl ⟨Or.inr hmem, hle⟩
        · exact Or.inr ⟨rfl, fun heq => absurd heq hname, hall⟩
      · rintro (⟨rfl | hmem, hle⟩ | ⟨rfl, _, hall⟩)
        · exact Or.inl rfl
        · exact Or.inr (Or.inl ⟨hmem, hle⟩)
        · exact Or.inr (Or.inr ⟨rfl, hall⟩)

/-- What is kept of a list of attempts: the latest of each name, once, and one no earlier for each attempt. -/
structure Collapsed (runs latest : List CheckRun) : Prop where
  names : (latest.map CheckRun.name).Nodup
  mem_iff : ∀ r, r ∈ latest ↔ Latest runs r
  covers : ∀ e ∈ runs, ∃ r ∈ latest, r.name = e.name ∧ e.start ≤ r.start

/-- Each attempt keeps what was kept collapsed. -/
theorem Collapsed.concat {runs latest : List CheckRun} (h : Collapsed runs latest) (c : CheckRun) :
    Collapsed (runs ++ [c]) (keepLatest c latest) := by
  refine ⟨nodup_keepLatest h.names, fun r => ?_, fun e he => ?_⟩
  · rw [mem_keepLatest h.names, latest_concat, h.mem_iff]
    refine or_congr_right (and_congr_right fun _ => ⟨fun hall e he heq => ?_, fun hall e he => ?_⟩)
    · obtain ⟨r, hr, hname, hle⟩ := h.covers e he
      exact hle.trans_lt (hall r hr (hname.trans heq))
    · exact hall e ((h.mem_iff e).mp he).mem
  · by_cases hlater : ∀ e ∈ latest, e.name = c.name → e.start < c.start
    · have hnew : c ∈ keepLatest c latest := (mem_keepLatest h.names).mpr (Or.inr ⟨rfl, hlater⟩)
      rcases List.mem_append.mp he with hold | hlast
      · obtain ⟨r, hr, hname, hle⟩ := h.covers e hold
        by_cases hsame : c.name = r.name
        · exact ⟨c, hnew, hsame.trans hname, hle.trans (hlater r hr hsame.symm).le⟩
        · exact ⟨r, (mem_keepLatest h.names).mpr (Or.inl ⟨hr, fun heq => absurd heq hsame⟩), hname, hle⟩
      · obtain rfl := List.mem_singleton.mp hlast
        exact ⟨e, hnew, rfl, le_rfl⟩
    · push Not at hlater
      obtain ⟨kept, hkept, hname, hle⟩ := hlater
      have hstay : ∀ r ∈ latest, r ∈ keepLatest c latest := fun r hr =>
        (mem_keepLatest h.names).mpr (Or.inl ⟨hr, fun heq =>
          List.inj_on_of_nodup_map h.names hkept hr (hname.trans heq) ▸ hle⟩)
      rcases List.mem_append.mp he with hold | hlast
      · obtain ⟨r, hr, hsame, hearlier⟩ := h.covers e hold
        exact ⟨r, hstay r hr, hsame, hearlier⟩
      · obtain rfl := List.mem_singleton.mp hlast
        exact ⟨kept, hstay kept hkept, hname, hle⟩

/-- What is kept is the latest attempt of each name. -/
theorem collapsed_latestRuns (runs : List CheckRun) : Collapsed runs (latestRuns runs) := by
  induction runs using List.reverseRecOn with
  | nil => exact ⟨List.nodup_nil, fun r => iff_of_false List.not_mem_nil fun h => absurd h.mem List.not_mem_nil,
      fun e he => absurd he List.not_mem_nil⟩
  | append_singleton runs c ih =>
    rw [latestRuns, List.foldl_append]
    exact ih.concat c

end Latest

end Devkit.Ticket
