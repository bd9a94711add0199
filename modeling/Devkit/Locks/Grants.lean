import Devkit.Locks.Rows

/-!
# Acquiring and writing

The two operations that write rows. Each admits only rows that nothing obstructs, and
neither ever ends a live row of anyone: a row under the caller's key is renewed or, when
it is the caller's own, rewritten as the same claim.
-/

namespace Devkit.Locks

open Devkit.Common
open Devkit.Library
open Std

namespace Data

section Acquire

variable (m : Moment) (root : Root) (holder : String) (pid : Option ℕ) (note : Option String) (ttl : ℕ)

/-- The row a granted request writes for one of its paths. -/
def ownRow (req : String) : LockEntry := ⟨req, root, holder, pid, note, m.now, ttl⟩

/-- Looking up a row after one path of a batch: the row under the path's key is renewed or
rewritten, every other is untouched. -/
theorem locks_acquireOne (state : Data × List Acquired × List AlreadyHeld) (req k : String) :
    (acquireOne m root holder pid note ttl state req).1.locks[k]? =
      if keyFor root req = k then
        match state.1.locks[k]? with
        | some e =>
          if e.holder ≠ holder ∧ Live m e then some { e with ts := m.now }
          else some (ownRow m root holder pid note ttl req)
        | none => some (ownRow m root holder pid note ttl req)
      else state.1.locks[k]? := by
  obtain ⟨d, acquired, alreadyHeld⟩ := state
  by_cases hk : keyFor root req = k
  · subst hk
    cases he : d.locks[keyFor root req]? with
    | none => simp [acquireOne, he, ownRow]
    | some e =>
      by_cases hkeep : e.holder ≠ holder ∧ Live m e
      · have hcode : (e.holder != holder && !entryDead m e) = true := by
          simpa [Live] using hkeep
        simp [acquireOne, he, hcode, hkeep]
      · have hcode : (e.holder != holder && !entryDead m e) = false := by
          simpa [Live] using hkeep
        simp [acquireOne, he, hcode, hkeep, ownRow]
  · cases he : d.locks[keyFor root req]? with
    | none => simp [acquireOne, he, hk, getElem?_insert_eq]
    | some e =>
      simp only [acquireOne, he, hk, if_false]
      split <;> simp [getElem?_insert_eq, hk]

/-- After a granted batch every row is an old one, possibly renewed, or the caller's own. -/
theorem row_foldl_acquireOne (paths : List String) (state : Data × List Acquired × List AlreadyHeld)
    {k : String} {e' : LockEntry}
    (h : (paths.foldl (acquireOne m root holder pid note ttl) state).1.Row k e') :
    (∃ e, state.1.Row k e ∧ Renewed m e e') ∨
      ∃ req ∈ paths, k = keyFor root req ∧ e' = ownRow m root holder pid note ttl req := by
  induction paths generalizing state with
  | nil => exact Or.inl ⟨e', h, Or.inl rfl⟩
  | cons req rest ih =>
    rcases ih _ h with ⟨e, he, hren⟩ | ⟨req', hreq', hown⟩
    · rw [Row, locks_acquireOne] at he
      split at he
      · rename_i hkey
        cases hold : state.1.locks[k]? with
        | none =>
          simp only [hold, Option.some.injEq] at he
          subst he
          refine Or.inr ⟨req, List.mem_cons_self, hkey.symm, ?_⟩
          rcases hren with rfl | ⟨_, rfl⟩ <;> rfl
        | some old =>
          simp only [hold] at he
          split at he
          · rename_i hkeep
            obtain rfl := Option.some.inj he
            exact Or.inl ⟨old, hold, Renewed.trans (Or.inr ⟨hkeep.2, rfl⟩) hren⟩
          · obtain rfl := Option.some.inj he
            refine Or.inr ⟨req, List.mem_cons_self, hkey.symm, ?_⟩
            rcases hren with rfl | ⟨_, rfl⟩ <;> rfl
      · exact Or.inl ⟨e, he, hren⟩
    · exact Or.inr ⟨req', List.mem_cons_of_mem _ hreq', hown⟩

/-- A live row outlives a granted batch: another holder's is renewed, the caller's own is
rewritten as the same claim. -/
theorem survives_foldl_acquireOne (paths : List String)
    (state : Data × List Acquired × List AlreadyHeld) {k : String} {e : LockEntry}
    (hkey : k = keyFor e.root e.path)
    (h : ∃ e', state.1.Row k e' ∧ SameClaim e e' ∧ (Live m e' ∨ e.holder = holder)) :
    ∃ e', (paths.foldl (acquireOne m root holder pid note ttl) state).1.Row k e' ∧ SameClaim e e' := by
  induction paths generalizing state with
  | nil =>
    obtain ⟨e', hrow, hsame, _⟩ := h
    exact ⟨e', hrow, hsame⟩
  | cons req rest ih =>
    apply ih
    obtain ⟨e', hrow, hsame, hlive⟩ := h
    rw [Row] at hrow
    simp only [Row, locks_acquireOne, hrow]
    by_cases hreq : keyFor root req = k
    · obtain ⟨hroot, hpath⟩ := keyFor_injective (hreq.trans hkey)
      simp only [hreq, if_true]
      split
      · rename_i hkeep
        exact ⟨_, rfl, hsame, Or.inl hkeep.2.stamp⟩
      · rename_i hown
        have hholder : e.holder = holder := by
          rcases hlive with hlive | hholder
          · by_contra hne
            exact hown ⟨fun heq => hne (hsame.2.2 ▸ heq), hlive⟩
          · exact hholder
        exact ⟨_, rfl, ⟨hroot, hpath, hholder.symm⟩, Or.inr hholder⟩
    · simp only [hreq, if_false]
      exact ⟨e', rfl, hsame, hlive⟩

/-- A request with a conflict leaves the registry alone and grants nothing. -/
theorem tryAcquire_of_conflict {d : Data} {paths : List String}
    (h : d.check m root paths holder ≠ []) :
    d.tryAcquire m root paths holder pid note ttl = (d, ⟨[], [], d.check m root paths holder⟩) := by
  simp [tryAcquire, h]

/-- A request without a conflict treats its paths one by one. -/
theorem tryAcquire_of_clean {d : Data} {paths : List String} (h : d.check m root paths holder = []) :
    (d.tryAcquire m root paths holder pid note ttl).1 =
      (paths.foldl (acquireOne m root holder pid note ttl) (d, [], [])).1 := by
  simp [tryAcquire, h]

/-- A batch request admits only rows that nothing obstructs. -/
theorem tryAcquire_admits (d : Data) (paths : List String) :
    Admits m d (d.tryAcquire m root paths holder pid note ttl).1 := by
  by_cases hcheck : d.check m root paths holder = []
  · rw [tryAcquire_of_clean m root holder pid note ttl hcheck]
    refine ⟨holder, fun k e' hrow => ?_⟩
    rcases row_foldl_acquireOne m root holder pid note ttl paths _ hrow with hold | ⟨req, hreq, hk, rfl⟩
    · exact Or.inl hold
    · exact Or.inr ⟨rfl, hk, fun k e he hlive hroot hover =>
        check_eq_nil_iff.mp hcheck req hreq k e he hlive hroot hover⟩
  · rw [tryAcquire_of_conflict m root holder pid note ttl hcheck]
    exact Admits.of_subset fun _ _ h => h

/-- A live row outlives a batch request. -/
theorem tryAcquire_survives (d : Data) (paths : List String) {k : String} {e : LockEntry}
    (hkey : k = keyFor e.root e.path) (hrow : d.Row k e) (hlive : Live m e) :
    ∃ e', (d.tryAcquire m root paths holder pid note ttl).1.Row k e' ∧ SameClaim e e' := by
  by_cases hcheck : d.check m root paths holder = []
  · rw [tryAcquire_of_clean m root holder pid note ttl hcheck]
    exact survives_foldl_acquireOne m root holder pid note ttl paths _ hkey
      ⟨e, hrow, ⟨rfl, rfl, rfl⟩, Or.inl hlive⟩
  · rw [tryAcquire_of_conflict m root holder pid note ttl hcheck]
    exact ⟨e, hrow, rfl, rfl, rfl⟩

end Acquire

section Write

variable (m : Moment) (root : Root) (path writer : String) (pid : Option ℕ) (note : Option String) (ttl : ℕ)

/-- The registry with the overlapping live rows renewed. -/
def renewed (d : Data) : Data :=
  ⟨d.locks.map fun _ e => if concerns m root path e then { e with ts := m.now } else e⟩

/-- The rows a write renews are the live ones that overlap its path. -/
theorem concerns_iff {e : LockEntry} :
    concerns m root path e = true ↔ e.root = root ∧ Live m e ∧ Overlap e.path path := by
  simp [concerns, Live, pathsOverlap_iff, and_assoc]

/-- Renewal changes leases only. -/
theorem row_renewed {d : Data} {k : String} {e' : LockEntry} :
    (d.renewed m root path).Row k e' ↔
      ∃ e, d.Row k e ∧ e' = if concerns m root path e then { e with ts := m.now } else e := by
  simp only [Row, renewed, ExtTreeMap.getElem?_map, Option.map_eq_some_iff, eq_comm (a := e')]

/-- A row before and after renewal. -/
theorem renewed_row {m : Moment} {root : Root} {path : String} {e : LockEntry} :
    Renewed m e (if concerns m root path e then { e with ts := m.now } else e) := by
  split
  · rename_i h
    exact Or.inr ⟨((concerns_iff m root path).mp h).2.1, rfl⟩
  · exact Or.inl rfl

/-- The three answers to a write and the registry each leaves. -/
theorem decideWrite_cases (d : Data) :
    (d.writeBlockers m root path writer ≠ [] ∧
      d.decideWrite m root path writer pid note ttl = (d, .denied (d.writeBlockers m root path writer))) ∨
    (d.writeBlockers m root path writer = [] ∧
      (∃ k e, d.Row k e ∧ concerns m root path e = true ∧ coversChildren e.path path = true) ∧
      d.decideWrite m root path writer pid note ttl = (d.renewed m root path, .allowedByOwnership)) ∨
    (d.writeBlockers m root path writer = [] ∧
      (∀ k e, d.Row k e → concerns m root path e = true → coversChildren e.path path = false) ∧
      d.decideWrite m root path writer pid note ttl =
        (⟨(d.renewed m root path).locks.insert (keyFor root path)
          (ownRow m root writer pid note ttl path)⟩, .acquired)) := by
  by_cases hblock : d.writeBlockers m root path writer = []
  · right
    by_cases hcov : ((rows d.locks).any fun e => concerns m root path e && coversChildren e.path path) = true
    · refine Or.inl ⟨hblock, ?_, by simp [decideWrite, hblock, hcov, renewed]⟩
      simp only [List.any_eq_true, mem_rows, Bool.and_eq_true] at hcov
      obtain ⟨e, ⟨k, hk⟩, hconcerns, hcovers⟩ := hcov
      exact ⟨k, e, hk, hconcerns, hcovers⟩
    · refine Or.inr ⟨hblock, fun k e hk hconcerns => ?_, ?_⟩
      · by_contra hcovers
        rw [Bool.not_eq_false] at hcovers
        exact hcov (List.any_eq_true.mpr ⟨e, mem_rows.mpr ⟨k, hk⟩, by simp [hconcerns, hcovers]⟩)
      · rw [Bool.not_eq_true] at hcov
        simp [decideWrite, hblock, hcov, renewed, ownRow]
  · exact Or.inl ⟨hblock, by simp [decideWrite, hblock]⟩

/-- A write admits only rows that nothing obstructs. -/
theorem decideWrite_admits (d : Data) :
    Admits m d (d.decideWrite m root path writer pid note ttl).1 := by
  rcases decideWrite_cases m root path writer pid note ttl d with
    ⟨_, hd⟩ | ⟨_, _, hd⟩ | ⟨hblock, _, hd⟩ <;> rw [hd]
  · exact Admits.of_subset fun _ _ h => h
  · refine ⟨"", fun k e' hrow => Or.inl ?_⟩
    obtain ⟨e, he, rfl⟩ := (row_renewed m root path).mp hrow
    exact ⟨e, he, renewed_row⟩
  · refine ⟨writer, fun k e' hrow => ?_⟩
    rw [Row, getElem?_insert_eq] at hrow
    split at hrow
    · rename_i hk
      obtain rfl := Option.some.inj hrow
      refine Or.inr ⟨rfl, hk.symm, fun k e he hlive hroot hover => Or.inl ?_⟩
      exact writeBlockers_eq_nil_iff.mp hblock k e he hlive hroot hover
    · obtain ⟨e, he, rfl⟩ := (row_renewed m root path).mp hrow
      exact Or.inl ⟨e, he, renewed_row⟩

/-- A row after a write was there before, perhaps renewed, or is the one the write made. -/
theorem row_decideWrite {d : Data} {k : String} {e' : LockEntry}
    (h : (d.decideWrite m root path writer pid note ttl).1.Row k e') :
    (∃ e, d.Row k e ∧ Renewed m e e') ∨ e' = ownRow m root writer pid note ttl path := by
  have hold : (d.renewed m root path).Row k e' → ∃ e, d.Row k e ∧ Renewed m e e' := fun hrow => by
    obtain ⟨e, he, rfl⟩ := (row_renewed m root path).mp hrow
    exact ⟨e, he, renewed_row⟩
  rcases decideWrite_cases m root path writer pid note ttl d with
    ⟨_, hd⟩ | ⟨_, _, hd⟩ | ⟨_, _, hd⟩ <;> rw [hd] at h
  · exact Or.inl ⟨e', h, Or.inl rfl⟩
  · exact Or.inl (hold h)
  · rw [Row, getElem?_insert_eq] at h
    split at h
    · exact Or.inr (Option.some.inj h).symm
    · exact Or.inl (hold h)

/-- A live row outlives a write, its lease renewed or left alone: under the path's own key it would have
covered the write. -/
theorem decideWrite_renews (d : Data) {k : String} {e : LockEntry}
    (hkey : k = keyFor e.root e.path) (hrow : d.Row k e) (hlive : Live m e) :
    ∃ e', (d.decideWrite m root path writer pid note ttl).1.Row k e' ∧ Renewed m e e' := by
  have hren : ∃ e', (d.renewed m root path).Row k e' ∧ Renewed m e e' :=
    ⟨_, (row_renewed m root path).mpr ⟨e, hrow, rfl⟩, renewed_row⟩
  rcases decideWrite_cases m root path writer pid note ttl d with
    ⟨_, hd⟩ | ⟨_, _, hd⟩ | ⟨_, huncov, hd⟩ <;> rw [hd]
  · exact ⟨e, hrow, Or.inl rfl⟩
  · exact hren
  · have hne : keyFor root path ≠ k := by
      intro heq
      obtain ⟨hroot, hpath⟩ := keyFor_injective (heq.trans hkey)
      have hself : Overlap e.path path := Or.inr (Or.inr (hpath ▸ OnOneLine.refl '/' _))
      have huncovered := huncov k e hrow ((concerns_iff m root path).mpr ⟨hroot.symm, hlive, hself⟩)
      have hcov : coversChildren e.path path = true :=
        coversChildren_iff.mpr (Or.inr (hpath ▸ AtOrAbove.refl '/' _))
      simp [hcov] at huncovered
    obtain ⟨e', he', hrenewed⟩ := hren
    exact ⟨e', by rw [Row, getElem?_insert_eq, if_neg hne]; exact he', hrenewed⟩

/-- A live row outlives a write as the same claim. -/
theorem decideWrite_survives (d : Data) {k : String} {e : LockEntry}
    (hkey : k = keyFor e.root e.path) (hrow : d.Row k e) (hlive : Live m e) :
    ∃ e', (d.decideWrite m root path writer pid note ttl).1.Row k e' ∧ SameClaim e e' := by
  obtain ⟨e', hrow', hren⟩ := decideWrite_renews m root path writer pid note ttl d hkey hrow hlive
  exact ⟨e', hrow', hren.same⟩

end Write

end Data

end Devkit.Locks
