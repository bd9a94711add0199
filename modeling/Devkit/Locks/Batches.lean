import Devkit.Locks.Exclusion

/-!
# Batches are all or nothing

A batch either changes nothing or leaves a row under the key of every path it names. Only
those keys are touched: a live row of another holder found there is stamped and otherwise
kept, and everything else there becomes the requester's own row. A path named twice finds
the row its first mention left, which is why the answer splits the paths by one test.
-/

namespace Devkit.Locks

open Devkit.Common
open Devkit.Library
open Std

namespace Data

section Batch

variable (m : Moment) (root : Root) (holder : String) (pid : Option ℕ) (note : Option String) (ttl : ℕ)

/-- The row found under a requested key is a live one of another holder. -/
def keeps (found : Option LockEntry) : Bool := found.any fun e => e.holder != holder && !entryDead m e

/-- The row a granted batch leaves under the key of a requested path. -/
def rowLeft (req : String) (found : Option LockEntry) : LockEntry :=
  match found with
  | some e => if e.holder ≠ holder ∧ Live m e then { e with ts := m.now } else ownRow m root holder pid note ttl req
  | none => ownRow m root holder pid note ttl req

/-- A found row is kept when it is live and of another holder. -/
theorem keeps_some {e : LockEntry} : keeps m holder (some e) = true ↔ e.holder ≠ holder ∧ Live m e := by
  simp [keeps, Live]

/-- What is kept is a live row of another holder. -/
theorem exists_of_keeps {found : Option LockEntry} (h : keeps m holder found = true) :
    ∃ e, found = some e ∧ e.holder ≠ holder ∧ Live m e := by
  cases found with
  | none => contradiction
  | some e => exact ⟨e, rfl, (keeps_some m holder).mp h⟩

/-- A row that is kept is only stamped. -/
theorem rowLeft_of_keeps {req : String} {e : LockEntry} (hholder : e.holder ≠ holder) (hlive : Live m e) :
    rowLeft m root holder pid note ttl req (some e) = { e with ts := m.now } :=
  if_pos ⟨hholder, hlive⟩

/-- Anything that is not kept becomes the requester's own row. -/
theorem rowLeft_of_not_keeps {req : String} {found : Option LockEntry} (h : keeps m holder found = false) :
    rowLeft m root holder pid note ttl req found = ownRow m root holder pid note ttl req := by
  cases found with
  | none => rfl
  | some e => exact if_neg fun hkeep => by simp [(keeps_some m holder).mpr hkeep] at h

/-- The row a path left is kept exactly if the row it found was. -/
theorem keeps_rowLeft (req : String) (found : Option LockEntry) :
    keeps m holder (some (rowLeft m root holder pid note ttl req found)) = keeps m holder found := by
  cases hkeep : keeps m holder found with
  | false =>
    rw [rowLeft_of_not_keeps m root holder pid note ttl hkeep]
    simp [keeps, ownRow]
  | true =>
    obtain ⟨e, rfl, hholder, hlive⟩ := exists_of_keeps m holder hkeep
    rw [rowLeft_of_keeps m root holder pid note ttl hholder hlive]
    exact (keeps_some m holder).mpr ⟨hholder, hlive.stamp⟩

/-- A path named twice leaves what its first mention left. -/
theorem rowLeft_rowLeft (req : String) (found : Option LockEntry) :
    rowLeft m root holder pid note ttl req (some (rowLeft m root holder pid note ttl req found)) =
      rowLeft m root holder pid note ttl req found := by
  cases hkeep : keeps m holder found with
  | false =>
    have hagain := (keeps_rowLeft m root holder pid note ttl req found).trans hkeep
    rw [rowLeft_of_not_keeps m root holder pid note ttl hagain,
      rowLeft_of_not_keeps m root holder pid note ttl hkeep]
  | true =>
    obtain ⟨e, rfl, hholder, hlive⟩ := exists_of_keeps m holder hkeep
    rw [rowLeft_of_keeps m root holder pid note ttl hholder hlive]
    exact rowLeft_of_keeps m root holder pid note ttl (e := { e with ts := m.now }) hholder hlive.stamp

/-- One path leaves its row under its own key and touches no other. -/
theorem locks_acquireOne_eq (state : Data × List Acquired × List AlreadyHeld) (req k : String) :
    (acquireOne m root holder pid note ttl state req).1.locks[k]? =
      if keyFor root req = k then some (rowLeft m root holder pid note ttl req state.1.locks[k]?)
      else state.1.locks[k]? := by
  rw [locks_acquireOne]
  split
  · cases hfound : state.1.locks[k]? with
    | none => rfl
    | some e =>
      simp only [rowLeft]
      split <;> rfl
  · rfl

/-- A batch touches only the keys of the paths it names. -/
theorem locks_foldl_of_not_requested (paths : List String)
    (state : Data × List Acquired × List AlreadyHeld) {k : String}
    (h : ∀ req ∈ paths, keyFor root req ≠ k) :
    (paths.foldl (acquireOne m root holder pid note ttl) state).1.locks[k]? = state.1.locks[k]? := by
  induction paths generalizing state with
  | nil => rfl
  | cons req rest ih =>
    rw [List.foldl_cons, ih _ fun other hother => h other (List.mem_cons_of_mem _ hother),
      locks_acquireOne_eq, if_neg (h req List.mem_cons_self)]

/-- A batch leaves one row under the key of each path it names, whatever else it names. -/
theorem locks_foldl_of_requested (paths : List String)
    (state : Data × List Acquired × List AlreadyHeld) {req : String} (h : req ∈ paths) :
    (paths.foldl (acquireOne m root holder pid note ttl) state).1.locks[keyFor root req]? =
      some (rowLeft m root holder pid note ttl req state.1.locks[keyFor root req]?) := by
  induction paths generalizing state with
  | nil => simp at h
  | cons first rest ih =>
    rw [List.foldl_cons]
    by_cases hrest : req ∈ rest
    · rw [ih _ hrest, locks_acquireOne_eq]
      split
      · rename_i hkey
        obtain ⟨_, rfl⟩ := keyFor_injective hkey
        rw [rowLeft_rowLeft]
      · rfl
    · obtain rfl : req = first := (List.mem_cons.mp h).resolve_right hrest
      rw [locks_foldl_of_not_requested, locks_acquireOne_eq, if_pos rfl]
      intro other hother hkey
      exact hrest ((keyFor_injective hkey).2 ▸ hother)

/-- What one path adds to the answer. -/
theorem answer_acquireOne (state : Data × List Acquired × List AlreadyHeld) (req : String) :
    ((acquireOne m root holder pid note ttl state req).2.1.map (·.path),
      (acquireOne m root holder pid note ttl state req).2.2.map (·.path)) =
    if keeps m holder state.1.locks[keyFor root req]? then
      (state.2.1.map (·.path), state.2.2.map (·.path) ++ [req])
    else (state.2.1.map (·.path) ++ [req], state.2.2.map (·.path)) := by
  obtain ⟨d, acquired, alreadyHeld⟩ := state
  cases hfound : d.locks[keyFor root req]? with
  | none => simp [acquireOne, hfound, keeps]
  | some e =>
    simp only [acquireOne, hfound, keeps, Option.any_some]
    split
    · rename_i hkeep
      simp only [hkeep, if_true, List.map_append, List.map_cons, List.map_nil]
    · rename_i hown
      simp only [hown, Bool.false_eq_true, if_false, List.map_append, List.map_cons, List.map_nil]

/-- A path of the batch is kept or not whichever other paths were treated first. -/
theorem keeps_acquireOne (state : Data × List Acquired × List AlreadyHeld) (req other : String) :
    keeps m holder (acquireOne m root holder pid note ttl state req).1.locks[keyFor root other]? =
      keeps m holder state.1.locks[keyFor root other]? := by
  rw [locks_acquireOne_eq]
  split
  · exact keeps_rowLeft m root holder pid note ttl req _
  · rfl

/-- The answer of a batch splits its paths, in order, by whether their row is kept. -/
theorem answer_foldl (paths : List String) (state : Data × List Acquired × List AlreadyHeld) :
    ((paths.foldl (acquireOne m root holder pid note ttl) state).2.1.map (·.path),
      (paths.foldl (acquireOne m root holder pid note ttl) state).2.2.map (·.path)) =
    (state.2.1.map (·.path) ++ paths.filter (fun req => !keeps m holder state.1.locks[keyFor root req]?),
      state.2.2.map (·.path) ++ paths.filter (fun req => keeps m holder state.1.locks[keyFor root req]?)) := by
  induction paths generalizing state with
  | nil => simp
  | cons req rest ih =>
    have hanswer := answer_acquireOne m root holder pid note ttl state req
    rw [List.foldl_cons, ih]
    simp only [keeps_acquireOne]
    cases hkeep : keeps m holder state.1.locks[keyFor root req]? with
    | false =>
      simp only [hkeep, Bool.false_eq_true, if_false, Prod.mk.injEq] at hanswer
      simp [hanswer, hkeep]
    | true =>
      simp only [hkeep, if_true, Prod.mk.injEq] at hanswer
      simp [hanswer, hkeep]

/-- What a batch that met no conflict leaves and answers. -/
structure Granted (paths : List String) (d d' : Data) (out : AcquireOutcome) : Prop where
  /-- Every path has a row of the requester's line, live unless the requester's own anchor is gone. -/
  covered : Keyed d → ∀ req ∈ paths, ∃ e, d'.Row (keyFor root req) e ∧ e.root = root ∧ e.path = req ∧
    OneLine e.holder holder ∧
    (Live m e ∨ e = ownRow m root holder pid note ttl req ∧ ∃ p, pid = some p ∧ m.pidAlive p = false)
  /-- Rows under other keys stay as they were. -/
  untouched : ∀ k, (∀ req ∈ paths, keyFor root req ≠ k) → d'.locks[k]? = d.locks[k]?
  /-- A live row of another holder at a requested path is stamped, and nothing else about it changes. -/
  stamped : ∀ req ∈ paths, ∀ e, d.Row (keyFor root req) e → e.holder ≠ holder → Live m e →
    d'.Row (keyFor root req) { e with ts := m.now }
  /-- A path with no such row gets the requester's own. -/
  written : ∀ req ∈ paths, (∀ e, d.Row (keyFor root req) e → e.holder ≠ holder → ¬ Live m e) →
    d'.Row (keyFor root req) (ownRow m root holder pid note ttl req)
  /-- The two lists of the answer split the requested paths, in their order. -/
  answered : ∃ held : String → Bool, out.alreadyHeld.map (·.path) = paths.filter held ∧
    out.acquired.map (·.path) = paths.filter fun req => !held req

/-- The requester's new row is live unless its anchor process is gone. -/
theorem ownRow_live_or (req : String) :
    Live m (ownRow m root holder pid note ttl req) ∨ ∃ p, pid = some p ∧ m.pidAlive p = false := by
  cases pid with
  | none => simp [Live, entryDead, ownRow]
  | some p => cases halive : m.pidAlive p <;> simp [Live, entryDead, ownRow, halive]

/-- A row found where none was kept is not a live one of another holder. -/
theorem keeps_eq_false {found : Option LockEntry}
    (h : ∀ e, found = some e → e.holder ≠ holder → ¬ Live m e) : keeps m holder found = false := by
  cases found with
  | none => rfl
  | some e =>
    refine Bool.eq_false_iff.mpr fun hkeep => ?_
    obtain ⟨hholder, hlive⟩ := (keeps_some m holder).mp hkeep
    exact h e rfl hholder hlive

/-- A batch that met no conflict grants every path. -/
theorem granted_foldl {d : Data} {paths : List String} (hcheck : d.check m root paths holder = []) :
    Granted m root holder pid note ttl paths d
      (paths.foldl (acquireOne m root holder pid note ttl) (d, [], [])).1
      ⟨(paths.foldl (acquireOne m root holder pid note ttl) (d, [], [])).2.1,
        (paths.foldl (acquireOne m root holder pid note ttl) (d, [], [])).2.2, []⟩ where
  covered := by
    intro hkeyed req hreq
    refine ⟨_, locks_foldl_of_requested m root holder pid note ttl paths (d, [], []) hreq, ?_⟩
    cases hkeep : keeps m holder d.locks[keyFor root req]? with
    | false =>
      rw [rowLeft_of_not_keeps m root holder pid note ttl hkeep]
      refine ⟨rfl, rfl, OnOneLine.refl '/' _, ?_⟩
      exact (ownRow_live_or m root holder pid note ttl req).imp_right fun hgone => ⟨rfl, hgone⟩
    | true =>
      obtain ⟨e, hfound⟩ : ∃ e, d.locks[keyFor root req]? = some e := by
        cases hfound : d.locks[keyFor root req]? with
        | none => simp [hfound, keeps] at hkeep
        | some e => exact ⟨e, rfl⟩
      rw [hfound] at hkeep
      obtain ⟨hholder, hlive⟩ := (keeps_some m holder).mp hkeep
      obtain ⟨hroot, hpath⟩ := keyFor_injective (hkeyed _ e hfound)
      rw [hfound, rowLeft_of_keeps m root holder pid note ttl hholder hlive]
      refine ⟨hroot.symm, hpath.symm, ?_, Or.inl hlive.stamp⟩
      -- The row overlaps the very path it is filed under, so the clean check puts it on the line.
      refine check_eq_nil_iff.mp hcheck req hreq _ e hfound hlive hroot.symm ?_
      exact Or.inr (Or.inr (hpath ▸ OnOneLine.refl '/' _))
  untouched k hk := locks_foldl_of_not_requested m root holder pid note ttl paths (d, [], []) hk
  stamped req hreq e hrow hholder hlive := by
    have hleft := locks_foldl_of_requested m root holder pid note ttl paths (d, [], []) hreq
    rw [Row] at hrow ⊢
    rw [hleft, hrow, rowLeft_of_keeps m root holder pid note ttl hholder hlive]
  written req hreq hnone := by
    have hleft := locks_foldl_of_requested m root holder pid note ttl paths (d, [], []) hreq
    rw [Row, hleft, rowLeft_of_not_keeps m root holder pid note ttl (keeps_eq_false m holder hnone)]
  answered := by
    have hanswer := answer_foldl m root holder pid note ttl paths (d, [], [])
    simp only [List.map_nil, List.nil_append, Prod.mk.injEq] at hanswer
    exact ⟨fun req => keeps m holder d.locks[keyFor root req]?, hanswer.2, hanswer.1⟩

/-- A batch with a conflict changes nothing and grants nothing; any other grants every path. -/
theorem tryAcquire_all_or_nothing (d : Data) (paths : List String) :
    ((d.tryAcquire m root paths holder pid note ttl).2.conflicts ≠ [] →
      (d.tryAcquire m root paths holder pid note ttl).1 = d ∧
      (d.tryAcquire m root paths holder pid note ttl).2.acquired = [] ∧
      (d.tryAcquire m root paths holder pid note ttl).2.alreadyHeld = []) ∧
    ((d.tryAcquire m root paths holder pid note ttl).2.conflicts = [] →
      Granted m root holder pid note ttl paths d (d.tryAcquire m root paths holder pid note ttl).1
        (d.tryAcquire m root paths holder pid note ttl).2) := by
  by_cases hcheck : d.check m root paths holder = []
  · have hclean : d.tryAcquire m root paths holder pid note ttl =
        ((paths.foldl (acquireOne m root holder pid note ttl) (d, [], [])).1,
          ⟨(paths.foldl (acquireOne m root holder pid note ttl) (d, [], [])).2.1,
            (paths.foldl (acquireOne m root holder pid note ttl) (d, [], [])).2.2, []⟩) := by
      simp [tryAcquire, hcheck]
    rw [hclean]
    exact ⟨fun hconflict => absurd rfl hconflict, fun _ => granted_foldl m root holder pid note ttl hcheck⟩
  · rw [tryAcquire_of_conflict m root holder pid note ttl hcheck]
    exact ⟨fun _ => ⟨rfl, rfl, rfl⟩, fun hclean => absurd hclean hcheck⟩

end Batch

section Example

/-- A registry of one row. -/
def oneRow (key : String) (e : LockEntry) : Data := ⟨(∅ : ExtTreeMap String LockEntry).insert key e⟩

/-- A session's row for a directory, taken at ten with a lease of a minute. -/
def sessionRow : LockEntry := ⟨"src", sampleRoot, "s", some 3, some "mine", 10, 60⟩

/-- An agent's batch names its session's directory and, twice, a file of its own below it. -/
theorem tryAcquire_all_or_nothing_sample :
    ((oneRow (keyFor sampleRoot "src") sessionRow).tryAcquire (allAlive 20) sampleRoot
      ["src/a.rs", "src", "src/a.rs"] "s/agent" none none 0).1.Row (keyFor sampleRoot "src")
        { sessionRow with ts := 20 } := by
  have hgranted := (tryAcquire_all_or_nothing (allAlive 20) sampleRoot "s/agent" none none 0
    (oneRow (keyFor sampleRoot "src") sessionRow) ["src/a.rs", "src", "src/a.rs"]).2 (by decide +kernel)
  exact hgranted.stamped "src" (by decide) sessionRow (by decide +kernel) (by decide) (by decide)

/-- Four batches without a conflict that do more to the rows at a requested path than cover it: an agent's
stamps its session's row, a stranger's replaces a lapsed row, a holder's second one drops its own note and
anchor, and one anchored to a process already gone covers nothing. Under a key that is not its own, a row
of another path stands in for the one asked for. -/
theorem tryAcquire_touches_rows :
    (let batch := (oneRow (keyFor sampleRoot "src") sessionRow).tryAcquire (allAlive 20) sampleRoot
      ["src"] "s/agent" none none 0
    batch.2.conflicts = [] ∧ ¬ batch.1.Row (keyFor sampleRoot "src") sessionRow) ∧
    (let batch := (oneRow (keyFor sampleRoot "src") sessionRow).tryAcquire (allAlive 90) sampleRoot
      ["src"] "t" none none 0
    batch.2.conflicts = [] ∧
      batch.1.Row (keyFor sampleRoot "src") ⟨"src", sampleRoot, "t", none, none, 90, 0⟩) ∧
    (let batch := (oneRow (keyFor sampleRoot "src") sessionRow).tryAcquire (allAlive 20) sampleRoot
      ["src"] "s" none none 60
    batch.2.conflicts = [] ∧
      batch.1.Row (keyFor sampleRoot "src") ⟨"src", sampleRoot, "s", none, none, 20, 60⟩) ∧
    (let batch := empty.tryAcquire ⟨20, fun _ => false⟩ sampleRoot ["src"] "s" (some 3) none 60
    batch.2.conflicts = [] ∧
      ∀ e ∈ rows batch.1.locks, ¬ Live ⟨20, fun _ => false⟩ e) ∧
    (let batch := (oneRow (keyFor sampleRoot "docs") sessionRow).tryAcquire (allAlive 20) sampleRoot
      ["docs"] "t" none none 60
    batch.2.conflicts = [] ∧ rows batch.1.locks = [{ sessionRow with ts := 20 }]) := by
  decide +kernel

end Example

end Data

end Devkit.Locks
