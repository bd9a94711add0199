import Devkit.Common.Path
import Mathlib.Data.List.Nodup

/-!
# The reference registry

A row records the checkout that a workspace resolved a library to, once for each workspace and library. Recording
it again counts its revision up; a row that was dropped and is recorded again starts anew. A prune reconciles the
registry with the rows it planned from, and takes a row of another revision for a fresher one.
-/

namespace Devkit.Docs

open Devkit.Common

/-- One reference: which checkout a workspace resolved a library to. -/
structure RefRow where
  project : String
  lib : String
  version : String
  gitRef : String
  commit : String
  resolvedAt : UInt64
  revision : UInt64
deriving DecidableEq

/-- What a row is recorded under. -/
def RefRow.key (row : RefRow) : String × String := (row.project, row.lib)

/-- The rows of a registry. -/
structure Data where
  rows : List RefRow

/-- What a resolve materialized. -/
structure Checkout where
  dirname : String
  gitRef : String
  commit : String
  timestamp : UInt64

/-- A row retargeted to another checkout. -/
def RefRow.retarget (row : RefRow) (checkout : Checkout) : RefRow :=
  { row with
    version := checkout.dirname, gitRef := checkout.gitRef, commit := checkout.commit,
    resolvedAt := checkout.timestamp, revision := row.revision + 1 }

/-- The first row of a workspace and library. -/
def newRow (workspace lib : String) (checkout : Checkout) : RefRow :=
  ⟨workspace, lib, checkout.dirname, checkout.gitRef, checkout.commit, checkout.timestamp, 0⟩

/-- Retarget the first row of the workspace and library, or add one. -/
def upsert (workspace lib : String) (checkout : Checkout) : List RefRow → List RefRow
  | [] => [newRow workspace lib checkout]
  | row :: rest =>
    if row.project = workspace ∧ row.lib = lib then row.retarget checkout :: rest
    else row :: upsert workspace lib checkout rest

/-- A path lies at or below another, component by component. -/
def startsWith (path base : OsStr) : Bool := (components base).isPrefixOf (components path)

namespace Data

variable (data : Data)

/-- Record the checkout of a workspace's library. -/
def recordAt (workspace lib : String) (checkout : Checkout) : Data := ⟨upsert workspace lib checkout data.rows⟩

/-- Drop the library's rows without an identity at the workspace and above. -/
def retireLegacy (workspace lib : String) : Data :=
  ⟨data.rows.filter fun row =>
    !(row.lib == lib && row.commit.isEmpty && startsWith (bytes workspace) (bytes row.project))⟩

/-- The row is the library's, under one of the projects. -/
def mine (projects : List OsStr) (lib : String) (row : RefRow) : Bool :=
  row.lib == lib && projects.any fun project => components (bytes row.project) == components project

/-- Drop the library's rows under any of the projects; the rows dropped. -/
def forget (projects : List OsStr) (lib : String) : Data × List RefRow :=
  (⟨data.rows.filter fun row => !mine projects lib row⟩, data.rows.filter (mine projects lib))

/-- The row a snapshot has under a key, the last if it has several. -/
def lastRow (key : String × String) : Option RefRow := data.rows.reverse.find? fun row => row.key == key

/-- Drop the rows that are as the snapshot has them and that the prune does not keep. -/
def reconcile (snapshot : Data) (keep : List RefRow) : Data :=
  ⟨data.rows.filter fun row =>
    match snapshot.lastRow row.key with
    | none => true
    | some old => (keep.any fun kept => kept.key == row.key) || row.revision != old.revision⟩

/-- One row for each workspace and library. -/
def Keyed : Prop := (data.rows.map RefRow.key).Nodup

end Data

/-- A change to the registry. -/
inductive Change
  | record (workspace lib : String) (checkout : Checkout)
  | forget (projects : List OsStr) (lib : String)
  | retireLegacy (workspace lib : String)

/-- The registry after a change. -/
def Data.step (data : Data) : Change → Data
  | .record workspace lib checkout => data.recordAt workspace lib checkout
  | .forget projects lib => (data.forget projects lib).1
  | .retireLegacy workspace lib => data.retireLegacy workspace lib

/-- The key a change records. -/
def Change.records : Change → Option (String × String)
  | .record workspace lib _ => some (workspace, lib)
  | .forget _ _ => none
  | .retireLegacy _ _ => none

namespace Data

variable {data : Data}

/-- A change that records nothing only drops rows. -/
theorem step_drops (data : Data) {change : Change} (h : change.records = none) :
    ∃ stays : RefRow → Bool, (data.step change).rows = data.rows.filter stays := by
  cases change with
  | record => cases h
  | forget projects lib => exact ⟨_, rfl⟩
  | retireLegacy workspace lib => exact ⟨_, rfl⟩

/-- A change that records makes or retargets the row of its key. -/
theorem step_records (data : Data) {change : Change} {key : String × String} (h : change.records = some key) :
    ∃ checkout, (data.step change).rows = upsert key.1 key.2 checkout data.rows := by
  cases change with
  | record workspace lib checkout =>
    obtain rfl := Option.some.inj h
    exact ⟨checkout, rfl⟩
  | forget => cases h
  | retireLegacy => cases h

/-- A row and the key it is compared with. -/
theorem key_eq_iff {row : RefRow} {key : String × String} : row.key = key ↔ row.project = key.1 ∧ row.lib = key.2 := by
  rw [RefRow.key, Prod.ext_iff]

end Data

section Upsert

variable {rows : List RefRow} {key : String × String} {checkout : Checkout}

/-- The keys after a record are those before and the one recorded. -/
theorem keys_upsert : (upsert key.1 key.2 checkout rows).map RefRow.key =
    if key ∈ rows.map RefRow.key then rows.map RefRow.key else rows.map RefRow.key ++ [key] := by
  induction rows with
  | nil => rfl
  | cons row rest ih =>
    rw [upsert]
    split
    · rename_i hsame
      have hin : key ∈ (row :: rest).map RefRow.key := List.mem_cons.mpr (Or.inl (Data.key_eq_iff.mpr hsame).symm)
      rw [if_pos hin]
      rfl
    · rename_i hother
      have hne : key ≠ row.key := fun heq => hother (Data.key_eq_iff.mp heq.symm)
      rw [List.map_cons, ih, List.map_cons]
      simp only [List.mem_cons, hne, false_or]
      split <;> rfl

/-- A row under another key is there after a record exactly when it was before. -/
theorem mem_upsert_of_ne {row : RefRow} (hne : row.key ≠ key) :
    row ∈ upsert key.1 key.2 checkout rows ↔ row ∈ rows := by
  induction rows with
  | nil =>
    refine iff_of_false (fun hmem => hne ?_) List.not_mem_nil
    rw [List.mem_singleton.mp hmem]
    rfl
  | cons first rest ih =>
    rw [upsert]
    split
    · rename_i hsame
      have hfirst : row ≠ first := fun heq => hne (heq ▸ Data.key_eq_iff.mpr hsame)
      have hnew : row ≠ first.retarget checkout := fun heq => hne (heq ▸ Data.key_eq_iff.mpr hsame)
      rw [List.mem_cons, List.mem_cons, or_iff_right hfirst, or_iff_right hnew]
    · rw [List.mem_cons, List.mem_cons, ih]

/-- The row of the key is retargeted, or made where there was none. -/
theorem mem_upsert (hkeys : (rows.map RefRow.key).Nodup) {row : RefRow} (hkey : row.key = key) :
    row ∈ upsert key.1 key.2 checkout rows ↔
      (∃ old ∈ rows, old.key = key ∧ row = old.retarget checkout) ∨
        (key ∉ rows.map RefRow.key ∧ row = newRow key.1 key.2 checkout) := by
  induction rows with
  | nil => simp [upsert]
  | cons first rest ih =>
    obtain ⟨hfirst, hrest⟩ := List.nodup_cons.mp hkeys
    rw [upsert]
    split
    · rename_i hsame
      obtain rfl := Data.key_eq_iff.mpr hsame
      constructor
      · intro hmem
        rcases List.mem_cons.mp hmem with rfl | hin
        · exact Or.inl ⟨first, List.mem_cons_self, rfl, rfl⟩
        · exact absurd (hkey ▸ List.mem_map_of_mem hin) hfirst
      · rintro (⟨old, hold, hsame', rfl⟩ | ⟨hnone, _⟩)
        · rcases List.mem_cons.mp hold with rfl | hin
          · exact List.mem_cons_self
          · exact absurd (hsame' ▸ List.mem_map_of_mem hin) hfirst
        · exact absurd List.mem_cons_self hnone
    · rename_i hother
      have hne : first.key ≠ key := fun heq => hother (Data.key_eq_iff.mp heq)
      have hrow : row ≠ first := fun heq => hne (heq ▸ hkey)
      rw [List.mem_cons, or_iff_right hrow, ih hrest, List.map_cons, List.mem_cons, or_iff_right hne.symm]
      refine or_congr_left ⟨fun ⟨old, hold, hrest⟩ => ⟨old, List.mem_cons_of_mem first hold, hrest⟩, ?_⟩
      rintro ⟨old, hold, hsame, heq⟩
      rcases List.mem_cons.mp hold with rfl | hin
      · exact absurd hsame hne
      · exact ⟨old, hin, hsame, heq⟩

end Upsert

/-- Every change keeps one row for each key. -/
theorem Data.Keyed.step {data : Data} (h : data.Keyed) (change : Change) : (data.step change).Keyed := by
  cases hrecords : change.records with
  | none =>
    obtain ⟨stays, hrows⟩ := step_drops data hrecords
    rw [Keyed, hrows]
    exact h.sublist (List.filter_sublist.map RefRow.key)
  | some key =>
    obtain ⟨checkout, hrows⟩ := step_records data hrecords
    rw [Keyed, hrows, keys_upsert]
    split
    · exact h
    · rename_i hnew
      exact List.nodup_append.mpr ⟨h, List.nodup_singleton key, fun a ha b hb heq =>
        hnew (List.mem_singleton.mp hb ▸ heq ▸ ha)⟩

end Devkit.Docs
