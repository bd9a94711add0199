import Devkit.Locks.Model

/-!
# Rows before and after an operation

A row found after an operation was there before, perhaps with its lease renewed, or was
written by the one caller where no live row of another session line stood in the way.
Checks, prunes and releases are read off the rows here.

The tests the registry makes on strings decide relations on their segments: overlap of
two paths and ancestry of two holders. A claim above a path overlaps whatever overlaps the
path, which is what carries protection from a covering row to its neighbours.
-/

namespace Devkit.Locks

open Devkit.Common
open Devkit.Library
open Std

/-- The code's ancestry test on holders is ancestry of their segments. -/
theorem isAncestorOrSelf_iff {a b : String} : isAncestorOrSelf a b = true ↔ Ancestor a b :=
  eq_or_continues_iff

/-- The code's session-line test is the line of ancestry. -/
theorem onOneAncestryLine_iff {a b : String} : onOneAncestryLine a b = true ↔ OneLine a b := by
  simp only [onOneAncestryLine, Bool.or_eq_true, isAncestorOrSelf_iff]
  rfl

/-- Overlap of two paths: the project root, or one path an ancestor of the other. -/
def Overlap (a b : String) : Prop := a = "." ∨ b = "." ∨ OneLine a b

/-- Comparing by byte length first misses no overlap. -/
theorem pathsOverlap_iff {a b : String} : pathsOverlap a b = true ↔ Overlap a b := by
  have hline : OneLine a b ↔ a = b ∨ continues a b = true ∨ continues b a = true := by
    simp only [OneLine, OnOneLine, AtOrAbove, continues_iff, String.toList_inj]
    tauto
  unfold pathsOverlap Overlap
  rw [hline]
  by_cases hdot : a = b ∨ a = "." ∨ b = "."
  · have hcode : (a == b || a == "." || b == ".") = true := by simpa [or_assoc] using hdot
    simp only [hcode, if_true, true_iff]
    tauto
  · have hcode : ¬ (a == b || a == "." || b == ".") = true := by simpa [or_assoc] using hdot
    simp only [hcode]
    by_cases hlen : a.utf8ByteSize ≤ b.utf8ByteSize
    · have hba : ¬ continues b a = true := fun h => by
        have := utf8ByteSize_lt_of_continues h
        omega
      simp only [hlen, if_true]
      tauto
    · have hab : ¬ continues a b = true := fun h => by
        have := utf8ByteSize_lt_of_continues h
        omega
      simp only [hlen, if_false]
      tauto

/-- A claim covering the children of a directory is the project root or above the directory. -/
theorem coversChildren_iff {claim dir : String} :
    coversChildren claim dir = true ↔ claim = "." ∨ Ancestor claim dir := by
  simp only [coversChildren, Bool.or_assoc, Bool.or_eq_true (claim == "."), beq_iff_eq,
    eq_or_continues_iff]

/-- A claim above a path overlaps every path that overlaps it. -/
theorem Overlap.of_covers {claim path other : String} (hcovers : claim = "." ∨ Ancestor claim path)
    (hover : Overlap path other) : Overlap claim other := by
  rcases hcovers with rfl | habove
  · exact Or.inl rfl
  rcases hover with hpath | hother | hline
  · -- Only the project root itself is above ".", since "." has no separator to continue past.
    subst hpath
    rcases habove with heq | ⟨rest, hrest⟩
    · exact Or.inl (String.toList_inj.mp heq)
    · have hmem : '/' ∈ (".": String).toList := by rw [← hrest]; simp
      simp at hmem
  · exact Or.inr (Or.inl hother)
  · exact Or.inr (Or.inr (AtOrAbove.onOneLine_of_onOneLine habove hline))

/-- Overlap does not depend on the order of the paths. -/
theorem Overlap.symm {a b : String} (h : Overlap a b) : Overlap b a := by
  rcases h with h | h | h
  · exact Or.inr (Or.inl h)
  · exact Or.inl h
  · exact Or.inr (Or.inr h.symm)

/-- A root holds no NUL, so a key names its root and path. -/
theorem keyFor_injective {root root' : Root} {path path' : String}
    (h : keyFor root path = keyFor root' path') : root = root' ∧ path = path' := by
  have hlist : root.text.toList ++ '\x00' :: path.toList = root'.text.toList ++ '\x00' :: path'.toList := by
    have := congrArg String.toList h
    simpa [keyFor] using this
  obtain ⟨htext, hpath⟩ := append_sep_inj root.noNul root'.noNul hlist
  refine ⟨?_, String.toList_inj.mp hpath⟩
  cases root
  cases root'
  simpa using String.toList_inj.mp htext

/-- The registry holds this row under this key. -/
def Data.Row (d : Data) (key : String) (e : LockEntry) : Prop := d.locks[key]? = some e

instance (d : Data) (key : String) (e : LockEntry) : Decidable (d.Row key e) :=
  inferInstanceAs (Decidable (d.locks[key]? = some e))

/-- A key holds one row. -/
theorem Data.Row.unique {d : Data} {key : String} {e e' : LockEntry} (h : d.Row key e)
    (h' : d.Row key e') : e = e' :=
  Option.some.inj (h.symm.trans h')

/-- The row is live: its lease has not lapsed and its anchor process is not known dead. -/
def Live (m : Moment) (e : LockEntry) : Prop := entryDead m e = false

instance (m : Moment) (e : LockEntry) : Decidable (Live m e) :=
  inferInstanceAs (Decidable (entryDead m e = false))

/-- The row before and after an operation: untouched, or live and stamped with the current time. -/
def Renewed (m : Moment) (e e' : LockEntry) : Prop := e' = e ∨ Live m e ∧ e' = { e with ts := m.now }

/-- Renewing twice in one moment is renewing once. -/
theorem Renewed.trans {m : Moment} {e₁ e₂ e₃ : LockEntry} (h₁ : Renewed m e₁ e₂)
    (h₂ : Renewed m e₂ e₃) : Renewed m e₁ e₃ := by
  rcases h₁ with rfl | ⟨hlive, rfl⟩
  · exact h₂
  · rcases h₂ with rfl | ⟨_, rfl⟩
    · exact Or.inr ⟨hlive, rfl⟩
    · exact Or.inr ⟨hlive, rfl⟩

/-- The same claim: one root, path and holder, whatever its lease. -/
def SameClaim (e e' : LockEntry) : Prop := e'.root = e.root ∧ e'.path = e.path ∧ e'.holder = e.holder

/-- A renewed row is the same claim. -/
theorem Renewed.same {m : Moment} {e e' : LockEntry} (h : Renewed m e e') : SameClaim e e' := by
  rcases h with rfl | ⟨_, rfl⟩ <;> exact ⟨rfl, rfl, rfl⟩

/-- Stamping a live row with the current time leaves it live. -/
theorem Live.stamp {m : Moment} {e : LockEntry} (h : Live m e) : Live m { e with ts := m.now } := by
  have hfresh : (e.ttl != 0 && decide (e.ttl ≤ m.now - m.now)) = false := by simp
  unfold Live entryDead at h
  simp only [Live, entryDead, hfresh]
  split at h
  · exact absurd h (by simp)
  · exact h

/-- A renewed row was live before exactly if it is live now. -/
theorem Renewed.live_of_live {m : Moment} {e e' : LockEntry} (h : Renewed m e e') (hlive : Live m e') :
    Live m e := by
  rcases h with rfl | ⟨h, _⟩
  · exact hlive
  · exact h

/-- No live row of another session line overlaps the new one. -/
def Unobstructed (m : Moment) (d : Data) (new : LockEntry) : Prop :=
  ∀ k e, d.Row k e → Live m e → e.root = new.root → Overlap e.path new.path →
    OneLine e.holder new.holder

/-- Where the rows after an operation come from: an old row, possibly renewed, or a row of
the one caller that nothing obstructed. -/
def Admits (m : Moment) (d d' : Data) : Prop :=
  ∃ holder, ∀ k e', d'.Row k e' →
    (∃ e, d.Row k e ∧ Renewed m e e') ∨
      e'.holder = holder ∧ k = keyFor e'.root e'.path ∧ Unobstructed m d e'

/-- An operation that only removes rows admits nothing new. -/
theorem Admits.of_subset {m : Moment} {d d' : Data}
    (h : ∀ k e, d'.Row k e → d.Row k e) : Admits m d d' :=
  ⟨"", fun k e hk => Or.inl ⟨e, h k e hk, Or.inl rfl⟩⟩

namespace Data

/-- Pruning keeps exactly the live rows. -/
theorem row_pruneDead (m : Moment) (d : Data) (k : String) (e : LockEntry) :
    (d.pruneDead m).1.Row k e ↔ d.Row k e ∧ Live m e := by
  simp only [Row, pruneDead, getElem?_filter_eq_some, Bool.not_eq_true', Live]

/-- A clean check says no live row of another line overlaps any requested path. -/
theorem check_eq_nil_iff {m : Moment} {d : Data} {root : Root} {paths : List String} {holder : String} :
    d.check m root paths holder = [] ↔
      ∀ req ∈ paths, ∀ k e, d.Row k e → Live m e → e.root = root → Overlap e.path req →
        OneLine e.holder holder := by
  simp only [check, List.flatMap_eq_nil_iff, List.filterMap_eq_nil_iff, mem_rows]
  refine forall₂_congr fun req _ => ?_
  constructor
  · intro h k e hk hlive hroot hover
    have he := h e ⟨k, hk⟩
    by_contra hline
    have hline' : onOneAncestryLine e.holder holder = false :=
      Bool.eq_false_iff.mpr fun h => hline (onOneAncestryLine_iff.mp h)
    rw [Live] at hlive
    simp [hroot, hline', hlive, pathsOverlap_iff.mpr hover] at he
  · rintro h e ⟨k, hk⟩
    refine if_neg fun hcond => ?_
    simp only [Bool.and_eq_true, beq_iff_eq, Bool.not_eq_true'] at hcond
    obtain ⟨⟨⟨hroot, hline⟩, hlive⟩, hover⟩ := hcond
    have hon := onOneAncestryLine_iff.mpr (h k e hk hlive hroot (pathsOverlap_iff.mp hover))
    simp [hon] at hline

/-- No write blockers means every live overlapping row belongs to the writer or an ancestor. -/
theorem writeBlockers_eq_nil_iff {m : Moment} {d : Data} {root : Root} {path writer : String} :
    d.writeBlockers m root path writer = [] ↔
      ∀ k e, d.Row k e → Live m e → e.root = root → Overlap e.path path →
        Ancestor e.holder writer := by
  simp only [writeBlockers, List.filterMap_eq_nil_iff, mem_rows]
  constructor
  · intro h k e hk hlive hroot hover
    have he := h e ⟨k, hk⟩
    by_contra hanc
    have hanc' : isAncestorOrSelf e.holder writer = false :=
      Bool.eq_false_iff.mpr fun h => hanc (isAncestorOrSelf_iff.mp h)
    rw [Live] at hlive
    simp [hroot, hanc', hlive, pathsOverlap_iff.mpr hover] at he
  · rintro h e ⟨k, hk⟩
    refine if_neg fun hcond => ?_
    simp only [Bool.and_eq_true, beq_iff_eq, Bool.not_eq_true'] at hcond
    obtain ⟨⟨⟨hroot, hlive⟩, hover⟩, hanc⟩ := hcond
    have hon := isAncestorOrSelf_iff.mpr (h k e hk hlive hroot (pathsOverlap_iff.mp hover))
    simp [hon] at hanc

section Release

/-- Releasing one path removes at most the row under its key. -/
theorem row_of_row_releaseOne {root : Root} {holder : String} {force : Bool}
    {state : Data × List String × List Refusal} {req k : String} {e : LockEntry}
    (h : (releaseOne root holder force state req).1.Row k e) : state.1.Row k e := by
  obtain ⟨d, released, refused⟩ := state
  unfold releaseOne at h
  dsimp only at h
  split at h
  · split at h
    · rw [Row, getElem?_erase_eq] at h
      split at h
      · contradiction
      · exact h
    · exact h
  · exact h

/-- A release only removes rows. -/
theorem row_of_row_doRelease {d : Data} {root : Root} {paths : List String} {holder : String}
    {force : Bool} {k : String} {e : LockEntry}
    (h : (d.doRelease root paths holder force).1.Row k e) : d.Row k e :=
  List.foldlRecOn (motive := fun state => state.1.Row k e → d.Row k e) paths
    (releaseOne root holder force) id
    (fun _ ih _ _ hrow => ih (row_of_row_releaseOne hrow)) h

/-- Releasing a holder keeps exactly the rows of the others. -/
theorem row_releaseAll {d : Data} {holder k : String} {e : LockEntry} :
    (d.releaseAll holder).1.Row k e ↔ d.Row k e ∧ e.holder ≠ holder := by
  simp [Row, releaseAll]

/-- Releasing a holder tree keeps exactly the rows outside it. -/
theorem row_releasePrefix {d : Data} {top k : String} {e : LockEntry} :
    (d.releasePrefix top).1.Row k e ↔ d.Row k e ∧ ¬ Ancestor top e.holder := by
  have hmem : k ∈ (d.locks.toList.filter fun row => isAncestorOrSelf top row.2.holder).map Prod.fst ↔
      ∃ e, d.Row k e ∧ Ancestor top e.holder := by
    simp only [List.mem_map, List.mem_filter, Prod.exists, isAncestorOrSelf_iff, Row,
      ExtTreeMap.mem_toList_iff_getElem?_eq_some]
    constructor
    · rintro ⟨k', e, ⟨hrow, hanc⟩, rfl⟩
      exact ⟨e, hrow, hanc⟩
    · rintro ⟨e, hrow, hanc⟩
      exact ⟨k, e, ⟨hrow, hanc⟩, rfl⟩
  simp only [Row, releasePrefix, getElem?_eraseAll_eq_some, hmem, and_comm (a := ¬ _)]
  refine and_congr_right fun hrow => not_congr ⟨?_, fun hanc => ⟨e, hrow, hanc⟩⟩
  rintro ⟨e₀, hrow₀, hanc⟩
  exact Row.unique hrow hrow₀ ▸ hanc

end Release

end Data

end Devkit.Locks
