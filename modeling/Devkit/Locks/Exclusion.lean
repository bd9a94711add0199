import Devkit.Locks.Store

/-!
# Exclusion

Two live rows over a common file belong to holders on one line of ancestry. Each mutation
keeps this at its own moment, and it carries to later moments because a row live later was
live before.
-/

namespace Devkit.Locks

open Devkit.Common
open Devkit.Library

/-- Live rows of one root whose paths overlap have holders on one line of ancestry. -/
def Exclusive (m : Moment) (d : Data) : Prop :=
  ∀ k e k' e', d.Row k e → d.Row k' e' → Live m e → Live m e' → e.root = e'.root →
    Overlap e.path e'.path → OneLine e.holder e'.holder

/-- Exclusion at one moment carries to every later one. -/
theorem Exclusive.of_le {i j : Moment} (hij : i ≤ j) {d : Data} (h : Exclusive i d) : Exclusive j d :=
  fun k e k' e' hk hk' he he' => h k e k' e' hk hk' (he.of_le hij) (he'.of_le hij)

/-- A new row that nothing obstructed is on one line with every old live row it overlaps. -/
theorem Unobstructed.oneLine_renewed {m : Moment} {d : Data} {new old e : LockEntry} {k : String}
    (h : Unobstructed m d new) (hold : d.Row k old) (hren : Renewed m old e) (hlive : Live m e)
    (hroot : e.root = new.root) (hover : Overlap e.path new.path) : OneLine e.holder new.holder := by
  obtain ⟨hr, hp, hh⟩ := hren.same
  rw [hr] at hroot
  rw [hp] at hover
  rw [hh]
  exact h k old hold (hren.live_of_live hlive) hroot hover

/-- Whatever admits only unobstructed rows of one holder keeps the registry exclusive. -/
theorem Exclusive.admits {m : Moment} {d d' : Data} (h : Exclusive m d) (hadmits : Admits m d d') :
    Exclusive m d' := by
  obtain ⟨holder, hadmits⟩ := hadmits
  intro k e k' e' hk hk' hlive hlive' hroot hover
  rcases hadmits k e hk with ⟨old, hold, hren⟩ | ⟨hholder, _, hfree⟩
  · rcases hadmits k' e' hk' with ⟨old', hold', hren'⟩ | ⟨_, _, hfree'⟩
    · obtain ⟨hr, hp, hh⟩ := hren.same
      obtain ⟨hr', hp', hh'⟩ := hren'.same
      rw [hh, hh']
      exact h k old k' old' hold hold' (hren.live_of_live hlive) (hren'.live_of_live hlive')
        (by rw [← hr, ← hr', hroot]) (by rw [← hp, ← hp']; exact hover)
    · exact hfree'.oneLine_renewed hold hren hlive hroot hover
  · rcases hadmits k' e' hk' with ⟨old', hold', hren'⟩ | ⟨hholder', _, _⟩
    · exact (hfree.oneLine_renewed hold' hren' hlive' hroot.symm hover.symm).symm
    · rw [hholder, hholder']
      exact OnOneLine.refl '/' _

/-- A chronological run keeps the registry exclusive up to its end. -/
theorem Exclusive.run {start finish : Moment} {d : Data} {steps : List Step}
    (hd : Exclusive start d) (hchron : Chronological start steps finish) :
    Exclusive finish (run d steps) := by
  induction steps generalizing start d with
  | nil => exact hd.of_le ((List.isChain_cons_cons.mp hchron).1)
  | cons step rest ih =>
    obtain ⟨hle, hrest⟩ := List.isChain_cons_cons.mp hchron
    exact ih ((hd.of_le hle).admits (apply_admits d step)) hrest

/-- In a registry reached from the empty one, two rows of one root that are both live and
whose paths overlap have holders on one line of ancestry. -/
theorem live_overlapping_rows_on_one_line {start now : Moment} {steps : List Step}
    (hchron : Chronological start steps now) {k k' : String} {e e' : LockEntry}
    (hrow : (run Data.empty steps).Row k e) (hrow' : (run Data.empty steps).Row k' e')
    (hlive : Live now e) (hlive' : Live now e') (hroot : e.root = e'.root)
    (hover : Overlap e.path e'.path) : OneLine e.holder e'.holder := by
  have hempty : Exclusive start Data.empty := fun k e _ _ hk => by
    simp [Data.Row, Data.empty] at hk
  exact hempty.run hchron k e k' e' hrow hrow' hlive hlive' hroot hover

section Example

/-- A checkout root. -/
def sampleRoot : Root := ⟨"/repo", by decide⟩

/-- A moment at which every process lives. -/
def allAlive (now : ℕ) : Moment := ⟨now, fun _ => true⟩

/-- Time passing while every process lives. -/
theorem allAlive_le {i j : ℕ} (hij : i ≤ j) : allAlive i ≤ allAlive j := ⟨hij, fun _ h => h⟩

/-- A session claims a directory, then one of its agents writes below it elsewhere. -/
def sampleSteps : List Step :=
  [⟨allAlive 10, .acquire sampleRoot "s" ["src"] none none 60⟩,
   ⟨allAlive 20, .acquire sampleRoot "s/agent" ["src/lib.rs"] (some 7) none 0⟩]

/-- The session's directory and its agent's file are held live together. -/
theorem live_overlapping_rows_on_one_line_sample : OneLine "s" "s/agent" := by
  have hchron : Chronological (allAlive 0) sampleSteps (allAlive 30) := by
    simp [Chronological, sampleSteps, allAlive_le]
  have hsession : (run Data.empty sampleSteps).Row (keyFor sampleRoot "src")
      ⟨"src", sampleRoot, "s", none, none, 10, 60⟩ := by decide +kernel
  have hagent : (run Data.empty sampleSteps).Row (keyFor sampleRoot "src/lib.rs")
      ⟨"src/lib.rs", sampleRoot, "s/agent", some 7, none, 20, 0⟩ := by decide +kernel
  exact live_overlapping_rows_on_one_line hchron hsession hagent (by decide) (by decide) rfl
    (pathsOverlap_iff.mp (by decide))

end Example

end Devkit.Locks
