import Devkit.Common.Segments

/-!
# Holders

Who acts on a todo: a session `S`, its sub-agent `S/a`, a person, or the tracker. A holder
covers itself and the holders below it; a person and the tracker cover everyone.
-/

namespace Devkit.Todos

open Devkit.Common
open Devkit.Library

/-- Who acts on a todo. -/
structure Holder where
  text : String
deriving DecidableEq

namespace Holder

/-- A person at the command line. -/
def human : Holder := ⟨"human"⟩

/-- The ticket sync. -/
def tracker : Holder := ⟨"tracker"⟩

/-- The holder is a person. -/
def isHuman (holder : Holder) : Bool := holder.text == "human"

/-- The holder is the ticket sync. -/
def isTracker (holder : Holder) : Bool := holder.text == "tracker"

/-- The holder may change what `other` claims. -/
def covers (holder other : Holder) : Bool :=
  holder.isHuman || holder.isTracker || holder.text == other.text || continues holder.text other.text

/-- The holder overrides any claim: a person or the tracker. -/
def Overrides (holder : Holder) : Prop := holder = human ∨ holder = tracker

instance (holder : Holder) : Decidable holder.Overrides :=
  inferInstanceAs (Decidable (holder = human ∨ holder = tracker))

@[simp] theorem isHuman_iff {holder : Holder} : holder.isHuman = true ↔ holder = human := by
  cases holder
  simp [isHuman, human]

@[simp] theorem isTracker_iff {holder : Holder} : holder.isTracker = true ↔ holder = tracker := by
  cases holder
  simp [isTracker, tracker]

/-- Covering is ancestry of the segments, but for the two holders that cover everyone. -/
theorem covers_iff {holder other : Holder} :
    holder.covers other = true ↔ holder.Overrides ∨ Ancestor holder.text other.text := by
  rw [covers, Bool.or_assoc (_ || _), Bool.or_eq_true, Bool.or_eq_true, isHuman_iff, isTracker_iff,
    eq_or_continues_iff]
  rfl

/-- Only who overrides every claim covers a person. -/
theorem covers_human_iff {holder : Holder} : holder.covers human = true ↔ holder.Overrides := by
  rw [covers_iff]
  refine or_iff_left_of_imp fun hancestor => ?_
  rcases hancestor with heq | ⟨rest, hrest⟩
  · refine Or.inl ?_
    cases holder
    exact congrArg Holder.mk (String.toList_inj.mp heq)
  · have hmem : '/' ∈ human.text.toList := by
      rw [← hrest]
      simp
    exact absurd hmem (by decide)

end Holder

end Devkit.Todos
