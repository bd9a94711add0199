import Devkit.Library.Acyclic

/-!
# Handing edges over

In a relation without cycles every edge into an old node is moved to a new one, and what the old node leads to
the new one leads to as well, but for edges that would close a cycle. What all the moves come to is one relation
that no single move changes, so neither their order nor a stop between them matters.
-/

namespace Devkit.Library

open Relation

variable {A : Type*} {R S : A → A → Prop} {old new : A}

/-- An edge dropped. -/
def DropEdge (R : A → A → Prop) (source target : A) (a b : A) : Prop := R a b ∧ ¬ (a = source ∧ b = target)

/-- The edges into the old node moved to the new one, where the new one does not lead back. -/
def Redirected (R : A → A → Prop) (old new : A) (a b : A) : Prop :=
  R a b ∧ b ≠ old ∨ b = new ∧ R a old ∧ a ≠ new ∧ ¬ ReflTransGen R new a

/-- Edges from the new node to the targets that do not lead back to it. -/
def Inherited (R : A → A → Prop) (new : A) (targets : A → Prop) (a b : A) : Prop :=
  R a b ∨ a = new ∧ targets b ∧ b ≠ new ∧ ¬ ReflTransGen R b new

/-- The edges into the old node moved to the new one, and the old node's own edges to known nodes inherited. -/
def HandedOver (known : A → Prop) (R : A → A → Prop) (old new : A) : A → A → Prop :=
  Inherited (Redirected R old new) new fun b => R old b ∧ known b

section Ways

/-- Edges into a node do not help to leave it. -/
theorem reach_from_of_edges_into (h : ∀ a b, S a b → R a b ∨ b = new) {a : A} (hway : ReflTransGen S new a) :
    ReflTransGen R new a := by
  induction hway with
  | refl => exact .refl
  | tail _ hedge ih =>
    cases h _ _ hedge with
    | inl hold => exact ih.tail hold
    | inr hnew => exact hnew ▸ .refl

/-- Edges out of a node do not help to come to it. -/
theorem reach_to_of_edges_from (h : ∀ a b, S a b → R a b ∨ a = new) {a : A} (hway : ReflTransGen S a new) :
    ReflTransGen R a new := by
  induction hway using ReflTransGen.head_induction_on with
  | refl => exact .refl
  | head hedge _ ih =>
    cases h _ _ hedge with
    | inl hold => exact ih.head hold
    | inr hnew => exact hnew ▸ .refl

/-- A way to a node that has an edge into the old one takes no edge into the old one. -/
theorem reach_avoiding (hacyclic : ∀ a, ¬ TransGen R a a) (h : ∀ a b, R a b → b ≠ old → S a b) {source target : A}
    (htarget : R target old) (hway : ReflTransGen R source target) : ReflTransGen S source target := by
  induction hway using ReflTransGen.head_induction_on with
  | refl => exact .refl
  | head hedge hrest ih =>
    refine ih.head (h _ _ hedge fun hold => hacyclic old ?_)
    exact TransGen.tail' (hold ▸ hrest) htarget

end Ways

section Moves

variable {known : A → Prop} (hacyclic : ∀ a, ¬ TransGen R a a) (hne : old ≠ new)

include hacyclic

include hne

omit hacyclic in
/-- A dependent given the new node as a blocker is redirected as before. -/
theorem redirected_addEdges {dependent : A} (hdependent : R dependent old) (hother : dependent ≠ new)
    (hback : ¬ ReflTransGen R new dependent) :
    Redirected (AddEdges R dependent (· = new)) old new = Redirected R old new := by
  have hreach (a : A) : ReflTransGen (AddEdges R dependent (· = new)) new a ↔ ReflTransGen R new a :=
    ⟨reach_from_of_edges_into fun _ _ hedge => hedge.imp_right And.right, ReflTransGen.mono (fun _ _ => Or.inl) _ _⟩
  funext a b
  refine propext ⟨fun h => ?_, fun h => ?_⟩
  · rcases h with ⟨hedge | ⟨rfl, rfl⟩, hb⟩ | ⟨rfl, hedge | ⟨_, heq⟩, hself, hway⟩
    · exact Or.inl ⟨hedge, hb⟩
    · exact Or.inr ⟨rfl, hdependent, hother, hback⟩
    · exact Or.inr ⟨rfl, hedge, hself, fun hold => hway ((hreach a).mpr hold)⟩
    · exact absurd heq hne
  · rcases h with ⟨hedge, hb⟩ | ⟨rfl, hedge, hself, hway⟩
    · exact Or.inl ⟨Or.inl hedge, hb⟩
    · exact Or.inr ⟨rfl, Or.inl hedge, hself, fun hnew => hway ((hreach a).mp hnew)⟩

/-- An edge into the old node goes without a trace once the new node has it or cannot have it. -/
theorem redirected_dropEdge {dependent : A} (hdependent : R dependent old)
    (hmoved : dependent = new ∨ R dependent new ∨ ReflTransGen R new dependent) :
    Redirected (DropEdge R dependent old) old new = Redirected R old new := by
  have hreach {a : A} (ha : R a old) : ReflTransGen (DropEdge R dependent old) new a ↔ ReflTransGen R new a :=
    ⟨ReflTransGen.mono (fun _ _ => And.left) _ _,
      reach_avoiding hacyclic (fun _ _ hedge hb => ⟨hedge, fun hdropped => hb hdropped.2⟩) ha⟩
  funext a b
  refine propext ⟨fun h => ?_, fun h => ?_⟩
  · rcases h with ⟨hedge, hb⟩ | ⟨rfl, hedge, hself, hway⟩
    · exact Or.inl ⟨hedge.1, hb⟩
    · exact Or.inr ⟨rfl, hedge.1, hself, fun hold => hway ((hreach hedge.1).mpr hold)⟩
  · rcases h with ⟨hedge, hb⟩ | ⟨rfl, hedge, hself, hway⟩
    · exact Or.inl ⟨⟨hedge, fun hdropped => hb hdropped.2⟩, hb⟩
    · by_cases hthis : a = dependent
      · subst hthis
        rcases hmoved with heq | hdirect | hback
        · exact absurd heq hself
        · exact Or.inl ⟨⟨hdirect, fun hdropped => hne hdropped.2.symm⟩, hne.symm⟩
        · exact absurd hback hway
      · exact Or.inr ⟨rfl, ⟨hedge, fun hdropped => hthis hdropped.1⟩, hself, fun hold => hway ((hreach hedge).mp hold)⟩

/-- A dependent given the new node as a blocker comes to the same in the end. -/
theorem handedOver_addDependent {dependent : A} (hdependent : R dependent old) (hother : dependent ≠ new)
    (hback : ¬ ReflTransGen R new dependent) :
    HandedOver known (AddEdges R dependent (· = new)) old new = HandedOver known R old new := by
  have hself : old ≠ dependent := fun heq => hacyclic old (.single (heq ▸ hdependent))
  have htargets : (fun b => AddEdges R dependent (· = new) old b ∧ known b) = fun b => R old b ∧ known b := by
    funext b
    exact propext (and_congr_left' (or_iff_left fun hadded => hself hadded.1))
  rw [HandedOver, HandedOver, redirected_addEdges hne hdependent hother hback, htargets]

/-- A dependent freed of the old node comes to the same in the end. -/
theorem handedOver_dropDependent {dependent : A} (hdependent : R dependent old)
    (hmoved : dependent = new ∨ R dependent new ∨ ReflTransGen R new dependent) :
    HandedOver known (DropEdge R dependent old) old new = HandedOver known R old new := by
  have hself : old ≠ dependent := fun heq => hacyclic old (.single (heq ▸ hdependent))
  have htargets : (fun b => DropEdge R dependent old old b ∧ known b) = fun b => R old b ∧ known b := by
    funext b
    exact propext (and_congr_left' (and_iff_left fun hdropped => hself hdropped.1))
  rw [HandedOver, HandedOver, redirected_dropEdge hacyclic hne hdependent hmoved, htargets]

end Moves

section Blockers

variable {known : A → Prop} (hnone : ∀ a, ¬ R a old)

include hnone

/-- Where nothing has an edge into the old node nothing is redirected. -/
theorem redirected_self : Redirected R old new = R := by
  funext a b
  refine propext ⟨fun h => ?_, fun h => Or.inl ⟨h, fun hb => hnone a (hb ▸ h)⟩⟩
  rcases h with ⟨hedge, _⟩ | ⟨_, hedge, _⟩
  · exact hedge
  · exact absurd hedge (hnone a)

/-- A blocker of the old node given to the new one comes to the same in the end. -/
theorem handedOver_addBlocker (hne : old ≠ new) {blocker : A} (hblocker : R old blocker) (hknown : known blocker)
    (hother : blocker ≠ new) (hback : ¬ ReflTransGen R blocker new) :
    HandedOver known (AddEdges R new (· = blocker)) old new = HandedOver known R old new := by
  have hself : blocker ≠ old := fun heq => hnone old (heq ▸ hblocker)
  have hnone' (a : A) : ¬ AddEdges R new (· = blocker) a old :=
    fun hedge => hedge.elim (hnone a) fun hadded => hself hadded.2.symm
  have htargets : (fun b => AddEdges R new (· = blocker) old b ∧ known b) = fun b => R old b ∧ known b := by
    funext b
    exact propext (and_congr_left' (or_iff_left fun hadded => hne hadded.1))
  have hreach (a : A) : ReflTransGen (AddEdges R new (· = blocker)) a new ↔ ReflTransGen R a new :=
    ⟨reach_to_of_edges_from fun _ _ hedge => hedge.imp_right And.left, ReflTransGen.mono (fun _ _ => Or.inl) _ _⟩
  rw [HandedOver, HandedOver, redirected_self hnone', redirected_self hnone, htargets]
  funext a b
  refine propext ⟨fun h => ?_, fun h => ?_⟩
  · rcases h with (hedge | ⟨rfl, rfl⟩) | ⟨rfl, hb, hnew, hway⟩
    · exact Or.inl hedge
    · exact Or.inr ⟨rfl, ⟨hblocker, hknown⟩, hother, hback⟩
    · exact Or.inr ⟨rfl, hb, hnew, fun hold => hway ((hreach b).mpr hold)⟩
  · rcases h with hedge | ⟨rfl, hb, hnew, hway⟩
    · exact Or.inl (Or.inl hedge)
    · exact Or.inr ⟨rfl, hb, hnew, fun hadded => hway ((hreach b).mp hadded)⟩

/-- Where every blocker of the old node is the new one's too, or cannot be, everything has been handed over. -/
theorem handedOver_self
    (hall : ∀ b, R old b → known b → b ≠ new → R new b ∨ ReflTransGen R b new) : HandedOver known R old new = R := by
  rw [HandedOver, redirected_self hnone]
  funext a b
  refine propext ⟨fun h => ?_, Or.inl⟩
  rcases h with hedge | ⟨rfl, hb, hnew, hway⟩
  · exact hedge
  · exact (hall b hb.1 hb.2 hnew).resolve_right hway

end Blockers

section Result

variable {known : A → Prop} (hacyclic : ∀ a, ¬ TransGen R a a)

include hacyclic

/-- In the end nothing has an edge into the old node. -/
theorem not_handedOver_old (hne : old ≠ new) (a : A) : ¬ HandedOver known R old new a old := by
  intro h
  rcases h with (⟨_, hb⟩ | ⟨heq, _⟩) | ⟨_, ⟨hself, _⟩, _⟩
  · exact hb rfl
  · exact hne heq
  · exact hacyclic old (.single hself)

/-- In the end a dependent of the old node depends on the new one, unless the new one leads to it. -/
theorem handedOver_dependent {dependent : A} (hdependent : R dependent old) (hother : dependent ≠ new) :
    HandedOver known R old new dependent new ∨ ReflTransGen (HandedOver known R old new) new dependent := by
  by_cases hback : ReflTransGen R new dependent
  · exact Or.inr (reach_avoiding hacyclic (fun _ _ hedge hb => Or.inl (Or.inl ⟨hedge, hb⟩)) hdependent hback)
  · exact Or.inl (Or.inl (Or.inr ⟨rfl, hdependent, hother, hback⟩))

omit hacyclic in
/-- In the end a known node the old one leads to is led to by the new one, unless it leads to the new one. -/
theorem handedOver_blocker {blocker : A} (hblocker : R old blocker) (hknown : known blocker) (hother : blocker ≠ new) :
    HandedOver known R old new new blocker ∨ ReflTransGen (HandedOver known R old new) blocker new := by
  by_cases hback : ReflTransGen (Redirected R old new) blocker new
  · exact Or.inr (ReflTransGen.mono (fun _ _ => Or.inl) _ _ hback)
  · exact Or.inl (Or.inr ⟨rfl, ⟨hblocker, hknown⟩, hother, hback⟩)

omit hacyclic in
/-- In the end every other edge is as it was. -/
theorem handedOver_other {a b : A} (hold : b ≠ old) (hnew : b = new → ¬ R a old)
    (hinherited : a = new → R old b → ¬ known b) : HandedOver known R old new a b ↔ R a b := by
  refine ⟨fun h => ?_, fun h => Or.inl (Or.inl ⟨h, hold⟩)⟩
  rcases h with (⟨hedge, _⟩ | ⟨hb, hedge, _⟩) | ⟨ha, ⟨hedge, hknown⟩, _⟩
  · exact hedge
  · exact absurd hedge (hnew hb)
  · exact absurd hknown (hinherited ha hedge)

end Result

end Devkit.Library
