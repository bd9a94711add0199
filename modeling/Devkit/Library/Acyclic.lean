import Mathlib.Data.Finite.Prod
import Mathlib.Data.Fintype.Card
import Mathlib.Logic.Relation

/-!
# Relations without cycles

A relation on finitely many nodes that has no cycle is well founded, so what holds of a node when
it holds of all its successors holds of every node. Edges added from one node close a cycle exactly
when one of them leads to where a way back starts.
-/

namespace Devkit.Library

variable {A : Type*} {R : A → A → Prop}

/-- A relation without cycles between the nodes of a list is well founded. -/
theorem wellFounded_of_acyclic {nodes : List A} (hnodes : ∀ a b, R a b → a ∈ nodes ∧ b ∈ nodes)
    (hacyclic : ∀ a, ¬ Relation.TransGen R a a) : WellFounded fun b a => R a b := by
  have hfinite : Finite {a // a ∈ nodes} := List.finite_toSet nodes
  have htrans : IsTrans {a // a ∈ nodes} fun b a => Relation.TransGen R a.1 b.1 :=
    ⟨fun _ _ _ hba hcb => hcb.trans hba⟩
  have hirrefl : Std.Irrefl fun b a : {a // a ∈ nodes} => Relation.TransGen R a.1 b.1 :=
    ⟨fun a hcycle => hacyclic a.1 hcycle⟩
  have hwf := Finite.wellFounded_of_trans_of_irrefl fun b a : {a // a ∈ nodes} => Relation.TransGen R a.1 b.1
  have hmem : ∀ a : {a // a ∈ nodes}, Acc (fun b a => R a b) a.1 := by
    intro a
    induction a using hwf.induction with
    | _ a ih => exact ⟨a.1, fun b hedge => ih ⟨b, (hnodes a.1 b hedge).2⟩ (.single hedge)⟩
  exact ⟨fun a => ⟨a, fun b hedge => hmem ⟨b, (hnodes a b hedge).2⟩⟩⟩

/-- Edges added from one node to the targets. -/
def AddEdges (R : A → A → Prop) (source : A) (targets : A → Prop) (a b : A) : Prop :=
  R a b ∨ a = source ∧ targets b

/-- A way over added edges that lead to no way back is an old way, or goes over the source. -/
theorem transGen_addEdges {source : A} {targets : A → Prop}
    (hback : ∀ b, targets b → ¬ Relation.ReflTransGen R b source) {a c : A}
    (hway : Relation.TransGen (AddEdges R source targets) a c) :
    Relation.TransGen R a c ∨
      Relation.ReflTransGen R a source ∧ ∃ b, targets b ∧ Relation.ReflTransGen R b c := by
  induction hway with
  | single hedge =>
    cases hedge with
    | inl hold => exact Or.inl (.single hold)
    | inr hnew => exact Or.inr ⟨hnew.1 ▸ .refl, _, hnew.2, .refl⟩
  | tail _ hedge ih =>
    cases hedge with
    | inl hold =>
      cases ih with
      | inl hway => exact Or.inl (hway.tail hold)
      | inr hway =>
        obtain ⟨hsource, b, hb, hrest⟩ := hway
        exact Or.inr ⟨hsource, b, hb, hrest.tail hold⟩
    | inr hnew =>
      cases ih with
      | inl hway => exact Or.inr ⟨hnew.1 ▸ hway.to_reflTransGen, _, hnew.2, .refl⟩
      | inr hway =>
        obtain ⟨_, b, hb, hrest⟩ := hway
        exact absurd (hnew.1 ▸ hrest) (hback b hb)

/-- Edges added from a node make no new way to it. -/
theorem reflTransGen_addEdges_source {source : A} {targets : A → Prop} {a : A} :
    Relation.ReflTransGen (AddEdges R source targets) a source ↔ Relation.ReflTransGen R a source := by
  constructor
  · intro hway
    induction hway using Relation.ReflTransGen.head_induction_on with
    | refl => exact .refl
    | head hedge _ ih =>
      cases hedge with
      | inl hold => exact .head hold ih
      | inr hnew => exact hnew.1 ▸ .refl
  · exact Relation.ReflTransGen.mono (fun _ _ hedge => Or.inl hedge) _ _

/-- Edges added from one node keep a relation without cycles exactly when no target leads back. -/
theorem acyclic_addEdges_iff {source : A} {targets : A → Prop} (hacyclic : ∀ a, ¬ Relation.TransGen R a a) :
    (∀ a, ¬ Relation.TransGen (AddEdges R source targets) a a) ↔
      ∀ b, targets b → ¬ Relation.ReflTransGen R b source := by
  constructor
  · intro hafter b hb hway
    have hback : Relation.ReflTransGen (AddEdges R source targets) b source :=
      Relation.ReflTransGen.mono (fun _ _ hedge => Or.inl hedge) _ _ hway
    exact hafter source (.head' (Or.inr ⟨rfl, hb⟩) hback)
  · intro hback a hcycle
    cases transGen_addEdges hback hcycle with
    | inl hold => exact hacyclic a hold
    | inr hnew =>
      obtain ⟨hsource, b, hb, hrest⟩ := hnew
      exact hback b hb (hrest.trans hsource)

end Devkit.Library
