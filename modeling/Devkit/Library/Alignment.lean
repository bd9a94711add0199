import Mathlib.Data.Finset.Card
import Mathlib.Data.Fintype.Card
import Mathlib.Data.List.Nodup
import Mathlib.Data.Prod.Basic

/-!
# Aligning two sequences

Two sequences are aligned by pairs of places that come in the same order on both sides. The relation the
pairs must satisfy need not be an equality, so one place may suit many. A table filled from the ends counts
how many pairs can be placed from any two points on, since pairs that take one of the two points, and do not
take both, exclude each other.
-/

namespace Devkit.Library

/-- Any two of the pairs come in the same order on both sides. -/
def OrderPreserving {A B : Type*} [LT A] [LT B] (pairs : Finset (A × B)) : Prop :=
  ∀ p ∈ pairs, ∀ q ∈ pairs, p ≠ q → (p.1 < q.1 ∧ p.2 < q.2) ∨ (q.1 < p.1 ∧ q.2 < p.2)

/-- Some of the pairs come in the same order as well. -/
theorem OrderPreserving.subset {A B : Type*} [LT A] [LT B] {pairs fewer : Finset (A × B)}
    (h : OrderPreserving pairs) (hsub : fewer ⊆ pairs) : OrderPreserving fewer := by
  intro p hp q hq hne
  exact h p (hsub hp) q (hsub hq) hne

/-- The table counts the pairs from its cells on: none at the ends, one more for a related pair, and otherwise
the better of passing either place. -/
structure CountsPairs (related : ℕ → ℕ → Bool) (n m : ℕ) (cell : ℕ → ℕ → ℕ) : Prop where
  bottom : ∀ j, cell n j = 0
  right : ∀ i, i ≤ n → cell i m = 0
  step : ∀ i j, i < n → j < m →
    cell i j = if related i j then cell (i + 1) (j + 1) + 1 else max (cell (i + 1) j) (cell i (j + 1))

variable {related : ℕ → ℕ → Bool} {n m : ℕ} {cell : ℕ → ℕ → ℕ} {pairs : Finset (ℕ × ℕ)}

/-- The pairs are related and lie from the two points on. -/
def PlacedFrom (related : ℕ → ℕ → Bool) (n m i j : ℕ) (pairs : Finset (ℕ × ℕ)) : Prop :=
  ∀ p ∈ pairs, i ≤ p.1 ∧ p.1 < n ∧ j ≤ p.2 ∧ p.2 < m ∧ related p.1 p.2 = true

/-- At most one of the pairs takes either of the two points. -/
theorem card_le_passed {i j : ℕ} (hplaced : PlacedFrom related n m i j pairs) (horder : OrderPreserving pairs) :
    pairs.card ≤ (pairs.filter fun p => i < p.1 ∧ j < p.2).card + 1 := by
  have hone : (pairs.filter fun p => ¬ (i < p.1 ∧ j < p.2)).card ≤ 1 := by
    rw [Finset.card_le_one]
    intro p hp q hq
    rw [Finset.mem_filter] at hp hq
    by_contra hne
    have hp' := hplaced p hp.1
    have hq' := hplaced q hq.1
    have hpq := horder p hp.1 q hq.1 hne
    omega
  have hsplit := Finset.card_filter_add_card_filter_not (s := pairs) fun p => i < p.1 ∧ j < p.2
  omega

/-- Where the two points are not related, the pairs leave one of them out. -/
theorem placed_past {i j : ℕ} (hplaced : PlacedFrom related n m i j pairs) (horder : OrderPreserving pairs)
    (hrelated : related i j = false) :
    PlacedFrom related n m (i + 1) j pairs ∨ PlacedFrom related n m i (j + 1) pairs := by
  by_cases hfirst : ∃ p ∈ pairs, p.1 = i
  · obtain ⟨p, hp, hpi⟩ := hfirst
    have hp' := hplaced p hp
    right
    intro q hq
    have hq' := hplaced q hq
    have hjq : j ≠ q.2 := by
      intro hj
      by_cases hpq : p = q
      · rw [← hpq, hpi] at hq'
        rw [← hpq] at hj
        rw [← hj, hrelated] at hq'
        exact absurd hq'.2.2.2.2 Bool.false_ne_true
      · have := horder p hp q hq hpq
        omega
    exact ⟨hq'.1, hq'.2.1, by omega, hq'.2.2.2⟩
  · left
    intro q hq
    have hq' := hplaced q hq
    have hne : q.1 ≠ i := fun heq => hfirst ⟨q, hq, heq⟩
    exact ⟨by omega, hq'.2⟩

/-- No more pairs can be placed from two points on than the table counts there. -/
theorem CountsPairs.card_le (hcell : CountsPairs related n m cell) {i j : ℕ} (hi : i ≤ n) (hj : j ≤ m)
    (hplaced : PlacedFrom related n m i j pairs) (horder : OrderPreserving pairs) : pairs.card ≤ cell i j := by
  -- The induction is on how many places are left on both sides together.
  induction hleft : (n - i) + (m - j) using Nat.strong_induction_on generalizing i j pairs with
  | _ left ih =>
    by_cases hend : i < n ∧ j < m
    · rw [hcell.step i j hend.1 hend.2]
      cases hrelated : related i j with
      | true =>
        have hpassed := card_le_passed hplaced horder
        have hlater : PlacedFrom related n m (i + 1) (j + 1) (pairs.filter fun p => i < p.1 ∧ j < p.2) := by
          intro p hp
          rw [Finset.mem_filter] at hp
          have hp' := hplaced p hp.1
          exact ⟨hp.2.1, hp'.2.1, hp.2.2, hp'.2.2.2⟩
        have hrest : (pairs.filter fun p => i < p.1 ∧ j < p.2).card ≤ cell (i + 1) (j + 1) :=
          ih _ (by omega) hend.1 hend.2 hlater (horder.subset (Finset.filter_subset _ _)) rfl
        rw [if_pos rfl]
        omega
      | false =>
        rw [if_neg Bool.false_ne_true]
        rcases placed_past hplaced horder hrelated with hdown | hright
        · have hmost : pairs.card ≤ cell (i + 1) j := ih _ (by omega) hend.1 hj hdown horder rfl
          omega
        · have hmost : pairs.card ≤ cell i (j + 1) := ih _ (by omega) hi hend.2 hright horder rfl
          omega
    · have hnone : pairs = ∅ := by
        apply Finset.eq_empty_of_forall_notMem
        intro p hp
        have := hplaced p hp
        omega
      rw [hnone, Finset.card_empty]
      exact Nat.zero_le _

/-- Pairs that rise on both sides and are as many as there are places on the first are the graph of a rising map. -/
theorem exists_graph_of_rising {n : ℕ} {B : Type*} [Preorder B] {pairs : List (Fin n × B)}
    (hrising : pairs.Pairwise fun pair later => pair.1 < later.1 ∧ pair.2 < later.2) (hlength : pairs.length = n) :
    ∃ graph : Fin n → B, StrictMono graph ∧ ∀ pair, pair ∈ pairs ↔ pair.2 = graph pair.1 := by
  have hfirsts : (pairs.map Prod.fst).Pairwise (· < ·) := List.pairwise_map.mpr (hrising.imp And.left)
  have hnodup : (pairs.map Prod.fst).Nodup := hfirsts.imp fun h => h.ne
  have hall : (pairs.map Prod.fst).toFinset = Finset.univ := by
    apply Finset.eq_univ_of_card
    rw [List.toFinset_card_of_nodup hnodup, List.length_map, hlength, Fintype.card_fin]
  have hcovered (a : Fin n) : ∃ b, (a, b) ∈ pairs := by
    have hmem : a ∈ (pairs.map Prod.fst).toFinset := hall ▸ Finset.mem_univ a
    obtain ⟨pair, hpair, rfl⟩ := List.mem_map.mp (List.mem_toFinset.mp hmem)
    exact ⟨pair.2, hpair⟩
  have hordered {pair later : Fin n × B} (hpair : pair ∈ pairs) (hlater : later ∈ pairs) (hlt : pair.1 < later.1) :
      pair.2 < later.2 := by
    obtain ⟨i, hi, rfl⟩ := List.getElem_of_mem hpair
    obtain ⟨j, hj, rfl⟩ := List.getElem_of_mem hlater
    rw [List.pairwise_iff_getElem] at hrising
    rcases Nat.lt_trichotomy i j with hij | rfl | hji
    · exact (hrising i j hi hj hij).2
    · exact absurd hlt (lt_irrefl _)
    · exact absurd hlt (hrising j i hj hi hji).1.not_gt
  choose graph hgraph using hcovered
  refine ⟨graph, fun a later hlt => hordered (hgraph a) (hgraph later) hlt, fun pair => ⟨fun hpair => ?_, fun heq => ?_⟩⟩
  · exact congrArg Prod.snd (List.inj_on_of_nodup_map hnodup hpair (hgraph pair.1) rfl)
  · have hmem := hgraph pair.1
    rwa [← heq] at hmem

end Devkit.Library
