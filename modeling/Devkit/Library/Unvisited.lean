import Mathlib.Data.List.Basic

/-!
# What a search has not visited yet

A search over a finite list of nodes that never visits one twice is bounded by the number
of nodes not visited yet, which every visit lowers. A walk along a partial function that meets a
node twice never ends; one that meets none twice, among finitely many nodes, ends within as many
steps as there are nodes.
-/

namespace Devkit.Library

variable {A : Type*} [DecidableEq A]

/-- How many of the nodes are not visited. -/
def unvisited (nodes visited : List A) : ℕ := nodes.countP (· ∉ visited)

/-- Visiting more leaves no more unvisited. -/
theorem unvisited_anti (nodes : List A) {visited visited' : List A} (h : visited ⊆ visited') :
    unvisited nodes visited' ≤ unvisited nodes visited := by
  refine List.countP_mono_left fun a _ ha => ?_
  simp only [decide_eq_true_eq] at ha ⊢
  exact fun hmem => ha (h hmem)

/-- Visiting a new node of the list leaves fewer unvisited. -/
theorem unvisited_cons_lt {nodes visited : List A} {a : A} (ha : a ∈ nodes) (hnew : a ∉ visited) :
    unvisited nodes (a :: visited) < unvisited nodes visited := by
  induction nodes with
  | nil => simp at ha
  | cons b nodes ih =>
    have hle : unvisited nodes (a :: visited) ≤ unvisited nodes visited :=
      unvisited_anti nodes (List.subset_cons_self a visited)
    simp only [unvisited, List.countP_cons] at hle ih ⊢
    by_cases hb : b = a
    · subst hb
      have hvisited : decide (b ∉ b :: visited) = false := by simp
      have hunvisited : decide (b ∉ visited) = true := by simp [hnew]
      rw [hvisited, hunvisited, if_neg (by simp), if_pos rfl]
      omega
    · have hlt := ih ((List.mem_cons.mp ha).resolve_left (Ne.symm hb))
      have hsame : decide (b ∉ a :: visited) = decide (b ∉ visited) := by simp [hb]
      rw [hsame]
      omega

/-- Visiting more, with a new node of the list among it, leaves fewer unvisited. -/
theorem unvisited_lt {nodes visited visited' : List A} {a : A} (h : visited ⊆ visited') (ha : a ∈ nodes)
    (hnew : a ∉ visited) (hvisited : a ∈ visited') : unvisited nodes visited' < unvisited nodes visited :=
  Nat.lt_of_le_of_lt (unvisited_anti nodes (List.cons_subset.mpr ⟨hvisited, h⟩)) (unvisited_cons_lt ha hnew)

section Walks

variable {next : A → Option A} {nodes : List A}

/-- The first node that a walk meets again, after the ones visited. -/
def revisited (next : A → Option A) (nodes : List A) (hnext : ∀ a b, next a = some b → a ∈ nodes)
    (visited : List A) (here : Option A) : Option A :=
  match here with
  | none => none
  | some a => if a ∈ visited then some a else revisited next nodes hnext (a :: visited) (next a)
termination_by unvisited nodes visited + here.toList.length
decreasing_by
  rename_i hnew
  have hle := unvisited_anti nodes (List.subset_cons_self a visited)
  cases hstep : next a with
  | none =>
    simp only [Option.toList_none, List.length_nil, Option.toList_some, List.length_singleton]
    omega
  | some b =>
    have hlt := unvisited_cons_lt (hnext a b hstep) hnew
    simp only [Option.toList_some, List.length_singleton]
    omega

/-- The walk ends within so many nodes. -/
def Ends (next : A → Option A) : ℕ → Option A → Prop
  | _, none => True
  | 0, some _ => False
  | n + 1, some a => Ends next n (next a)

omit [DecidableEq A] in
/-- A walk that ends within some nodes ends within more. -/
theorem Ends.mono {m n : ℕ} {here : Option A} (h : Ends next m here) (hle : m ≤ n) : Ends next n here := by
  induction m generalizing n here with
  | zero =>
    cases here with
    | none => cases n <;> trivial
    | some a => exact h.elim
  | succ m ih =>
    cases here with
    | none => cases n <;> trivial
    | some a =>
      obtain ⟨n, rfl⟩ := Nat.exists_eq_succ_of_ne_zero (Nat.ne_of_gt (Nat.lt_of_lt_of_le m.succ_pos hle))
      have hrest : Ends next m (next a) := h
      have hmore : Ends next n (next a) := ih hrest (Nat.le_of_succ_le_succ hle)
      exact hmore

omit [DecidableEq A] in
/-- A walk that ends ends from each of its nodes. -/
theorem Ends.step {n : ℕ} {a : A} (h : Ends next n (some a)) : Ends next n (next a) := by
  cases n with
  | zero => exact h.elim
  | succ n => exact Ends.mono h (Nat.le_succ n)

/-- A walk over finitely many nodes that meets none again ends within the nodes not visited. -/
theorem ends_of_revisited {hnext : ∀ a b, next a = some b → a ∈ nodes} (hclosed : ∀ a b, next a = some b → b ∈ nodes)
    {visited : List A} {here : Option A} (hhere : ∀ a, here = some a → a ∈ nodes)
    (h : revisited next nodes hnext visited here = none) : Ends next (unvisited nodes visited) here := by
  fun_induction revisited next nodes hnext visited here with
  | case1 visited => cases unvisited nodes visited <;> trivial
  | case2 visited a hmem => contradiction
  | case3 visited a hnew ih =>
    have hrest := ih (fun b hb => hclosed a b hb) h
    have hlt := unvisited_cons_lt (hhere a rfl) hnew
    obtain ⟨m, hm⟩ := Nat.exists_eq_succ_of_ne_zero (Nat.ne_of_gt (Nat.lt_of_le_of_lt (Nat.zero_le _) hlt))
    rw [hm]
    exact hrest.mono (by omega)

end Walks

end Devkit.Library
