import Devkit.Library.Unvisited
import Mathlib.Logic.Relation

/-!
# Depth-first search

A search from a stack of nodes visits each node once and looks for the target among the neighbours
of what it visits, noting on the way to each node what the caller keeps of the way. It finds the
target exactly when a way of at least one edge leads there.
-/

namespace Devkit.Library

variable {A P : Type*} [DecidableEq A]

/-- An edge of the graph: only the listed nodes have neighbours. -/
def Edge (nodes : List A) (next : A → List A) (a b : A) : Prop := a ∈ nodes ∧ b ∈ next a

/-- An edge with what is noted of the ways to its ends. -/
def Trail (nodes : List A) (next : A → List A) (note : P → A → P) (x y : A × P) : Prop :=
  Edge nodes next x.1 y.1 ∧ y.2 = note x.2 y.1

/-- Search from the nodes of a stack, the first on top; what was noted on the way to the target. -/
def search (nodes : List A) (next : A → List A) (note : P → A → P) (target : A) (seen : List A) :
    List (A × P) → Option P
  | [] => none
  | (current, way) :: rest =>
    if current ∈ seen then search nodes next note target seen rest
    else if current ∈ nodes then
      if target ∈ next current then some (note way target)
      else
        search nodes next note target (current :: seen)
          (((next current).map fun node => (node, note way node)).reverse ++ rest)
    else search nodes next note target (current :: seen) rest
termination_by stack => (unvisited nodes seen, stack.length)
decreasing_by
  · exact Prod.Lex.right _ (Nat.lt_succ_self _)
  · exact Prod.Lex.left _ _ (unvisited_cons_lt ‹_› ‹_›)
  · have hle := unvisited_anti nodes (List.subset_cons_self current seen)
    rcases Nat.lt_or_eq_of_le hle with hlt | heq
    · exact Prod.Lex.left _ _ hlt
    · rw [heq]
      exact Prod.Lex.right _ (Nat.lt_succ_self _)

variable {nodes : List A} {next : A → List A} {note : P → A → P} {target : A}

/-- What a search returns was noted on a way from the stack to the target. -/
theorem trail_of_search {seen : List A} {stack : List (A × P)} {way : P}
    (h : search nodes next note target seen stack = some way) :
    ∃ x ∈ stack, Relation.TransGen (Trail nodes next note) x (target, way) := by
  induction seen, stack using search.induct nodes next note target with
  | case1 seen =>
    rw [search] at h
    contradiction
  | case2 seen current noted rest hseen ih =>
    rw [search, if_pos hseen] at h
    obtain ⟨x, hx, hway⟩ := ih h
    exact ⟨x, List.mem_cons_of_mem _ hx, hway⟩
  | case3 seen current noted rest hseen hnode hfound =>
    rw [search, if_neg hseen, if_pos hnode, if_pos hfound] at h
    obtain rfl := Option.some.inj h
    exact ⟨(current, noted), List.mem_cons_self, .single ⟨⟨hnode, hfound⟩, rfl⟩⟩
  | case4 seen current noted rest hseen hnode hfound ih =>
    rw [search, if_neg hseen, if_pos hnode, if_neg hfound] at h
    obtain ⟨x, hx, hway⟩ := ih h
    rcases List.mem_append.mp hx with hnew | hold
    · obtain ⟨node, hnext, rfl⟩ := List.mem_map.mp (List.mem_reverse.mp hnew)
      exact ⟨(current, noted), List.mem_cons_self, .head ⟨⟨hnode, hnext⟩, rfl⟩ hway⟩
    · exact ⟨x, List.mem_cons_of_mem _ hold, hway⟩
  | case5 seen current noted rest hseen hnode ih =>
    rw [search, if_neg hseen, if_neg hnode] at h
    obtain ⟨x, hx, hway⟩ := ih h
    exact ⟨x, List.mem_cons_of_mem _ hx, hway⟩

/-- A search that fails leaves a set of nodes, closed under edges, with no edge to the target. -/
theorem closed_of_search {seen : List A} {stack : List (A × P)}
    (h : search nodes next note target seen stack = none)
    (hseen : ∀ a ∈ seen, a ∈ nodes → target ∉ next a ∧ ∀ b ∈ next a, b ∈ seen ∨ b ∈ stack.map Prod.fst) :
    ∃ closed : A → Prop, (∀ a ∈ seen, closed a) ∧ (∀ x ∈ stack, closed x.1) ∧
      ∀ a b, closed a → Edge nodes next a b → b ≠ target ∧ closed b := by
  induction seen, stack using search.induct nodes next note target with
  | case1 seen =>
    refine ⟨(· ∈ seen), fun a ha => ha, fun x hx => absurd hx List.not_mem_nil, fun a b ha hedge => ?_⟩
    obtain ⟨htarget, hclosed⟩ := hseen a ha hedge.1
    exact ⟨fun heq => htarget (heq ▸ hedge.2), (hclosed b hedge.2).resolve_right List.not_mem_nil⟩
  | case2 seen current noted rest hmem ih =>
    rw [search, if_pos hmem] at h
    obtain ⟨closed, hin, hstack, hclosed⟩ := ih h fun a ha hnode => by
      refine ⟨(hseen a ha hnode).1, fun b hb => ?_⟩
      rcases (hseen a ha hnode).2 b hb with hb' | hb'
      · exact Or.inl hb'
      · rcases List.mem_cons.mp hb' with rfl | hrest
        · exact Or.inl hmem
        · exact Or.inr hrest
    refine ⟨closed, hin, fun x hx => ?_, hclosed⟩
    rcases List.mem_cons.mp hx with rfl | hrest
    · exact hin current hmem
    · exact hstack x hrest
  | case3 seen current noted rest hnew hnode hfound =>
    rw [search, if_neg hnew, if_pos hnode, if_pos hfound] at h
    contradiction
  | case4 seen current noted rest hnew hnode hfound ih =>
    rw [search, if_neg hnew, if_pos hnode, if_neg hfound] at h
    obtain ⟨closed, hin, hstack, hclosed⟩ := ih h fun a ha hnode' => by
      rcases List.mem_cons.mp ha with rfl | ha
      · refine ⟨hfound, fun b hb => Or.inr ?_⟩
        rw [List.map_append, List.map_reverse, List.map_map, List.mem_append, List.mem_reverse]
        exact Or.inl (List.mem_map.mpr ⟨b, hb, rfl⟩)
      · refine ⟨(hseen a ha hnode').1, fun b hb => ?_⟩
        rcases (hseen a ha hnode').2 b hb with hb' | hb'
        · exact Or.inl (List.mem_cons_of_mem current hb')
        · rcases List.mem_cons.mp hb' with rfl | hrest
          · exact Or.inl List.mem_cons_self
          · rw [List.map_append, List.mem_append]
            exact Or.inr (Or.inr hrest)
    refine ⟨closed, fun a ha => hin a (List.mem_cons_of_mem current ha), fun x hx => ?_, hclosed⟩
    rcases List.mem_cons.mp hx with rfl | hrest
    · exact hin current List.mem_cons_self
    · exact hstack x (List.mem_append_right _ hrest)
  | case5 seen current noted rest hnew hnode ih =>
    rw [search, if_neg hnew, if_neg hnode] at h
    obtain ⟨closed, hin, hstack, hclosed⟩ := ih h fun a ha hnode' => by
      rcases List.mem_cons.mp ha with rfl | ha
      · exact absurd hnode' hnode
      · refine ⟨(hseen a ha hnode').1, fun b hb => ?_⟩
        rcases (hseen a ha hnode').2 b hb with hb' | hb'
        · exact Or.inl (List.mem_cons_of_mem current hb')
        · rcases List.mem_cons.mp hb' with rfl | hrest
          · exact Or.inl List.mem_cons_self
          · exact Or.inr hrest
    refine ⟨closed, fun a ha => hin a (List.mem_cons_of_mem current ha), fun x hx => ?_, hclosed⟩
    rcases List.mem_cons.mp hx with rfl | hrest
    · exact hin current List.mem_cons_self
    · exact hstack x hrest

omit [DecidableEq A] in
/-- From a closed set no way leads to a node that no edge from the set leads to. -/
theorem not_transGen_of_closed {R : A → A → Prop} {closed : A → Prop}
    (hclosed : ∀ a b, closed a → R a b → b ≠ target ∧ closed b) {a b : A} (ha : closed a)
    (hway : Relation.TransGen R a b) : b ≠ target ∧ closed b := by
  induction hway with
  | single hedge => exact hclosed _ _ ha hedge
  | tail _ hedge ih => exact hclosed _ _ ih.2 hedge

/-- A search from one node finds the target exactly when a way of at least one edge leads there. -/
theorem search_isSome_iff {start : A} {noted : P} :
    (search nodes next note target [] [(start, noted)]).isSome = true ↔
      Relation.TransGen (Edge nodes next) start target := by
  constructor
  · intro h
    obtain ⟨way, hway⟩ := Option.isSome_iff_exists.mp h
    obtain ⟨x, hx, htrail⟩ := trail_of_search hway
    obtain rfl := List.mem_singleton.mp hx
    exact htrail.lift Prod.fst fun _ _ hedge => hedge.1
  · intro hway
    by_contra hnone
    obtain ⟨closed, _, hstack, hclosed⟩ := closed_of_search (Option.not_isSome_iff_eq_none.mp hnone)
      fun a ha => absurd ha List.not_mem_nil
    exact (not_transGen_of_closed hclosed (hstack _ List.mem_cons_self) hway).1 rfl

end Devkit.Library
