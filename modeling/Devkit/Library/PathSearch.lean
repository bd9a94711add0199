import Devkit.Library.Search
import Mathlib.Data.List.Chain

/-!
# Searching for a path

A depth-first search that keeps the path to each node it has yet to visit, and never extends a path
to a node already on it. It returns a path to the target exactly when some way leads there.
-/

namespace Devkit.Library

open Relation

variable {A : Type*} [DecidableEq A]

/-- The neighbours a path is extended to: listed nodes that are not on it yet. -/
def extensions (nodes : List A) (next : A → List A) (current : A) (path : List A) : List (A × List A) :=
  ((next current).filter fun node => node ∈ nodes && node ∉ path).map fun node => (node, path ++ [node])

/-- Search from the nodes of a stack, each with the path to it, the first on top. -/
def findPath (nodes : List A) (next : A → List A) (target : A) (seen : List A) :
    List (A × List A) → Option (List A)
  | [] => none
  | (current, path) :: rest =>
    if current ∈ seen then findPath nodes next target seen rest
    else if current ∈ nodes then
      if target ∈ next current then some (path ++ [target])
      else findPath nodes next target (current :: seen) ((extensions nodes next current path).reverse ++ rest)
    else findPath nodes next target (current :: seen) rest
termination_by stack => (unvisited nodes seen, stack.length)
decreasing_by
  · exact Prod.Lex.right _ (Nat.lt_succ_self _)
  · exact Prod.Lex.left _ _ (unvisited_cons_lt ‹_› ‹_›)
  · have hle := unvisited_anti nodes (List.subset_cons_self current seen)
    cases Nat.lt_or_eq_of_le hle with
    | inl hlt => exact Prod.Lex.left _ _ hlt
    | inr heq =>
      rw [heq]
      exact Prod.Lex.right _ (Nat.lt_succ_self _)

/-- An edge to a neighbour, extending the path to it. -/
abbrev PathEdge (nodes : List A) (next : A → List A) : A × List A → A × List A → Prop :=
  Trail nodes next fun path node => path ++ [node]

variable {nodes : List A} {next : A → List A} {target : A}

/-- What a search returns is a path of the stack, extended edge by edge to the target. -/
theorem trail_of_findPath {seen : List A} {stack : List (A × List A)} {path : List A}
    (h : findPath nodes next target seen stack = some path) :
    ∃ x ∈ stack, TransGen (PathEdge nodes next) x (target, path) := by
  induction seen, stack using findPath.induct nodes next target with
  | case1 seen =>
    rw [findPath] at h
    cases h
  | case2 seen current way rest hseen ih =>
    rw [findPath, if_pos hseen] at h
    obtain ⟨x, hx, htrail⟩ := ih h
    exact ⟨x, List.mem_cons_of_mem _ hx, htrail⟩
  | case3 seen current way rest hseen hnode hfound =>
    rw [findPath, if_neg hseen, if_pos hnode, if_pos hfound] at h
    obtain rfl := Option.some.inj h
    exact ⟨(current, way), List.mem_cons_self, .single ⟨⟨hnode, hfound⟩, rfl⟩⟩
  | case4 seen current way rest hseen hnode hfound ih =>
    rw [findPath, if_neg hseen, if_pos hnode, if_neg hfound] at h
    obtain ⟨x, hx, htrail⟩ := ih h
    cases List.mem_append.mp hx with
    | inl hnew =>
      obtain ⟨node, hnext, rfl⟩ := List.mem_map.mp (List.mem_reverse.mp hnew)
      exact ⟨(current, way), List.mem_cons_self, .head ⟨⟨hnode, (List.mem_filter.mp hnext).1⟩, rfl⟩ htrail⟩
    | inr hold => exact ⟨x, List.mem_cons_of_mem _ hold, htrail⟩
  | case5 seen current way rest hseen hnode ih =>
    rw [findPath, if_neg hseen, if_neg hnode] at h
    obtain ⟨x, hx, htrail⟩ := ih h
    exact ⟨x, List.mem_cons_of_mem _ hx, htrail⟩

/-- An edge a search for the target takes: to a listed node, or to the target. -/
def Toward (nodes : List A) (next : A → List A) (target a b : A) : Prop :=
  Edge nodes next a b ∧ (b ∈ nodes ∨ b = target)

omit [DecidableEq A] in
/-- A way to the target takes only such edges. -/
theorem transGen_toward_iff {a : A} :
    TransGen (Toward nodes next target) a target ↔ TransGen (Edge nodes next) a target := by
  constructor
  · exact TransGen.mono (fun _ _ hedge => hedge.1) a target
  · intro hway
    induction hway using TransGen.head_induction_on with
    | single hedge => exact .single ⟨hedge, Or.inr rfl⟩
    | head hedge hrest ih =>
      obtain ⟨_, hnext, _⟩ := TransGen.head'_iff.mp hrest
      exact .head ⟨hedge, Or.inl hnext.1⟩ ih

omit [DecidableEq A] in
/-- The path to a node is the way there: it starts at the start, and all before its end are listed. -/
theorem chain_of_trail {start : A} {y : A × List A} (h : TransGen (PathEdge nodes next) (start, [start]) y) :
    ∃ way, y.2 = way ++ [y.1] ∧ way.head? = some start ∧
      way.IsChain (fun a b => Edge nodes next a b ∧ b ∈ nodes) ∧ ∀ last ∈ way.getLast?, Edge nodes next last y.1 := by
  induction h with
  | single hedge =>
    refine ⟨[start], hedge.2, rfl, .singleton start, fun last hlast => ?_⟩
    obtain rfl := Option.some.inj hlast
    exact hedge.1
  | tail _ hedge ih =>
    rename_i b c _
    obtain ⟨way, hpath, hstart, hchain, hlast⟩ := ih
    refine ⟨way ++ [b.1], by rw [← hpath, hedge.2], ?_, ?_, fun last hend => ?_⟩
    · rw [List.head?_append, hstart]
      rfl
    · refine List.isChain_append.mpr ⟨hchain, .singleton b.1, fun last hend node hnode => ?_⟩
      obtain rfl := Option.some.inj hnode
      exact ⟨hlast last hend, hedge.1.1⟩
    · rw [List.getLast?_concat] at hend
      obtain rfl := Option.some.inj hend
      exact hedge.1

/-- A path that is found starts at the start, ends at the target and takes an edge at each step. -/
theorem chain_of_findPath {start : A} {path : List A}
    (h : findPath nodes next target [] [(start, [start])] = some path) :
    path.head? = some start ∧ path.getLast? = some target ∧ path.IsChain (Toward nodes next target) := by
  obtain ⟨x, hx, htrail⟩ := trail_of_findPath h
  obtain rfl := List.mem_singleton.mp hx
  obtain ⟨way, hpath, hstart, hchain, hlast⟩ := chain_of_trail htrail
  obtain rfl : path = way ++ [target] := hpath
  refine ⟨?_, List.getLast?_concat, ?_⟩
  · rw [List.head?_append, hstart]
    rfl
  · refine List.isChain_append.mpr ⟨hchain.imp fun _ _ hedge => ⟨hedge.1, Or.inl hedge.2⟩, .singleton target, ?_⟩
    intro last hend node hnode
    obtain rfl := Option.some.inj hnode
    exact ⟨hlast last hend, Or.inr rfl⟩

/-- What a search has seen and still has to visit: the listed neighbours of a seen node are seen or
on the stack, none of them is the target, and a path has but its end not seen. -/
structure Explored (nodes : List A) (next : A → List A) (target : A) (seen : List A)
    (stack : List (A × List A)) : Prop where
  followed : ∀ a ∈ seen, a ∈ nodes → target ∉ next a ∧
    ∀ b ∈ next a, b ∈ nodes → b ∈ seen ∨ b ∈ stack.map Prod.fst
  paths : ∀ x ∈ stack, ∀ b ∈ x.2, b = x.1 ∨ b ∈ seen

omit [DecidableEq A] in
/-- Dropping a seen node from the stack. -/
theorem Explored.skip {seen : List A} {current : A} {way : List A} {rest : List (A × List A)}
    (h : Explored nodes next target seen ((current, way) :: rest)) (hseen : current ∈ seen) :
    Explored nodes next target seen rest := by
  refine ⟨fun a ha hnode => ⟨(h.followed a ha hnode).1, fun b hb hlisted => ?_⟩,
    fun x hx => h.paths x (List.mem_cons_of_mem _ hx)⟩
  cases (h.followed a ha hnode).2 b hb hlisted with
  | inl hold => exact Or.inl hold
  | inr hstack =>
    cases List.mem_cons.mp hstack with
    | inl heq => exact Or.inl (heq ▸ hseen)
    | inr hrest => exact Or.inr hrest

/-- Visiting a node: what is pushed are its listed neighbours that are not seen. -/
theorem Explored.visit {seen : List A} {current : A} {way : List A} {rest pushed : List (A × List A)}
    (h : Explored nodes next target seen ((current, way) :: rest))
    (hcurrent : current ∈ nodes → target ∉ next current ∧ pushed = (extensions nodes next current way).reverse)
    (hpushed : current ∉ nodes → pushed = []) :
    Explored nodes next target (current :: seen) (pushed ++ rest) := by
  have hway : ∀ b ∈ way, b ∈ current :: seen := fun b hb =>
    List.mem_cons.mpr (h.paths (current, way) List.mem_cons_self b hb)
  have hpaths : ∀ x ∈ pushed, ∀ b ∈ x.2, b = x.1 ∨ b ∈ current :: seen := by
    intro x hx b hb
    by_cases hnode : current ∈ nodes
    · rw [(hcurrent hnode).2] at hx
      obtain ⟨node, _, rfl⟩ := List.mem_map.mp (List.mem_reverse.mp hx)
      cases List.mem_append.mp hb with
      | inl hold => exact Or.inr (hway b hold)
      | inr hnew => exact Or.inl (List.mem_singleton.mp hnew)
    · rw [hpushed hnode] at hx
      exact absurd hx List.not_mem_nil
  refine ⟨fun a ha hnode => ?_, fun x hx b hb => ?_⟩
  · cases List.mem_cons.mp ha with
    | inl heq =>
      obtain ⟨htarget, heq'⟩ := hcurrent (heq ▸ hnode)
      refine ⟨heq ▸ htarget, fun b hb hlisted => ?_⟩
      by_cases hold : b ∈ way
      · exact Or.inl (hway b hold)
      · refine Or.inr ?_
        rw [List.map_append, heq', List.map_reverse, extensions, List.map_map, List.mem_append, List.mem_reverse]
        exact Or.inl (List.mem_map.mpr ⟨b, List.mem_filter.mpr ⟨heq ▸ hb, by simp [hlisted, hold]⟩, rfl⟩)
    | inr ha =>
      refine ⟨(h.followed a ha hnode).1, fun b hb hlisted => ?_⟩
      cases (h.followed a ha hnode).2 b hb hlisted with
      | inl hold => exact Or.inl (List.mem_cons_of_mem current hold)
      | inr hstack =>
        cases List.mem_cons.mp hstack with
        | inl heq => exact Or.inl (heq ▸ List.mem_cons_self)
        | inr hrest =>
          rw [List.map_append]
          exact Or.inr (List.mem_append_right _ hrest)
  · cases List.mem_append.mp hx with
    | inl hnew => exact hpaths x hnew b hb
    | inr hrest =>
      cases h.paths x (List.mem_cons_of_mem _ hrest) b hb with
      | inl hend => exact Or.inl hend
      | inr hseen => exact Or.inr (List.mem_cons_of_mem current hseen)

/-- A search that fails leaves a set of nodes, closed under edges to listed nodes, with no edge to
the target. -/
theorem closed_of_findPath {seen : List A} {stack : List (A × List A)}
    (h : findPath nodes next target seen stack = none) (hexplored : Explored nodes next target seen stack) :
    ∃ closed : A → Prop, (∀ a ∈ seen, closed a) ∧ (∀ x ∈ stack, closed x.1) ∧
      ∀ a b, closed a → Edge nodes next a b → b ≠ target ∧ (b ∈ nodes → closed b) := by
  induction seen, stack using findPath.induct nodes next target with
  | case1 seen =>
    refine ⟨(· ∈ seen), fun a ha => ha, fun x hx => absurd hx List.not_mem_nil, fun a b ha hedge => ?_⟩
    obtain ⟨htarget, hclosed⟩ := hexplored.followed a ha hedge.1
    exact ⟨fun heq => htarget (heq ▸ hedge.2),
      fun hlisted => (hclosed b hedge.2 hlisted).resolve_right List.not_mem_nil⟩
  | case2 seen current way rest hseen ih =>
    rw [findPath, if_pos hseen] at h
    obtain ⟨closed, hin, hstack, hclosed⟩ := ih h (hexplored.skip hseen)
    exact ⟨closed, hin, List.forall_mem_cons.mpr ⟨hin current hseen, hstack⟩, hclosed⟩
  | case3 seen current way rest hnew hnode hfound =>
    rw [findPath, if_neg hnew, if_pos hnode, if_pos hfound] at h
    cases h
  | case4 seen current way rest hnew hnode hfound ih =>
    rw [findPath, if_neg hnew, if_pos hnode, if_neg hfound] at h
    obtain ⟨closed, hin, hstack, hclosed⟩ :=
      ih h (hexplored.visit (fun _ => ⟨hfound, rfl⟩) fun hnot => absurd hnode hnot)
    exact ⟨closed, fun a ha => hin a (List.mem_cons_of_mem current ha),
      List.forall_mem_cons.mpr ⟨hin current List.mem_cons_self, fun x hx => hstack x (List.mem_append_right _ hx)⟩,
      hclosed⟩
  | case5 seen current way rest hnew hnode ih =>
    rw [findPath, if_neg hnew, if_neg hnode] at h
    obtain ⟨closed, hin, hstack, hclosed⟩ :=
      ih h (hexplored.visit (fun hmem => absurd hmem hnode) fun _ => rfl)
    exact ⟨closed, fun a ha => hin a (List.mem_cons_of_mem current ha),
      List.forall_mem_cons.mpr ⟨hin current List.mem_cons_self, hstack⟩, hclosed⟩

/-- A search from one node finds a path exactly when a way of at least one edge leads to the target. -/
theorem findPath_isSome_iff {start : A} :
    (findPath nodes next target [] [(start, [start])]).isSome = true ↔
      TransGen (Edge nodes next) start target := by
  constructor
  · intro h
    obtain ⟨path, hpath⟩ := Option.isSome_iff_exists.mp h
    obtain ⟨x, hx, htrail⟩ := trail_of_findPath hpath
    obtain rfl := List.mem_singleton.mp hx
    exact htrail.lift Prod.fst fun _ _ hedge => hedge.1
  · intro hway
    by_contra hnone
    obtain ⟨closed, _, hstack, hclosed⟩ := closed_of_findPath (Option.not_isSome_iff_eq_none.mp hnone)
      ⟨fun a ha => absurd ha List.not_mem_nil, fun x hx b hb => by
        obtain rfl := List.mem_singleton.mp hx
        exact Or.inl (List.mem_singleton.mp hb)⟩
    have hreach : ∀ b, TransGen (Edge nodes next) start b → b ≠ target ∧ (b ∈ nodes → closed b) := by
      intro b hway
      induction hway with
      | single hedge => exact hclosed _ _ (hstack _ List.mem_cons_self) hedge
      | tail _ hedge ih => exact hclosed _ _ (ih.2 hedge.1) hedge
    exact (hreach target hway).1 rfl

end Devkit.Library
