import Devkit.Library.Unvisited
import Devkit.Todos.ListOrder

/-!
# The printed tree

A listing prints each todo under its parent, siblings in list order. The walk never enters a todo it has seen, so a
cycle of parents ends it; the todos that no top-level one leads to are printed after the rest.
-/

namespace Devkit.Todos.Render

open Devkit.Library Devkit.Todos.Native

/-- The id a todo is printed under: its parent's, when that is another todo of the list. -/
def parentOf (todos : List Todo) (todo : Todo) : Option String :=
  todo.parent.filter fun parent => decide (parent ∈ todos.map Todo.id) && parent != todo.id

/-- The todos printed under an id, or at the top level, in list order. -/
def childrenOf (todos : List Todo) (parent : Option String) : List Todo :=
  (todos.filter fun todo => parentOf todos todo == parent).insertionSort ShownBefore

/-- The ids seen so far and the lines printed so far, each a todo and its depth. -/
structure Walked where
  seen : List String
  out : List (Todo × ℕ)

/-- Print a todo at a depth. -/
def Walked.visit (state : Walked) (todo : Todo) (depth : ℕ) : Walked :=
  ⟨todo.id :: state.seen, state.out ++ [(todo, depth)]⟩

theorem mem_childrenOf {todos : List Todo} {parent : Option String} {todo : Todo} :
    todo ∈ childrenOf todos parent ↔ todo ∈ todos ∧ parentOf todos todo = parent := by
  rw [childrenOf, List.mem_insertionSort, List.mem_filter, beq_iff_eq]

theorem childrenOf_subset (todos : List Todo) (parent : Option String) : childrenOf todos parent ⊆ todos := by
  intro todo htodo
  exact (mem_childrenOf.mp htodo).1

/-- Print siblings at a depth, each that is not seen yet followed by what is under it. -/
def walk (todos : List Todo) : (siblings : List Todo) → siblings ⊆ todos → ℕ → (state : Walked) →
    { after : Walked // state.seen ⊆ after.seen }
  | [], _, _, state => ⟨state, List.Subset.refl state.seen⟩
  | todo :: rest, hsiblings, depth, state =>
    if todo.id ∈ state.seen then walk todos rest (List.cons_subset.mp hsiblings).2 depth state
    else
      let under := walk todos (childrenOf todos (some todo.id)) (childrenOf_subset todos _) (depth + 1)
        (state.visit todo depth)
      let after := walk todos rest (List.cons_subset.mp hsiblings).2 depth under.1
      ⟨after.1, fun _ hid => after.2 (under.2 (List.mem_cons_of_mem todo.id hid))⟩
termination_by siblings _ _ state => (unvisited (todos.map Todo.id) state.seen, siblings.length)
decreasing_by
  · exact Prod.Lex.right _ (Nat.lt_succ_self _)
  · have hid : todo.id ∈ todos.map Todo.id := List.mem_map_of_mem (List.cons_subset.mp hsiblings).1
    exact Prod.Lex.left _ _ (unvisited_cons_lt hid ‹_›)
  · have hid : todo.id ∈ todos.map Todo.id := List.mem_map_of_mem (List.cons_subset.mp hsiblings).1
    have hgrown := unvisited_anti (todos.map Todo.id) under.2
    exact Prod.Lex.left _ _ (Nat.lt_of_le_of_lt hgrown (unvisited_cons_lt hid ‹_›))

/-- Print what is under an id, or the top level. -/
def walkUnder (todos : List Todo) (parent : Option String) (depth : ℕ) (state : Walked) : Walked :=
  (walk todos (childrenOf todos parent) (childrenOf_subset todos parent) depth state).1

/-- Print a todo that the top level does not lead to, with what is under it, unless it is seen by now. -/
def strand (todos : List Todo) (state : Walked) (todo : Todo) : Walked :=
  if todo.id ∈ state.seen then state else walkUnder todos (some todo.id) 1 (state.visit todo 0)

/-- The lines of the todos that the top level leads to. -/
def rooted (todos : List Todo) : Walked := walkUnder todos none 0 ⟨[], []⟩

/-- The todos that the top level does not lead to. -/
def stranded (todos : List Todo) : List Todo :=
  (todos.filter fun todo => decide (todo.id ∉ (rooted todos).seen)).insertionSort ShownBefore

/-- Depth-first tree order: each todo with its depth. -/
def tree (todos : List Todo) : List (Todo × ℕ) := ((stranded todos).foldl (strand todos) (rooted todos)).out

section Walks

variable {todos siblings : List Todo} {hsiblings : siblings ⊆ todos} {depth : ℕ} {state : Walked}

/-- The lines so far are of listed todos, each printed once, and what is seen is what is printed. -/
structure Sound (todos : List Todo) (state : Walked) : Prop where
  seen : ∀ id, id ∈ state.seen ↔ id ∈ state.out.map fun line => line.1.id
  distinct : (state.out.map fun line => line.1.id).Nodup
  listed : ∀ line ∈ state.out, line.1 ∈ todos

/-- Printing a listed todo that is not seen yet keeps the lines sound. -/
theorem Sound.visit (h : Sound todos state) {todo : Todo} (hmem : todo ∈ todos) (hnew : todo.id ∉ state.seen)
    (depth : ℕ) : Sound todos (state.visit todo depth) := by
  refine ⟨fun id => ?_, ?_, fun line hline => ?_⟩
  · simp only [Walked.visit, List.map_append, List.map_cons, List.map_nil, List.mem_cons, List.mem_append,
      List.not_mem_nil, or_false, h.seen]
    exact or_comm
  · rw [Walked.visit, List.map_append, List.map_singleton, List.nodup_append]
    refine ⟨h.distinct, List.nodup_singleton _, fun id hid other hother heq => ?_⟩
    rw [heq, List.mem_singleton.mp hother] at hid
    exact hnew ((h.seen todo.id).mpr hid)
  · cases List.mem_append.mp hline with
    | inl hold => exact h.listed line hold
    | inr hlast =>
      rw [List.mem_singleton.mp hlast]
      exact hmem

/-- A walk keeps the lines sound. -/
theorem Sound.walk (h : Sound todos state) : Sound todos (walk todos siblings hsiblings depth state).1 := by
  fun_induction Render.walk todos siblings hsiblings depth state with
  | case1 => exact h
  | case2 todo rest hcons depth state hseen _ ih => exact ih h
  | case3 todo rest hcons depth state hnew under after _ ihunder _ ihrest _ =>
    exact ihrest (ihunder (h.visit (List.cons_subset.mp hcons).1 hnew depth))

/-- A walk sees each of the siblings, and everything under what it sees first. -/
theorem closed_walk : (∀ todo ∈ siblings, todo.id ∈ (walk todos siblings hsiblings depth state).1.seen) ∧
    ∀ id ∈ (walk todos siblings hsiblings depth state).1.seen, id ∉ state.seen →
      ∀ todo ∈ childrenOf todos (some id), todo.id ∈ (walk todos siblings hsiblings depth state).1.seen := by
  fun_induction walk todos siblings hsiblings depth state with
  | case1 => exact ⟨fun todo htodo => absurd htodo List.not_mem_nil, fun id hid hnew => absurd hid hnew⟩
  | case2 todo rest hcons depth state hseen _ ih =>
    refine ⟨fun sibling hsibling => ?_, ih.2⟩
    cases List.mem_cons.mp hsibling with
    | inl heq =>
      rw [heq]
      exact (walk todos rest _ depth state).2 hseen
    | inr hrest => exact ih.1 sibling hrest
  | case3 todo rest hcons depth state hnew under after _ ihunder _ ihrest _ =>
    have hfirst : todo.id ∈ under.1.seen := under.2 List.mem_cons_self
    refine ⟨fun sibling hsibling => ?_, fun id hid hold child hchild => ?_⟩
    · cases List.mem_cons.mp hsibling with
      | inl heq =>
        rw [heq]
        exact after.2 hfirst
      | inr hrest => exact ihrest.1 sibling hrest
    · -- What is new after the siblings is the first, seen under it, or seen with the rest.
      by_cases hunder : id ∈ under.1.seen
      · by_cases heq : id = todo.id
        · rw [heq] at hchild
          exact after.2 (ihunder.1 child hchild)
        · have hvisit : id ∉ (state.visit todo depth).seen := by
            intro hmem
            cases List.mem_cons.mp hmem with
            | inl hsame => exact heq hsame
            | inr hbefore => exact hold hbefore
          exact after.2 (ihunder.2 id hunder hvisit child hchild)
      · exact ihrest.2 id hid hunder child hchild

/-- The lines, each at the top or after its parent's and one deeper. -/
inductive Placed (todos : List Todo) (top : Todo → ℕ → Prop) : List (Todo × ℕ) → Prop
  | nil : Placed todos top []
  | snoc {out : List (Todo × ℕ)} {todo : Todo} {depth : ℕ} : Placed todos top out →
      (top todo depth ∨ ∃ line ∈ out, parentOf todos todo = some line.1.id ∧ depth = line.2 + 1) →
      Placed todos top (out ++ [(todo, depth)])

variable {top : Todo → ℕ → Prop}

/-- The lines printed before a walk stay. -/
theorem out_prefix_walk : state.out <+: (walk todos siblings hsiblings depth state).1.out := by
  fun_induction walk todos siblings hsiblings depth state with
  | case1 => exact List.prefix_rfl
  | case2 todo rest hcons depth state hseen _ ih => exact ih
  | case3 todo rest hcons depth state hnew under after _ ihunder _ ihrest =>
    exact (List.prefix_append _ _).trans (ihunder.trans ihrest)

/-- A walk of siblings that are at the top, or whose parent's line is printed, keeps the lines placed. -/
theorem Placed.walk (h : Placed todos top state.out) (hplace : ∀ todo ∈ siblings,
    top todo depth ∨ ∃ line ∈ state.out, parentOf todos todo = some line.1.id ∧ depth = line.2 + 1) :
    Placed todos top (walk todos siblings hsiblings depth state).1.out := by
  fun_induction Render.walk todos siblings hsiblings depth state with
  | case1 => exact h
  | case2 todo rest hcons depth state hseen _ ih =>
    exact ih h fun sibling hsibling => hplace sibling (List.mem_cons_of_mem todo hsibling)
  | case3 todo rest hcons depth state hnew under after _ ihunder _ ihrest _ =>
    have hunder : Placed todos top under.1.out := by
      refine ihunder (h.snoc (hplace todo List.mem_cons_self)) fun child hchild => Or.inr ⟨(todo, depth), ?_, ?_, rfl⟩
      · exact List.mem_append_right _ List.mem_cons_self
      · exact (mem_childrenOf.mp hchild).2
    refine ihrest hunder fun sibling hsibling => ?_
    cases hplace sibling (List.mem_cons_of_mem todo hsibling) with
    | inl htop => exact Or.inl htop
    | inr hparent =>
      obtain ⟨line, hline, heq⟩ := hparent
      exact Or.inr ⟨line, (List.IsPrefix.subset out_prefix_walk) (List.mem_append_left _ hline), heq⟩

/-- A placed line that is not at the top has its parent's before it. -/
theorem Placed.exists_append {out : List (Todo × ℕ)} (h : Placed todos top out) {todo : Todo} {depth : ℕ}
    (hline : (todo, depth) ∈ out) : ∃ before after, out = before ++ (todo, depth) :: after ∧
      (top todo depth ∨ ∃ line ∈ before, parentOf todos todo = some line.1.id ∧ depth = line.2 + 1) := by
  induction h with
  | nil => exact absurd hline List.not_mem_nil
  | @snoc out last deep hout hplace ih =>
    cases List.mem_append.mp hline with
    | inl hold =>
      obtain ⟨before, after, hsplit, hbefore⟩ := ih hold
      exact ⟨before, after ++ [(last, deep)], by rw [hsplit, List.append_assoc]; rfl, hbefore⟩
    | inr hlast =>
      obtain ⟨rfl, rfl⟩ := Prod.mk.inj (List.mem_singleton.mp hlast)
      exact ⟨out, [], rfl, hplace⟩

end Walks

section Trees

variable {todos : List Todo}

/-- The lines of the top level are sound. -/
theorem sound_rooted (todos : List Todo) : Sound todos (rooted todos) := by
  have hempty : Sound todos ⟨[], []⟩ :=
    ⟨fun id => Iff.rfl, List.nodup_nil, fun line hline => absurd hline List.not_mem_nil⟩
  exact hempty.walk

/-- A stranded todo keeps the lines sound, and is seen afterwards. -/
theorem Sound.strand {state : Walked} (h : Sound todos state) {todo : Todo} (hmem : todo ∈ todos) :
    Sound todos (Render.strand todos state todo) ∧ todo.id ∈ (Render.strand todos state todo).seen := by
  unfold Render.strand
  split
  · rename_i hseen
    exact ⟨h, hseen⟩
  · rename_i hnew
    refine ⟨(h.visit hmem hnew 0).walk, ?_⟩
    exact (Render.walk todos _ _ 1 (state.visit todo 0)).2 List.mem_cons_self

/-- What is seen and printed before a stranded todo stays so. -/
theorem strand_grows (todos : List Todo) (state : Walked) (todo : Todo) :
    state.seen ⊆ (strand todos state todo).seen ∧ state.out <+: (strand todos state todo).out := by
  unfold strand
  split
  · exact ⟨List.Subset.refl _, List.prefix_rfl⟩
  · refine ⟨fun id hid => (walk todos _ _ 1 (state.visit todo 0)).2 (List.mem_cons_of_mem _ hid), ?_⟩
    have hvisit : state.out <+: (state.visit todo 0).out := List.prefix_append state.out [(todo, 0)]
    exact hvisit.trans out_prefix_walk

/-- What is seen and printed before the stranded todos stays so. -/
theorem strands_grow (todos : List Todo) (state : Walked) (list : List Todo) :
    state.seen ⊆ (list.foldl (strand todos) state).seen ∧ state.out <+: (list.foldl (strand todos) state).out := by
  induction list generalizing state with
  | nil => exact ⟨List.Subset.refl _, List.prefix_rfl⟩
  | cons todo rest ih =>
    obtain ⟨hseen, hout⟩ := strand_grows todos state todo
    obtain ⟨hrest, hafter⟩ := ih (strand todos state todo)
    exact ⟨fun id hid => hrest (hseen hid), hout.trans hafter⟩

/-- The lines after the stranded todos are sound, and each of them is seen. -/
theorem Sound.strands {state : Walked} (h : Sound todos state) {list : List Todo} (hlist : list ⊆ todos) :
    Sound todos (list.foldl (Render.strand todos) state) ∧
      ∀ todo ∈ list, todo.id ∈ (list.foldl (Render.strand todos) state).seen := by
  induction list generalizing state with
  | nil => exact ⟨h, fun todo htodo => absurd htodo List.not_mem_nil⟩
  | cons todo rest ih =>
    obtain ⟨hsound, hseen⟩ := h.strand (List.cons_subset.mp hlist).1
    obtain ⟨hafter, hrest⟩ := ih hsound (List.cons_subset.mp hlist).2
    rw [List.foldl_cons]
    refine ⟨hafter, fun other hother => ?_⟩
    cases List.mem_cons.mp hother with
    | inl heq =>
      rw [heq]
      exact (strands_grow todos _ rest).1 hseen
    | inr hmem => exact hrest other hmem

/-- A listed todo that another is printed under: its parent, unless a todo names itself. -/
def ListedParent (todos : List Todo) (parent todo : Todo) : Prop :=
  parent ∈ todos ∧ todo.parent = some parent.id ∧ parent.id ≠ todo.id

theorem ListedParent.parentOf {parent todo : Todo} (h : ListedParent todos parent todo) :
    Render.parentOf todos todo = some parent.id := by
  obtain ⟨hmem, hparent, hother⟩ := h
  rw [Render.parentOf, hparent, Option.filter_some, if_pos]
  rw [Bool.and_eq_true, bne_iff_ne, decide_eq_true_eq]
  exact ⟨List.mem_map_of_mem hmem, hother⟩

theorem exists_listedParent {todo : Todo} {id : String} (h : parentOf todos todo = some id) :
    ∃ parent, ListedParent todos parent todo ∧ parent.id = id := by
  obtain ⟨hparent, hlisted⟩ := Option.filter_eq_some_iff.mp h
  rw [Bool.and_eq_true, bne_iff_ne, decide_eq_true_eq] at hlisted
  obtain ⟨parent, hmem, rfl⟩ := List.mem_map.mp hlisted.1
  exact ⟨parent, ⟨hmem, hparent, hlisted.2⟩, rfl⟩

/-- The top level leads to every todo whose chain of parents ends. -/
theorem seen_rooted {todo : Todo} (hmem : todo ∈ todos) (hends : Acc (ListedParent todos) todo) :
    todo.id ∈ (rooted todos).seen := by
  induction hends with
  | intro todo _ ih =>
    obtain ⟨htop, hclosed⟩ := @closed_walk todos (childrenOf todos none) (childrenOf_subset todos none)
      0 ⟨[], []⟩
    cases hparent : parentOf todos todo with
    | none => exact htop todo (mem_childrenOf.mpr ⟨hmem, hparent⟩)
    | some id =>
      obtain ⟨parent, hlisted, rfl⟩ := exists_listedParent hparent
      exact hclosed parent.id (ih parent hlisted hlisted.1) List.not_mem_nil todo
        (mem_childrenOf.mpr ⟨hmem, hparent⟩)

/-- The lines of the tree are sound, and every todo is seen. -/
theorem sound_tree (todos : List Todo) : Sound todos ((stranded todos).foldl (strand todos) (rooted todos)) ∧
    ∀ todo ∈ todos, todo.id ∈ ((stranded todos).foldl (strand todos) (rooted todos)).seen := by
  have hmem : ∀ todo, todo ∈ stranded todos ↔ todo ∈ todos ∧ todo.id ∉ (rooted todos).seen := by
    intro todo
    rw [stranded, List.mem_insertionSort, List.mem_filter, decide_eq_true_eq]
  obtain ⟨hsound, hseen⟩ := (sound_rooted todos).strands fun todo htodo => ((hmem todo).mp htodo).1
  refine ⟨hsound, fun todo htodo => ?_⟩
  by_cases hroot : todo.id ∈ (rooted todos).seen
  · exact (strands_grow todos (rooted todos) (stranded todos)).1 hroot
  · exact hseen todo ((hmem todo).mpr ⟨htodo, hroot⟩)

/-- Two todos of a list with distinct ids are the same when their ids are. -/
theorem eq_of_id_eq (hdistinct : (todos.map Todo.id).Nodup) {todo other : Todo} (htodo : todo ∈ todos)
    (hother : other ∈ todos) (heq : todo.id = other.id) : todo = other :=
  List.inj_on_of_nodup_map hdistinct htodo hother heq

/-- For todos with distinct ids and any parents: each todo is listed exactly once, and a todo whose chain of parents
ends is listed after its listed parent, one deeper. -/
theorem tree_complete (todos : List Todo) (hdistinct : (todos.map Todo.id).Nodup) :
    ((tree todos).map Prod.fst).Perm todos ∧
      ∀ todo ∈ todos, Acc (ListedParent todos) todo → ∀ parent, ListedParent todos parent todo →
        ∃ before between after depth, tree todos =
          before ++ (parent, depth) :: (between ++ (todo, depth + 1) :: after) := by
  obtain ⟨hsound, hseen⟩ := sound_tree todos
  refine ⟨?_, fun todo hmem hends parent hparent => ?_⟩
  · have hlines : ((tree todos).map Prod.fst).map Todo.id = (tree todos).map fun line => line.1.id := List.map_map ..
    have hnodup : ((tree todos).map Prod.fst).Nodup := List.Nodup.of_map Todo.id (hlines ▸ hsound.distinct)
    refine (List.perm_ext_iff_of_nodup hnodup (List.Nodup.of_map Todo.id hdistinct)).mpr fun todo => ?_
    constructor
    · intro hline
      obtain ⟨line, hout, rfl⟩ := List.mem_map.mp hline
      exact hsound.listed line hout
    · intro hmem
      obtain ⟨line, hout, hid⟩ := List.mem_map.mp ((hsound.seen todo.id).mp (hseen todo hmem))
      exact List.mem_map.mpr ⟨line, hout, eq_of_id_eq hdistinct (hsound.listed line hout) hmem hid⟩
  · have hroot := sound_rooted todos
    have hplaced : Placed todos (fun todo _ => parentOf todos todo = none) (rooted todos).out := by
      have hstart : Placed todos (fun todo _ => parentOf todos todo = none) (Walked.mk [] []).out := Placed.nil
      refine hstart.walk fun child hchild => Or.inl ?_
      exact (mem_childrenOf.mp hchild).2
    obtain ⟨line, hline, hid⟩ := List.mem_map.mp ((hroot.seen todo.id).mp (seen_rooted hmem hends))
    obtain ⟨listed, depth⟩ := line
    obtain rfl := eq_of_id_eq hdistinct (hroot.listed _ hline) hmem hid
    obtain ⟨before, after, hsplit, hbefore⟩ := hplaced.exists_append hline
    obtain ⟨rest, hrest⟩ := (strands_grow todos (rooted todos) (stranded todos)).2
    cases hbefore with
    | inl htop => exact absurd (hparent.parentOf.symm.trans htop) (Option.some_ne_none _)
    | inr habove =>
      obtain ⟨⟨above, deep⟩, habove, heq, rfl⟩ := habove
      have hlisted : above ∈ todos := by
        apply hroot.listed (above, deep)
        rw [hsplit]
        exact List.mem_append_left _ habove
      obtain rfl := eq_of_id_eq hdistinct hlisted hparent.1 (Option.some.inj (heq.symm.trans hparent.parentOf))
      obtain ⟨first, second, rfl⟩ := List.append_of_mem habove
      refine ⟨first, second, after ++ rest, deep, ?_⟩
      rw [tree, ← hrest, hsplit]
      simp only [List.append_assoc, List.cons_append]

/-- Two todos that name each other as their parent still show, after one that has none. -/
theorem tree_complete_cycle :
    ((tree [⟨"a", "", .pending, some "b", none, none, none, none, [], none⟩,
      ⟨"b", "", .pending, some "a", none, none, none, none, [], none⟩,
      ⟨"c", "", .pending, none, none, none, none, none, [], none⟩]).map Prod.fst).Perm
      [⟨"a", "", .pending, some "b", none, none, none, none, [], none⟩,
        ⟨"b", "", .pending, some "a", none, none, none, none, [], none⟩,
        ⟨"c", "", .pending, none, none, none, none, none, [], none⟩] :=
  (tree_complete _ (by decide)).1

end Trees

end Devkit.Todos.Render
