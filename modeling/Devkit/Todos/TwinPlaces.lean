import Devkit.Library.Selections
import Devkit.Todos.TwinEdits

/-!
# Orders and parents on both stores

The todos of a node under a parent are siblings in both stores, with the same orders, so both place a
todo at the same order after the last of them. A move finds its todo and its parent in either order.
-/

namespace Devkit.Todos

open Devkit.Library
open Std

/-- The greater of two machine integers is that of their order. -/
instance lawfulOrderMax_int64 : LawfulOrderMax Int64 where
  max_eq_or a b := by
    change (if a ≤ b then b else a) = a ∨ (if a ≤ b then b else a) = b
    split
    · exact Or.inr rfl
    · exact Or.inl rfl
  max_le_iff a b c := by
    change (if a ≤ b then b else a) ≤ c ↔ _
    split
    · rename_i hle
      exact ⟨fun hb => ⟨Int64.le_trans hle hb, hb⟩, fun hab => hab.2⟩
    · rename_i hnot
      have hle : b ≤ a := (Int64.le_total a b).resolve_left hnot
      exact ⟨fun ha => ⟨ha, Int64.le_trans hle ha⟩, fun hab => hab.1⟩

/-- An order is read back as the double nearest to it. -/
theorem readOrder_orderText (order : Int64) :
    readOrder (orderText order) = some (Int64.ofIntClamp (roundHalfAway (nearestDouble order.toInt))) := by
  have hsize : |(order.toInt : ℚ)| < 2 ^ 64 := by
    have hlow := order.le_toInt
    have hhigh := order.toInt_lt
    rw [← Int.cast_abs]
    exact_mod_cast abs_lt.mpr ⟨by omega, by omega⟩
  rw [readOrder, orderText, parseDouble_repr, Option.map_some, Double.ofRat_eq_finite hsize, castOrder]

/-- An order of at most 53 bits is read back from its double. -/
theorem exact_of_lt {order : Int64} (h : order.toInt.natAbs < 2 ^ 53) : Twins.Exact order := by
  rw [Twins.Exact, readOrder_orderText, nearestDouble_intCast h, roundHalfAway_intCast, Int64.ofIntClamp_toInt]

section Places

variable {lib : TaskLibraries} {s : Twins}

/-- The todos of a replica are those its tasks are read as. -/
theorem mem_todos {r : Replica} {todo : Todo} :
    todo ∈ r.todos lib ↔ ∃ (uuid : Uuid) (task : Properties), r.tasks[uuid]? = some task ∧
      todoFrom lib uuid task = some todo := by
  rw [Replica.todos, List.mem_filterMap]
  constructor
  · rintro ⟨⟨uuid, task⟩, hrow, htodo⟩
    exact ⟨uuid, task, ExtTreeMap.mem_toList_iff_getElem?_eq_some.mp hrow, htodo⟩
  · rintro ⟨uuid, task, htask, htodo⟩
    exact ⟨(uuid, task), ExtTreeMap.mem_toList_iff_getElem?_eq_some.mpr htask, htodo⟩

/-- A todo has a twin in the other list. -/
theorem Simulates.twin_mem (h : Simulates lib s) {key : ℕ} {todo : Todo} (htodo : s.doc.todos[key]? = some todo) :
    ∃ twin ∈ s.replica.todos lib, Twin s.made todo twin := by
  obtain ⟨uuid, task, twin, htask, hread, htwin⟩ := h.live htodo
  exact ⟨twin, mem_todos.mpr ⟨uuid, task, htask, (todoFrom_eq_some hread.canonical).mpr hread⟩, htwin⟩

/-- A todo of the other list is a twin. -/
theorem Simulates.todo_mem (h : Simulates lib s) {twin : Todo} (htwin : twin ∈ s.replica.todos lib) :
    ∃ (key : ℕ) (todo : Todo), s.doc.todos[key]? = some todo ∧ Twin s.made todo twin := by
  obtain ⟨uuid, task, htask, hread⟩ := mem_todos.mp htwin
  obtain ⟨key, todo, other, hfound⟩ := h.found_task htask
  obtain rfl := Option.some.inj (((todoFrom_eq_some hfound.read.canonical).mpr hfound.read).symm.trans hread)
  exact ⟨key, todo, hfound.held, hfound.twins⟩

/-- Parents that are translated to the same one are the same. -/
theorem Simulates.parent_eq_iff (h : Simulates lib s) {key : ℕ} {todo twin : Todo}
    (htodo : s.doc.todos[key]? = some todo) (htwin : Twin s.made todo twin) (parent : Option String)
    (hparent : ∀ id ∈ parent, id ∈ s.made) :
    twin.parent = parent.map (translate s.made) ↔ todo.parent = parent := by
  rw [htwin.parent]
  cases hof : todo.parent with
  | none => cases parent <;> simp
  | some id =>
    cases parent with
    | none => simp
    | some other =>
      rw [Option.map_some, Option.map_some, Option.some_inj, Option.some_inj]
      exact h.names.translate_inj (Or.inl (h.parent htodo id hof)) (Or.inl (hparent other rfl))

/-- Both stores place a todo at the same order after its siblings, where the todos of the node name it alike. -/
theorem Simulates.afterLast_eq (h : Simulates lib s) {project node parent skip : Option String}
    (hnode : node.getD globalNode = projectOf project)
    (halike : ∀ todo ∈ rows s.doc.todos, todo.node = projectOf project → todo.project = project)
    (hparent : ∀ id ∈ parent, id ∈ s.made) (hskip : ∀ id ∈ skip, id ∈ s.made) :
    s.replica.afterLast lib node (parent.map (translate s.made)) (skip.map (translate s.made)) =
      s.doc.afterLast project parent skip := by
  have hsibling : ∀ {key : ℕ} {todo twin : Todo}, s.doc.todos[key]? = some todo → Twin s.made todo twin →
      ((twin.node == node.getD globalNode && twin.parent == parent.map (translate s.made) &&
        some twin.id != skip.map (translate s.made)) = true ↔
      (todo.project == project && todo.parent == parent && some todo.id != skip) = true) := by
    intro key todo twin htodo htwin
    have hproject : twin.node = node.getD globalNode ↔ todo.project = project := by
      rw [hnode, htwin.node]
      constructor
      · exact halike todo (mem_rows.mpr ⟨key, htodo⟩)
      · intro heq
        rw [Todo.node, heq]
        rfl
    have hid : some twin.id = skip.map (translate s.made) ↔ some todo.id = skip := by
      rw [← translate_of_made htwin.id]
      cases skip with
      | none => simp
      | some id =>
        rw [Option.map_some, Option.some_inj, Option.some_inj]
        refine h.names.translate_inj (Or.inl ?_) (Or.inl (hskip id rfl))
        exact ExtTreeMap.mem_iff_isSome_getElem?.mpr (by rw [htwin.id]; rfl)
    simp only [Bool.and_eq_true, beq_iff_eq, bne_iff_ne, ne_eq, hproject,
      h.parent_eq_iff htodo htwin parent hparent, hid]
  rw [Replica.afterLast, Doc.afterLast]
  refine congrArg (fun last : Option Int64 => last.getD 0 + orderGap) (max?_congr fun order => ?_)
  simp only [List.mem_filterMap, List.mem_filter]
  constructor
  · rintro ⟨twin, ⟨htwin, hkept⟩, horder⟩
    obtain ⟨key, todo, htodo, htwins⟩ := h.todo_mem htwin
    exact ⟨todo, ⟨mem_rows.mpr ⟨key, htodo⟩, (hsibling htodo htwins).mp hkept⟩, htwins.order ▸ horder⟩
  · rintro ⟨todo, ⟨htodo, hkept⟩, horder⟩
    obtain ⟨key, htodo⟩ := mem_rows.mp htodo
    obtain ⟨twin, htwin, htwins⟩ := h.twin_mem htodo
    exact ⟨twin, ⟨htwin, (hsibling htodo htwins).mpr hkept⟩, htwins.order ▸ horder⟩

/-- The order a todo is placed at is the same in both stores, and is read back. -/
theorem Simulates.placed (h : Simulates lib s) {project parent : Option String} (node skip : Option String)
    {order : Option Int64} (hnode : node.getD globalNode = projectOf project)
    (hplaced : s.Placed project parent order skip)
    (hparent : ∀ id ∈ parent, id ∈ s.made) (hskip : ∀ id ∈ skip, id ∈ s.made) :
    order.getD (s.replica.afterLast lib node (parent.map (translate s.made)) (skip.map (translate s.made))) =
      order.getD (s.doc.afterLast project parent skip) ∧
        Twins.Exact (order.getD (s.doc.afterLast project parent skip)) := by
  cases order with
  | some order =>
    rw [Option.getD_some, Option.getD_some]
    exact ⟨rfl, hplaced⟩
  | none =>
    obtain ⟨hexact, halike⟩ := hplaced
    exact ⟨h.afterLast_eq hnode halike hparent hskip, hexact⟩

/-- The node a twin is on is the node of its todo. -/
theorem Twin.project {made : ExtTreeMap String String} {todo twin : Todo} (h : Twin made todo twin) :
    twin.project.getD globalNode = projectOf todo.project := h.node

/-- A parent that is missing is refused by the other store. -/
theorem Missing.resolveParent {id : String} (h : Missing lib s id) :
    ∃ failure, s.replica.resolveParent lib (some (translate s.made id)) = .error failure := by
  obtain ⟨failure, hfailure⟩ := h.resolve
  refine ⟨failure, ?_⟩
  rw [Replica.resolveParent, hfailure]
  rfl

/-- A parent that is found is the uuid of its task. -/
theorem Found.resolveParent {id : String} {key : ℕ} {todo : Todo} {uuid : Uuid} {task : Properties} {twin : Todo}
    (h : Found lib s id key todo uuid task twin) :
    s.replica.resolveParent lib (some (translate s.made id)) = .ok (some (translate s.made id)) := by
  rw [Replica.resolveParent, h.resolve, h.translated, ← h.read.id]
  rfl

/-- A todo and its twin move under a parent alike. -/
theorem alike_move_under (h : Simulates lib s) (now : Instant) {id : String} {key : ℕ} {todo : Todo} {uuid : Uuid}
    {task : Properties} {twin : Todo} (hfound : Found lib s id key todo uuid task twin) {parent : Option String}
    {order : Option Int64} (hparent : ∀ id ∈ parent, id ∈ s.made)
    (hplaced : s.Placed todo.project parent order (some id)) :
    Alike lib s
      (.ok (s.doc.put key { todo with
        parent, order := some (order.getD (s.doc.afterLast todo.project parent (some id)))
        modified := some now.text }, ([] : List StatusChange)))
      (s.replica.change lib twin (fun task => (task.set now "subof" (parent.map (translate s.made))).set now "order"
        (some (orderText (order.getD (s.replica.afterLast lib twin.project (parent.map (translate s.made))
          (some twin.id)))))) >>= fun r => .ok (r, ([] : List StatusChange))) := by
  have hskip : some twin.id = (some id).map (translate s.made) := by
    rw [Option.map_some, hfound.translated, hfound.read.id]
  have hknown : ∀ other ∈ some id, other ∈ s.made := by
    intro other hother
    obtain rfl := Option.some.inj hother
    exact hfound.mem_made
  obtain ⟨hsame, hexact⟩ := h.placed twin.project (some id) hfound.twins.project hplaced hparent hknown
  rw [hskip, hsame]
  exact alike_put h hfound _ rfl (fun ticket hticket => ⟨ticket, hticket, rfl, rfl⟩) hparent (hfound.blockers h)
    ((hfound.read.setParent now (parent.map (translate s.made))).setOrder now _)
    { hfound.twins with parent := rfl, order := hexact }

/-- A move is alike, whichever of the todo and the parent is missing. -/
theorem alike_move (h : Simulates lib s) (now : Instant) {id : String} {parent : Option String} {order : Option Int64}
    (hmeant : s.Meant lib id) (hunder : ∀ under ∈ parent, s.Meant lib under)
    (hplaced : ∀ todo, s.doc.get id = some todo → s.Placed todo.project parent order (some id)) :
    Alike lib s (s.doc.apply now (.move id parent order))
      (s.replica.apply lib now (.move (translate s.made id) (parent.map (translate s.made)) order)) := by
  have hget : ∀ {key : ℕ} {todo : Todo} {uuid : Uuid} {task : Properties} {twin : Todo},
      Found lib s id key todo uuid task twin → s.Placed todo.project parent order (some id) := by
    intro key todo uuid task twin hfound
    exact hplaced todo (by rw [Doc.get, hfound.parsed, Option.bind_some, hfound.held])
  cases parent with
  | none =>
    refine alike_of_found h hmeant fun {key todo uuid task twin} hfound => ?_
    exact alike_move_under h now hfound (fun _ hid => absurd hid.symm (Option.some_ne_none _)) (hget hfound)
  | some parent =>
    cases h.found_or_missing (hunder parent rfl) with
    | inl hparent =>
      obtain ⟨_, _, _, _, _, hparent⟩ := hparent
      have hmutable : s.doc.apply now (.move id (some parent) order) = s.doc.todoMut id >>= fun found =>
          .ok (s.doc.put found.1 { found.2 with
            parent := some parent
            order := some (order.getD (s.doc.afterLast found.2.project (some parent) (some id)))
            modified := some now.text }, []) := by
        simp only [Doc.apply, hparent.todoMut]
        rfl
      rw [hmutable]
      refine alike_of_found h hmeant fun {key todo uuid task twin} hfound => ?_
      rw [Option.map_some, hparent.resolveParent]
      refine alike_move_under h now hfound (fun id hid => ?_) (hget hfound)
      obtain rfl := Option.some.inj hid
      exact hparent.mem_made
    | inr hmissing =>
      obtain ⟨failure, hfailure⟩ := hmissing.resolveParent
      have hrefused : s.doc.apply now (.move id (some parent) order) = .error (.noTodo parent) := by
        simp only [Doc.apply, todoMut_of_get hmissing.get]
        rfl
      rw [hrefused]
      simp only [Replica.apply, Option.map_some, hfailure]
      cases s.replica.resolve lib (translate s.made id) with
      | error failure => exact .refused
      | ok twin => exact .refused

end Places

end Devkit.Todos
