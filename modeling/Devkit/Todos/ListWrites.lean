import Mathlib.Data.List.Induction
import Devkit.Todos.ListReplace
import Devkit.Todos.Kept

/-!
# What the writes of a resent list do

A call's edits change what a todo says, its status, its order and its ticket. Each edit changes one
of these under one key, so what a run of edits leaves under a key is read off the last edit of each
sort that names it.
-/

namespace Devkit.Todos

open Devkit.Library
open Std

/-- What a plan tool's list sees of a todo. -/
@[ext] structure Face where
  description : String
  kind : StatusKind
  order : Option Int64
  ticket : Option TicketRef

/-- A todo as a plan tool's list sees it. -/
def Todo.face (todo : Todo) : Face := ⟨todo.description, todo.status.kind, todo.order, todo.ticket⟩

namespace Doc

/-- The todo under a key as a plan tool's list sees it. -/
def face (doc : Doc) (key : ℕ) : Option Face := (doc.todos[key]?).map Todo.face

/-- Writing one todo back changes what is seen under its key. -/
theorem face_put (doc : Doc) (key other : ℕ) (todo : Todo) :
    (doc.put key todo).face other = if key = other then some todo.face else doc.face other := by
  rw [face, getElem?_put]
  split <;> rfl

/-- What is seen under a key comes from the todo there. -/
theorem face_eq_some {doc : Doc} {key : ℕ} {seen : Face} :
    doc.face key = some seen ↔ ∃ todo, doc.todos[key]? = some todo ∧ todo.face = seen := Option.map_eq_some_iff

/-- Changing a todo in one place changes what is seen under its key in that place. -/
theorem face_put_modify {doc : Doc} {key : ℕ} {todo after : Todo} {modify : Face → Face}
    (htodo : doc.todos[key]? = some todo) (hafter : after.face = modify todo.face) (other : ℕ) :
    (doc.put key after).face other = if key = other then (doc.face other).map modify else doc.face other := by
  rw [face_put]
  split
  · rename_i heq
    rw [← heq, face, htodo, Option.map_some, Option.map_some, hafter]
  · rfl

/-- A change of status leaves the todo's status of the kind asked for, and nothing else changed. -/
theorem apply_setStatus_face {doc doc' : Doc} {now : Instant} {key : ℕ} {target : StatusKind} {actor : Holder}
    {changes : List StatusChange} (h : doc.apply now (.setStatus (idOf key) target actor) = .ok (doc', changes)) :
    doc'.nextId = doc.nextId ∧ ∀ other, doc'.face other =
      if key = other then (doc.face other).map fun seen => { seen with kind := target } else doc.face other := by
  rw [apply, changeStatus] at h
  split at h
  · contradiction
  · rename_i found todo hmut
    obtain ⟨hkey, htodo⟩ := todoMut_eq_ok.mp hmut
    obtain rfl := Option.some.inj ((parseKey_idOf key).symm.trans hkey)
    split at h
    · rename_i next hnext
      obtain ⟨rfl, -⟩ := Prod.mk.inj (Except.ok.inj h)
      cases next with
      | none =>
        refine ⟨rfl, fun other => ?_⟩
        by_cases heq : key = other
        · rw [if_pos heq, ← heq, ← transition_none_kind hnext]
          change (doc.todos[key]?).map Todo.face = ((doc.todos[key]?).map Todo.face).map _
          rw [htodo]
          rfl
        · rw [if_neg heq]
      | some next =>
        refine ⟨rfl, face_put_modify htodo ?_⟩
        rw [Todo.face, transition_kind hnext]
        rfl
    · contradiction

/-- A reorder leaves the todo with the order, and nothing else changed. -/
theorem apply_reorder_face {doc doc' : Doc} {now : Instant} {key : ℕ} {order : Int64}
    {changes : List StatusChange} (h : doc.apply now (.reorder (idOf key) order) = .ok (doc', changes)) :
    doc'.nextId = doc.nextId ∧ ∀ other, doc'.face other =
      if key = other then (doc.face other).map fun seen => { seen with order := some order } else doc.face other := by
  obtain ⟨⟨found, todo⟩, hmut, h⟩ := bind_eq_ok.mp h
  obtain ⟨hkey, htodo⟩ := todoMut_eq_ok.mp hmut
  obtain rfl := Option.some.inj ((parseKey_idOf key).symm.trans hkey)
  obtain ⟨rfl, -⟩ := Prod.mk.inj (Except.ok.inj h)
  exact ⟨rfl, face_put_modify htodo rfl⟩

/-- A relocation changes nothing a plan tool's list sees. -/
theorem apply_relocate_face {doc doc' : Doc} {now : Instant} {id : String} {project : Option String}
    {changes : List StatusChange} (h : doc.apply now (.relocate id project) = .ok (doc', changes)) :
    doc'.nextId = doc.nextId ∧ ∀ other, doc'.face other = doc.face other := by
  obtain ⟨⟨key, todo⟩, hmut, h⟩ := bind_eq_ok.mp h
  obtain ⟨_, htodo⟩ := todoMut_eq_ok.mp hmut
  obtain ⟨rfl, -⟩ := Prod.mk.inj (Except.ok.inj h)
  refine ⟨rfl, fun other => ?_⟩
  rw [face_put]
  split
  · rename_i heq
    rw [← heq, face, htodo]
    rfl
  · rfl

/-- A todo added for a step is pending under the next key, and nothing else changed. -/
theorem add_face {doc doc' : Doc} {now : Instant} {text id : String} {project : Option String} {order : Int64}
    (h : doc.add now ⟨project, text, none, some order, none⟩ = .ok (doc', id)) :
    id = idOf (max doc.nextId 1) ∧ doc'.nextId = max doc.nextId 1 + 1 ∧ ∀ other, doc'.face other =
      if max doc.nextId 1 = other then some ⟨oneLine text, .pending, some order, none⟩ else doc.face other := by
  obtain ⟨rfl, rfl⟩ := Prod.mk.inj (Except.ok.inj h)
  refine ⟨rfl, rfl, fun other => ?_⟩
  exact face_put ⟨max doc.nextId 1 + 1, doc.todos⟩ (max doc.nextId 1) other _

end Doc

namespace Native

/-- The status a change leaves a todo with, if it moves it. -/
def Change.kindFor (id : String) : Change → Option StatusKind
  | .cancel todo => if todo = id then some .cancelled else none
  | .status todo target => if todo = id then some target else none
  | _ => none

/-- The order a change leaves a todo with, if it moves it. -/
def Change.orderFor (id : String) : Change → Option Int64
  | .reorder todo order => if todo = id then some order else none
  | _ => none

/-- What is seen of a todo after a change. -/
def Face.after (id : String) (seen : Face) (change : Change) : Face :=
  { seen with kind := (change.kindFor id).getD seen.kind, order := (change.orderFor id).or seen.order }

/-- Changes settle a call's state into another: they only write under the keys they name. -/
structure Settles (state : Replacing) (changes : List Change) (state' : Replacing) : Prop where
  ids : state'.ids = state.ids
  uncancelled : state'.uncancelled = state.uncancelled
  nextId : state'.doc.nextId = state.doc.nextId
  face : ∀ key, state'.doc.face key =
    (state.doc.face key).map fun seen => changes.foldl (Face.after (idOf key)) seen

/-- A write that was not refused is the store's. -/
theorem write_of_not_failed {clock : ℕ → Instant} {state : Replacing} {edit : Edit}
    (h : (state.write clock edit).1.failed = none) : state.failed = none ∧
      ∃ doc changes, state.doc.apply (clock state.writes) edit = .ok (doc, changes) ∧
        state.write clock edit = ({ state with doc, writes := state.writes + 1 }, true) := by
  unfold Replacing.write at h ⊢
  split at h
  · rename_i doc changes happly
    exact ⟨h, doc, changes, happly, rfl⟩
  · obtain ⟨_, hnone⟩ := Option.or_eq_none_iff.mp h
    contradiction

/-- A refusal once met is kept. -/
theorem write_failed {clock : ℕ → Instant} {state : Replacing} {edit : Edit}
    (h : (state.write clock edit).1.failed = none) : state.failed = none := (write_of_not_failed h).1

/-- A status written under a key settles the change that asked for it. -/
theorem settles_setStatus {clock : ℕ → Instant} {state : Replacing} {key : ℕ} {target : StatusKind}
    {actor : Holder} {change : Change}
    (h : (state.write clock (.setStatus (idOf key) target actor)).1.failed = none)
    (hkind : ∀ id, change.kindFor id = if idOf key = id then some target else none)
    (horder : ∀ id, change.orderFor id = none) :
    Settles state [change] (state.write clock (.setStatus (idOf key) target actor)).1 := by
  obtain ⟨-, doc, changes, happly, hwrite⟩ := write_of_not_failed h
  obtain ⟨hnext, hface⟩ := Doc.apply_setStatus_face happly
  rw [hwrite]
  refine ⟨rfl, rfl, hnext, fun other => ?_⟩
  change doc.face other = _
  rw [hface other]
  cases state.doc.face other with
  | none => exact ite_self none
  | some seen =>
    simp only [Option.map_some, List.foldl_cons, List.foldl_nil, Face.after, hkind, horder, idOf_inj]
    split <;> rfl

/-- An order written under a key settles the change that asked for it. -/
theorem settles_reorder {clock : ℕ → Instant} {state : Replacing} {key : ℕ} {order : Int64}
    (h : (state.write clock (.reorder (idOf key) order)).1.failed = none) :
    Settles state [.reorder (idOf key) order] (state.write clock (.reorder (idOf key) order)).1 := by
  obtain ⟨-, doc, changes, happly, hwrite⟩ := write_of_not_failed h
  obtain ⟨hnext, hface⟩ := Doc.apply_reorder_face happly
  rw [hwrite]
  refine ⟨rfl, rfl, hnext, fun other => ?_⟩
  change doc.face other = _
  rw [hface other]
  cases state.doc.face other with
  | none => exact ite_self none
  | some seen =>
    simp only [Option.map_some, List.foldl_cons, List.foldl_nil, Face.after, Change.kindFor, Change.orderFor,
      idOf_inj]
    split <;> rfl

variable {c : Capture} {clock : ℕ → Instant} {isTicket : String → Bool} {previous : List Mirrored}
  {next : List Step}

/-- A change of a todo that is no ticket's settles it, where nothing was refused. -/
theorem change_settles {state state' : Replacing} {change : Change} {key : ℕ}
    (h : state.change c clock isTicket previous next change = .ok state') (hfailed : state'.failed = none)
    (htarget : change.target = some (idOf key)) (hticket : isTicket (idOf key) = false) :
    state.failed = none ∧ Settles state [change] state' := by
  cases change with
  | add index => cases htarget
  | status todo target =>
    obtain rfl := Option.some.inj htarget
    rw [Replacing.change, if_neg (by simp [hticket])] at h
    obtain rfl := Except.ok.inj h
    exact ⟨write_failed hfailed, settles_setStatus hfailed (fun _ => rfl) fun _ => rfl⟩
  | cancel todo =>
    obtain rfl := Option.some.inj htarget
    rw [Replacing.change, if_neg (by simp [hticket])] at h
    have hwrote : (state.write clock (.setStatus (idOf key) .cancelled c.actor)).1.failed = none := by
      dsimp only at h
      split at h <;>
        · obtain rfl := Except.ok.inj h
          exact hfailed
    obtain ⟨hbefore, doc, changes, happly, hwrite⟩ := write_of_not_failed hwrote
    have hsettles : Settles state [.cancel (idOf key)] _ :=
      settles_setStatus hwrote (fun _ => rfl) fun _ => rfl
    rw [hwrite] at h hsettles
    obtain rfl := Except.ok.inj h
    exact ⟨hbefore, hsettles⟩
  | reorder todo order =>
    obtain rfl := Option.some.inj htarget
    rw [Replacing.change, if_neg (by simp [hticket])] at h
    obtain rfl := Except.ok.inj h
    exact ⟨write_failed hfailed, settles_reorder hfailed⟩

/-- Changes of todos that are no tickets' settle them all, where nothing was refused. -/
theorem changes_settle {changes : List Change} {state state' : Replacing}
    (h : changes.foldlM (Replacing.change c clock isTicket previous next) state = .ok state')
    (hfailed : state'.failed = none)
    (htargets : ∀ change ∈ changes, ∃ key, change.target = some (idOf key) ∧ isTicket (idOf key) = false) :
    state.failed = none ∧ Settles state changes state' := by
  induction changes generalizing state with
  | nil =>
    obtain rfl := Except.ok.inj h
    exact ⟨hfailed, rfl, rfl, rfl, fun key => Option.map_id_apply.symm⟩
  | cons change rest ih =>
    rw [List.foldlM_cons] at h
    obtain ⟨middle, hfirst, hrest⟩ := bind_eq_ok.mp h
    obtain ⟨hmiddle, hsettled⟩ := ih hrest fun change hmem => htargets change (List.mem_cons_of_mem _ hmem)
    obtain ⟨key, htarget, hticket⟩ := htargets change List.mem_cons_self
    obtain ⟨hbefore, hstep⟩ := change_settles hfirst hmiddle htarget hticket
    refine ⟨hbefore, hsettled.ids.trans hstep.ids, hsettled.uncancelled.trans hstep.uncancelled,
      hsettled.nextId.trans hstep.nextId, fun key => ?_⟩
    rw [hsettled.face, hstep.face, Option.map_map]
    rfl

section Folded

variable (id : String) (changes : List Change) (seen : Face)

/-- After changes a todo has the status the last of them that moves it leaves. -/
theorem foldl_after_kind : (changes.foldl (Face.after id) seen).kind =
    (changes.filterMap (Change.kindFor id)).getLast?.getD seen.kind := by
  induction changes generalizing seen with
  | nil => rfl
  | cons change rest ih =>
    rw [List.foldl_cons, ih, List.filterMap_cons, Face.after]
    cases change.kindFor id with
    | none => rfl
    | some kind => rw [List.getLast?_cons]; rfl

/-- After changes a todo has the order the last of them that moves it leaves. -/
theorem foldl_after_order : (changes.foldl (Face.after id) seen).order =
    (changes.filterMap (Change.orderFor id)).getLast?.or seen.order := by
  induction changes generalizing seen with
  | nil => rfl
  | cons change rest ih =>
    rw [List.foldl_cons, ih, List.filterMap_cons, Face.after]
    cases change.orderFor id with
    | none => rfl
    | some order =>
      rw [List.getLast?_cons]
      cases (rest.filterMap (Change.orderFor id)).getLast? <;> rfl

/-- Changes leave a todo's text and ticket. -/
theorem foldl_after_rest : (changes.foldl (Face.after id) seen).description = seen.description ∧
    (changes.foldl (Face.after id) seen).ticket = seen.ticket := by
  induction changes generalizing seen with
  | nil => exact ⟨rfl, rfl⟩
  | cons change rest ih => exact ih (Face.after id seen change)

/-- Changes about other todos leave what is seen. -/
theorem foldl_after_other {changes : List Change} (h : ∀ change ∈ changes, change.target ≠ some id) :
    changes.foldl (Face.after id) seen = seen := by
  induction changes with
  | nil => rfl
  | cons change rest ih =>
    have hfirst : Face.after id seen change = seen := by
      have hne := h change List.mem_cons_self
      cases change with
      | add index => rfl
      | cancel todo | status todo target | reorder todo order =>
        have htodo : todo ≠ id := fun heq => hne (congrArg some heq)
        simp only [Face.after, Change.kindFor, Change.orderFor, if_neg htodo]
        rfl
    rw [List.foldl_cons, hfirst]
    exact ih fun change hmem => h change (List.mem_cons_of_mem _ hmem)

end Folded

/-- No step of the list names an open ticket among the todos. -/
def NamesNone (c : Capture) (next : List Step) (todos : List Todo) : Prop :=
  ∀ step ∈ next, c.ticketNamed todos step.text = none

/-- The new steps at the indices have todos of their own, under keys given out since the start. -/
structure Added (c : Capture) (next : List Step) (start : Replacing) (indices : List ℕ) (state : Replacing) :
    Prop where
  uncancelled : state.uncancelled = start.uncancelled
  nextId : start.doc.nextId ≤ state.doc.nextId
  length : state.ids.length = start.ids.length
  names : NamesNone c next (state.repoTodos.getD (c.repoTodos state.doc))
  face : ∀ key < start.doc.nextId, state.doc.face key = start.doc.face key
  others : ∀ j ∉ indices, state.ids[j]? = start.ids[j]?
  placed : ∀ j ∈ indices, ∀ step, next[j]? = some step → ∃ key, start.doc.nextId ≤ key ∧
    key < state.doc.nextId ∧ state.ids[j]? = some (some (idOf key)) ∧
      state.doc.face key = some ⟨step.text, step.status, some (placeOrder j), none⟩
  distinct : ∀ j ∈ indices, ∀ k ∈ indices, ∀ id, state.ids[j]? = some id → state.ids[k]? = some id → j = k

/-- Finding a step's todo refuses nothing it goes on from. -/
theorem todoFor_failed {state added : Replacing} {ticket : Option String} {text id : String} {index : ℕ}
    (h : state.todoFor c clock ticket text index = .ok (added, id)) : added.failed = state.failed := by
  cases ticket with
  | some ticket =>
    obtain ⟨rfl, -⟩ := Prod.mk.inj (Except.ok.inj h)
    rfl
  | none =>
    rw [Replacing.todoFor] at h
    split at h
    · obtain ⟨rfl, -⟩ := Prod.mk.inj (Except.ok.inj h)
      rfl
    · contradiction

/-- An add keeps the first refusal. -/
theorem add_failed {state state' : Replacing} {index : ℕ} (h : state.add c clock next index = .ok state')
    (hfailed : state'.failed = none) : state.failed = none := by
  rw [Replacing.add] at h
  split at h
  · obtain rfl := Except.ok.inj h
    exact hfailed
  · obtain ⟨⟨added, id⟩, hadded, h⟩ := bind_eq_ok.mp h
    have hsame : added.failed = _ := todoFor_failed hadded
    obtain rfl := Except.ok.inj h
    dsimp only at hfailed
    split at hfailed
    · exact hsame.symm.trans (write_failed hfailed)
    · exact hsame.symm.trans hfailed

/-- A new step that names no ticket gets a todo under the next key, with its text, its status and the
order of its index. -/
theorem add_places {state state' : Replacing} {index : ℕ} {step : Step} (hstep : next[index]? = some step)
    (hline : oneLine step.text = step.text)
    (hnames : NamesNone c next (state.repoTodos.getD (c.repoTodos state.doc)))
    (h : state.add c clock next index = .ok state') (hfailed : state'.failed = none) :
    state'.uncancelled = state.uncancelled ∧
      state'.repoTodos = some (state.repoTodos.getD (c.repoTodos state.doc)) ∧
      state'.ids = state.ids.set index (some (idOf (max state.doc.nextId 1))) ∧
      state'.doc.nextId = max state.doc.nextId 1 + 1 ∧ ∀ key, state'.doc.face key =
        if max state.doc.nextId 1 = key then some ⟨step.text, step.status, some (placeOrder index), none⟩
        else state.doc.face key := by
  rw [Replacing.add, hstep] at h
  dsimp only at h
  rw [hnames step (List.mem_of_getElem? hstep)] at h
  obtain ⟨⟨added, id⟩, hadded, h⟩ := bind_eq_ok.mp h
  rw [Replacing.todoFor] at hadded
  dsimp only at hadded
  split at hadded
  · rename_i doc id' hadd
    obtain ⟨rfl, rfl⟩ := Prod.mk.inj (Except.ok.inj hadded)
    obtain ⟨rfl, hnext, hface⟩ := Doc.add_face hadd
    rw [hline] at hface
    split at h
    · obtain rfl := Except.ok.inj h
      obtain ⟨-, doc', changes, happly, hwrite⟩ := write_of_not_failed hfailed
      obtain ⟨hnext', hface'⟩ := Doc.apply_setStatus_face happly
      rw [hwrite]
      refine ⟨rfl, rfl, rfl, hnext'.trans hnext, fun key => ?_⟩
      change doc'.face key = _
      rw [hface', hface]
      split <;> rfl
    · rename_i hpending
      have hstatus : step.status = .pending := by simpa using hpending
      obtain rfl := Except.ok.inj h
      refine ⟨rfl, rfl, rfl, hnext, fun key => ?_⟩
      change doc.face key = _
      rw [hface, hstatus]
  · contradiction

/-- The todo added for one more step is none of those added before. -/
theorem Added.snoc {start state state' : Replacing} {indices : List ℕ} {index : ℕ} {step : Step}
    (hadded : Added c next start indices state) (hlength : start.ids.length = next.length)
    (hstep : next[index]? = some step) (hline : oneLine step.text = step.text)
    (h : state.add c clock next index = .ok state') (hfailed : state'.failed = none) :
    Added c next start (indices ++ [index]) state' := by
  obtain ⟨huncancelled, hrepo, hids, hnext, hface⟩ := add_places hstep hline hadded.names h hfailed
  have hkey : start.doc.nextId ≤ max state.doc.nextId 1 := hadded.nextId.trans (le_max_left _ _)
  have hindex : index < state.ids.length := by
    rw [hadded.length, hlength]
    exact (List.getElem?_eq_some_iff.mp hstep).1
  have hself : state'.ids[index]? = some (some (idOf (max state.doc.nextId 1))) := by
    rw [hids, List.getElem?_set_self hindex]
  have hother : ∀ j, j ≠ index → state'.ids[j]? = state.ids[j]? := by
    intro j hne
    rw [hids, List.getElem?_set_ne hne.symm]
  have hmem : ∀ {j}, j ∈ indices ++ [index] → j = index ∨ j ≠ index ∧ j ∈ indices := by
    intro j hj
    rw [List.mem_append, List.mem_singleton] at hj
    by_cases heq : j = index
    · exact Or.inl heq
    · exact Or.inr ⟨heq, hj.resolve_right heq⟩
  have hfresh : ∀ j ∈ indices, j ≠ index → state'.ids[j]? ≠ state'.ids[index]? := by
    intro j hj hne heq
    have hlt : j < next.length := by
      have hj' : j < state'.ids.length := by
        by_contra hge
        rw [List.getElem?_eq_none (Nat.le_of_not_lt hge), hself] at heq
        contradiction
      rwa [hids, List.length_set, hadded.length, hlength] at hj'
    obtain ⟨key, -, hlt, hid, -⟩ := hadded.placed j hj next[j] (List.getElem?_eq_getElem hlt)
    rw [hother j hne, hid, hself, Option.some.injEq, Option.some.injEq, idOf_inj] at heq
    omega
  refine ⟨huncancelled.trans hadded.uncancelled, by omega, ?_, ?_, fun key hlt => ?_, fun j hj => ?_,
    fun j hj later hlater => ?_, fun j hj k hk id hidj hidk => ?_⟩
  · rw [hids, List.length_set, hadded.length]
  · rw [hrepo]
    exact hadded.names
  · rw [hface, if_neg (by omega), hadded.face key hlt]
  · rw [List.mem_append, List.mem_singleton, not_or] at hj
    rw [hother j hj.2, hadded.others j hj.1]
  · cases hmem hj with
    | inl heq =>
      rw [heq, hstep] at hlater
      obtain rfl := Option.some.inj hlater
      refine ⟨max state.doc.nextId 1, hkey, by omega, heq ▸ hself, ?_⟩
      rw [hface, if_pos rfl, heq]
    | inr hold =>
      obtain ⟨key, hle, hlt, hid, hseen⟩ := hadded.placed j hold.2 later hlater
      refine ⟨key, hle, by omega, by rw [hother j hold.1, hid], ?_⟩
      rw [hface, if_neg (by omega), hseen]
  · rcases hmem hj with rfl | ⟨hnej, holdj⟩
    · rcases hmem hk with rfl | ⟨hnek, holdk⟩
      · rfl
      · exact absurd (hidk.trans hidj.symm) (hfresh k holdk hnek)
    · rcases hmem hk with rfl | ⟨hnek, holdk⟩
      · exact absurd (hidj.trans hidk.symm) (hfresh j holdj hnej)
      · exact hadded.distinct j holdj k holdk id (hother j hnej ▸ hidj) (hother k hnek ▸ hidk)

/-- After the adds every new step has a todo of its own. -/
theorem adds_place {start state : Replacing} {indices : List ℕ} (hlength : start.ids.length = next.length)
    (hnames : NamesNone c next (start.repoTodos.getD (c.repoTodos start.doc)))
    (hlines : ∀ step ∈ next, oneLine step.text = step.text) (hindices : ∀ j ∈ indices, j < next.length)
    (h : (indices.map Change.add).foldlM (Replacing.change c clock isTicket previous next) start = .ok state)
    (hfailed : state.failed = none) : start.failed = none ∧ Added c next start indices state := by
  induction indices using List.reverseRecOn generalizing state with
  | nil =>
    obtain rfl := Except.ok.inj h
    exact ⟨hfailed, rfl, le_rfl, rfl, hnames, fun _ _ => rfl, fun _ _ => rfl,
      fun j hj => absurd hj List.not_mem_nil, fun j hj => absurd hj List.not_mem_nil⟩
  | append_singleton indices index ih =>
    rw [List.map_append, List.foldlM_append] at h
    obtain ⟨middle, hfirst, hlast⟩ := bind_eq_ok.mp h
    obtain ⟨last, hadd, hdone⟩ := bind_eq_ok.mp hlast
    obtain rfl := Except.ok.inj hdone
    have hlt := hindices index (List.mem_append_right _ (List.mem_singleton.mpr rfl))
    have hstep := List.getElem?_eq_getElem hlt
    have hline := hlines _ (List.getElem_mem hlt)
    obtain ⟨hstart, hadded⟩ := ih (fun j hj => hindices j (List.mem_append_left _ hj)) hfirst
      (add_failed hadd hfailed)
    exact ⟨hstart, hadded.snoc hlength hstep hline hadd hfailed⟩

/-- A write keeps the numbering. -/
theorem write_numbered {state : Replacing} {edit : Edit} (h : state.doc.Numbered) :
    (state.write clock edit).1.doc.Numbered := by
  unfold Replacing.write
  split
  · rename_i doc changes happly
    exact h.kept (Doc.apply_kept happly)
  · exact h

/-- Finding a step's todo keeps the numbering. -/
theorem todoFor_numbered {state added : Replacing} {ticket : Option String} {text id : String} {index : ℕ}
    (h : state.todoFor c clock ticket text index = .ok (added, id)) (hnumbered : state.doc.Numbered) :
    added.doc.Numbered := by
  cases ticket with
  | some ticket =>
    obtain ⟨rfl, -⟩ := Prod.mk.inj (Except.ok.inj h)
    exact hnumbered
  | none =>
    rw [Replacing.todoFor] at h
    split at h
    · rename_i doc id' hadd
      obtain ⟨rfl, -⟩ := Prod.mk.inj (Except.ok.inj h)
      exact hnumbered.kept (Doc.add_kept hadd)
    · contradiction

/-- A change keeps the numbering. -/
theorem change_numbered {state state' : Replacing} {change : Change}
    (h : state.change c clock isTicket previous next change = .ok state') (hnumbered : state.doc.Numbered) :
    state'.doc.Numbered := by
  cases change with
  | add index =>
    rw [Replacing.change, Replacing.add] at h
    split at h
    · obtain rfl := Except.ok.inj h
      exact hnumbered
    · obtain ⟨⟨added, id⟩, hadded, h⟩ := bind_eq_ok.mp h
      have hafter : added.doc.Numbered := todoFor_numbered hadded hnumbered
      obtain rfl := Except.ok.inj h
      dsimp only
      split
      · exact write_numbered hafter
      · exact hafter
  | status todo target =>
    rw [Replacing.change] at h
    split at h
    · obtain rfl := Except.ok.inj h
      exact hnumbered
    · obtain rfl := Except.ok.inj h
      exact write_numbered hnumbered
  | cancel todo =>
    rw [Replacing.change] at h
    have hwrote : (state.write clock (.setStatus todo .cancelled c.actor)).1.doc.Numbered :=
      write_numbered hnumbered
    split at h
    · obtain rfl := Except.ok.inj h
      exact hnumbered
    · dsimp only at h
      split at h <;>
        · obtain rfl := Except.ok.inj h
          exact hwrote
  | reorder todo order =>
    rw [Replacing.change] at h
    split at h
    · obtain rfl := Except.ok.inj h
      exact hnumbered
    · obtain rfl := Except.ok.inj h
      exact write_numbered hnumbered

/-- Changes keep the numbering. -/
theorem changes_numbered {changes : List Change} {state state' : Replacing}
    (h : changes.foldlM (Replacing.change c clock isTicket previous next) state = .ok state')
    (hnumbered : state.doc.Numbered) : state'.doc.Numbered := by
  induction changes generalizing state with
  | nil =>
    obtain rfl := Except.ok.inj h
    exact hnumbered
  | cons change rest ih =>
    rw [List.foldlM_cons] at h
    obtain ⟨middle, hfirst, hrest⟩ := bind_eq_ok.mp h
    exact ih hrest (change_numbered hfirst hnumbered)

end Native

end Devkit.Todos
