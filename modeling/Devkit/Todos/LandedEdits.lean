import Devkit.Todos.TicketTodos

/-!
# What landed edits leave

Each edit changes one field of one todo, apart from its order and the time of its last change,
which no plan reads. The todo a list of edits leaves is the fold of their effects over it, and
the other todos stay as they were.
-/

namespace Devkit.Todos

open Devkit.Library
open Std

/-- A todo without its order and the time of its last change. -/
def Todo.plain (todo : Todo) : Todo := { todo with order := none, modified := none }

/-- The ticket keys a change refers to besides its own. -/
def Change.keys : Change → List String
  | .move parent => parent.toList
  | .block keys | .unblock keys => keys
  | _ => []

/-- What a landed change does to the plain todo. -/
def Change.on (ids : ExtTreeMap String String) (change : Change) (todo : Todo) : Todo :=
  match change with
  | .setStatus kind =>
    match transition todo.status kind .tracker with
    | .ok (some next) => { todo with status := next }
    | _ => todo
  | .recordSync name =>
    { todo with ticket := todo.ticket.map fun ticket => { ticket with syncedStatus := some name } }
  | .describe text => { todo with description := oneLine text }
  | .move parent => { todo with parent := parent.bind fun key => ids[key]? }
  | .block keys => { todo with blockedBy := sortedSet (todo.blockedBy ++ keys.filterMap fun key => ids[key]?) }
  | .unblock keys =>
    { todo with blockedBy := sortedSet (todo.blockedBy.filter fun blocker =>
        !(keys.filterMap fun key => ids[key]?).contains blocker) }

/-- What an edit does to the plain todo, given the todo its plan was made from. -/
def Change.settle (ids : ExtTreeMap String String) (seen : Option Todo) (change : Change) (todo : Todo) :
    Todo :=
  if seen.any fun seen => change.fieldMoved todo seen then todo else change.on ids todo

/-- The tracker is never refused. -/
theorem transition_tracker (status : Status) (kind : StatusKind) :
    ∃ next, transition status kind .tracker = .ok next := by
  have hcovers : ∀ holder, Holder.tracker.covers holder = true := fun holder =>
    Holder.covers_iff.mpr (Or.inl (Or.inr rfl))
  cases status with
  | inProgress holder =>
    simp only [transition, hcovers]
    split
    · exact ⟨_, rfl⟩
    · split
      · exact ⟨_, rfl⟩
      · split <;> exact ⟨_, rfl⟩
  | pending | completed | cancelled =>
    simp only [transition]
    split <;> exact ⟨_, rfl⟩

/-- Known keys resolve to their ids, in order. -/
theorem mapM_idFor {ids : ExtTreeMap String String} {keys : List String}
    (hkeys : ∀ key ∈ keys, ids[key]?.isSome = true) :
    keys.mapM (idFor ids) = .ok (keys.filterMap fun key => ids[key]?) := by
  induction keys with
  | nil => rfl
  | cons key rest ih =>
    obtain ⟨id, hid⟩ := Option.isSome_iff_exists.mp (hkeys key List.mem_cons_self)
    have hrest := ih fun other hother => hkeys other (List.mem_cons_of_mem key hother)
    rw [List.mapM_cons, hrest, idFor, hid, List.filterMap_cons_some hid]
    rfl

/-- A status or description that moved is seen on the plain todo. -/
theorem movedSince_eq {doc : Doc} {seen todo : Todo} (change : Change) (hget : doc.get seen.id = some todo) :
    movedSince doc seen change = change.fieldMoved todo.plain seen := by
  unfold movedSince
  cases change <;> simp [hget, Change.fieldMoved, Todo.plain]

namespace Doc

/-- The todos of the document, apart from their orders and the times of their last change. -/
def plainAt (doc : Doc) (key : ℕ) : Option Todo := doc.todos[key]?.map Todo.plain

/-- One todo was changed, to this plain todo. -/
def Rewrote (doc doc' : Doc) (key : ℕ) (plain : Todo) : Prop :=
  doc'.nextId = doc.nextId ∧ ∀ other, doc'.plainAt other = if key = other then some plain else doc.plainAt other

/-- Writing a todo back rewrites it. -/
theorem rewrote_put (doc : Doc) (key : ℕ) (todo : Todo) : doc.Rewrote (doc.put key todo) key todo.plain := by
  refine ⟨rfl, fun other => ?_⟩
  rw [plainAt, getElem?_put]
  split <;> rfl

/-- Leaving the document alone rewrites a todo to itself. -/
theorem rewrote_self {doc : Doc} {key : ℕ} {todo : Todo} (htodo : doc.todos[key]? = some todo) :
    doc.Rewrote doc key todo.plain := by
  refine ⟨rfl, fun other => ?_⟩
  split
  · rename_i heq
    rw [plainAt, ← heq, htodo]
    rfl
  · rfl

/-- Blockers are rewritten to the sorted set of the changed ones. -/
theorem setBlockers_ok {doc : Doc} {id : String} {key : ℕ} {todo : Todo} (now : Instant)
    (hid : parseKey id = some key) (htodo : doc.todos[key]? = some todo)
    (change : List String → List String) :
    ∃ doc', doc.setBlockers now id change = .ok doc' ∧
      doc.Rewrote doc' key { todo.plain with blockedBy := sortedSet (change todo.blockedBy) } := by
  simp only [setBlockers, todoMut_eq_ok.mpr ⟨hid, htodo⟩]
  exact ⟨_, rfl, doc.rewrote_put key _⟩

end Doc

/-- The store edit of a change, its known keys resolved. -/
def Change.storeEdit (ids : ExtTreeMap String String) (id : String) : Change → Edit
  | .setStatus kind => .setStatus id kind .tracker
  | .recordSync name => .recordSync id name
  | .describe text => .describe id text
  | .move parent => .move id (parent.bind fun key => ids[key]?) none
  | .block keys => .block id (keys.filterMap fun key => ids[key]?)
  | .unblock keys => .unblock id (keys.filterMap fun key => ids[key]?)

/-- An edit whose keys all have ids resolves. -/
theorem resolve_eq {ids : ExtTreeMap String String} {edit : PlannedEdit} {id : String}
    (hid : ids[edit.key]? = some id) (hkeys : ∀ key ∈ edit.change.keys, ids[key]?.isSome = true) :
    edit.resolve ids = .ok (edit.change.storeEdit ids id) := by
  have hfor : idFor ids edit.key = .ok id := by rw [idFor, hid]
  unfold PlannedEdit.resolve
  rw [hfor]
  cases hchange : edit.change with
  | setStatus | recordSync | describe => rfl
  | move parent =>
    cases parent with
    | none => rfl
    | some parent =>
      rw [hchange] at hkeys
      obtain ⟨parentId, hparent⟩ := Option.isSome_iff_exists.mp (hkeys parent (by simp [Change.keys]))
      have hfor' : idFor ids parent = .ok parentId := by rw [idFor, hparent]
      simp only [Change.storeEdit, Option.bind_some, hparent]
      exact congrArg (fun outcome => outcome >>= fun found => .ok (Edit.move id (some found) none)) hfor'
  | block keys =>
    rw [hchange] at hkeys
    have hmap : keys.mapM (idFor ids) = .ok (keys.filterMap fun key => ids[key]?) := mapM_idFor hkeys
    change (keys.mapM (idFor ids) >>= fun blockers => .ok (Edit.block id blockers)) = _
    rw [hmap]
    rfl
  | unblock keys =>
    rw [hchange] at hkeys
    have hmap : keys.mapM (idFor ids) = .ok (keys.filterMap fun key => ids[key]?) := mapM_idFor hkeys
    change (keys.mapM (idFor ids) >>= fun blockers => .ok (Edit.unblock id blockers)) = _
    rw [hmap]
    rfl

/-- The store edit of a change has its effect, where the todo and the keys' todos exist. -/
theorem apply_storeEdit {doc : Doc} {ids : ExtTreeMap String String} {change : Change} {key : ℕ}
    {todo : Todo} (now : Instant) (htodo : doc.todos[key]? = some todo) (hticket : todo.ticket.isSome = true)
    (hkeys : ∀ other ∈ change.keys, ∃ at_ found, ids[other]? = some (idOf at_) ∧ doc.todos[at_]? = some found) :
    ∃ doc' changes, doc.apply now (change.storeEdit ids (idOf key)) = .ok (doc', changes) ∧
      doc.Rewrote doc' key (change.on ids todo.plain) := by
  have hmut : doc.todoMut (idOf key) = .ok (key, todo) := Doc.todoMut_eq_ok.mpr ⟨parseKey_idOf key, htodo⟩
  cases change with
  | setStatus kind =>
    obtain ⟨next, hnext⟩ := transition_tracker todo.status kind
    have hplain : transition todo.plain.status kind .tracker = .ok next := hnext
    simp only [Change.storeEdit, Doc.apply, Doc.changeStatus, hmut, hnext, Change.on, hplain]
    cases next with
    | none => exact ⟨_, _, rfl, Doc.rewrote_self htodo⟩
    | some next => exact ⟨_, _, rfl, doc.rewrote_put key _⟩
  | recordSync name =>
    obtain ⟨ticket, hsome⟩ := Option.isSome_iff_exists.mp hticket
    have hplain : todo.plain.ticket = some ticket := hsome
    simp only [Change.storeEdit, Doc.apply, hmut, Change.on, hplain, Option.map_some, bind, Except.bind, hsome]
    exact ⟨_, _, rfl, doc.rewrote_put key _⟩
  | describe text =>
    simp only [Change.storeEdit, Doc.apply, hmut, Change.on]
    exact ⟨_, _, rfl, doc.rewrote_put key _⟩
  | move parent =>
    cases parent with
    | none =>
      simp only [Change.storeEdit, Option.bind_none, Doc.apply, hmut, Change.on]
      exact ⟨_, _, rfl, doc.rewrote_put key _⟩
    | some parent =>
      obtain ⟨at_, found, hat, hfound⟩ := hkeys parent (by simp [Change.keys])
      have hparent : doc.todoMut (idOf at_) = .ok (at_, found) :=
        Doc.todoMut_eq_ok.mpr ⟨parseKey_idOf at_, hfound⟩
      simp only [Change.storeEdit, Option.bind_some, hat, Doc.apply, hparent, hmut, Change.on]
      exact ⟨_, _, rfl, doc.rewrote_put key _⟩
  | block keys =>
    obtain ⟨doc', hset, hrewrote⟩ := Doc.setBlockers_ok now (parseKey_idOf key) htodo
      (· ++ keys.filterMap fun other => ids[other]?)
    simp only [Change.storeEdit, Doc.apply, hset]
    exact ⟨_, _, rfl, hrewrote⟩
  | unblock keys =>
    obtain ⟨doc', hset, hrewrote⟩ := Doc.setBlockers_ok now (parseKey_idOf key) htodo
      fun before => before.filter fun blocker => !(keys.filterMap fun other => ids[other]?).contains blocker
    simp only [Change.storeEdit, Doc.apply, hset]
    exact ⟨_, _, rfl, hrewrote⟩

/-- What landing needs to know of the ids: each is that of an existing ticket todo, and a todo the
plan was made from still has its id. -/
structure Landing.Ready (landing : Landing) (plannedOn : ExtTreeMap String Todo) : Prop where
  exists_todo : ∀ {ticket id : String}, landing.ids[ticket]? = some id →
    ∃ key todo, id = idOf key ∧ landing.doc.plainAt key = some todo ∧ todo.ticket.isSome = true
  seen : ∀ {ticket : String} {todo : Todo}, plannedOn[ticket]? = some todo → landing.ids[ticket]? = some todo.id

/-- The plain todo after those of the edits that name it. -/
def settled (plannedOn : ExtTreeMap String Todo) (ids : ExtTreeMap String String) (id : String)
    (edits : List PlannedEdit) (todo : Todo) : Todo :=
  (edits.filter fun edit => ids[edit.key]? = some id).foldl
    (fun todo edit => edit.change.settle ids plannedOn[edit.key]? todo) todo

/-- A change keeps the node and the ticket of its todo, but for the synced status. -/
theorem Change.settle_keeps (ids : ExtTreeMap String String) (seen : Option Todo) (change : Change)
    (todo : Todo) : (change.settle ids seen todo).id = todo.id ∧
      (change.settle ids seen todo).node = todo.node ∧
      (∀ tracker, (change.settle ids seen todo).ticketKey tracker = todo.ticketKey tracker) ∧
      (change.settle ids seen todo).ticket.isSome = todo.ticket.isSome := by
  unfold Change.settle
  split
  · exact ⟨rfl, rfl, fun _ => rfl, rfl⟩
  · unfold Change.on
    split
    · split <;> exact ⟨rfl, rfl, fun _ => rfl, rfl⟩
    · refine ⟨rfl, rfl, fun tracker => ?_, Option.isSome_map⟩
      cases hticket : todo.ticket with
      | none => simp [Todo.ticketKey, hticket]
      | some ticket =>
        by_cases htracker : ticket.tracker = tracker <;>
          simp [Todo.ticketKey, hticket, htracker, Option.filter]
    all_goals exact ⟨rfl, rfl, fun _ => rfl, rfl⟩

/-- An edit whose keys all have ids lands, and rewrites its todo. -/
theorem landEdit_ok {landing : Landing} {plannedOn : ExtTreeMap String Todo} {edit : PlannedEdit} {id : String}
    (now : Instant) (hready : landing.Ready plannedOn) (hid : landing.ids[edit.key]? = some id)
    (hkeys : ∀ key ∈ edit.change.keys, landing.ids[key]?.isSome = true) :
    ∃ doc' key todo, id = idOf key ∧ landing.doc.plainAt key = some todo ∧
      landEdit now plannedOn landing.ids landing.doc edit = .ok doc' ∧
      landing.doc.Rewrote doc' key (edit.change.settle landing.ids plannedOn[edit.key]? todo) := by
  obtain ⟨key, plain, rfl, hplain, hticket⟩ := hready.exists_todo hid
  obtain ⟨todo, htodo, rfl⟩ := Option.map_eq_some_iff.mp hplain
  have hfound : ∀ other ∈ edit.change.keys, ∃ at_ found, landing.ids[other]? = some (idOf at_) ∧
      landing.doc.todos[at_]? = some found := by
    intro other hother
    obtain ⟨otherId, hother⟩ := Option.isSome_iff_exists.mp (hkeys other hother)
    obtain ⟨at_, plain, rfl, hat, _⟩ := hready.exists_todo hother
    obtain ⟨found, hfound, _⟩ := Option.map_eq_some_iff.mp hat
    exact ⟨at_, found, hother, hfound⟩
  have hmoved : plannedOn[edit.key]?.any (fun seen => movedSince landing.doc seen edit.change) =
      plannedOn[edit.key]?.any fun seen => edit.change.fieldMoved todo.plain seen := by
    cases hseen : plannedOn[edit.key]? with
    | none => rfl
    | some seen =>
      have hget : landing.doc.get seen.id = some todo := by
        have hsame := Option.some.inj (hid.symm.trans (hready.seen hseen))
        rw [Doc.get, ← hsame, parseKey_idOf, Option.bind_some, htodo]
      exact movedSince_eq edit.change hget
  unfold landEdit Change.settle
  rw [resolve_eq hid hkeys]
  dsimp only
  rw [hmoved]
  by_cases hskip : plannedOn[edit.key]?.any (fun seen => edit.change.fieldMoved todo.plain seen) = true
  · rw [if_pos hskip]
    refine ⟨_, key, todo.plain, rfl, hplain, rfl, ?_⟩
    rw [if_pos hskip]
    exact Doc.rewrote_self htodo
  · obtain ⟨doc', changes, happly, hrewrote⟩ := apply_storeEdit now htodo hticket hfound
    rw [if_neg hskip, happly]
    refine ⟨_, key, todo.plain, rfl, hplain, rfl, ?_⟩
    rw [if_neg hskip]
    exact hrewrote

/-- Rewriting one todo by a change keeps the landing ready. -/
theorem Landing.Ready.rewrote {landing : Landing} {plannedOn : ExtTreeMap String Todo}
    (hready : landing.Ready plannedOn) {doc' : Doc} {key : ℕ} {todo : Todo} {seen : Option Todo} {change : Change}
    (htodo : landing.doc.plainAt key = some todo)
    (hrewrote : landing.doc.Rewrote doc' key (change.settle landing.ids seen todo)) :
    (Landing.mk doc' landing.ids).Ready plannedOn := by
  refine ⟨fun {ticket id} hid => ?_, fun hseen => hready.seen hseen⟩
  obtain ⟨at_, found, rfl, hat, hticket⟩ := hready.exists_todo hid
  have hafter := hrewrote.2 at_
  split at hafter
  · rename_i heq
    subst heq
    obtain rfl := Option.some.inj (htodo.symm.trans hat)
    exact ⟨key, _, rfl, hafter, (change.settle_keeps landing.ids seen todo).2.2.2.trans hticket⟩
  · exact ⟨at_, found, rfl, hafter.trans hat, hticket⟩

/-- Edits whose keys all have ids land, and leave each todo as the fold of the effects of its own. -/
theorem landEdits_ok (clock : ℕ → Instant) {landing : Landing} {plannedOn : ExtTreeMap String Todo}
    (hready : landing.Ready plannedOn) {edits : List PlannedEdit}
    (hkeys : ∀ edit ∈ edits, landing.ids[edit.key]?.isSome = true ∧
      ∀ key ∈ edit.change.keys, landing.ids[key]?.isSome = true) (call : ℕ) :
    ∃ doc', landEdits clock plannedOn landing.ids call landing.doc edits = (doc', none) ∧
      doc'.nextId = landing.doc.nextId ∧
      ∀ key, doc'.plainAt key =
        (landing.doc.plainAt key).map (settled plannedOn landing.ids (idOf key) edits) := by
  induction edits generalizing landing call with
  | nil =>
    refine ⟨landing.doc, rfl, rfl, fun key => ?_⟩
    exact Option.map_id'.symm
  | cons edit rest ih =>
    obtain ⟨hown, hothers⟩ := hkeys edit List.mem_cons_self
    obtain ⟨id, hid⟩ := Option.isSome_iff_exists.mp hown
    obtain ⟨doc₁, key₁, todo, rfl, htodo, hland, hrewrote⟩ := landEdit_ok (clock call) hready hid hothers
    obtain ⟨doc', hrest, hnext, hplain⟩ := ih (hready.rewrote htodo hrewrote)
      (fun other hother => hkeys other (List.mem_cons_of_mem edit hother)) (call + 1)
    refine ⟨doc', ?_, hnext.trans hrewrote.1, fun key => ?_⟩
    · rw [landEdits, hland]
      exact hrest
    · rw [hplain, hrewrote.2]
      split
      · rename_i heq
        subst heq
        rw [htodo, Option.map_some, Option.map_some, settled, settled, List.filter_cons_of_pos (by simpa using hid)]
        rfl
      · rename_i hne
        have hother : landing.ids[edit.key]? ≠ some (idOf key) := by
          rw [hid]
          exact fun heq => hne (idOf_inj.mp (Option.some.inj heq))
        refine congrArg (Option.map · _) (funext fun todo => ?_)
        rw [settled, settled, List.filter_cons_of_neg (by simpa using hother)]

end Devkit.Todos
