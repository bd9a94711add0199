import Devkit.Library.Outcomes
import Devkit.Todos.TicketPlan

/-!
# Landing a plan

The adds of a plan land first, then its edits, each ticket key resolved through the ids of the
todos the plan was made from and those the adds return. A status or description edit whose todo
changed that field since is skipped. A call that fails ends the landing, and what landed before
stays.

A landed edit writes back one todo, on the same node and for the same ticket; only a status
edit changes its status. These facts hold of every landing, whatever it started from.
-/

namespace Devkit.Todos

open Devkit.Library
open Std

/-- Why a landing failed. -/
inductive SyncError
  | noTicketTodo (key : String)
  | addWithoutTicket
  | store (refusal : StoreError)
deriving DecidableEq

/-- The text of a failure. -/
def SyncError.message : SyncError → String
  | .noTicketTodo key => "no todo for ticket " ++ key
  | .addWithoutTicket => "a planned add without a ticket"
  | .store refusal => refusal.message

/-- The id of a ticket's todo. -/
def idFor (ids : ExtTreeMap String String) (key : String) : Except SyncError String :=
  match ids[key]? with
  | some id => .ok id
  | none => .error (.noTicketTodo key)

/-- The store edit, with each ticket key resolved. -/
def PlannedEdit.resolve (edit : PlannedEdit) (ids : ExtTreeMap String String) : Except SyncError Edit := do
  let id ← idFor ids edit.key
  match edit.change with
  | .setStatus kind => .ok (.setStatus id kind .tracker)
  | .recordSync name => .ok (.recordSync id name)
  | .describe text => .ok (.describe id text)
  | .move none => .ok (.move id none none)
  | .move (some parent) => do
    let parent ← idFor ids parent
    .ok (.move id (some parent) none)
  | .block keys => do
    let blockers ← keys.mapM (idFor ids)
    .ok (.block id blockers)
  | .unblock keys => do
    let blockers ← keys.mapM (idFor ids)
    .ok (.unblock id blockers)

/-- The field the change sets differs between two readings of the todo. -/
def Change.fieldMoved (change : Change) (now seen : Todo) : Bool :=
  match change with
  | .setStatus _ => now.status != seen.status
  | .describe _ => now.description != seen.description
  | _ => false

/-- The todo now holds another value for the field the change sets, or is gone. -/
def movedSince (doc : Doc) (seen : Todo) (change : Change) : Bool :=
  match change with
  | .setStatus _ | .describe _ => (doc.get seen.id).all fun now => change.fieldMoved now seen
  | _ => false

/-- The store and the ids known while a plan lands. -/
structure Landing where
  doc : Doc
  ids : ExtTreeMap String String

/-- Land one add. -/
def landAdd (now : Instant) (landing : Landing) (add : NewTodo) : Except SyncError Landing :=
  match add.ticket with
  | none => .error .addWithoutTicket
  | some ticket =>
    match landing.doc.add now add with
    | .ok (doc, id) => .ok ⟨doc, landing.ids.insert ticket.key id⟩
    | .error refusal => .error (.store refusal)

/-- Land one edit, or skip it. -/
def landEdit (now : Instant) (plannedOn : ExtTreeMap String Todo) (ids : ExtTreeMap String String)
    (doc : Doc) (edit : PlannedEdit) : Except SyncError Doc :=
  match edit.resolve ids with
  | .error failure => .error failure
  | .ok resolved =>
    if plannedOn[edit.key]?.any fun seen => movedSince doc seen edit.change then .ok doc
    else
      match doc.apply now resolved with
      | .ok (doc, _) => .ok doc
      | .error refusal => .error (.store refusal)

/-- Land the adds in order; each call reads the clock. -/
def landAdds (clock : ℕ → Instant) : ℕ → Landing → List NewTodo → Landing × Option SyncError
  | _, landing, [] => (landing, none)
  | call, landing, add :: rest =>
    match landAdd (clock call) landing add with
    | .ok next => landAdds clock (call + 1) next rest
    | .error failure => (landing, some failure)

/-- Land the edits in order. -/
def landEdits (clock : ℕ → Instant) (plannedOn : ExtTreeMap String Todo) (ids : ExtTreeMap String String) :
    ℕ → Doc → List PlannedEdit → Doc × Option SyncError
  | _, doc, [] => (doc, none)
  | call, doc, edit :: rest =>
    match landEdit (clock call) plannedOn ids doc edit with
    | .ok next => landEdits clock plannedOn ids (call + 1) next rest
    | .error failure => (doc, some failure)

/-- The ids of the ticket todos a plan was made from. -/
def plannedIds (plannedOn : ExtTreeMap String Todo) : ExtTreeMap String String :=
  plannedOn.map fun _ todo => todo.id

/-- Land a plan made from the todos of a node. -/
def applyPlan (clock : ℕ → Instant) (tracker : String) (existing : List Todo) (doc : Doc)
    (plan : SyncPlan) : Doc × Option SyncError :=
  let plannedOn := ticketTodos tracker existing
  match landAdds clock 0 ⟨doc, plannedIds plannedOn⟩ plan.adds with
  | (landing, some failure) => (landing.doc, some failure)
  | (landing, none) => landEdits clock plannedOn landing.ids plan.adds.length landing.doc plan.edits

/-- A store edit that a planned change resolves to. -/
inductive Resolved (id : String) : Change → Edit → Prop
  | setStatus (kind : StatusKind) : Resolved id (.setStatus kind) (.setStatus id kind .tracker)
  | recordSync (name : String) : Resolved id (.recordSync name) (.recordSync id name)
  | describe (text : String) : Resolved id (.describe text) (.describe id text)
  | move (wanted parent : Option String) : Resolved id (.move wanted) (.move id parent none)
  | block (keys blockers : List String) : Resolved id (.block keys) (.block id blockers)
  | unblock (keys blockers : List String) : Resolved id (.unblock keys) (.unblock id blockers)

/-- A key resolves to the id known for it. -/
theorem idFor_eq_ok {ids : ExtTreeMap String String} {key id : String} :
    idFor ids key = .ok id ↔ ids[key]? = some id := by
  unfold idFor
  cases ids[key]? <;> simp

/-- Resolving keeps the kind of the edit and reads its todo's id off the known ids. -/
theorem resolved_of_resolve {ids : ExtTreeMap String String} {edit : PlannedEdit} {resolved : Edit}
    (h : edit.resolve ids = .ok resolved) :
    ∃ id, ids[edit.key]? = some id ∧ Resolved id edit.change resolved := by
  unfold PlannedEdit.resolve at h
  obtain ⟨id, hid, h⟩ := bind_eq_ok.mp h
  refine ⟨id, idFor_eq_ok.mp hid, ?_⟩
  cases hchange : edit.change with
  | setStatus | recordSync | describe =>
    rw [hchange] at h
    obtain rfl := Except.ok.inj h
    constructor
  | move wanted =>
    rw [hchange] at h
    cases wanted with
    | none =>
      obtain rfl := Except.ok.inj h
      constructor
    | some wanted =>
      obtain ⟨parent, _, h⟩ := bind_eq_ok.mp (show (idFor ids wanted >>= fun _ => _) = _ from h)
      obtain rfl := Except.ok.inj h
      constructor
  | block keys | unblock keys =>
    rw [hchange] at h
    obtain ⟨blockers, _, h⟩ := bind_eq_ok.mp (show (keys.mapM (idFor ids) >>= fun _ => _) = _ from h)
    obtain rfl := Except.ok.inj h
    constructor

/-- The document has one todo written back, on the same node and for the same ticket, and in the
same status unless the change is a status. -/
structure WroteBack (change : Change) (key : ℕ) (before after : Todo) (doc doc' : Doc) : Prop where
  found : doc.todos[key]? = some before
  nextId : doc'.nextId = doc.nextId
  todos : ∀ other : ℕ, doc'.todos[other]? = if key = other then some after else doc.todos[other]?
  node : after.node = before.node
  ticketKey : ∀ tracker, after.ticketKey tracker = before.ticketKey tracker
  status : (∀ kind, change ≠ .setStatus kind) → after.status = before.status

/-- Writing back a todo on the same node, for the same ticket and in the same status. -/
theorem wroteBack_put {doc : Doc} {change : Change} {key : ℕ} {before after : Todo}
    (hfound : doc.todos[key]? = some before) (hnode : after.node = before.node)
    (hticket : ∀ tracker, after.ticketKey tracker = before.ticketKey tracker)
    (hstatus : (∀ kind, change ≠ .setStatus kind) → after.status = before.status) :
    WroteBack change key before after doc (doc.put key after) :=
  ⟨hfound, rfl, fun other => doc.getElem?_put key other after, hnode, hticket, hstatus⟩

/-- Leaving the document alone writes a todo back as it is. -/
theorem wroteBack_self {doc : Doc} {change : Change} {key : ℕ} {todo : Todo}
    (hfound : doc.todos[key]? = some todo) : WroteBack change key todo todo doc doc := by
  refine ⟨hfound, rfl, fun other => ?_, rfl, fun _ => rfl, fun _ => rfl⟩
  split
  · rename_i heq
    rw [← heq, hfound]
  · rfl

/-- Changing blockers writes back the todo. -/
theorem setBlockers_wroteBack {doc doc' : Doc} {id : String} {now : Instant} {edit : List String → List String}
    (change : Change) (h : doc.setBlockers now id edit = .ok doc') :
    ∃ key before after, parseKey id = some key ∧ WroteBack change key before after doc doc' := by
  obtain ⟨⟨key, todo⟩, hmut, h⟩ := bind_eq_ok.mp h
  obtain ⟨hkey, htodo⟩ := Doc.todoMut_eq_ok.mp hmut
  obtain rfl := Except.ok.inj h
  exact ⟨key, todo, _, hkey, wroteBack_put htodo rfl (fun _ => rfl) fun _ => rfl⟩

/-- A resolved edit that applies writes back the todo its id names. -/
theorem apply_wroteBack {doc doc' : Doc} {id : String} {change : Change} {resolved : Edit} {now : Instant}
    {changes : List StatusChange} (hresolved : Resolved id change resolved)
    (happly : doc.apply now resolved = .ok (doc', changes)) :
    ∃ key before after, parseKey id = some key ∧ WroteBack change key before after doc doc' := by
  cases hresolved with
  | setStatus kind =>
    simp only [Doc.apply, Doc.changeStatus] at happly
    split at happly
    · contradiction
    · rename_i key todo hmut
      obtain ⟨hkey, htodo⟩ := Doc.todoMut_eq_ok.mp hmut
      split at happly
      · rename_i next _
        refine ⟨key, todo, ?_⟩
        cases next with
        | none =>
          obtain ⟨rfl, rfl⟩ := Prod.mk.inj (Except.ok.inj happly)
          exact ⟨todo, hkey, wroteBack_self htodo⟩
        | some next =>
          obtain ⟨rfl, rfl⟩ := Prod.mk.inj (Except.ok.inj happly)
          exact ⟨_, hkey, wroteBack_put htodo rfl (fun _ => rfl) fun hnot => absurd rfl (hnot kind)⟩
      · contradiction
  | recordSync name =>
    obtain ⟨⟨key, todo⟩, hmut, h⟩ := bind_eq_ok.mp happly
    obtain ⟨hkey, htodo⟩ := Doc.todoMut_eq_ok.mp hmut
    cases hticket : todo.ticket with
    | none =>
      simp only [hticket] at h
      contradiction
    | some ticket =>
      simp only [hticket] at h
      obtain ⟨rfl, rfl⟩ := Prod.mk.inj (Except.ok.inj h)
      refine ⟨key, todo, _, hkey, wroteBack_put htodo rfl (fun tracker => ?_) fun _ => rfl⟩
      simp only [Todo.ticketKey, hticket]
      by_cases htracker : ticket.tracker = tracker <;> simp [Option.filter, htracker]
  | describe text =>
    obtain ⟨⟨key, todo⟩, hmut, h⟩ := bind_eq_ok.mp happly
    obtain ⟨hkey, htodo⟩ := Doc.todoMut_eq_ok.mp hmut
    obtain ⟨rfl, rfl⟩ := Prod.mk.inj (Except.ok.inj h)
    exact ⟨key, todo, _, hkey, wroteBack_put htodo rfl (fun _ => rfl) fun _ => rfl⟩
  | move wanted parent =>
    have hrest : (doc.todoMut id >>= fun found => .ok (doc.put found.1 { found.2 with
        parent, order := some (doc.afterLast found.2.project parent (some id)),
        modified := some now.text }, ([] : List StatusChange))) = .ok (doc', changes) := by
      cases parent with
      | none => exact happly
      | some parent =>
        obtain ⟨_, _, h⟩ := bind_eq_ok.mp happly
        exact h
    obtain ⟨⟨key, todo⟩, hmut, h⟩ := bind_eq_ok.mp hrest
    obtain ⟨hkey, htodo⟩ := Doc.todoMut_eq_ok.mp hmut
    obtain ⟨rfl, rfl⟩ := Prod.mk.inj (Except.ok.inj h)
    exact ⟨key, todo, _, hkey, wroteBack_put htodo rfl (fun _ => rfl) fun _ => rfl⟩
  | block keys blockers | unblock keys blockers =>
    obtain ⟨next, hset, h⟩ := bind_eq_ok.mp happly
    obtain ⟨rfl, rfl⟩ := Prod.mk.inj (Except.ok.inj h)
    exact setBlockers_wroteBack _ hset

end Devkit.Todos
