import Devkit.Library.Outcomes
import Devkit.Todos.TicketTodos

/-!
# What every store call keeps

No call gives a todo another id or another ticket, and a key that was given out is not given out
again. So an id read once names the same ticket's todo for ever, or none.
-/

namespace Devkit.Todos

open Devkit.Library
open Std

namespace Doc

/-- Todos have the ids of their keys, and keys are given out in order. -/
structure Numbered (doc : Doc) : Prop where
  keyed : ∀ {key : ℕ} {todo : Todo}, doc.todos[key]? = some todo → todo.id = idOf key
  counted : ∀ {key : ℕ} {todo : Todo}, doc.todos[key]? = some todo → key < doc.nextId

/-- A todo of the later document is one of the earlier, with its id and ticket, or is under a key
given out since. -/
structure Kept (doc doc' : Doc) : Prop where
  nextId : doc.nextId ≤ doc'.nextId
  todos : ∀ {key : ℕ} {after : Todo}, doc'.todos[key]? = some after →
    (∃ before, doc.todos[key]? = some before ∧ after.id = before.id ∧
      ∀ tracker, after.ticketKey tracker = before.ticketKey tracker) ∨
    (doc.nextId ≤ key ∧ key < doc'.nextId ∧ after.id = idOf key)

/-- An empty document is numbered. -/
theorem numbered_empty : (Doc.mk 1 ∅).Numbered := ⟨fun h => by simp at h, fun h => by simp at h⟩

/-- A call that keeps the document keeps its numbering. -/
theorem Numbered.kept {doc doc' : Doc} (h : doc.Numbered) (hkept : doc.Kept doc') : doc'.Numbered := by
  refine ⟨fun {key todo} htodo => ?_, fun {key todo} htodo => ?_⟩
  · rcases hkept.todos htodo with ⟨before, hbefore, hid, _⟩ | ⟨_, _, hid⟩
    · exact hid.trans (h.keyed hbefore)
    · exact hid
  · rcases hkept.todos htodo with ⟨before, hbefore, _⟩ | ⟨_, hkey, _⟩
    · exact (h.counted hbefore).trans_le hkept.nextId
    · exact hkey

/-- No todo is new: each of the later document is one of the earlier, with its id and ticket. -/
structure Narrowed (doc doc' : Doc) : Prop where
  nextId : doc'.nextId = doc.nextId
  todos : ∀ {key : ℕ} {after : Todo}, doc'.todos[key]? = some after →
    ∃ before, doc.todos[key]? = some before ∧ after.id = before.id ∧
      ∀ tracker, after.ticketKey tracker = before.ticketKey tracker

/-- A document without new todos is kept. -/
theorem Narrowed.kept {doc doc' : Doc} (h : doc.Narrowed doc') : doc.Kept doc' :=
  ⟨h.nextId.ge, fun htodo => Or.inl (h.todos htodo)⟩

/-- A call that only drops todos narrows the document. -/
theorem narrowed_of_subset {doc doc' : Doc} (hnext : doc'.nextId = doc.nextId)
    (hsub : ∀ {key : ℕ} {todo : Todo}, doc'.todos[key]? = some todo → doc.todos[key]? = some todo) :
    doc.Narrowed doc' :=
  ⟨hnext, fun htodo => ⟨_, hsub htodo, rfl, fun _ => rfl⟩⟩

/-- A document narrows itself. -/
theorem Narrowed.refl (doc : Doc) : doc.Narrowed doc := narrowed_of_subset rfl id

/-- A document keeps itself. -/
theorem Kept.refl (doc : Doc) : doc.Kept doc := (Narrowed.refl doc).kept

/-- Writing back a todo with its id and ticket narrows the document. -/
theorem narrowed_put {doc : Doc} {key : ℕ} {before after : Todo} (hfound : doc.todos[key]? = some before)
    (hid : after.id = before.id) (hticket : ∀ tracker, after.ticketKey tracker = before.ticketKey tracker) :
    doc.Narrowed (doc.put key after) := by
  refine ⟨rfl, fun {other todo} htodo => ?_⟩
  rw [getElem?_put] at htodo
  split at htodo
  · rename_i heq
    obtain rfl := Option.some.inj htodo
    exact ⟨before, heq ▸ hfound, hid, hticket⟩
  · exact ⟨todo, htodo, rfl, fun _ => rfl⟩

/-- Erasing todos narrows the document. -/
theorem narrowed_eraseAll (doc : Doc) (keys : List ℕ) :
    doc.Narrowed ⟨doc.nextId, eraseAll doc.todos keys⟩ :=
  narrowed_of_subset rfl fun htodo => ((getElem?_eraseAll_eq_some doc.todos keys _ _).mp htodo).2

/-- A change of status by any rule narrows the document. -/
theorem changeStatus_narrowed (rule : Status → Except Claimed (Option Status)) {doc doc' : Doc}
    {now : Instant} {id : String} {changes : List StatusChange}
    (h : doc.changeStatus now id rule = .ok (doc', changes)) : doc.Narrowed doc' := by
  unfold changeStatus at h
  split at h
  · contradiction
  · rename_i key todo hmut
    split at h
    · rename_i next _
      obtain ⟨_, htodo⟩ := todoMut_eq_ok.mp hmut
      cases next with
      | none =>
        obtain ⟨rfl, rfl⟩ := Prod.mk.inj (Except.ok.inj h)
        exact Narrowed.refl doc
      | some next =>
        obtain ⟨rfl, rfl⟩ := Prod.mk.inj (Except.ok.inj h)
        exact narrowed_put htodo rfl fun _ => rfl
    · contradiction

/-- A change of blockers narrows the document. -/
theorem setBlockers_narrowed {doc doc' : Doc} {now : Instant} {id : String}
    {change : List String → List String} (h : doc.setBlockers now id change = .ok doc') :
    doc.Narrowed doc' := by
  obtain ⟨⟨key, todo⟩, hmut, h⟩ := bind_eq_ok.mp h
  obtain ⟨_, htodo⟩ := todoMut_eq_ok.mp hmut
  obtain rfl := Except.ok.inj h
  exact narrowed_put htodo rfl fun _ => rfl

/-- Recording a synced status writes it into the ticket of the todo the id names. -/
theorem recordSync_put {doc doc' : Doc} {now : Instant} {id name : String} {changes : List StatusChange}
    (h : doc.apply now (.recordSync id name) = .ok (doc', changes)) :
    ∃ key todo ticket, parseKey id = some key ∧ doc.todos[key]? = some todo ∧ todo.ticket = some ticket ∧
      doc' = doc.put key { todo with
        ticket := some { ticket with syncedStatus := some name }, modified := some now.text } := by
  obtain ⟨⟨key, todo⟩, hmut, h⟩ := bind_eq_ok.mp h
  obtain ⟨hkey, htodo⟩ := todoMut_eq_ok.mp hmut
  cases hticket : todo.ticket with
  | none =>
    simp only [hticket] at h
    contradiction
  | some ticket =>
    simp only [hticket] at h
    obtain ⟨rfl, rfl⟩ := Prod.mk.inj (Except.ok.inj h)
    exact ⟨key, todo, ticket, hkey, htodo, hticket, rfl⟩

/-- Recording a synced status narrows the document: the ticket's key stays. -/
theorem recordSync_narrowed {doc doc' : Doc} {now : Instant} {id name : String}
    {changes : List StatusChange} (h : doc.apply now (.recordSync id name) = .ok (doc', changes)) :
    doc.Narrowed doc' := by
  obtain ⟨key, todo, ticket, _, htodo, hticket, rfl⟩ := recordSync_put h
  refine narrowed_put htodo rfl fun tracker => ?_
  simp only [Todo.ticketKey, hticket]
  by_cases htracker : ticket.tracker = tracker <;> simp [Option.filter, htracker]

/-- A release narrows the document: only statuses change. -/
theorem release_narrowed {doc doc' : Doc} {now : Instant} {holder : Holder} {changes : List StatusChange}
    (h : doc.apply now (.releaseAll holder) = .ok (doc', changes)) : doc.Narrowed doc' := by
  simp only [apply] at h
  split at h
  · obtain ⟨rfl, rfl⟩ := Prod.mk.inj (Except.ok.inj h)
    exact Narrowed.refl doc
  · obtain ⟨rfl, rfl⟩ := Prod.mk.inj (Except.ok.inj h)
    refine ⟨rfl, fun {key after} hafter => ?_⟩
    rw [ExtTreeMap.getElem?_map] at hafter
    obtain ⟨before, hbefore, rfl⟩ := Option.map_eq_some_iff.mp hafter
    refine ⟨before, hbefore, ?_⟩
    unfold giveBack
    split <;> exact ⟨rfl, fun _ => rfl⟩

/-- A prune takes the removable todos out of the document. -/
theorem apply_prune (doc : Doc) (now : Instant) (ids : List String) : ∃ changes, doc.apply now (.prune ids) =
    .ok (⟨doc.nextId, eraseAll doc.todos ((removable (rows doc.todos) ids).filterMap parseKey)⟩, changes) := by
  have hdrop : ∀ dropOne : Doc × List StatusChange → ℕ → Doc × List StatusChange,
      (∀ state key, (dropOne state key).1 = ⟨state.1.nextId, state.1.todos.erase key⟩) →
      ∀ (keys : List ℕ) (state : Doc × List StatusChange),
        (keys.foldl dropOne state).1 = ⟨state.1.nextId, eraseAll state.1.todos keys⟩ := by
    intro dropOne hone keys
    induction keys with
    | nil => exact fun state => rfl
    | cons key rest ih =>
      intro state
      rw [List.foldl_cons, ih, hone, eraseAll, eraseAll, List.foldl_cons]
  refine ⟨_, congrArg Except.ok (Prod.ext (hdrop _ (fun state key => ?_) _ (doc, [])) rfl)⟩
  split
  · rfl
  · rename_i hnone
    have herase : state.1.todos.erase key = state.1.todos := by
      refine ExtTreeMap.ext_getElem? fun other => ?_
      rw [getElem?_erase_eq]
      split
      · rename_i heq
        rw [← heq, hnone]
      · rfl
    rw [herase]

/-- Every edit narrows the document. -/
theorem apply_narrowed {doc doc' : Doc} {now : Instant} {edit : Edit} {changes : List StatusChange}
    (h : doc.apply now edit = .ok (doc', changes)) : doc.Narrowed doc' := by
  cases edit with
  | setStatus id target actor => exact changeStatus_narrowed (transition · target actor) h
  | takeOver id source actor => exact changeStatus_narrowed (Todos.takeOver · source actor) h
  | releaseAll => exact release_narrowed h
  | prune ids =>
    obtain ⟨_, hprune⟩ := apply_prune doc now ids
    rw [hprune] at h
    obtain ⟨rfl, rfl⟩ := Prod.mk.inj (Except.ok.inj h)
    exact narrowed_eraseAll doc _
  | recordSync => exact recordSync_narrowed h
  | describe | relocate | reorder =>
    obtain ⟨⟨key, todo⟩, hmut, h⟩ := bind_eq_ok.mp h
    obtain ⟨_, htodo⟩ := todoMut_eq_ok.mp hmut
    obtain ⟨rfl, rfl⟩ := Prod.mk.inj (Except.ok.inj h)
    exact narrowed_put htodo rfl fun _ => rfl
  | purge =>
    obtain ⟨⟨key, todo⟩, hmut, h⟩ := bind_eq_ok.mp h
    obtain ⟨rfl, rfl⟩ := Prod.mk.inj (Except.ok.inj h)
    exact narrowed_eraseAll doc [key]
  | block | unblock =>
    obtain ⟨after, hset, h⟩ := bind_eq_ok.mp h
    obtain ⟨rfl, rfl⟩ := Prod.mk.inj (Except.ok.inj h)
    exact setBlockers_narrowed hset
  | move id parent order =>
    have hput : ∀ order : Todo → Option Int64, (doc.todoMut id >>= fun found =>
        .ok (doc.put found.1 { found.2 with parent, order := order found.2, modified := some now.text }, [])) =
          Except.ok (doc', changes) → doc.Narrowed doc' := by
      intro order h
      obtain ⟨⟨key, todo⟩, hmut, h⟩ := bind_eq_ok.mp h
      obtain ⟨_, htodo⟩ := todoMut_eq_ok.mp hmut
      obtain ⟨rfl, rfl⟩ := Prod.mk.inj (Except.ok.inj h)
      exact narrowed_put htodo rfl fun _ => rfl
    cases parent with
    | none => exact hput (fun todo => some (order.getD (doc.afterLast todo.project none (some id)))) h
    | some parent =>
      obtain ⟨_, _, h⟩ := bind_eq_ok.mp h
      exact hput (fun todo => some (order.getD (doc.afterLast todo.project (some parent) (some id)))) h

/-- Every edit keeps the document. -/
theorem apply_kept {doc doc' : Doc} {now : Instant} {edit : Edit} {changes : List StatusChange}
    (h : doc.apply now edit = .ok (doc', changes)) : doc.Kept doc' := (apply_narrowed h).kept

/-- A todo an add makes: pending, for the ticket it was asked for. -/
structure MadeFor (todo : NewTodo) (key : ℕ) (new : Todo) : Prop where
  id : new.id = idOf key
  status : new.status = .pending
  ticket : new.ticket = todo.ticket

/-- An add returns the todo its ticket has, or makes one under the next key. -/
theorem add_cases {doc doc' : Doc} {now : Instant} {todo : NewTodo} {id : String}
    (h : doc.add now todo = .ok (doc', id)) :
    (∃ existing, todo.ticket.bind doc.ticketTodo = some existing ∧ doc' = doc ∧ id = existing.id) ∨
      (todo.ticket.bind doc.ticketTodo = none ∧ ∃ new, MadeFor todo (max doc.nextId 1) new ∧
        doc' = ⟨max doc.nextId 1 + 1, doc.todos.insert (max doc.nextId 1) new⟩ ∧
        id = idOf (max doc.nextId 1)) := by
  unfold add at h
  split at h
  · rename_i existing hexisting
    obtain ⟨rfl, rfl⟩ := Prod.mk.inj (Except.ok.inj h)
    exact Or.inl ⟨existing, hexisting, rfl, rfl⟩
  · rename_i hnone
    refine Or.inr ⟨hnone, ?_⟩
    cases hparent : todo.parent with
    | none =>
      simp only [hparent] at h
      obtain ⟨rfl, rfl⟩ := Prod.mk.inj (Except.ok.inj h)
      exact ⟨_, ⟨rfl, rfl, rfl⟩, rfl, rfl⟩
    | some parent =>
      simp only [hparent] at h
      obtain ⟨_, _, h⟩ := bind_eq_ok.mp h
      obtain ⟨rfl, rfl⟩ := Prod.mk.inj (Except.ok.inj h)
      exact ⟨_, ⟨rfl, rfl, rfl⟩, rfl, rfl⟩

/-- Every add keeps the document. -/
theorem add_kept {doc doc' : Doc} {now : Instant} {todo : NewTodo} {id : String}
    (h : doc.add now todo = .ok (doc', id)) : doc.Kept doc' := by
  rcases add_cases h with ⟨existing, _, rfl, _⟩ | ⟨_, new, hnew, rfl, _⟩
  · exact Kept.refl doc'
  · refine ⟨by dsimp only; omega, fun {key after} hafter => ?_⟩
    rw [getElem?_insert_eq] at hafter
    split at hafter
    · rename_i heq
      obtain rfl := Option.some.inj hafter
      subst heq
      exact Or.inr ⟨le_max_left doc.nextId 1, Nat.lt_succ_self _, hnew.id⟩
    · exact Or.inl ⟨after, hafter, rfl, fun _ => rfl⟩

/-- A call that may fail keeps the document when each success does. -/
theorem kept_withDoc {A : Type} {doc : Doc} {outcome : Except StoreError (Doc × A)}
    (h : ∀ {doc' : Doc} {a : A}, outcome = .ok (doc', a) → doc.Kept doc') : doc.Kept (doc.withDoc outcome) := by
  cases outcome with
  | error refusal => exact Kept.refl doc
  | ok written => exact h rfl

end Doc

end Devkit.Todos
