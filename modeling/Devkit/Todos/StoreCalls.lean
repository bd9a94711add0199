import Devkit.Library.Runs
import Devkit.Todos.Kept

/-!
# Runs of store calls

Adds and edits from the empty document, each failing or not. Whatever the calls, no two todos stand
for one ticket: an add returns the todo its ticket has, and no edit gives a todo another ticket.
-/

namespace Devkit.Todos

open Devkit.Library
open Std

/-- A call of the store. -/
inductive StoreCall
  | add (now : Instant) (todo : NewTodo)
  | edit (now : Instant) (edit : Edit)
deriving DecidableEq

namespace Doc

/-- The document of a new store. -/
def empty : Doc := ⟨0, ∅⟩

/-- The document after a call. -/
def call (doc : Doc) : StoreCall → Doc
  | .add now todo => doc.withDoc (doc.add now todo)
  | .edit now edit => doc.withDoc (doc.apply now edit)

/-- No two todos stand for one ticket. -/
structure TicketsOnce (doc : Doc) : Prop where
  once : ∀ {tracker ticket : String} {key other : ℕ} {todo todo' : Todo}, doc.todos[key]? = some todo →
    doc.todos[other]? = some todo' → todo.ticketKey tracker = some ticket →
      todo'.ticketKey tracker = some ticket → key = other

/-- What holds of a document and of every one with a todo added or narrowed holds after a call. -/
theorem call_invariant {inv : Doc → Prop} {doc : Doc} (hdoc : inv doc)
    (hadd : ∀ {now : Instant} {todo : NewTodo} {doc' : Doc} {id : String},
      doc.add now todo = .ok (doc', id) → inv doc')
    (hnarrowed : ∀ {doc' : Doc}, doc.Narrowed doc' → inv doc') (c : StoreCall) : inv (doc.call c) := by
  cases c with
  | add now todo =>
    change inv (doc.withDoc (doc.add now todo))
    cases hresult : doc.add now todo with
    | error refusal => exact hdoc
    | ok made => exact hadd hresult
  | edit now edit =>
    change inv (doc.withDoc (doc.apply now edit))
    cases hresult : doc.apply now edit with
    | error refusal => exact hdoc
    | ok written => exact hnarrowed (apply_narrowed hresult)

/-- A document of fewer todos has no more for a ticket. -/
theorem TicketsOnce.narrowed {doc doc' : Doc} (h : doc.TicketsOnce) (hnarrowed : doc.Narrowed doc') :
    doc'.TicketsOnce := by
  refine ⟨fun {tracker ticket key other todo todo'} htodo htodo' hticket hticket' => ?_⟩
  obtain ⟨before, hbefore, _, hsame⟩ := hnarrowed.todos htodo
  obtain ⟨before', hbefore', _, hsame'⟩ := hnarrowed.todos htodo'
  exact h.once hbefore hbefore' ((hsame tracker).symm.trans hticket) ((hsame' tracker).symm.trans hticket')

/-- A todo stands for the tracker's ticket exactly when it names the ticket. -/
theorem ticketKey_eq_some {todo : Todo} {tracker key : String} :
    todo.ticketKey tracker = some key ↔ ∃ ticket, todo.ticket = some ticket ∧ ticket.tracker = tracker ∧
      ticket.key = key := by
  rw [Todo.ticketKey, Option.map_eq_some_iff]
  constructor
  · rintro ⟨ticket, hticket, rfl⟩
    obtain ⟨hticket, htracker⟩ := Option.filter_eq_some_iff.mp hticket
    exact ⟨ticket, hticket, by simpa using htracker, rfl⟩
  · rintro ⟨ticket, hticket, rfl, rfl⟩
    exact ⟨ticket, Option.filter_eq_some_iff.mpr ⟨hticket, by simp⟩, rfl⟩

/-- A ticket no todo stands for. -/
theorem ticketTodo_eq_none {doc : Doc} {ticket : TicketRef} (h : doc.ticketTodo ticket = none) {key : ℕ}
    {todo : Todo} (htodo : doc.todos[key]? = some todo) : todo.ticketKey ticket.tracker ≠ some ticket.key := by
  intro hticket
  obtain ⟨other, hother, htracker, hkey⟩ := ticketKey_eq_some.mp hticket
  have hnone := List.find?_eq_none.mp h todo (mem_rows.mpr ⟨key, htodo⟩)
  simp [hother, TicketRef.sameTicket, htracker, hkey] at hnone

/-- An add gives no ticket a second todo. -/
theorem TicketsOnce.add {doc doc' : Doc} (h : doc.TicketsOnce) {now : Instant} {todo : NewTodo} {id : String}
    (hadd : doc.add now todo = .ok (doc', id)) : doc'.TicketsOnce := by
  cases add_cases hadd with
  | inl hexisting =>
    obtain ⟨_, _, rfl, _⟩ := hexisting
    exact h
  | inr hnew =>
    obtain ⟨hnone, new, hmade, rfl, _⟩ := hnew
    have hfresh : ∀ {tracker ticket : String}, new.ticketKey tracker = some ticket →
        ∀ {key : ℕ} {other : Todo}, doc.todos[key]? = some other → other.ticketKey tracker ≠ some ticket := by
      intro tracker ticket hticket key other hother
      obtain ⟨ref, href, rfl, rfl⟩ := ticketKey_eq_some.mp hticket
      rw [hmade.ticket] at href
      rw [href] at hnone
      exact ticketTodo_eq_none hnone hother
    refine ⟨fun {tracker ticket key other first second} hfirst hsecond hticket hticket' => ?_⟩
    rw [getElem?_insert_eq] at hfirst hsecond
    split at hfirst <;> split at hsecond
    · rename_i hkey hother
      exact hkey.symm.trans hother
    · obtain rfl := Option.some.inj hfirst
      exact absurd hticket' (hfresh hticket hsecond)
    · obtain rfl := Option.some.inj hsecond
      exact absurd hticket (hfresh hticket' hfirst)
    · exact h.once hfirst hsecond hticket hticket'

/-- After any calls from the empty document, no two todos stand for one ticket. -/
theorem ticketsOnce_run (calls : List StoreCall) : (runFrom call empty calls).TicketsOnce :=
  runFrom_invariant TicketsOnce (fun _ c h => call_invariant h h.add h.narrowed c)
    ⟨fun h => by simp [empty] at h⟩ calls

end Doc

end Devkit.Todos
