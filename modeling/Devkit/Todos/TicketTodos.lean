import Devkit.Todos.Landing

/-!
# The ticket todos of a sound document

In a sound document every todo has the id of its key, ids count up, and no todo refers to an id
not given out yet. Where a node has at most one todo for each ticket, the tables a plan builds
from the node's todos are lookups in the document.
-/

namespace Devkit.Todos

open Devkit.Library
open Std

/-- An id spells its key. -/
@[simp] theorem parseKey_idOf (key : ℕ) : parseKey (idOf key) = some key := by
  have hdigits : ∀ c ∈ Nat.toDigits 10 key, c.isDigit = true := fun c hc =>
    Nat.isDigit_of_mem_toDigits (by decide) (by decide) hc
  have hplus : withoutPlus (Nat.toDigits 10 key) = Nat.toDigits 10 key := by
    unfold withoutPlus
    split
    · rename_i rest heq
      have hdigit := hdigits '+' (by rw [heq]; exact List.mem_cons_self)
      exact absurd hdigit (by decide)
    · rfl
  unfold parseKey idOf
  rw [Nat.toList_repr, hplus]
  dsimp only
  rw [if_neg, Nat.ofDigitChars_ten_toDigits]
  simpa [Nat.toDigits_ne_nil] using hdigits

/-- Different keys have different ids. -/
@[simp] theorem idOf_inj {key other : ℕ} : idOf key = idOf other ↔ key = other := by
  constructor
  · intro hids
    have hkeys := congrArg parseKey hids
    rw [parseKey_idOf, parseKey_idOf] at hkeys
    exact Option.some.inj hkeys
  · exact congrArg idOf

namespace Doc

/-- What every call keeps of the document: ids are those of the keys, keys are given out in
order, and todos refer to ids given out. -/
structure Sound (doc : Doc) : Prop where
  keyed : ∀ {key : ℕ} {todo : Todo}, doc.todos[key]? = some todo → todo.id = idOf key
  counted : ∀ {key : ℕ} {todo : Todo}, doc.todos[key]? = some todo → key < doc.nextId
  referred : ∀ {key : ℕ} {todo : Todo} {id : String}, doc.todos[key]? = some todo →
    id ∈ todo.blockedBy ∨ todo.parent = some id → ∀ other, id = idOf other → other < doc.nextId

/-- The todo under the key is on the node and stands for the tracker's ticket. -/
def Stands (doc : Doc) (tracker node ticket : String) (key : ℕ) : Prop :=
  ∃ todo, doc.todos[key]? = some todo ∧ todo.node = node ∧ todo.ticketKey tracker = some ticket

/-- No two todos of the node stand for one ticket. -/
def OnePerTicket (doc : Doc) (tracker node : String) : Prop :=
  ∀ ticket key other, doc.Stands tracker node ticket key → doc.Stands tracker node ticket other → key = other

/-- A todo stands for one ticket only. -/
theorem Stands.ticket_eq {doc : Doc} {tracker node ticket ticket' : String} {key : ℕ}
    (h : doc.Stands tracker node ticket key) (h' : doc.Stands tracker node ticket' key) : ticket = ticket' := by
  obtain ⟨todo, htodo, _, hticket⟩ := h
  obtain ⟨todo', htodo', _, hticket'⟩ := h'
  obtain rfl := Option.some.inj (htodo.symm.trans htodo')
  exact Option.some.inj (hticket.symm.trans hticket')

/-- The ticket todos of a node's listing are the todos that stand for a ticket. -/
theorem ticketTodos_eq_some {doc : Doc} {tracker node ticket : String} {todo : Todo}
    (hone : doc.OnePerTicket tracker node) :
    (ticketTodos tracker (doc.listExact node))[ticket]? = some todo ↔
      ∃ key : ℕ, doc.todos[key]? = some todo ∧ todo.node = node ∧ todo.ticketKey tracker = some ticket := by
  have hdistinct : ((doc.listExact node).filterMap fun todo =>
      (todo.ticketKey tracker).map fun key => (key, todo)).Pairwise fun a b => a.1 ≠ b.1 := by
    rw [List.pairwise_filterMap, listExact, rows, List.pairwise_filter, List.pairwise_map]
    refine (toList_pairwise_ne doc.todos).imp_of_mem fun {a b} ha hb hne hnode hnode' row hrow row' hrow' => ?_
    obtain ⟨ticket, hticket, rfl⟩ := Option.map_eq_some_iff.mp hrow
    obtain ⟨ticket', hticket', rfl⟩ := Option.map_eq_some_iff.mp hrow'
    intro heq
    obtain rfl : ticket = ticket' := heq
    refine hne (hone ticket a.1 b.1 ⟨a.2, ?_, by simpa using hnode, hticket⟩
      ⟨b.2, ?_, by simpa using hnode', hticket'⟩)
    · exact ExtTreeMap.mem_toList_iff_getElem?_eq_some.mp ha
    · exact ExtTreeMap.mem_toList_iff_getElem?_eq_some.mp hb
  rw [ticketTodos, getElem?_ofList_eq_some hdistinct, List.mem_filterMap]
  constructor
  · rintro ⟨found, hfound, hrow⟩
    obtain ⟨key, hkey, heq⟩ := Option.map_eq_some_iff.mp hrow
    obtain ⟨rfl, rfl⟩ := Prod.mk.inj heq
    obtain ⟨hmem, hnode⟩ := List.mem_filter.mp hfound
    obtain ⟨at_, hat⟩ := mem_rows.mp hmem
    exact ⟨at_, hat, by simpa using hnode, hkey⟩
  · rintro ⟨key, hkey, hnode, hticket⟩
    exact ⟨todo, List.mem_filter.mpr ⟨mem_rows.mpr ⟨key, hkey⟩, by simpa using hnode⟩, by rw [hticket]; rfl⟩

/-- A ticket has a todo in the listing exactly when some todo of the node stands for it. -/
theorem mem_ticketTodos {doc : Doc} {tracker node ticket : String} :
    ticket ∈ ticketTodos tracker (doc.listExact node) ↔ ∃ key, doc.Stands tracker node ticket key := by
  rw [ticketTodos, ExtTreeMap.mem_ofList, List.contains_iff_mem, List.mem_map]
  constructor
  · rintro ⟨row, hrow, rfl⟩
    obtain ⟨todo, htodo, heq⟩ := List.mem_filterMap.mp hrow
    obtain ⟨ticket, hticket, rfl⟩ := Option.map_eq_some_iff.mp heq
    obtain ⟨hmem, hnode⟩ := List.mem_filter.mp htodo
    obtain ⟨key, hkey⟩ := mem_rows.mp hmem
    exact ⟨key, todo, hkey, by simpa using hnode, hticket⟩
  · rintro ⟨key, todo, hkey, hnode, hticket⟩
    refine ⟨(ticket, todo), List.mem_filterMap.mpr ⟨todo, ?_, by rw [hticket]; rfl⟩, rfl⟩
    exact List.mem_filter.mpr ⟨mem_rows.mpr ⟨key, hkey⟩, by simpa using hnode⟩

/-- The ids a plan reads keys from are those of the node's ticket todos. -/
theorem keyOfId_eq_some {doc : Doc} {tracker node ticket id : String}
    (hkeyed : ∀ {key : ℕ} {todo : Todo}, doc.todos[key]? = some todo → todo.id = idOf key)
    (hone : doc.OnePerTicket tracker node) :
    (keyOfId (ticketTodos tracker (doc.listExact node)))[id]? = some ticket ↔
      ∃ key, doc.Stands tracker node ticket key ∧ id = idOf key := by
  have hrow : ∀ {row : String × Todo}, row ∈ (ticketTodos tracker (doc.listExact node)).toList →
      ∃ key, doc.Stands tracker node row.1 key ∧ row.2.id = idOf key := by
    intro row hmem
    obtain ⟨key, htodo, hnode, hticket⟩ :=
      (ticketTodos_eq_some hone).mp (ExtTreeMap.mem_toList_iff_getElem?_eq_some.mp hmem)
    exact ⟨key, ⟨row.2, htodo, hnode, hticket⟩, hkeyed htodo⟩
  have hdistinct : ((ticketTodos tracker (doc.listExact node)).toList.map fun row =>
      (row.2.id, row.1)).Pairwise fun a b => a.1 ≠ b.1 := by
    rw [List.pairwise_map]
    refine (toList_pairwise_ne _).imp_of_mem fun {a b} ha hb hne heq => hne ?_
    obtain ⟨key, hstands, hid⟩ := hrow ha
    obtain ⟨key', hstands', hid'⟩ := hrow hb
    have hids : idOf key = idOf key' := hid.symm.trans ((heq : a.2.id = b.2.id).trans hid')
    obtain rfl := idOf_inj.mp hids
    exact hstands.ticket_eq hstands'
  rw [keyOfId, getElem?_ofList_eq_some hdistinct, List.mem_map]
  constructor
  · rintro ⟨row, hmem, heq⟩
    obtain ⟨rfl, rfl⟩ := Prod.mk.inj heq
    exact hrow hmem
  · rintro ⟨key, ⟨todo, htodo, hnode, hticket⟩, rfl⟩
    refine ⟨(ticket, todo), ?_, by rw [hkeyed htodo]⟩
    exact ExtTreeMap.mem_toList_iff_getElem?_eq_some.mpr
      ((ticketTodos_eq_some hone).mpr ⟨key, htodo, hnode, hticket⟩)

/-- The ids known for the tickets are those of the node's ticket todos. -/
def Names (doc : Doc) (tracker node : String) (ids : ExtTreeMap String String) : Prop :=
  ∀ ticket id, ids[ticket]? = some id ↔ ∃ key, doc.Stands tracker node ticket key ∧ id = idOf key

/-- Where every ticket todo is named, no ticket has two. -/
theorem Names.one {doc : Doc} {tracker node : String} {ids : ExtTreeMap String String}
    (h : doc.Names tracker node ids) : doc.OnePerTicket tracker node := by
  intro ticket key other hkey hother
  have hid := (h ticket (idOf key)).mpr ⟨key, hkey, rfl⟩
  have hid' := (h ticket (idOf other)).mpr ⟨other, hother, rfl⟩
  exact idOf_inj.mp (Option.some.inj (hid.symm.trans hid'))

/-- The ids of the node's ticket todos name them. -/
theorem names_plannedIds {doc : Doc} {tracker node : String} (hsound : doc.Sound)
    (hone : doc.OnePerTicket tracker node) :
    doc.Names tracker node (plannedIds (ticketTodos tracker (doc.listExact node))) := by
  intro ticket id
  rw [plannedIds, ExtTreeMap.getElem?_map, Option.map_eq_some_iff]
  constructor
  · rintro ⟨todo, htodo, rfl⟩
    obtain ⟨key, hkey, hnode, hticket⟩ := (ticketTodos_eq_some hone).mp htodo
    exact ⟨key, ⟨todo, hkey, hnode, hticket⟩, hsound.keyed hkey⟩
  · rintro ⟨key, ⟨todo, hkey, hnode, hticket⟩, rfl⟩
    exact ⟨todo, (ticketTodos_eq_some hone).mpr ⟨key, hkey, hnode, hticket⟩, hsound.keyed hkey⟩

/-- The tracker's ticket has no todo in the document, on any node. -/
def Absent (doc : Doc) (tracker ticket : String) : Prop :=
  ∀ (key : ℕ) (todo : Todo), doc.todos[key]? = some todo → todo.ticketKey tracker ≠ some ticket

end Doc

end Devkit.Todos
