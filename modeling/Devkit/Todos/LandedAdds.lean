import Devkit.Todos.TicketTodos

/-!
# What landed adds leave

Where no todo of the document stands for a ticket, adding it makes a new todo under the next
key. The adds of a plan leave the existing todos alone and one fresh todo for each ticket, and
the ids they return complete the ids of the node's ticket todos.
-/

namespace Devkit.Todos

open Devkit.Library
open Std

/-- A ticket's text is on one line. -/
theorem oneLine_todoText (tracker key title : String) :
    oneLine (todoText tracker key title) = todoText tracker key title := by
  unfold todoText
  exact oneLine_oneLine _

/-- The todo just added for a ticket. -/
structure FreshFor (tracker node : String) (ticket : SyncedTicket) (key : ℕ) (todo : Todo) : Prop where
  id : todo.id = idOf key
  node : todo.node = node
  description : todo.description = todoText tracker ticket.key ticket.title
  status : todo.status = .pending
  parent : todo.parent = none
  blockedBy : todo.blockedBy = []
  ticket : todo.ticket = some ⟨tracker, ticket.key, some (statusName ticket.status)⟩

/-- A fresh todo stands for its ticket. -/
theorem FreshFor.ticketKey {tracker node : String} {ticket : SyncedTicket} {key : ℕ} {todo : Todo}
    (h : FreshFor tracker node ticket key todo) : todo.ticketKey tracker = some ticket.key := by
  simp [Todo.ticketKey, h.ticket, Option.filter]

/-- Landed adds: the existing todos are kept, each ticket has a fresh todo, and nothing else is new. -/
structure Landed (tracker node : String) (added : List SyncedTicket) (before after : Landing) : Prop where
  sound : after.doc.Sound
  names : after.doc.Names tracker node after.ids
  next : before.doc.nextId ≤ after.doc.nextId
  kept : ∀ {key : ℕ} {todo : Todo}, before.doc.todos[key]? = some todo → after.doc.todos[key]? = some todo
  fresh : ∀ ticket ∈ added, ∃ (key : ℕ) (todo : Todo), after.doc.todos[key]? = some todo ∧
    before.doc.nextId ≤ key ∧ FreshFor tracker node ticket key todo
  only : ∀ {key : ℕ} {todo : Todo}, after.doc.todos[key]? = some todo →
    before.doc.todos[key]? = some todo ∨
      before.doc.nextId ≤ key ∧ ∃ ticket ∈ added, FreshFor tracker node ticket key todo

/-- Nothing landed yet. -/
theorem Landed.refl {tracker node : String} {landing : Landing} (hsound : landing.doc.Sound)
    (hnames : landing.doc.Names tracker node landing.ids) : Landed tracker node [] landing landing where
  sound := hsound
  names := hnames
  next := le_rfl
  kept h := h
  fresh _ h := by simp at h
  only h := Or.inl h

/-- Adds that land one after the other. -/
theorem Landed.trans {tracker node : String} {ticket : SyncedTicket} {rest : List SyncedTicket}
    {before middle after : Landing} (h : Landed tracker node [ticket] before middle)
    (h' : Landed tracker node rest middle after) : Landed tracker node (ticket :: rest) before after where
  sound := h'.sound
  names := h'.names
  next := h.next.trans h'.next
  kept hkey := h'.kept (h.kept hkey)
  fresh other hother := by
    rcases List.mem_cons.mp hother with rfl | hrest
    · obtain ⟨key, todo, htodo, hnew, hfresh⟩ := h.fresh other List.mem_cons_self
      exact ⟨key, todo, h'.kept htodo, hnew, hfresh⟩
    · obtain ⟨key, todo, htodo, hnew, hfresh⟩ := h'.fresh other hrest
      exact ⟨key, todo, htodo, h.next.trans hnew, hfresh⟩
  only {key todo} htodo := by
    rcases h'.only htodo with hmiddle | ⟨hnew, other, hother, hfresh⟩
    · rcases h.only hmiddle with hbefore | ⟨hnew, other, hother, hfresh⟩
      · exact Or.inl hbefore
      · rw [List.mem_singleton] at hother
        exact Or.inr ⟨hnew, other, List.mem_cons.mpr (Or.inl hother), hfresh⟩
    · exact Or.inr ⟨h.next.trans hnew, other, List.mem_cons_of_mem ticket hother, hfresh⟩

/-- A todo names the same ticket as a reference exactly when it stands for the reference's key. -/
theorem any_sameTicket {tracker : String} {todo : Todo} {ticket : TicketRef}
    (htracker : ticket.tracker = tracker) :
    todo.ticket.any (fun other => other.sameTicket ticket) = true ↔ todo.ticketKey tracker = some ticket.key := by
  subst htracker
  cases hticket : todo.ticket with
  | none => simp [Todo.ticketKey, hticket]
  | some other =>
    by_cases htracker : other.tracker = ticket.tracker <;>
      simp [Todo.ticketKey, hticket, TicketRef.sameTicket, Option.filter, htracker]

/-- A ticket without a todo in the document gets one. -/
theorem add_absent {doc : Doc} {tracker : String} (node : String) {ticket : SyncedTicket} (now : Instant)
    (habsent : doc.Absent tracker ticket.key) :
    ∃ todo, doc.add now (ticketAdd tracker node ticket) =
        .ok (⟨max doc.nextId 1 + 1, doc.todos.insert (max doc.nextId 1) todo⟩, idOf (max doc.nextId 1)) ∧
      FreshFor tracker node ticket (max doc.nextId 1) todo := by
  have hnone : (ticketAdd tracker node ticket).ticket.bind doc.ticketTodo = none := by
    refine List.find?_eq_none.mpr fun todo hmem => ?_
    obtain ⟨key, hkey⟩ := mem_rows.mp hmem
    rw [any_sameTicket rfl]
    exact habsent key todo hkey
  unfold Doc.add
  rw [hnone]
  refine ⟨{ id := idOf (max doc.nextId 1), description := oneLine (todoText tracker ticket.key ticket.title)
            status := .pending, parent := none, order := some (doc.afterLast (some node) none none)
            project := some node, entry := some now.text, modified := some now.text, blockedBy := []
            ticket := (ticketAdd tracker node ticket).ticket }, rfl, rfl, rfl, ?_, rfl, rfl, rfl, rfl⟩
  dsimp only
  exact oneLine_todoText tracker ticket.key ticket.title

/-- The id an add returns names the fresh todo, beside those named before. -/
theorem names_insert {doc doc' : Doc} {tracker node : String} {ids : ExtTreeMap String String}
    {ticket : SyncedTicket} {key : ℕ} {new : Todo} (hnames : doc.Names tracker node ids)
    (habsent : doc.Absent tracker ticket.key) (hfresh : FreshFor tracker node ticket key new)
    (hdoc : ∀ other : ℕ, doc'.todos[other]? = if key = other then some new else doc.todos[other]?)
    (hfree : doc.todos[key]? = none) : doc'.Names tracker node (ids.insert ticket.key (idOf key)) := by
  have hstands : ∀ other at_, doc'.Stands tracker node other at_ ↔
      key = at_ ∧ ticket.key = other ∨ doc.Stands tracker node other at_ := by
    intro other at_
    by_cases heq : key = at_
    · subst heq
      simp only [Doc.Stands, hdoc, if_true, hfree, Option.some.injEq, exists_eq_left', hfresh.node,
        hfresh.ticketKey, true_and, reduceCtorEq, false_and, exists_false, or_false]
    · simp only [Doc.Stands, hdoc, heq, if_false, false_and, false_or]
  intro other id
  rw [getElem?_insert_eq]
  split
  · rename_i heq
    subst heq
    rw [Option.some.injEq]
    constructor
    · rintro rfl
      exact ⟨key, (hstands _ _).mpr (Or.inl ⟨rfl, rfl⟩), rfl⟩
    · rintro ⟨at_, hat, rfl⟩
      rcases (hstands _ _).mp hat with ⟨rfl, _⟩ | ⟨todo, htodo, _, hticket⟩
      · rfl
      · exact absurd hticket (habsent at_ todo htodo)
  · rename_i hne
    rw [hnames]
    refine exists_congr fun at_ => and_congr_left fun _ => ?_
    rw [hstands]
    exact (or_iff_right fun heq => hne heq.2).symm

/-- The add of a ticket without a todo lands. -/
theorem landAdd_ok {tracker node : String} {landing : Landing} {ticket : SyncedTicket} (now : Instant)
    (hsound : landing.doc.Sound) (hnames : landing.doc.Names tracker node landing.ids)
    (habsent : landing.doc.Absent tracker ticket.key) :
    ∃ after, landAdd now landing (ticketAdd tracker node ticket) = .ok after ∧
      Landed tracker node [ticket] landing after := by
  obtain ⟨new, hadd, hfresh⟩ := add_absent node now habsent
  have hland : landAdd now landing (ticketAdd tracker node ticket) =
      .ok ⟨⟨max landing.doc.nextId 1 + 1, landing.doc.todos.insert (max landing.doc.nextId 1) new⟩,
        landing.ids.insert ticket.key (idOf (max landing.doc.nextId 1))⟩ := by
    unfold landAdd
    rw [hadd]
    rfl
  refine ⟨_, hland, ?_⟩
  generalize hkey : max landing.doc.nextId 1 = key at hfresh
  have hnext : landing.doc.nextId ≤ key := hkey ▸ Nat.le_max_left _ _
  have hget : ∀ other, (landing.doc.todos.insert key new)[other]? =
      if key = other then some new else landing.doc.todos[other]? :=
    fun other => getElem?_insert_eq landing.doc.todos key other new
  have hold : ∀ {other : ℕ} {todo : Todo}, landing.doc.todos[other]? = some todo → key ≠ other :=
    fun hsome heq => absurd (hsound.counted hsome) (by omega)
  have hfree : landing.doc.todos[key]? = none := by
    by_contra hsome
    obtain ⟨todo, htodo⟩ := Option.ne_none_iff_exists'.mp hsome
    exact hold htodo rfl
  -- A todo of the new document is the new one or was there.
  have hcases : ∀ {other : ℕ} {todo : Todo}, (landing.doc.todos.insert key new)[other]? = some todo →
      key = other ∧ new = todo ∨ landing.doc.todos[other]? = some todo := by
    intro other todo hsome
    rw [hget] at hsome
    split at hsome
    · rename_i heq
      exact Or.inl ⟨heq, Option.some.inj hsome⟩
    · exact Or.inr hsome
  have hkept : ∀ {other : ℕ} {todo : Todo}, landing.doc.todos[other]? = some todo →
      (landing.doc.todos.insert key new)[other]? = some todo := by
    intro other todo hsome
    rw [hget, if_neg (hold hsome)]
    exact hsome
  have hnew : (landing.doc.todos.insert key new)[key]? = some new := by rw [hget, if_pos rfl]
  refine ⟨⟨fun {other todo} hsome => ?_, fun {other todo} hsome => ?_, fun {other todo id} hsome href at_ hat => ?_⟩,
    fun other id => ?_, ?_, hkept, fun other hother => ?_, fun {other todo} hsome => ?_⟩
  · rcases hcases hsome with ⟨rfl, rfl⟩ | hbefore
    · exact hfresh.id
    · exact hsound.keyed hbefore
  · change other < key + 1
    rcases hcases hsome with ⟨rfl, rfl⟩ | hbefore
    · omega
    · have := hsound.counted hbefore
      omega
  · change at_ < key + 1
    rcases hcases hsome with ⟨rfl, rfl⟩ | hbefore
    · rw [hfresh.blockedBy, hfresh.parent] at href
      simp at href
    · have := hsound.referred hbefore href at_ hat
      omega
  · exact names_insert hnames habsent hfresh hget hfree other id
  · change landing.doc.nextId ≤ key + 1
    omega
  · rw [List.mem_singleton] at hother
    exact ⟨key, new, hnew, hnext, hother ▸ hfresh⟩
  · rcases hcases hsome with ⟨rfl, rfl⟩ | hbefore
    · exact Or.inr ⟨hnext, ticket, List.mem_singleton_self ticket, hfresh⟩
    · exact Or.inl hbefore

/-- The adds of a plan land when no todo of the document stands for their tickets. -/
theorem landAdds_ok (clock : ℕ → Instant) {tracker node : String} {landing : Landing}
    {added : List SyncedTicket} (hsound : landing.doc.Sound)
    (hnames : landing.doc.Names tracker node landing.ids)
    (hdistinct : (added.map SyncedTicket.key).Nodup)
    (habsent : ∀ ticket ∈ added, landing.doc.Absent tracker ticket.key) (call : ℕ) :
    ∃ after, landAdds clock call landing (added.map (ticketAdd tracker node)) = (after, none) ∧
      Landed tracker node added landing after := by
  induction added generalizing landing call with
  | nil => exact ⟨landing, rfl, Landed.refl hsound hnames⟩
  | cons ticket rest ih =>
    obtain ⟨middle, hland, hlanded⟩ := landAdd_ok (clock call) hsound hnames (habsent ticket List.mem_cons_self)
    rw [List.map_cons, List.nodup_cons] at hdistinct
    have hrest : ∀ other ∈ rest, middle.doc.Absent tracker other.key := by
      intro other hother key todo htodo hkey
      rcases hlanded.only htodo with hbefore | ⟨_, fresh, hfresh, hfor⟩
      · exact habsent other (List.mem_cons_of_mem ticket hother) key todo hbefore hkey
      · obtain rfl := List.mem_singleton.mp hfresh
        rw [hfor.ticketKey, Option.some.injEq] at hkey
        exact hdistinct.1 (hkey ▸ List.mem_map_of_mem hother)
    obtain ⟨after, hlands, hafter⟩ := ih hlanded.sound hlanded.names hdistinct.2 hrest (call + 1)
    refine ⟨after, ?_, hlanded.trans hafter⟩
    rw [List.map_cons, landAdds, hland]
    exact hlands

end Devkit.Todos
