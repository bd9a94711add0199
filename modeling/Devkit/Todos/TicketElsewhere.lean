import Devkit.Todos.Landing
import Devkit.Todos.TicketConvergence

/-!
# A ticket whose todo is on another node

The add of such a ticket returns the todo it has, and no edit moves a todo to another node. So the
node still has no todo for the ticket after the pass, and the next plan adds it again: a sync
converges exactly when every fetched ticket has its todo on the node or nowhere.
-/

namespace Devkit.Todos

open Devkit.Library
open Std

/-- The ticket has a todo in the document, but none on the node. -/
structure Doc.Elsewhere (doc : Doc) (tracker node ticket : String) : Prop where
  counted : ∀ {key : ℕ} {todo : Todo}, doc.todos[key]? = some todo → key < doc.nextId
  present : ¬ doc.Absent tracker ticket
  off : ∀ key, ¬ doc.Stands tracker node ticket key

/-- The add of a ticket that has a todo returns that todo's id. -/
theorem add_present {doc : Doc} {tracker : String} (node : String) {ticket : SyncedTicket} (now : Instant)
    (hpresent : ¬ doc.Absent tracker ticket.key) :
    ∃ id, doc.add now (ticketAdd tracker node ticket) = .ok (doc, id) := by
  simp only [Doc.Absent, not_forall, not_not] at hpresent
  obtain ⟨key, todo, htodo, hkey⟩ := hpresent
  have hsome : ∃ existing, (ticketAdd tracker node ticket).ticket.bind doc.ticketTodo = some existing := by
    refine Option.isSome_iff_exists.mp (List.find?_isSome.mpr ⟨todo, mem_rows.mpr ⟨key, htodo⟩, ?_⟩)
    exact (any_sameTicket rfl).mpr hkey
  obtain ⟨existing, hexisting⟩ := hsome
  refine ⟨existing.id, ?_⟩
  unfold Doc.add
  rw [hexisting]

/-- An add leaves the ticket's todo where it is, and makes none for it. -/
theorem Doc.Elsewhere.add {landing next : Landing} {tracker node ticket : String} {now : Instant}
    {added : SyncedTicket} (h : landing.doc.Elsewhere tracker node ticket)
    (hland : landAdd now landing (ticketAdd tracker node added) = .ok next) :
    next.doc.Elsewhere tracker node ticket := by
  by_cases habsent : landing.doc.Absent tracker added.key
  · obtain ⟨new, hadd, hfresh⟩ := add_absent node now habsent
    simp only [landAdd, ticketAdd] at hland hadd
    rw [hadd] at hland
    obtain rfl := Except.ok.inj hland
    have hne : added.key ≠ ticket := fun heq => h.present (heq ▸ habsent)
    have hget : ∀ other : ℕ, (landing.doc.todos.insert (max landing.doc.nextId 1) new)[other]? =
        if max landing.doc.nextId 1 = other then some new else landing.doc.todos[other]? :=
      fun other => getElem?_insert_eq landing.doc.todos _ other new
    refine ⟨fun {key todo} htodo => ?_, fun habsent' => h.present fun key todo htodo => ?_,
      fun key ⟨todo, htodo, hnode, hticket⟩ => ?_⟩
    · change key < max landing.doc.nextId 1 + 1
      rw [hget] at htodo
      split at htodo
      · omega
      · have := h.counted htodo
        omega
    · refine habsent' key todo ?_
      rw [hget, if_neg]
      · exact htodo
      · have := h.counted htodo
        omega
    · rw [hget] at htodo
      split at htodo
      · obtain rfl := Option.some.inj htodo
        rw [hfresh.ticketKey, Option.some.injEq] at hticket
        exact hne hticket
      · exact h.off key ⟨todo, htodo, hnode, hticket⟩
  · obtain ⟨id, hadd⟩ := add_present node now habsent
    simp only [landAdd, ticketAdd] at hland hadd
    rw [hadd] at hland
    obtain rfl := Except.ok.inj hland
    exact h

/-- An edit leaves the ticket's todo where it is. -/
theorem Doc.Elsewhere.edit {doc doc' : Doc} {tracker node ticket : String} {now : Instant}
    {plannedOn : ExtTreeMap String Todo} {ids : ExtTreeMap String String} {edit : PlannedEdit}
    (h : doc.Elsewhere tracker node ticket)
    (hland : landEdit now plannedOn ids doc edit = .ok doc') :
    doc'.Elsewhere tracker node ticket := by
  unfold landEdit at hland
  split at hland
  · contradiction
  · rename_i resolved hresolve
    split at hland
    · obtain rfl := Except.ok.inj hland
      exact h
    · split at hland
      · rename_i after changes happly
        obtain rfl := Except.ok.inj hland
        obtain ⟨id, _, hresolved⟩ := resolved_of_resolve hresolve
        obtain ⟨key, before, written, _, hwrote⟩ := apply_wroteBack hresolved happly
        refine ⟨fun {other todo} htodo => ?_, fun habsent => h.present fun other todo htodo hticket => ?_,
          fun other ⟨todo, htodo, hnode, hticket⟩ => ?_⟩
        · rw [hwrote.nextId]
          rw [hwrote.todos] at htodo
          split at htodo
          · rename_i heq
            exact heq ▸ h.counted hwrote.found
          · exact h.counted htodo
        · by_cases heq : key = other
          · subst heq
            obtain rfl := Option.some.inj (htodo.symm.trans hwrote.found)
            exact habsent key written (by rw [hwrote.todos, if_pos rfl]) ((hwrote.ticketKey tracker).trans hticket)
          · exact habsent other todo (by rw [hwrote.todos, if_neg heq]; exact htodo) hticket
        · rw [hwrote.todos] at htodo
          split at htodo
          · rename_i heq
            subst heq
            obtain rfl := Option.some.inj htodo
            exact h.off key ⟨before, hwrote.found, hwrote.node.symm.trans hnode,
              (hwrote.ticketKey tracker).symm.trans hticket⟩
          · exact h.off other ⟨todo, htodo, hnode, hticket⟩
      · contradiction

/-- The adds of a plan leave the ticket's todo where it is. -/
theorem Doc.Elsewhere.adds (clock : ℕ → Instant) {tracker node ticket : String} (added : List SyncedTicket)
    {landing : Landing} (h : landing.doc.Elsewhere tracker node ticket) (call : ℕ) :
    (landAdds clock call landing (added.map (ticketAdd tracker node))).1.doc.Elsewhere tracker node
      ticket := by
  induction added generalizing landing call with
  | nil => exact h
  | cons first rest ih =>
    rw [List.map_cons, landAdds]
    split
    · rename_i next hland
      exact ih (h.add hland) (call + 1)
    · exact h

/-- The edits of a plan leave the ticket's todo where it is. -/
theorem Doc.Elsewhere.edits (clock : ℕ → Instant) (plannedOn : ExtTreeMap String Todo)
    (ids : ExtTreeMap String String) {tracker node ticket : String} (edits : List PlannedEdit) {doc : Doc}
    (h : doc.Elsewhere tracker node ticket) (call : ℕ) :
    (landEdits clock plannedOn ids call doc edits).1.Elsewhere tracker node ticket := by
  induction edits generalizing doc call with
  | nil => exact h
  | cons edit rest ih =>
    rw [landEdits]
    split
    · rename_i next hland
      exact ih (h.edit hland) (call + 1)
    · exact h

/-- A pass leaves the ticket's todo where it is. -/
theorem Doc.Elsewhere.pass {clock : ℕ → Instant} {tracker node ticket : String} {doc doc' : Doc}
    {fetched : List SyncedTicket} {config : TicketSyncConfig} (h : doc.Elsewhere tracker node ticket)
    (hland : applyPlan clock tracker (doc.listExact node) doc (SyncPlan.ofSteps
      (fetched.map (stepOf tracker node (doc.listExact node) fetched config))) = (doc', none)) :
    doc'.Elsewhere tracker node ticket := by
  unfold applyPlan at hland
  rw [adds_eq] at hland
  dsimp only at hland
  have hstart : (Landing.mk doc (plannedIds (ticketTodos tracker (doc.listExact node)))).doc.Elsewhere tracker
      node ticket := h
  have hadds := Doc.Elsewhere.adds clock
    (fetched.filter fun ticket => (ticketTodos tracker (doc.listExact node))[ticket.key]?.isNone) hstart 0
  split at hland
  · cases hland
  · rename_i landing heq
    rw [heq] at hadds
    have hedits := Doc.Elsewhere.edits clock (ticketTodos tracker (doc.listExact node)) landing.ids
      (SyncPlan.ofSteps (fetched.map (stepOf tracker node (doc.listExact node) fetched config))).edits hadds
    have hlast := hedits (SyncPlan.ofSteps
      (fetched.map (stepOf tracker node (doc.listExact node) fetched config))).adds.length
    rw [adds_eq, hland] at hlast
    exact hlast

/-- A ticket whose todo is elsewhere is planned again. -/
theorem not_converges {text : Unicode} {clock : ℕ → Instant} {tracker node : String} {doc : Doc}
    {fetched : List SyncedTicket} {knownNames : List String} {config : TicketSyncConfig}
    (hvalid : validate text fetched knownNames config = .ok ()) {ticket : SyncedTicket}
    (hticket : ticket ∈ fetched) (helsewhere : doc.Elsewhere tracker node ticket.key) :
    ¬ Converges text clock tracker node doc fetched knownNames config := by
  rintro ⟨planned, doc', hplan, hland, hagain, _⟩
  rw [plan_eq hvalid] at hplan hagain
  obtain rfl := Except.ok.inj hplan
  have hadds : (SyncPlan.ofSteps (fetched.map (stepOf tracker node (doc'.listExact node) fetched config))).adds =
      [] := congrArg SyncPlan.adds (Except.ok.inj hagain)
  rw [adds_eq, List.map_eq_nil_iff, List.filter_eq_nil_iff] at hadds
  have hmem : ticket.key ∈ ticketTodos tracker (doc'.listExact node) := by
    rw [ExtTreeMap.mem_iff_isSome_getElem?]
    simpa using hadds ticket hticket
  obtain ⟨key, hstands⟩ := Doc.mem_ticketTodos.mp hmem
  exact (helsewhere.pass hland).off key hstands

/-- **A sync converges exactly when no fetched ticket has its todo elsewhere.** From a sound document
where the node has at most one todo for each ticket, the plan of distinct validated tickets lands,
plans nothing when planned again, names only todos and its own adds, and keeps what is no ticket
todo, exactly when every fetched ticket has its todo on the node or nowhere. -/
theorem converges_iff (text : Unicode) (clock : ℕ → Instant) (tracker node : String) (doc : Doc)
    (fetched : List SyncedTicket) (knownNames : List String) (config : TicketSyncConfig) (hsound : doc.Sound)
    (hone : doc.OnePerTicket tracker node) (hdistinct : (fetched.map SyncedTicket.key).Nodup)
    (hvalid : validate text fetched knownNames config = .ok ()) :
    Converges text clock tracker node doc fetched knownNames config ↔
      ∀ ticket ∈ fetched, (∃ key, doc.Stands tracker node ticket.key key) ∨ doc.Absent tracker ticket.key := by
  refine ⟨fun hconverges ticket hticket => ?_, converges_of_placed clock hsound hone hdistinct hvalid⟩
  by_contra hnot
  obtain ⟨hoff, hpresent⟩ := not_or.mp hnot
  exact not_converges hvalid hticket ⟨hsound.counted, hpresent, fun key hstands => hoff ⟨key, hstands⟩⟩ hconverges

section Example

/-- A clock that stands still. -/
def stillClock : ℕ → Instant := fun _ => ⟨0, "2026-01-01T00:00:00Z"⟩

/-- The todo of the first ticket on a node, with a blocker that is no ticket todo. -/
def firstTodo (node : String) : Todo :=
  ⟨"1", "A-1 Old title", .pending, none, some 1024, some node, none, none, ["local"],
    some ⟨"linear", "A-1", some "Todo"⟩⟩

/-- A document of that todo. -/
def firstDoc (node : String) : Doc := ⟨2, (∅ : ExtTreeMap ℕ Todo).insert 1 (firstTodo node)⟩

/-- A ticket that has moved, blocked by one that has no todo yet. -/
def movedTickets : List SyncedTicket :=
  [⟨"A-1", "First", .named "doing ", ["A-2"], none⟩, ⟨"A-2", "Second", .named "Todo", [], some "A-1"⟩]

/-- The tickets are in statuses the map and the tracker name. -/
theorem movedTickets_valid : validate asciiText movedTickets ["Todo", "Doing"] twoNames = .ok () := by
  decide +kernel

/-- The document holds the one todo. -/
theorem firstDoc_todos {node : String} {key : ℕ} {todo : Todo} (h : (firstDoc node).todos[key]? = some todo) :
    key = 1 ∧ todo = firstTodo node := by
  rw [firstDoc, getElem?_insert_eq] at h
  split at h
  · rename_i heq
    exact ⟨heq.symm, (Option.some.inj h).symm⟩
  · simp at h

/-- The document is sound. -/
theorem firstDoc_sound (node : String) : (firstDoc node).Sound := by
  refine ⟨fun h => ?_, fun h => ?_, fun h href other hother => ?_⟩
  · obtain ⟨rfl, rfl⟩ := firstDoc_todos h
    rfl
  · obtain ⟨rfl, rfl⟩ := firstDoc_todos h
    exact Nat.lt_succ_self 1
  · obtain ⟨rfl, rfl⟩ := firstDoc_todos h
    subst hother
    have hlocal : idOf other = "local" := by simpa [firstTodo] using href
    have hkey := congrArg parseKey hlocal
    have hnone : parseKey "local" = none := by decide +kernel
    rw [parseKey_idOf, hnone] at hkey
    contradiction

/-- No ticket has two todos in it. -/
theorem firstDoc_one (node : String) : (firstDoc node).OnePerTicket "linear" "r" := by
  rintro ticket key other ⟨todo, htodo, _⟩ ⟨todo', htodo', _⟩
  rw [(firstDoc_todos htodo).1, (firstDoc_todos htodo').1]

/-- The sample tickets settle in one pass on the node that has the first one's todo. -/
theorem converges_iff_sample :
    Converges asciiText stillClock "linear" "r" (firstDoc "r") movedTickets ["Todo", "Doing"] twoNames := by
  refine (converges_iff asciiText stillClock "linear" "r" (firstDoc "r") movedTickets ["Todo", "Doing"]
    twoNames (firstDoc_sound "r") (firstDoc_one "r") (by decide +kernel) movedTickets_valid).mpr ?_
  intro ticket hticket
  rcases List.mem_cons.mp hticket with rfl | hrest
  · exact Or.inl ⟨1, firstTodo "r", by rw [firstDoc, getElem?_insert_eq]; rfl, rfl, by decide +kernel⟩
  · obtain rfl := List.mem_singleton.mp hrest
    refine Or.inr fun key todo htodo => ?_
    rw [(firstDoc_todos htodo).2]
    decide +kernel

/-- The same tickets never settle on a node while another node has the first one's todo. -/
theorem elsewhere_not_converges :
    (firstDoc "q").Sound ∧ (firstDoc "q").OnePerTicket "linear" "r" ∧
      (movedTickets.map SyncedTicket.key).Nodup ∧
      validate asciiText movedTickets ["Todo", "Doing"] twoNames = .ok () ∧
      ¬ Converges asciiText stillClock "linear" "r" (firstDoc "q") movedTickets ["Todo", "Doing"]
        twoNames := by
  refine ⟨firstDoc_sound "q", firstDoc_one "q", by decide +kernel, movedTickets_valid, ?_⟩
  refine not_converges movedTickets_valid List.mem_cons_self
    ⟨(firstDoc_sound "q").counted, fun habsent => ?_, ?_⟩
  · exact habsent 1 (firstTodo "q") (by rw [firstDoc, getElem?_insert_eq]; rfl) (by decide +kernel)
  · rintro key ⟨todo, htodo, hnode, _⟩
    rw [(firstDoc_todos htodo).2] at hnode
    exact absurd hnode (by decide +kernel)

end Example

end Devkit.Todos
