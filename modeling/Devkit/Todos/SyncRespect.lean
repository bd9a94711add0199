import Devkit.Todos.ClaimRespect
import Devkit.Todos.SyncTracking

/-!
# Which statuses a sync changes

A sync that lands on the todos it planned for changes the status of a todo only for a ticket whose
status is not the one the todo records, or to give a todo it made its first status. A sync that does
not may undo what was done to a todo of another node, or since the plan.
-/

namespace Devkit.Todos

open Devkit.Library
open Std

/-- A step of a sync changes a todo's status only to that of a fetched ticket whose status is other
than the todo records, or gives a pending todo the sync itself made its first status. -/
def Syncs.Respects (text : Unicode) (s : Syncs) (label : SyncLabel) : Prop :=
  ∀ client now sync, label = .next client now → s.syncs client = some sync →
    ∀ (key : ℕ) (before after : Todo), s.doc.todos[key]? = some before →
      (s.step text label).doc.todos[key]? = some after → after.status ≠ before.status →
        (∃ ticket ∈ sync.fetched, before.ticketKey sync.tracker = some ticket.key ∧
          target ticket.status sync.config = some after.status.kind ∧
          before.lastSynced ≠ some (statusName ticket.status)) ∨
        (before.id ∈ sync.made ∧ before.status = .pending)

/-- A todo whose status a rule changes is the one the id names, and has the status the rule gives. -/
theorem status_changeStatus (rule : Status → Except Claimed (Option Status)) {doc doc' : Doc} {now : Instant}
    {id : String} {changes : List StatusChange} {key : ℕ} {before after : Todo}
    (h : doc.changeStatus now id rule = .ok (doc', changes)) (hbefore : doc.todos[key]? = some before)
    (hafter : doc'.todos[key]? = some after) (hmoved : after.status ≠ before.status) :
    parseKey id = some key ∧ rule before.status = .ok (some after.status) := by
  have hsame : doc'.todos[key]? ≠ doc.todos[key]? := by
    intro heq
    rw [hafter, hbefore] at heq
    exact hmoved (congrArg Todo.status (Option.some.inj heq))
  unfold Doc.changeStatus at h
  split at h
  · contradiction
  · rename_i named todo hnamed
    obtain ⟨hkey, htodo⟩ := Doc.todoMut_eq_ok.mp hnamed
    split at h
    · rename_i next hnext
      cases next with
      | none =>
        obtain ⟨rfl, rfl⟩ := Prod.mk.inj (Except.ok.inj h)
        exact absurd rfl hsame
      | some status =>
        obtain ⟨rfl, rfl⟩ := Prod.mk.inj (Except.ok.inj h)
        rw [Doc.getElem?_put] at hsame hafter
        split at hsame
        · rename_i heq
          subst heq
          rw [if_pos rfl] at hafter
          obtain rfl := Option.some.inj hafter
          obtain rfl := Option.some.inj (htodo.symm.trans hbefore)
          exact ⟨hkey, hnext⟩
        · exact absurd rfl hsame
    · contradiction

namespace Syncs

/-- A landed add leaves the status of every todo. -/
theorem status_nextAdd {s : Syncs} (h : s.Tracked) {client : ℕ} {now : Instant} {sync : Sync} {add : NewTodo}
    {rest : List NewTodo} {key : ℕ} {before after : Todo} (hbefore : s.doc.todos[key]? = some before)
    (hafter : (s.nextAdd client now sync add rest).doc.todos[key]? = some after) :
    after.status = before.status := by
  unfold Syncs.nextAdd at hafter
  split at hafter
  · exact congrArg Todo.status (Option.some.inj (hafter.symm.trans hbefore))
  · rename_i doc ids hland
    obtain ⟨ticket, id, _, hadd, _⟩ := landAdd_eq_ok hland
    obtain ⟨_, _, rfl, _⟩ | ⟨_, new, _, rfl, _⟩ := Doc.add_cases hadd
    · exact congrArg Todo.status (Option.some.inj (hafter.symm.trans hbefore))
    · have hne : ¬ max s.doc.nextId 1 = key := by
        have := h.numbered.counted hbefore
        omega
      change (s.doc.todos.insert (max s.doc.nextId 1) new)[key]? = some after at hafter
      rw [getElem?_insert_eq, if_neg hne] at hafter
      exact congrArg Todo.status (Option.some.inj (hafter.symm.trans hbefore))

/-- An edit that changes the status of a todo is a status edit applied to that todo. -/
theorem status_nextEdit {s : Syncs} {client : ℕ} {now : Instant} {sync : Sync} {edit : PlannedEdit}
    {rest : List PlannedEdit} {key : ℕ} {before after : Todo} (hbefore : s.doc.todos[key]? = some before)
    (hafter : (s.nextEdit client now sync edit rest).doc.todos[key]? = some after)
    (hmoved : after.status ≠ before.status) :
    sync.checked = true ∧ edit.change = .setStatus after.status.kind ∧
      ∃ id, sync.ids[edit.key]? = some id ∧ parseKey id = some key := by
  have hsame : ∀ {doc : Doc}, doc = s.doc → doc.todos[key]? ≠ some after := by
    rintro _ rfl hkept
    exact hmoved (congrArg Todo.status (Option.some.inj (hkept.symm.trans hbefore)))
  unfold Syncs.nextEdit at hafter
  split at hafter
  · exact absurd hafter (hsame rfl)
  · rename_i resolved hresolve
    split at hafter
    · rename_i hchecked
      split at hafter
      · exact absurd hafter (hsame rfl)
      · rename_i doc changes happly
        obtain ⟨id, hid, hresolved⟩ := resolved_of_resolve hresolve
        refine ⟨hchecked, ?_⟩
        by_cases hkind : ∃ kind, edit.change = .setStatus kind
        · obtain ⟨kind, hkind⟩ := hkind
          rw [hkind] at hresolved
          cases hresolved
          obtain ⟨hkey, hnext⟩ := status_changeStatus (transition · kind .tracker) happly hbefore hafter hmoved
          exact ⟨by rw [hkind, transition_kind hnext], id, hid, hkey⟩
        · obtain ⟨written, old, new, _, hwrote⟩ := apply_wroteBack hresolved happly
          change doc.todos[key]? = some after at hafter
          rw [hwrote.todos] at hafter
          split at hafter
          · rename_i heq
            obtain rfl := Option.some.inj hafter
            subst heq
            obtain rfl := Option.some.inj (hwrote.found.symm.trans hbefore)
            exact absurd (hwrote.status fun kind heq => hkind ⟨kind, heq⟩) hmoved
          · exact absurd (congrArg Todo.status (Option.some.inj (hafter.symm.trans hbefore))) hmoved
    · split at hafter
      · exact absurd hafter (hsame rfl)
      · exact absurd hafter (hsame rfl)

/-- A step that lands as planned respects the todos' statuses. -/
theorem Tracked.respects (text : Unicode) {s : Syncs} (h : s.Tracked) (label : SyncLabel)
    (hplanned : s.LandsAsPlanned label) : s.Respects text label := by
  rintro client now sync rfl hsync key before after hbefore hafter hmoved
  simp only [Syncs.step, hsync] at hafter
  rw [LandsAsPlanned, hsync, Option.all_some] at hplanned
  unfold Syncs.next at hafter
  split at hafter
  · exact absurd (status_nextAdd h hbefore hafter) hmoved
  · rename_i edit rest hadds hedits
    obtain ⟨hchecked, hchange, id, hid, hkey⟩ := status_nextEdit hbefore hafter hmoved
    have htracks := h.tracks hsync
    obtain ⟨ticket, hticket, hticketKey, htarget, hawaits⟩ :=
      htracks.planned edit (hedits ▸ List.mem_cons_self) _ hchange
    obtain ⟨rfl, hbeforeKey⟩ := htracks.ticketKey hid hkey hbefore
    obtain ⟨ticketKey, change⟩ := edit
    obtain rfl : ticket.key = ticketKey := hticketKey
    obtain rfl : change = .setStatus after.status.kind := hchange
    have hnamed : sync.ids[ticket.key]?.bind s.doc.get = some before := by
      rw [hid, Option.bind_some, Doc.get, parseKey_idOf]
      exact hbefore
    simp only [Sync.landsAsPlanned, hadds, hedits, hchecked, hnamed, Bool.not_true, Bool.false_or,
      Option.all_some] at hplanned
    unfold Sync.Awaits at hawaits
    cases hseen : sync.plannedOn[ticket.key]? with
    | some seen =>
      rw [hseen] at hplanned hawaits
      refine Or.inl ⟨ticket, hticket, hbeforeKey, htarget, ?_⟩
      rw [eq_of_beq hplanned]
      exact hawaits
    | none =>
      rw [hseen] at hplanned hawaits
      rw [hadds] at hawaits
      obtain ⟨add, hadd, _⟩ | ⟨made, hmade, hmadeId⟩ := hawaits
      · exact absurd hadd List.not_mem_nil
      · obtain rfl := Option.some.inj (hmadeId.symm.trans hid)
        exact Or.inr ⟨(h.numbered.keyed hbefore).symm ▸ hmade, eq_of_beq hplanned⟩
  · exact absurd (congrArg Todo.status (Option.some.inj (hafter.symm.trans hbefore))) hmoved

/-- **Syncs that land as planned never undo local work.** Along every run of ticket syncs of any nodes
and trackers and of local work, from any numbered document: where every add of a sync finds its
ticket without a todo, on any node, and every status edit finds its todo with the synced status the
plan was made from, or still pending as the sync made it, a sync changes the status of a todo only
to that of a fetched ticket whose status is not the one the todo records. -/
theorem along_respects (text : Unicode) (doc : Doc) (labels : List SyncLabel) (hnumbered : doc.Numbered)
    (hplanned : Along (Syncs.step text) Syncs.LandsAsPlanned (Syncs.start doc) labels) :
    Along (Syncs.step text) (Syncs.Respects text) (Syncs.start doc) labels :=
  hplanned.strengthen Syncs.Tracked (fun _ label h => h.step text label)
    (fun _ label h => h.respects text label) (tracked_start hnumbered)

end Syncs

section Example

/-- A tracker with one ticket, in the given status. -/
def oneTicket (status : String) : Tracker where
  kind := "linear"
  findTickets _ _ := some [⟨"A-1", "First", .named status, [], none⟩]
  tickets _ := some []
  statusNames := some ["Todo", "Doing"]
  ticketKey := some
  foreignIssueKey _ := none

/-- A session. -/
def session : Holder := ⟨"S"⟩

/-- The calls of a client's sync of the ticket on a node. -/
def syncCalls (client : ℕ) (node status : String) (calls : ℕ) : List SyncLabel :=
  .begin client (oneTicket status) twoNames node (.tickets false) ::
    List.replicate calls (.next client sampleInstant)

/-- A node syncs a ticket, a session completes the todo, and the ticket moves before the next sync. -/
def plannedRun : List SyncLabel :=
  syncCalls 1 "q" "Todo" 2 ++ [.edit sampleInstant (.setStatus "1" .completed session)] ++
    syncCalls 1 "q" "Doing" 5

/-- The syncs of the one node respect the todo's status; the moved ticket reopens it. -/
theorem along_respects_sample :
    Along (Syncs.step asciiText) (Syncs.Respects asciiText) (Syncs.start ⟨1, ∅⟩) plannedRun ∧
      ((runFrom (Syncs.step asciiText) (Syncs.start ⟨1, ∅⟩) plannedRun).doc.get "1").map Todo.status =
        some (.inProgress .tracker) :=
  ⟨Syncs.along_respects asciiText ⟨1, ∅⟩ plannedRun Doc.numbered_empty (by decide +kernel), by decide +kernel⟩

/-- A node syncs a ticket, a session completes the todo, and another node syncs the same ticket. -/
def overwritingRun : List SyncLabel :=
  syncCalls 1 "q" "Doing" 4 ++ [.edit sampleInstant (.setStatus "1" .inProgress session),
    .edit sampleInstant (.setStatus "1" .completed session)] ++ syncCalls 2 "r" "Doing" 2

/-- The ticket's todo as the session left it. -/
def completedTodo : Todo :=
  ⟨"1", "A-1 First", .completed (some session), none, some 1024, some "q", some sampleInstant.text,
    some sampleInstant.text, [], some ⟨"linear", "A-1", some "Doing"⟩⟩

/-- The other node's sync puts the completed todo back in progress, though its ticket is in the status
the todo records. -/
theorem elsewhere_overwrites :
    (runFrom (Syncs.step asciiText) (Syncs.start ⟨1, ∅⟩) overwritingRun).doc.get "1" = some completedTodo ∧
      ¬ Along (Syncs.step asciiText) (Syncs.Respects asciiText) (Syncs.start ⟨1, ∅⟩)
        (overwritingRun ++ [.next 2 sampleInstant]) := by
  have hbefore : (runFrom (Syncs.step asciiText) (Syncs.start ⟨1, ∅⟩) overwritingRun).doc.todos[1]? =
      some completedTodo := by
    decide +kernel
  have hafter : ((runFrom (Syncs.step asciiText) (Syncs.start ⟨1, ∅⟩) overwritingRun).step asciiText
      (.next 2 sampleInstant)).doc.todos[1]? = some { completedTodo with status := .inProgress .tracker } := by
    decide +kernel
  have hsync : ((runFrom (Syncs.step asciiText) (Syncs.start ⟨1, ∅⟩) overwritingRun).syncs 2).map
      (fun sync => (sync.fetched, sync.made)) = some ([⟨"A-1", "First", .named "Doing", [], none⟩], []) := by
    decide +kernel
  refine ⟨by decide +kernel, fun halong => ?_⟩
  obtain ⟨sync, hclient, hfields⟩ := Option.map_eq_some_iff.mp hsync
  obtain ⟨hfetched, hmade⟩ := Prod.mk.inj hfields
  rcases halong.at_step overwritingRun [] _ 2 sampleInstant sync rfl hclient 1 _ _ hbefore hafter (by decide)
    with ⟨ticket, hticket, _, _, hmoved⟩ | ⟨hmine, _⟩
  · rw [hfetched, List.mem_singleton] at hticket
    subst hticket
    exact hmoved rfl
  · rw [hmade] at hmine
    exact absurd hmine List.not_mem_nil

end Example

end Devkit.Todos
