import Devkit.Todos.PlannedEdits

/-!
# One pass of a ticket sync

Where every fetched ticket has its todo on the node or nowhere, a validated plan lands without
an error. Existing todos are left settled by the edits that name them, and every ticket that had
no todo has a settled fresh one.
-/

namespace Devkit.Todos

open Devkit.Library
open Std

/-- Settling keeps the id, the node and the ticket of a todo. -/
theorem settled_keeps (plannedOn : ExtTreeMap String Todo) (ids : ExtTreeMap String String) (id : String)
    (edits : List PlannedEdit) (todo : Todo) :
    (settled plannedOn ids id edits todo).id = todo.id ∧ (settled plannedOn ids id edits todo).node = todo.node ∧
      ∀ tracker, (settled plannedOn ids id edits todo).ticketKey tracker = todo.ticketKey tracker := by
  unfold settled
  refine List.foldlRecOn (motive := fun result : Todo => result.id = todo.id ∧ result.node = todo.node ∧
    ∀ tracker, result.ticketKey tracker = todo.ticketKey tracker) _ _ ⟨rfl, rfl, fun _ => rfl⟩
    fun result ih edit _ => ?_
  obtain ⟨hid, hnode, hticket, _⟩ := edit.change.settle_keeps ids plannedOn[edit.key]? result
  exact ⟨hid.trans ih.1, hnode.trans ih.2.1, fun tracker => (hticket tracker).trans (ih.2.2 tracker)⟩

/-- Standing for a ticket is read off the plain todo. -/
theorem stands_iff_plainAt {doc : Doc} {tracker node ticket : String} {key : ℕ} :
    doc.Stands tracker node ticket key ↔
      ∃ plain, doc.plainAt key = some plain ∧ plain.node = node ∧ plain.ticketKey tracker = some ticket := by
  constructor
  · rintro ⟨todo, htodo, hnode, hticket⟩
    exact ⟨todo.plain, by rw [Doc.plainAt, htodo]; rfl, hnode, hticket⟩
  · rintro ⟨plain, hplain, hnode, hticket⟩
    obtain ⟨todo, htodo, rfl⟩ := Option.map_eq_some_iff.mp hplain
    exact ⟨todo, htodo, hnode, hticket⟩

/-- Settled todos stand for the tickets they stood for. -/
theorem stands_settled {doc doc' : Doc} {plannedOn : ExtTreeMap String Todo} {ids : ExtTreeMap String String}
    {edits : List PlannedEdit}
    (hplain : ∀ key, doc'.plainAt key = (doc.plainAt key).map (settled plannedOn ids (idOf key) edits))
    {tracker node ticket : String} {key : ℕ} :
    doc'.Stands tracker node ticket key ↔ doc.Stands tracker node ticket key := by
  rw [stands_iff_plainAt, stands_iff_plainAt, hplain]
  constructor
  · rintro ⟨plain, hsome, hnode, hticket⟩
    obtain ⟨before, hbefore, rfl⟩ := Option.map_eq_some_iff.mp hsome
    obtain ⟨_, hsameNode, hsameTicket⟩ := settled_keeps plannedOn ids (idOf key) edits before
    exact ⟨before, hbefore, hsameNode ▸ hnode, hsameTicket tracker ▸ hticket⟩
  · rintro ⟨before, hbefore, hnode, hticket⟩
    obtain ⟨_, hsameNode, hsameTicket⟩ := settled_keeps plannedOn ids (idOf key) edits before
    exact ⟨_, by rw [hbefore]; rfl, hsameNode.trans hnode, (hsameTicket tracker).trans hticket⟩

/-- The keys for which a todo stands or will stand. -/
theorem contains_syncedKeys {doc : Doc} {tracker node key : String}
    (fetched : List SyncedTicket) :
    (syncedKeys (ticketTodos tracker (doc.listExact node)) fetched).contains key = true ↔
      (∃ at_, doc.Stands tracker node key at_) ∨ ∃ ticket ∈ fetched, ticket.key = key := by
  rw [syncedKeys, List.contains_iff_mem, List.mem_append, List.mem_map, ExtTreeMap.mem_keys,
    Doc.mem_ticketTodos]

/-- What a pass leaves: the ids of the node's ticket todos, existing todos settled by the edits that
name them, and a settled fresh todo for every ticket that had none. -/
structure Passed (tracker node : String) (fetched : List SyncedTicket) (edits : List PlannedEdit)
    (ids : ExtTreeMap String String) (doc doc' : Doc) : Prop where
  keyed : ∀ {key : ℕ} {todo : Todo}, doc'.todos[key]? = some todo → todo.id = idOf key
  names : doc'.Names tracker node ids
  kept : ∀ {key : ℕ} {todo : Todo}, doc.todos[key]? = some todo → doc'.plainAt key =
    some (settled (ticketTodos tracker (doc.listExact node)) ids (idOf key) edits todo.plain)
  fresh : ∀ ticket ∈ fetched, (ticketTodos tracker (doc.listExact node))[ticket.key]? = none →
    ∃ key todo, FreshFor tracker node ticket key todo ∧ doc'.plainAt key =
      some (settled (ticketTodos tracker (doc.listExact node)) ids (idOf key) edits todo.plain)
  only : ∀ {ticket : String} {key : ℕ}, doc'.Stands tracker node ticket key →
    doc.Stands tracker node ticket key ∨ doc.nextId ≤ key ∧ ∃ other ∈ fetched, other.key = ticket

/-- The adds of a validated plan land when no fetched ticket has its todo elsewhere. -/
theorem pass_adds (clock : ℕ → Instant) {tracker node : String} {doc : Doc} {fetched : List SyncedTicket}
    (hsound : doc.Sound) (hone : doc.OnePerTicket tracker node)
    (hdistinct : (fetched.map SyncedTicket.key).Nodup)
    (hplaced : ∀ ticket ∈ fetched, (∃ key, doc.Stands tracker node ticket.key key) ∨
      doc.Absent tracker ticket.key) :
    ∃ after, landAdds clock 0 ⟨doc, plannedIds (ticketTodos tracker (doc.listExact node))⟩
        ((fetched.filter fun ticket => (ticketTodos tracker (doc.listExact node))[ticket.key]?.isNone).map
          (ticketAdd tracker node)) = (after, none) ∧
      Landed tracker node
        (fetched.filter fun ticket => (ticketTodos tracker (doc.listExact node))[ticket.key]?.isNone)
        ⟨doc, plannedIds (ticketTodos tracker (doc.listExact node))⟩ after := by
  refine landAdds_ok clock hsound (Doc.names_plannedIds hsound hone) ?_ (fun ticket hticket => ?_) 0
  · exact hdistinct.sublist (List.filter_sublist.map SyncedTicket.key)
  · obtain ⟨hfetched, hnone⟩ := List.mem_filter.mp hticket
    refine (hplaced ticket hfetched).resolve_left fun hstands => ?_
    have hmem := Doc.mem_ticketTodos.mpr hstands
    rw [ExtTreeMap.mem_iff_isSome_getElem?] at hmem
    rw [Option.isNone_iff_eq_none] at hnone
    rw [hnone] at hmem
    contradiction

/-- After the adds every ticket an edit of the plan names has an id. -/
theorem pass_known {tracker node : String} {doc : Doc} {fetched : List SyncedTicket} {after : Landing}
    (hlanded : Landed tracker node
      (fetched.filter fun ticket => (ticketTodos tracker (doc.listExact node))[ticket.key]?.isNone)
      ⟨doc, plannedIds (ticketTodos tracker (doc.listExact node))⟩ after) {key : String}
    (hkey : (∃ at_, doc.Stands tracker node key at_) ∨ ∃ ticket ∈ fetched, ticket.key = key) :
    after.ids[key]?.isSome = true := by
  have hstands : ∀ {key : String} {at_ : ℕ}, after.doc.Stands tracker node key at_ →
      after.ids[key]?.isSome = true := fun {key at_} h => by
    rw [(hlanded.names key (idOf at_)).mpr ⟨at_, h, rfl⟩]
    rfl
  have hold : (∃ at_, doc.Stands tracker node key at_) → after.ids[key]?.isSome = true := by
    rintro ⟨at_, todo, htodo, hnode, hticket⟩
    exact hstands ⟨todo, hlanded.kept htodo, hnode, hticket⟩
  rcases hkey with hexists | ⟨ticket, hticket, rfl⟩
  · exact hold hexists
  · cases hnone : (ticketTodos tracker (doc.listExact node))[ticket.key]? with
    | some todo =>
      refine hold (Doc.mem_ticketTodos.mp ?_)
      rw [ExtTreeMap.mem_iff_isSome_getElem?, hnone]
      rfl
    | none =>
      obtain ⟨at_, todo, htodo, _, hfresh⟩ := hlanded.fresh ticket
        (List.mem_filter.mpr ⟨hticket, by rw [hnone]; rfl⟩)
      exact hstands ⟨todo, htodo, hfresh.node, hfresh.ticketKey⟩

/-- After the adds the edits can land. -/
theorem pass_ready {tracker node : String} {doc : Doc} {added : List SyncedTicket} {after : Landing}
    (hsound : doc.Sound) (hone : doc.OnePerTicket tracker node)
    (hlanded : Landed tracker node added ⟨doc, plannedIds (ticketTodos tracker (doc.listExact node))⟩ after) :
    after.Ready (ticketTodos tracker (doc.listExact node)) := by
  constructor
  · intro ticket id hid
    obtain ⟨key, hstands, rfl⟩ := (hlanded.names ticket id).mp hid
    obtain ⟨plain, hplain, _, hticket⟩ := stands_iff_plainAt.mp hstands
    refine ⟨key, plain, rfl, hplain, ?_⟩
    cases hsome : plain.ticket with
    | none => simp [Todo.ticketKey, hsome] at hticket
    | some reference => rfl
  · intro ticket todo htodo
    obtain ⟨key, hkey, hnode, hticket⟩ := (Doc.ticketTodos_eq_some hone).mp htodo
    exact (hlanded.names ticket todo.id).mpr
      ⟨key, ⟨todo, hlanded.kept hkey, hnode, hticket⟩, hsound.keyed hkey⟩

/-- A validated plan lands. -/
theorem pass_ok (clock : ℕ → Instant) {tracker node : String} {doc : Doc} {fetched : List SyncedTicket}
    (config : TicketSyncConfig) (hsound : doc.Sound) (hone : doc.OnePerTicket tracker node)
    (hdistinct : (fetched.map SyncedTicket.key).Nodup)
    (hplaced : ∀ ticket ∈ fetched, (∃ key, doc.Stands tracker node ticket.key key) ∨
      doc.Absent tracker ticket.key) :
    ∃ doc' ids, applyPlan clock tracker (doc.listExact node) doc
        (SyncPlan.ofSteps (fetched.map (stepOf tracker node (doc.listExact node) fetched config))) = (doc', none) ∧
      Passed tracker node fetched
        (SyncPlan.ofSteps (fetched.map (stepOf tracker node (doc.listExact node) fetched config))).edits
        ids doc doc' := by
  obtain ⟨after, hadds, hlanded⟩ := pass_adds clock hsound hone hdistinct hplaced
  have hready := pass_ready hsound hone hlanded
  have hkeys : ∀ edit ∈ (SyncPlan.ofSteps
      (fetched.map (stepOf tracker node (doc.listExact node) fetched config))).edits,
      after.ids[edit.key]?.isSome = true ∧ ∀ key ∈ edit.change.keys, after.ids[key]?.isSome = true := by
    intro edit hedit
    obtain ⟨ticket, hticket, hstep⟩ := mem_edits.mp hedit
    obtain ⟨hkey, hothers⟩ := mem_step hstep
    refine ⟨pass_known hlanded (Or.inr ⟨ticket, hticket, hkey.symm⟩), fun other hother => ?_⟩
    rcases hothers other hother with hsynced | ⟨id, hid⟩
    · exact pass_known hlanded ((contains_syncedKeys fetched).mp hsynced)
    · obtain ⟨at_, hstands, _⟩ := (Doc.keyOfId_eq_some hsound.keyed hone).mp hid
      exact pass_known hlanded (Or.inl ⟨at_, hstands⟩)
  obtain ⟨doc', hedits, _, hplain⟩ := landEdits_ok clock hready hkeys _
  refine ⟨doc', after.ids, ?_, ?_⟩
  · rw [applyPlan, adds_eq, hadds]
    exact hedits
  · refine ⟨fun {key todo} htodo => ?_, fun ticket id => ?_, fun {key todo} htodo => ?_,
      fun ticket hticket hnone => ?_, fun {ticket key} hstands => ?_⟩
    · have hsome : doc'.plainAt key = some todo.plain := by rw [Doc.plainAt, htodo]; rfl
      rw [hplain] at hsome
      obtain ⟨before, hbefore, hsettled⟩ := Option.map_eq_some_iff.mp hsome
      obtain ⟨found, hfound, rfl⟩ := Option.map_eq_some_iff.mp hbefore
      have hid : todo.id = found.id := by
        change todo.plain.id = found.plain.id
        rw [← hsettled]
        exact (settled_keeps _ _ _ _ _).1
      exact hid.trans (hlanded.sound.keyed hfound)
    · rw [hlanded.names]
      exact exists_congr fun key => and_congr_left fun _ => (stands_settled hplain).symm
    · rw [hplain, Doc.plainAt, hlanded.kept htodo]
      rfl
    · obtain ⟨key, todo, htodo, _, hfresh⟩ := hlanded.fresh ticket
        (List.mem_filter.mpr ⟨hticket, by rw [hnone]; rfl⟩)
      refine ⟨key, todo, hfresh, ?_⟩
      rw [hplain, Doc.plainAt, htodo]
      rfl
    · obtain ⟨todo, htodo, hnode, hkey⟩ := (stands_settled hplain).mp hstands
      rcases hlanded.only htodo with hbefore | ⟨hnew, other, hother, hfresh⟩
      · exact Or.inl ⟨todo, hbefore, hnode, hkey⟩
      · refine Or.inr ⟨hnew, other, (List.mem_filter.mp hother).1, ?_⟩
        rw [hfresh.ticketKey] at hkey
        exact Option.some.inj hkey

end Devkit.Todos
