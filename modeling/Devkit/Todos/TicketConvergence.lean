import Devkit.Todos.TicketPass

/-!
# One pass of a ticket sync settles every ticket

Landing a plan leaves the todo of every fetched ticket settled, so planning again from the
node's todos and the same tickets plans nothing. This needs every fetched ticket to have its
todo on the node or nowhere: a todo kept on another node is returned by the add, stays there,
and is planned again on every pass.
-/

namespace Devkit.Todos

open Devkit.Library
open Std

/-- The id is that of a ticket todo of the node. -/
def Doc.TicketTodo (doc : Doc) (tracker node id : String) : Prop :=
  ∃ ticket key, doc.Stands tracker node ticket key ∧ id = idOf key

/-- Every ticket an edit names has a todo on the node, or an add of the plan. -/
def SyncPlan.NamesTodos (planned : SyncPlan) (doc : Doc) (tracker node : String) : Prop :=
  ∀ edit ∈ planned.edits, ∀ ticket ∈ edit.key :: edit.change.keys,
    (∃ key, doc.Stands tracker node ticket key) ∨
      ∃ add ∈ planned.adds, add.ticket.map TicketRef.key = some ticket

/-- The blockers and the parent of an existing todo that are no ticket todos of the node are as they
were. -/
def Untouched (tracker node : String) (doc doc' : Doc) : Prop :=
  ∀ (key : ℕ) (todo : Todo), doc.todos[key]? = some todo → ∃ todo' : Todo, doc'.todos[key]? = some todo' ∧
    ∀ id, ¬ doc'.TicketTodo tracker node id →
      (id ∈ todo'.blockedBy ↔ id ∈ todo.blockedBy) ∧ (todo'.parent = some id ↔ todo.parent = some id)

/-- The plan lands, planning again from the todos it leaves plans nothing, its edits name todos or
adds, and what is no ticket todo stays. -/
def Converges (text : Unicode) (clock : ℕ → Instant) (tracker node : String) (doc : Doc)
    (fetched : List SyncedTicket) (knownNames : List String) (config : TicketSyncConfig) : Prop :=
  ∃ planned doc', plan text tracker node (doc.listExact node) fetched knownNames config = .ok planned ∧
    applyPlan clock tracker (doc.listExact node) doc planned = (doc', none) ∧
    plan text tracker node (doc'.listExact node) fetched knownNames config = .ok ⟨[], []⟩ ∧
    planned.NamesTodos doc tracker node ∧ Untouched tracker node doc doc'

section Pass

variable {tracker node : String} {doc doc' : Doc} {fetched : List SyncedTicket} {config : TicketSyncConfig}
  {ids : ExtTreeMap String String} {edits : List PlannedEdit}

/-- The todos that stood for a ticket still do. -/
theorem Passed.stands (h : Passed tracker node fetched edits ids doc doc') {ticket : String} {key : ℕ}
    (hstands : doc.Stands tracker node ticket key) : doc'.Stands tracker node ticket key := by
  obtain ⟨todo, htodo, hnode, hticket⟩ := hstands
  obtain ⟨_, hsameNode, hsameTicket⟩ := settled_keeps (ticketTodos tracker (doc.listExact node)) ids
    (idOf key) edits todo.plain
  exact stands_iff_plainAt.mpr ⟨_, h.kept htodo, hsameNode.trans hnode, (hsameTicket tracker).trans hticket⟩

/-- Every fetched ticket has its todo on the node after the pass. -/
theorem Passed.stands_fetched (h : Passed tracker node fetched edits ids doc doc')
    (hone : doc.OnePerTicket tracker node) {ticket : SyncedTicket} (hticket : ticket ∈ fetched) :
    ∃ key, doc'.Stands tracker node ticket.key key := by
  cases hnone : (ticketTodos tracker (doc.listExact node))[ticket.key]? with
  | some todo =>
    obtain ⟨key, htodo, hnode, hkey⟩ := (Doc.ticketTodos_eq_some hone).mp hnone
    exact ⟨key, h.stands ⟨todo, htodo, hnode, hkey⟩⟩
  | none =>
    obtain ⟨key, todo, hfresh, hplain⟩ := h.fresh ticket hticket hnone
    obtain ⟨_, hsameNode, hsameTicket⟩ := settled_keeps (ticketTodos tracker (doc.listExact node)) ids
      (idOf key) edits todo.plain
    exact ⟨key, stands_iff_plainAt.mpr ⟨_, hplain, hsameNode.trans hfresh.node,
      (hsameTicket tracker).trans hfresh.ticketKey⟩⟩

/-- The keys for which a todo stands or will stand are those of the first plan. -/
theorem Passed.synced (h : Passed tracker node fetched edits ids doc doc') (key : String) :
    (syncedKeys (ticketTodos tracker (doc'.listExact node)) fetched).contains key =
      (syncedKeys (ticketTodos tracker (doc.listExact node)) fetched).contains key := by
  rw [Bool.eq_iff_iff, contains_syncedKeys, contains_syncedKeys]
  constructor
  · rintro (⟨at_, hstands⟩ | hfetched)
    · rcases h.only hstands with hbefore | ⟨_, hfetched⟩
      · exact Or.inl ⟨at_, hbefore⟩
      · exact Or.inr hfetched
    · exact Or.inr hfetched
  · exact Or.imp_left fun ⟨at_, hstands⟩ => ⟨at_, h.stands hstands⟩

/-- Each of those keys has an id. -/
theorem Passed.known (h : Passed tracker node fetched edits ids doc doc') (hone : doc.OnePerTicket tracker node)
    {key : String} (hkey : (syncedKeys (ticketTodos tracker (doc.listExact node)) fetched).contains key = true) :
    ids[key]?.isSome = true := by
  have hstands : ∃ at_, doc'.Stands tracker node key at_ := by
    rcases (contains_syncedKeys fetched).mp hkey with ⟨at_, hbefore⟩ | ⟨ticket, hticket, rfl⟩
    · exact ⟨at_, h.stands hbefore⟩
    · exact h.stands_fetched hone hticket
  obtain ⟨at_, hat⟩ := hstands
  rw [(h.names key (idOf at_)).mpr ⟨at_, hat, rfl⟩]
  rfl

/-- The second plan reads the ticket of an id off the ids of the first pass. -/
theorem Passed.inverse (h : Passed tracker node fetched edits ids doc doc') :
    Inverse (keyOfId (ticketTodos tracker (doc'.listExact node))) ids := by
  intro id key
  rw [Doc.keyOfId_eq_some h.keyed h.names.one, h.names]

/-- An id given out before the pass is read the same way after it. -/
theorem Passed.keys_same (h : Passed tracker node fetched edits ids doc doc') (hsound : doc.Sound)
    (hone : doc.OnePerTicket tracker node) {id : String} (hid : ∀ other, id = idOf other → other < doc.nextId) :
    (keyOfId (ticketTodos tracker (doc'.listExact node)))[id]? =
      (keyOfId (ticketTodos tracker (doc.listExact node)))[id]? := by
  ext key
  rw [Doc.keyOfId_eq_some h.keyed h.names.one, Doc.keyOfId_eq_some hsound.keyed hone]
  refine exists_congr fun at_ => and_congr_left fun heq => ⟨fun hstands => ?_, h.stands⟩
  refine (h.only hstands).resolve_right fun hnew => ?_
  exact absurd (hid at_ heq) (Nat.not_lt.mpr hnew.1)

/-- Of the edits of a plan, those that name a fetched ticket's todo are those of its step. -/
theorem Passed.settled_step (h : Passed tracker node fetched (SyncPlan.ofSteps (fetched.map
      (stepOf tracker node (doc.listExact node) fetched config))).edits ids doc doc')
    (hdistinct : (fetched.map SyncedTicket.key).Nodup) {ticket : SyncedTicket} (hticket : ticket ∈ fetched)
    {key : ℕ} (hstands : doc'.Stands tracker node ticket.key key) (todo : Todo) :
    settled (ticketTodos tracker (doc.listExact node)) ids (idOf key) (SyncPlan.ofSteps (fetched.map
        (stepOf tracker node (doc.listExact node) fetched config))).edits todo =
      settleAll ids (ticketTodos tracker (doc.listExact node))[ticket.key]?
        ((stepOf tracker node (doc.listExact node) fetched config ticket).edits ++
          (stepOf tracker node (doc.listExact node) fetched config ticket).relations) todo := by
  have hinj : ∀ edit ∈ (SyncPlan.ofSteps (fetched.map
      (stepOf tracker node (doc.listExact node) fetched config))).edits,
      ids[edit.key]? = some (idOf key) → edit.key = ticket.key := by
    intro edit _ hid
    obtain ⟨at_, hat, heq⟩ := (h.names _ _).mp hid
    obtain rfl := idOf_inj.mp heq
    exact hat.ticket_eq hstands
  rw [settled_eq_settleAll ((h.names _ _).mpr ⟨key, hstands, rfl⟩) hinj]
  refine congrArg (settleAll ids _ · todo) ?_
  simp only [SyncPlan.ofSteps, List.flatMap_map, List.filter_append]
  rw [filter_flatMap_own (fun other edit hedit => (mem_step (List.mem_append_left _ hedit)).1) hdistinct hticket,
    filter_flatMap_own (fun other edit hedit => (mem_step (List.mem_append_right _ hedit)).1) hdistinct hticket]

/-- A fetched ticket's existing todo is settled, and its foreign parent and blockers are kept. -/
theorem Passed.settled_kept (h : Passed tracker node fetched (SyncPlan.ofSteps (fetched.map
      (stepOf tracker node (doc.listExact node) fetched config))).edits ids doc doc')
    (hsound : doc.Sound) (hone : doc.OnePerTicket tracker node) (hdistinct : (fetched.map SyncedTicket.key).Nodup)
    {ticket : SyncedTicket} (hticket : ticket ∈ fetched) {key : ℕ} {todo : Todo}
    (htodo : doc.todos[key]? = some todo) (hnode : todo.node = node)
    (hkey : todo.ticketKey tracker = some ticket.key) :
    ∃ after, doc'.plainAt key = some after ∧
      SettledFor tracker (keyOfId (ticketTodos tracker (doc'.listExact node)))
        (syncedKeys (ticketTodos tracker (doc.listExact node)) fetched) ticket after ∧
      ∀ id, (keyOfId (ticketTodos tracker (doc'.listExact node)))[id]? = none →
        (id ∈ after.blockedBy ↔ id ∈ todo.blockedBy) ∧ (after.parent = some id ↔ todo.parent = some id) := by
  have hseen : (ticketTodos tracker (doc.listExact node))[ticket.key]? = some todo :=
    (Doc.ticketTodos_eq_some hone).mpr ⟨key, htodo, hnode, hkey⟩
  have hstep : stepOf tracker node (doc.listExact node) fetched config ticket =
      planExisting tracker (keyOfId (ticketTodos tracker (doc.listExact node)))
        (syncedKeys (ticketTodos tracker (doc.listExact node)) fetched) ticket (kindOf config ticket) todo := by
    rw [stepOf, planTicket, hseen]
  have hreference : todo.ticket.isSome = true := by
    cases hsome : todo.ticket with
    | none => simp [Todo.ticketKey, hsome] at hkey
    | some reference => rfl
  obtain ⟨after, hafter, hsettled, huntouched⟩ := settled_existing (kindOf config ticket) h.inverse
    (fun _ => h.known hone) (fun id hid => h.keys_same hsound hone (hsound.referred htodo (Or.inr hid)))
    (fun id hid => h.keys_same hsound hone (hsound.referred htodo (Or.inl hid))) hreference
  refine ⟨after, ?_, hsettled, huntouched⟩
  rw [h.kept htodo, h.settled_step hdistinct hticket (h.stands ⟨todo, htodo, hnode, hkey⟩), hseen, hstep, hafter]

/-- The todo of every fetched ticket is settled after the pass. -/
theorem Passed.settled_fetched (h : Passed tracker node fetched (SyncPlan.ofSteps (fetched.map
      (stepOf tracker node (doc.listExact node) fetched config))).edits ids doc doc')
    (hsound : doc.Sound) (hone : doc.OnePerTicket tracker node) (hdistinct : (fetched.map SyncedTicket.key).Nodup)
    {ticket : SyncedTicket} (hticket : ticket ∈ fetched) :
    ∃ key plain, doc'.plainAt key = some plain ∧ doc'.Stands tracker node ticket.key key ∧
      SettledFor tracker (keyOfId (ticketTodos tracker (doc'.listExact node)))
        (syncedKeys (ticketTodos tracker (doc.listExact node)) fetched) ticket plain := by
  cases hnone : (ticketTodos tracker (doc.listExact node))[ticket.key]? with
  | some todo =>
    obtain ⟨key, htodo, hnode, hkey⟩ := (Doc.ticketTodos_eq_some hone).mp hnone
    obtain ⟨after, hplain, hsettled, _⟩ := h.settled_kept hsound hone hdistinct hticket htodo hnode hkey
    exact ⟨key, after, hplain, h.stands ⟨todo, htodo, hnode, hkey⟩, hsettled⟩
  | none =>
    obtain ⟨key, todo, hfresh, hplain⟩ := h.fresh ticket hticket hnone
    obtain ⟨_, hsameNode, hsameTicket⟩ := settled_keeps (ticketTodos tracker (doc.listExact node)) ids
      (idOf key) (SyncPlan.ofSteps (fetched.map
        (stepOf tracker node (doc.listExact node) fetched config))).edits todo.plain
    have hstands : doc'.Stands tracker node ticket.key key := stands_iff_plainAt.mpr
      ⟨_, hplain, hsameNode.trans hfresh.node, (hsameTicket tracker).trans hfresh.ticketKey⟩
    have hstep : stepOf tracker node (doc.listExact node) fetched config ticket =
        planNew tracker node (syncedKeys (ticketTodos tracker (doc.listExact node)) fetched) ticket
          (kindOf config ticket) := by
      rw [stepOf, planTicket, hnone]
    rw [h.settled_step hdistinct hticket hstands, hnone, hstep] at hplain
    refine ⟨key, _, hplain, hstands, ?_⟩
    refine settled_new h.inverse (fun _ => h.known hone) hfresh.description ?_ hfresh.parent hfresh.blockedBy
    rw [Todo.lastSynced, hfresh.ticket]
    rfl

/-- Planning a fetched ticket again plans nothing. -/
theorem Passed.step_again (h : Passed tracker node fetched (SyncPlan.ofSteps (fetched.map
      (stepOf tracker node (doc.listExact node) fetched config))).edits ids doc doc')
    (hsound : doc.Sound) (hone : doc.OnePerTicket tracker node) (hdistinct : (fetched.map SyncedTicket.key).Nodup)
    {ticket : SyncedTicket} (hticket : ticket ∈ fetched) :
    stepOf tracker node (doc'.listExact node) fetched config ticket = ⟨[], [], []⟩ := by
  obtain ⟨key, plain, hplain, hstands, hsettled⟩ := h.settled_fetched hsound hone hdistinct hticket
  obtain ⟨todo, htodo, hnode, hkey⟩ := hstands
  have hsame : todo.plain = plain := by
    rw [Doc.plainAt, htodo] at hplain
    exact Option.some.inj hplain
  have hseen : (ticketTodos tracker (doc'.listExact node))[ticket.key]? = some todo :=
    (Doc.ticketTodos_eq_some h.names.one).mpr ⟨key, htodo, hnode, hkey⟩
  rw [stepOf, planTicket, hseen]
  subst hsame
  exact planExisting_of_settled (kindOf config ticket) (hsettled.of_plain.of_synced fun key => (h.synced key).symm)

/-- What is no ticket todo stays: the parents and blockers of every existing todo. -/
theorem Passed.untouched (h : Passed tracker node fetched (SyncPlan.ofSteps (fetched.map
      (stepOf tracker node (doc.listExact node) fetched config))).edits ids doc doc')
    (hsound : doc.Sound) (hone : doc.OnePerTicket tracker node) (hdistinct : (fetched.map SyncedTicket.key).Nodup) :
    Untouched tracker node doc doc' := by
  intro key todo htodo
  have hforeign : ∀ id, ¬ doc'.TicketTodo tracker node id →
      (keyOfId (ticketTodos tracker (doc'.listExact node)))[id]? = none := by
    intro id hnot
    by_contra hsome
    obtain ⟨ticket, hticket⟩ := Option.ne_none_iff_exists'.mp hsome
    obtain ⟨at_, hstands, heq⟩ := (Doc.keyOfId_eq_some h.keyed h.names.one).mp hticket
    exact hnot ⟨ticket, at_, hstands, heq⟩
  by_cases hplanned : ∃ ticket ∈ fetched, doc.Stands tracker node ticket.key key
  · obtain ⟨ticket, hticket, found, hfound, hnode, hkey⟩ := hplanned
    obtain rfl := Option.some.inj (htodo.symm.trans hfound)
    obtain ⟨after, hplain, _, huntouched⟩ := h.settled_kept hsound hone hdistinct hticket htodo hnode hkey
    obtain ⟨todo', htodo', rfl⟩ := Option.map_eq_some_iff.mp hplain
    exact ⟨todo', htodo', fun id hnot => huntouched id (hforeign id hnot)⟩
  · -- No edit of the plan names the todo.
    have hnone : ∀ edit ∈ (SyncPlan.ofSteps (fetched.map
        (stepOf tracker node (doc.listExact node) fetched config))).edits, ids[edit.key]? ≠ some (idOf key) := by
      intro edit hedit hid
      obtain ⟨ticket, hticket, hstep⟩ := mem_edits.mp hedit
      obtain ⟨at_, hstands, heq⟩ := (h.names _ _).mp hid
      obtain rfl := idOf_inj.mp heq
      rcases h.only hstands with hbefore | ⟨hnew, _⟩
      · exact hplanned ⟨ticket, hticket, (mem_step hstep).1 ▸ hbefore⟩
      · exact absurd (hsound.counted htodo) (Nat.not_lt.mpr hnew)
    have hplain := h.kept htodo
    have hsame : (SyncPlan.ofSteps (fetched.map (stepOf tracker node (doc.listExact node) fetched
        config))).edits.filter (fun edit => ids[edit.key]? = some (idOf key)) = [] := by
      rw [List.filter_eq_nil_iff]
      exact fun edit hedit => by simpa using hnone edit hedit
    rw [settled, hsame, List.foldl_nil] at hplain
    obtain ⟨todo', htodo', heq⟩ := Option.map_eq_some_iff.mp hplain
    have hblockers : todo'.plain.blockedBy = todo.plain.blockedBy := congrArg Todo.blockedBy heq
    have hparent : todo'.plain.parent = todo.plain.parent := congrArg Todo.parent heq
    refine ⟨todo', htodo', fun id _ => ⟨?_, ?_⟩⟩
    · exact iff_of_eq (congrArg (id ∈ ·) hblockers)
    · exact iff_of_eq (congrArg (· = some id) hparent)

end Pass

/-- A validated plan names todos of the node and its own adds. -/
theorem namesTodos {tracker node : String} {doc : Doc} {fetched : List SyncedTicket} {config : TicketSyncConfig}
    (hsound : doc.Sound) (hone : doc.OnePerTicket tracker node) :
    (SyncPlan.ofSteps (fetched.map (stepOf tracker node (doc.listExact node) fetched config))).NamesTodos doc
      tracker node := by
  have hfetched : ∀ ticket ∈ fetched, (∃ key, doc.Stands tracker node ticket.key key) ∨
      ∃ add ∈ (SyncPlan.ofSteps (fetched.map (stepOf tracker node (doc.listExact node) fetched config))).adds,
        add.ticket.map TicketRef.key = some ticket.key := by
    intro ticket hticket
    by_cases hmem : ticket.key ∈ ticketTodos tracker (doc.listExact node)
    · exact Or.inl (Doc.mem_ticketTodos.mp hmem)
    · refine Or.inr ⟨ticketAdd tracker node ticket, ?_, rfl⟩
      rw [adds_eq]
      refine List.mem_map_of_mem (List.mem_filter.mpr ⟨hticket, ?_⟩)
      rw [ExtTreeMap.mem_iff_isSome_getElem?, Option.not_isSome_iff_eq_none] at hmem
      exact Option.isNone_iff_eq_none.mpr hmem
  intro edit hedit ticket hnamed
  obtain ⟨source, hsource, hstep⟩ := mem_edits.mp hedit
  obtain ⟨hkey, hothers⟩ := mem_step hstep
  rcases List.mem_cons.mp hnamed with rfl | hother
  · rw [hkey]
    exact hfetched source hsource
  · rcases hothers ticket hother with hsynced | ⟨id, hid⟩
    · rcases (contains_syncedKeys fetched).mp hsynced with hstands | ⟨other, hmem, rfl⟩
      · exact Or.inl hstands
      · exact hfetched other hmem
    · obtain ⟨at_, hstands, _⟩ := (Doc.keyOfId_eq_some hsound.keyed hone).mp hid
      exact Or.inl ⟨at_, hstands⟩

/-- A sync converges when every fetched ticket has its todo on the node or nowhere. -/
theorem converges_of_placed {text : Unicode} (clock : ℕ → Instant) {tracker node : String} {doc : Doc}
    {fetched : List SyncedTicket} {knownNames : List String} {config : TicketSyncConfig} (hsound : doc.Sound)
    (hone : doc.OnePerTicket tracker node) (hdistinct : (fetched.map SyncedTicket.key).Nodup)
    (hvalid : validate text fetched knownNames config = .ok ())
    (hplaced : ∀ ticket ∈ fetched, (∃ key, doc.Stands tracker node ticket.key key) ∨
      doc.Absent tracker ticket.key) :
    Converges text clock tracker node doc fetched knownNames config := by
  obtain ⟨doc', ids, hland, hpassed⟩ := pass_ok clock config hsound hone hdistinct hplaced
  refine ⟨_, doc', plan_eq hvalid, hland, ?_, namesTodos hsound hone, hpassed.untouched hsound hone hdistinct⟩
  have hagain : fetched.map (stepOf tracker node (doc'.listExact node) fetched config) =
      fetched.map fun _ => ⟨[], [], []⟩ :=
    List.map_congr_left fun ticket hticket => hpassed.step_again hsound hone hdistinct hticket
  rw [plan_eq hvalid, hagain]
  simp [SyncPlan.ofSteps]

end Devkit.Todos
