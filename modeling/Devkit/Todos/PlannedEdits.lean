import Devkit.Todos.LandedAdds
import Devkit.Todos.SettledTicket

/-!
# The plan, ticket by ticket

After validation the plan is made of one step for each ticket. Its edits of one ticket are those
of the ticket's step, and every ticket they name has a todo or an add of the same plan.
-/

namespace Devkit.Todos

open Devkit.Library
open Std

/-- The todo status of a validated ticket. -/
def kindOf (config : TicketSyncConfig) (ticket : SyncedTicket) : StatusKind :=
  (target ticket.status config).getD .pending

/-- The step of one ticket in the plan of a listing. -/
def stepOf (tracker node : String) (existing : List Todo) (fetched : List SyncedTicket)
    (config : TicketSyncConfig) (ticket : SyncedTicket) : TicketStep :=
  planTicket tracker node (ticketTodos tracker existing) (syncedKeys (ticketTodos tracker existing) fetched)
    ticket (kindOf config ticket)

/-- A validated plan is that of the tickets' steps. -/
theorem plan_eq {text : Unicode} {tracker node : String} {existing : List Todo} {fetched : List SyncedTicket}
    {knownNames : List String} {config : TicketSyncConfig}
    (hvalid : validate text fetched knownNames config = .ok ()) :
    plan text tracker node existing fetched knownNames config =
      .ok (SyncPlan.ofSteps (fetched.map (stepOf tracker node existing fetched config))) := by
  have hsteps : ∀ tickets : List SyncedTicket, (∀ ticket ∈ tickets, ticket ∈ fetched) →
      (tickets.mapM fun ticket => (target ticket.status config).map
        (planTicket tracker node (ticketTodos tracker existing)
          (syncedKeys (ticketTodos tracker existing) fetched) ticket)) =
        some (tickets.map (stepOf tracker node existing fetched config)) := by
    intro tickets hsub
    induction tickets with
    | nil => rfl
    | cons ticket rest ih =>
      obtain ⟨kind, hkind⟩ := Option.isSome_iff_exists.mp (target_isSome hvalid (hsub ticket List.mem_cons_self))
      rw [List.mapM_cons, ih fun other hother => hsub other (List.mem_cons_of_mem ticket hother), hkind,
        List.map_cons, stepOf, kindOf, hkind]
      rfl
  simp only [plan, hvalid]
  rw [hsteps fetched fun _ h => h]

/-- The adds of the plan are those of the tickets without a todo in the listing. -/
theorem adds_eq (tracker node : String) (existing : List Todo) (fetched : List SyncedTicket)
    (config : TicketSyncConfig) :
    (SyncPlan.ofSteps (fetched.map (stepOf tracker node existing fetched config))).adds =
      (fetched.filter fun ticket => (ticketTodos tracker existing)[ticket.key]?.isNone).map
        (ticketAdd tracker node) := by
  have hadds : ∀ tickets : List SyncedTicket,
      (tickets.map (stepOf tracker node existing fetched config)).flatMap TicketStep.adds =
        (tickets.filter fun ticket => (ticketTodos tracker existing)[ticket.key]?.isNone).map
          (ticketAdd tracker node) := by
    intro tickets
    induction tickets with
    | nil => rfl
    | cons ticket rest ih =>
      rw [List.map_cons, List.flatMap_cons, ih]
      cases htodo : (ticketTodos tracker existing)[ticket.key]? with
      | none =>
        rw [List.filter_cons_of_pos (by rw [htodo]; rfl), List.map_cons, stepOf, planTicket, htodo]
        rfl
      | some todo =>
        rw [List.filter_cons_of_neg (by rw [htodo]; simp), stepOf, planTicket, htodo]
        rfl
  exact hadds fetched

/-- A relation edit is of its ticket, and names the parent or a blocker. -/
theorem mem_relationEdits {key : String} {move : Option (Option String)} {block unblock : List String}
    {edit : PlannedEdit} (hedit : edit ∈ relationEdits key move block unblock) :
    edit.key = key ∧
      ∀ other ∈ edit.change.keys, move = some (some other) ∨ other ∈ block ∨ other ∈ unblock := by
  unfold relationEdits at hedit
  rw [List.mem_append, List.mem_append] at hedit
  rcases hedit with (hmove | hblock) | hunblock
  · obtain ⟨parent, hparent, rfl⟩ := List.mem_map.mp hmove
    refine ⟨rfl, fun other hother => Or.inl ?_⟩
    rw [Option.mem_toList] at hparent
    rw [hparent, Option.mem_toList.mp hother]
  · split at hblock
    · obtain rfl := List.mem_singleton.mp hblock
      exact ⟨rfl, fun other hother => Or.inr (Or.inl hother)⟩
    · contradiction
  · split at hunblock
    · obtain rfl := List.mem_singleton.mp hunblock
      exact ⟨rfl, fun other hother => Or.inr (Or.inr hother)⟩
    · contradiction

/-- A text or status edit is of its ticket, and names no other. -/
theorem mem_planExisting_edits {tracker : String} {keys : ExtTreeMap String String} {synced : List String}
    {ticket : SyncedTicket} {kind : StatusKind} {todo : Todo} {edit : PlannedEdit}
    (hedit : edit ∈ (planExisting tracker keys synced ticket kind todo).edits) :
    edit.key = ticket.key ∧ edit.change.keys = [] := by
  simp only [planExisting, List.mem_append] at hedit
  rcases hedit with hdescribe | hstatus
  · split at hdescribe
    · obtain rfl := List.mem_singleton.mp hdescribe
      exact ⟨rfl, rfl⟩
    · contradiction
  · split at hstatus
    · rcases List.mem_cons.mp hstatus with rfl | hrecord
      · exact ⟨rfl, rfl⟩
      · obtain rfl := List.mem_singleton.mp hrecord
        exact ⟨rfl, rfl⟩
    · contradiction

/-- The status edit of a ticket to add is of the ticket, and names no other. -/
theorem mem_planNew_edits {tracker node : String} {synced : List String} {ticket : SyncedTicket}
    {kind : StatusKind} {edit : PlannedEdit} (hedit : edit ∈ (planNew tracker node synced ticket kind).edits) :
    edit.key = ticket.key ∧ edit.change.keys = [] := by
  simp only [planNew] at hedit
  split at hedit
  · obtain rfl := List.mem_singleton.mp hedit
    exact ⟨rfl, rfl⟩
  · contradiction

/-- The edits of a ticket's step are of the ticket, and the others they name are fetched or have a
ticket todo in the listing. -/
theorem mem_step {tracker node : String} {existing : List Todo} {fetched : List SyncedTicket}
    {config : TicketSyncConfig} {ticket : SyncedTicket} {edit : PlannedEdit}
    (hedit : edit ∈ (stepOf tracker node existing fetched config ticket).edits ++
      (stepOf tracker node existing fetched config ticket).relations) :
    edit.key = ticket.key ∧ ∀ other ∈ edit.change.keys,
      (syncedKeys (ticketTodos tracker existing) fetched).contains other = true ∨
        ∃ id : String, (keyOfId (ticketTodos tracker existing))[id]? = some other := by
  have hwantedParent : ∀ other, wantedParent (syncedKeys (ticketTodos tracker existing) fetched) ticket = some other →
      (syncedKeys (ticketTodos tracker existing) fetched).contains other = true := by
    intro other hother
    exact (Bool.and_eq_true_iff.mp (Option.filter_eq_some_iff.mp hother).2).1
  have hwantedBlockers : ∀ other ∈ wantedBlockers (syncedKeys (ticketTodos tracker existing) fetched) ticket,
      (syncedKeys (ticketTodos tracker existing) fetched).contains other = true := by
    intro other hother
    exact (Bool.and_eq_true_iff.mp (List.mem_filter.mp hother).2).1
  unfold stepOf planTicket at hedit
  split at hedit
  · rcases List.mem_append.mp hedit with hplain | hrelation
    · obtain ⟨hkey, hnone⟩ := mem_planNew_edits hplain
      exact ⟨hkey, by simp [hnone]⟩
    · rw [planNew_relations] at hrelation
      obtain ⟨hkey, hothers⟩ := mem_relationEdits hrelation
      refine ⟨hkey, fun other hother => Or.inl ?_⟩
      rcases hothers other hother with hmove | hblock | hunblock
      · obtain ⟨parent, hparent, heq⟩ := Option.map_eq_some_iff.mp hmove
        exact hwantedParent other (hparent.trans heq)
      · exact hwantedBlockers other hblock
      · exact absurd hunblock List.not_mem_nil
  · rcases List.mem_append.mp hedit with hplain | hrelation
    · obtain ⟨hkey, hnone⟩ := mem_planExisting_edits hplain
      exact ⟨hkey, by simp [hnone]⟩
    · rw [planExisting_relations] at hrelation
      obtain ⟨hkey, hothers⟩ := mem_relationEdits hrelation
      refine ⟨hkey, fun other hother => ?_⟩
      rcases hothers other hother with hmove | hblock | hunblock
      · split at hmove
        · exact Or.inl (hwantedParent other (Option.some.inj hmove))
        · cases hmove
      · exact Or.inl (hwantedBlockers other (mem_sortedSet.mp (List.mem_filter.mp hblock).1))
      · obtain ⟨id, _, hid⟩ := mem_heldBlockers.mp (List.mem_filter.mp hunblock).1
        exact Or.inr ⟨id, hid⟩

/-- The edits of a plan are those of the tickets' steps. -/
theorem mem_edits {step : SyncedTicket → TicketStep} {fetched : List SyncedTicket} {edit : PlannedEdit} :
    edit ∈ (SyncPlan.ofSteps (fetched.map step)).edits ↔
      ∃ ticket ∈ fetched, edit ∈ (step ticket).edits ++ (step ticket).relations := by
  simp only [SyncPlan.ofSteps, List.flatMap_map, List.mem_append, List.mem_flatMap]
  constructor
  · rintro (⟨ticket, hticket, hedit⟩ | ⟨ticket, hticket, hedit⟩)
    · exact ⟨ticket, hticket, Or.inl hedit⟩
    · exact ⟨ticket, hticket, Or.inr hedit⟩
  · rintro ⟨ticket, hticket, hedit | hedit⟩
    · exact Or.inl ⟨ticket, hticket, hedit⟩
    · exact Or.inr ⟨ticket, hticket, hedit⟩

/-- Of edits collected ticket by ticket, those of one ticket are its own. -/
theorem filter_flatMap_own {edits : SyncedTicket → List PlannedEdit}
    (hown : ∀ ticket, ∀ edit ∈ edits ticket, edit.key = ticket.key) {tickets : List SyncedTicket}
    (hdistinct : (tickets.map SyncedTicket.key).Nodup) {ticket : SyncedTicket} (hticket : ticket ∈ tickets) :
    (tickets.flatMap edits).filter (fun edit => edit.key = ticket.key) = edits ticket := by
  induction tickets with
  | nil => contradiction
  | cons first rest ih =>
    rw [List.map_cons, List.nodup_cons] at hdistinct
    rw [List.flatMap_cons, List.filter_append]
    rcases List.mem_cons.mp hticket with rfl | hrest
    · have hself : (edits ticket).filter (fun edit => edit.key = ticket.key) = edits ticket := by
        rw [List.filter_eq_self]
        simpa using hown ticket
      have hothers : (rest.flatMap edits).filter (fun edit => edit.key = ticket.key) = [] := by
        rw [List.filter_eq_nil_iff]
        intro edit hedit
        obtain ⟨other, hother, hmem⟩ := List.mem_flatMap.mp hedit
        rw [decide_eq_true_iff, hown other edit hmem]
        exact fun heq => hdistinct.1 (heq ▸ List.mem_map_of_mem hother)
      rw [hself, hothers, List.append_nil]
    · have hfirst : (edits first).filter (fun edit => edit.key = ticket.key) = [] := by
        rw [List.filter_eq_nil_iff]
        intro edit hedit
        rw [decide_eq_true_iff, hown first edit hedit]
        exact fun heq => hdistinct.1 (heq ▸ List.mem_map_of_mem hrest)
      rw [hfirst, List.nil_append]
      exact ih hdistinct.2 hrest

/-- The edits that name the id of one ticket's todo are those of the ticket. -/
theorem settled_eq_settleAll {plannedOn : ExtTreeMap String Todo} {ids : ExtTreeMap String String}
    {id key : String} (hid : ids[key]? = some id) {edits : List PlannedEdit}
    (hinj : ∀ edit ∈ edits, ids[edit.key]? = some id → edit.key = key) (todo : Todo) :
    settled plannedOn ids id edits todo =
      settleAll ids plannedOn[key]? (edits.filter fun edit => edit.key = key) todo := by
  unfold settled settleAll
  have hfilter : edits.filter (fun edit => ids[edit.key]? = some id) =
      edits.filter fun edit => edit.key = key := by
    refine List.filter_congr fun edit hedit => ?_
    rw [decide_eq_decide]
    exact ⟨hinj edit hedit, fun heq => heq ▸ hid⟩
  rw [hfilter]
  refine List.foldl_ext _ _ _ fun todo edit hedit => ?_
  rw [of_decide_eq_true (List.mem_filter.mp hedit).2]

end Devkit.Todos
