import Devkit.Todos.Push
import Devkit.Todos.StoreCalls
import Devkit.Todos.SyncTracking

/-!
# The next sync after a push

A push records the name the configuration moves the ticket to, while the next plan compares the recorded
name with the tracker's letter by letter. So the plan leaves the todo alone exactly when the issue was
closed, or the tracker spells the status as it was recorded.
-/

namespace Devkit.Todos

open Devkit.Library
open Devkit.Ticket (TrackerKind)
open Std

section Spelling

variable (text : Unicode) (change : LocalStatus) (tracker : TrackerKind) (event : Option EventTransition)
  (current reported : TicketStatus)

/-- The tracker reports the status the push moved the ticket to: the close reason, or the event's. -/
def MovedTo : Prop :=
  match change.closes tracker with
  | some reason => reported = .closed reason
  | none => ∃ transition name, event = some transition ∧ reported = .named name ∧
      sameStatus text name transition.toStatus = true

/-- The spelling a push records: the tracker's, when the ticket is already there, or the event's. -/
def recordedSpelling (transition : EventTransition) : String :=
  match current with
  | .named name => if sameStatus text name transition.toStatus then name else transition.toStatus
  | .closed _ => transition.toStatus

/-- The change closed the issue, or the tracker spells the status as it was recorded. -/
def SpelledAsRecorded : Prop :=
  (change.closes tracker).isSome ∨
    ∀ transition, event = some transition → reported = .named (recordedSpelling text current transition)

end Spelling

/-- A plan reads the ticket in the status. -/
def Reports (fetched : List SyncedTicket) (key : String) (status : TicketStatus) : Prop :=
  (∃ ticket ∈ fetched, ticket.key = key) ∧ ∀ ticket ∈ fetched, ticket.key = key → ticket.status = status

section Verdict

variable {text : Unicode} {change : LocalStatus} {baseline : Option String} {current : TicketStatus}
  {event : Option EventTransition} {tracker : TrackerKind}

/-- A ticket that stands somewhere else is written, left, or in conflict. -/
theorem moveVerdict_ne_already : moveVerdict text change baseline current event tracker ≠ .already := by
  unfold moveVerdict
  split
  · split <;> exact Verdict.noConfusion
  · dsimp only
    split
    · exact Verdict.noConfusion
    · split <;> exact Verdict.noConfusion
    · exact Verdict.noConfusion

/-- Where the change closes nothing, a ticket already there needs no write. -/
theorem verdictOf_named (hcloses : change.closes tracker = none) (name : String) :
    verdictOf text change baseline (.named name) event tracker =
      if event.any (sameStatus text name ·.toStatus) then .already
      else moveVerdict text change baseline (.named name) event tracker := by
  unfold verdictOf
  rw [hcloses]

/-- Without a move and without a close nothing is written. -/
theorem verdictOf_none (hcloses : change.closes tracker = none) :
    verdictOf text change baseline current none tracker = .noMove := by
  have hmove : moveVerdict text change baseline current none tracker = .noMove := by
    rw [moveVerdict, hcloses]
    rfl
  cases current with
  | named name => exact (verdictOf_named hcloses name).trans hmove
  | closed reason =>
    unfold verdictOf
    rw [hcloses]
    exact hmove

/-- A closing change that goes ahead records the close reason. -/
theorem record_of_closes {reason : CloseReason} (hcloses : change.closes tracker = some reason)
    (hverdict : verdictOf text change baseline current event tracker ≠ .noMove) :
    (writesOf change current event tracker (verdictOf text change baseline current event tracker)).record =
      some (statusName (.closed reason)) := by
  have hclosed : closedName change tracker = some (statusName (.closed reason)) := by
    rw [closedName, hcloses]
    rfl
  cases hdecided : verdictOf text change baseline current event tracker with
  | noMove => exact absurd hdecided hverdict
  | write | conflict => rw [writesOf, hclosed]; rfl
  | already =>
    unfold verdictOf at hdecided
    rw [hcloses] at hdecided
    cases current with
    | named name => exact absurd hdecided moveVerdict_ne_already
    | closed was =>
      dsimp only at hdecided
      split at hdecided
      · rename_i hsame
        rw [writesOf, hsame]
      · contradiction

/-- A change that closes nothing and goes ahead records the status in the spelling it has. -/
theorem record_of_event {transition : EventTransition} (hcloses : change.closes tracker = none)
    (hverdict : verdictOf text change baseline current (some transition) tracker ≠ .noMove) :
    (writesOf change current (some transition) tracker
      (verdictOf text change baseline current (some transition) tracker)).record =
      some (recordedSpelling text current transition) := by
  have hmoved : ∀ verdict, verdict ≠ .noMove → verdict ≠ .already →
      (writesOf change current (some transition) tracker verdict).record = some transition.toStatus := by
    intro verdict hmove halready
    cases verdict with
    | noMove => exact absurd rfl hmove
    | already => exact absurd rfl halready
    | write | conflict => rw [writesOf, closedName, hcloses]; rfl
  cases current with
  | closed reason =>
    refine hmoved _ hverdict ?_
    unfold verdictOf
    rw [hcloses]
    exact moveVerdict_ne_already
  | named name =>
    cases hsame : sameStatus text name transition.toStatus with
    | true =>
      have halready : verdictOf text change baseline (.named name) (some transition) tracker = .already := by
        rw [verdictOf_named hcloses, Option.any_some, hsame]
        rfl
      rw [halready, recordedSpelling, hsame]
      rfl
    | false =>
      have hmove : verdictOf text change baseline (.named name) (some transition) tracker =
          moveVerdict text change baseline (.named name) (some transition) tracker := by
        rw [verdictOf_named hcloses, Option.any_some, hsame]
        rfl
      rw [hmoved _ hverdict (by rw [hmove]; exact moveVerdict_ne_already), recordedSpelling, hsame]
      rfl

/-- The name a push records is the reported one exactly when it is spelled so. -/
theorem record_eq_statusName {reported : TicketStatus}
    (hverdict : (statusVerdict text change baseline current event tracker).verdict ≠ .noMove)
    (hmoved : MovedTo text change tracker event reported) :
    ∃ record, (statusVerdict text change baseline current event tracker).writes.record = some record ∧
      (record = statusName reported ↔ SpelledAsRecorded text change tracker event current reported) := by
  change verdictOf text change baseline current event tracker ≠ .noMove at hverdict
  unfold MovedTo at hmoved
  cases hcloses : change.closes tracker with
  | some reason =>
    rw [hcloses] at hmoved
    obtain rfl := hmoved
    exact ⟨_, record_of_closes hcloses hverdict, iff_of_true rfl (Or.inl (by rw [hcloses]; rfl))⟩
  | none =>
    rw [hcloses] at hmoved
    obtain ⟨transition, name, rfl, rfl, _⟩ := hmoved
    refine ⟨_, record_of_event hcloses hverdict, ?_⟩
    rw [SpelledAsRecorded, hcloses]
    constructor
    · rintro hrecord
      refine Or.inr fun other hother => ?_
      obtain rfl := Option.some.inj hother
      exact congrArg TicketStatus.named hrecord.symm
    · intro hspelled
      cases hspelled with
      | inl hclosed => contradiction
      | inr hspelled => exact (TicketStatus.named.inj (hspelled transition rfl)).symm

end Verdict

/-- A push that goes ahead with a verdict of its own applied the edit and recorded the status. -/
theorem applyPushed_of_pushStatus {text : Unicode} {w : PushWorld} {now : Instant} {doc doc' : Doc}
    {name : String} {todo : Todo} {ticket : TicketRef} {edit : Edit} {push : StatusPush}
    {current : TicketStatus} (hticket : todo.ticket = some ticket)
    (hread : w.readStatus ticket.key name = .ok current)
    (hverdict : (statusVerdict text push.change ticket.syncedStatus current (w.events push.change.event)
      w.kind).verdict ≠ .noMove)
    (hpush : pushStatus text w now doc name todo edit push = .ok (true, doc')) :
    applyPushed now doc todo.id edit (statusVerdict text push.change ticket.syncedStatus current
      (w.events push.change.event) w.kind).writes.record = .ok doc' := by
  simp only [pushStatus, hticket, pushTicket] at hpush
  split at hpush
  · rename_i hnothing
    obtain ⟨hevent, hcloses⟩ := Bool.and_eq_true_iff.mp hnothing
    refine absurd ?_ hverdict
    rw [Option.isNone_iff_eq_none.mp hevent]
    exact verdictOf_none (Option.isNone_iff_eq_none.mp hcloses)
  · obtain ⟨movable, _, hpush⟩ := bind_eq_ok.mp hpush
    rw [hread] at hpush
    obtain ⟨_, hcurrent, hpush⟩ := bind_eq_ok.mp hpush
    obtain rfl := Except.ok.inj hcurrent
    obtain ⟨ahead, _, hpush⟩ := bind_eq_ok.mp hpush
    split at hpush
    · obtain ⟨written, hfollow, hpush⟩ := bind_eq_ok.mp hpush
      obtain ⟨_, rfl⟩ := Prod.mk.inj (Except.ok.inj hpush)
      obtain ⟨_, _, hfollow⟩ := bind_eq_ok.mp hfollow
      obtain ⟨_, _, hfollow⟩ := bind_eq_ok.mp hfollow
      exact hfollow
    · obtain ⟨_, _, hpush⟩ := bind_eq_ok.mp hpush
      exact absurd (Prod.mk.inj (Except.ok.inj hpush)).1 Bool.false_ne_true

namespace Doc

/-- A document narrowed twice is narrowed. -/
theorem Narrowed.trans {doc doc' doc'' : Doc} (h : doc.Narrowed doc') (h' : doc'.Narrowed doc'') :
    doc.Narrowed doc'' := by
  refine ⟨h'.nextId.trans h.nextId, fun htodo => ?_⟩
  obtain ⟨middle, hmiddle, hid', hticket'⟩ := h'.todos htodo
  obtain ⟨before, hbefore, hid, hticket⟩ := h.todos hmiddle
  exact ⟨before, hbefore, hid'.trans hid, fun tracker => (hticket' tracker).trans (hticket tracker)⟩

/-- A change of status leaves the todo on its node, with its ticket. -/
theorem changeStatus_todo (rule : Status → Except Claimed (Option Status)) {doc doc' : Doc} {now : Instant}
    {id : String} {changes : List StatusChange} {key : ℕ} {todo : Todo}
    (h : doc.changeStatus now id rule = .ok (doc', changes)) (hkey : parseKey id = some key)
    (htodo : doc.todos[key]? = some todo) :
    ∃ after, doc'.todos[key]? = some after ∧ after.node = todo.node ∧ after.ticket = todo.ticket := by
  unfold changeStatus at h
  rw [todoMut_eq_ok.mpr ⟨hkey, htodo⟩] at h
  dsimp only at h
  split at h
  · rename_i next _
    cases next with
    | none =>
      obtain ⟨rfl, rfl⟩ := Prod.mk.inj (Except.ok.inj h)
      exact ⟨todo, htodo, rfl, rfl⟩
    | some next =>
      obtain ⟨rfl, rfl⟩ := Prod.mk.inj (Except.ok.inj h)
      exact ⟨_, (getElem?_put doc key key _).trans (if_pos rfl), rfl, rfl⟩
  · contradiction

end Doc

/-- A store's outcome passes its value on. -/
theorem storeOutcome_eq_ok {A : Type} {outcome : Except StoreError A} {value : A} :
    storeOutcome outcome = .ok value ↔ outcome = .ok value := by
  cases outcome with
  | error refusal => exact iff_of_false nofun nofun
  | ok found => exact ⟨fun h => congrArg Except.ok (Except.ok.inj h), fun h => congrArg Except.ok (Except.ok.inj h)⟩

/-- The verb's edit leaves the todo on its node, with its ticket. -/
theorem apply_makes {change : LocalStatus} {doc doc' : Doc} {now : Instant} {id : String} {edit : Edit}
    {changes : List StatusChange} {key : ℕ} {todo : Todo} (hedit : change.Makes id edit)
    (h : doc.apply now edit = .ok (doc', changes)) (hkey : parseKey id = some key)
    (htodo : doc.todos[key]? = some todo) :
    ∃ after, doc'.todos[key]? = some after ∧ after.node = todo.node ∧ after.ticket = todo.ticket := by
  cases edit with
  | setStatus named kind actor =>
    obtain ⟨rfl, _⟩ := hedit
    exact Doc.changeStatus_todo (transition · kind actor) h hkey htodo
  | takeOver named source actor =>
    obtain ⟨rfl, _⟩ := hedit
    exact Doc.changeStatus_todo (takeOver · source actor) h hkey htodo
  | _ => exact hedit.elim

/-- After the verb's edit and the record, the todo stands for its ticket with the recorded status. -/
theorem applyPushed_todo {change : LocalStatus} {doc doc' : Doc} {now : Instant} {id record : String}
    {edit : Edit} {key : ℕ} {todo : Todo} {ticket : TicketRef} (hedit : change.Makes id edit)
    (h : applyPushed now doc id edit (some record) = .ok doc') (hkey : parseKey id = some key)
    (htodo : doc.todos[key]? = some todo) (hticket : todo.ticket = some ticket) :
    doc.Narrowed doc' ∧ ∃ after, doc'.todos[key]? = some after ∧ after.node = todo.node ∧
      after.ticket = some { ticket with syncedStatus := some record } := by
  obtain ⟨⟨moved, changes⟩, hmoved, h⟩ := bind_eq_ok.mp h
  obtain ⟨⟨recorded, changes'⟩, hrecorded, h⟩ := bind_eq_ok.mp h
  obtain rfl := Except.ok.inj h
  rw [storeOutcome_eq_ok] at hmoved hrecorded
  obtain ⟨middle, hmiddle, hnode, hsame⟩ := apply_makes hedit hmoved hkey htodo
  refine ⟨(Doc.apply_narrowed hmoved).trans (Doc.apply_narrowed hrecorded), ?_⟩
  obtain ⟨key', todo', ticket', hkey', htodo', hticket', rfl⟩ := Doc.recordSync_put hrecorded
  obtain rfl := Option.some.inj (hkey.symm.trans hkey')
  obtain rfl := Option.some.inj (hmiddle.symm.trans htodo')
  obtain rfl := Option.some.inj (hticket.symm.trans (hsame.symm.trans hticket'))
  exact ⟨_, (Doc.getElem?_put moved key key _).trans (if_pos rfl), hnode, rfl⟩

/-- A plan sets the status of a ticket's todo exactly when the todo records another than is read. -/
theorem plan_leaves_iff {text : Unicode} {tracker node : String} {existing : List Todo}
    {fetched : List SyncedTicket} {known : List String} {config : TicketSyncConfig} {planned : SyncPlan}
    {key : String} {todo : Todo} {reported : TicketStatus}
    (hplan : plan text tracker node existing fetched known config = .ok planned)
    (htodo : (ticketTodos tracker existing)[key]? = some todo) (hreports : Reports fetched key reported) :
    (∀ edit ∈ planned.edits, edit.key = key → ∀ kind, edit.change ≠ .setStatus kind) ↔
      todo.lastSynced = some (statusName reported) := by
  rw [plan_eq (validate_of_plan hplan)] at hplan
  obtain rfl := Except.ok.inj hplan
  have hstep : ∀ ticket : SyncedTicket, ticket.key = key →
      stepOf tracker node existing fetched config ticket =
        planExisting tracker (keyOfId (ticketTodos tracker existing))
          (syncedKeys (ticketTodos tracker existing) fetched) ticket (kindOf config ticket) todo := by
    rintro ticket rfl
    rw [stepOf, planTicket, htodo]
  obtain ⟨⟨ticket, hticket, hkey⟩, hstatus⟩ := hreports
  constructor
  · intro hleaves
    by_contra hmoved
    have hedit : PlannedEdit.mk ticket.key (.setStatus (kindOf config ticket)) ∈
        (stepOf tracker node existing fetched config ticket).edits := by
      have hother : todo.lastSynced ≠ some (statusName ticket.status) := by rwa [hstatus ticket hticket hkey]
      rw [hstep ticket hkey]
      simp only [planExisting, if_pos hother]
      exact List.mem_append_right _ List.mem_cons_self
    exact hleaves _ (mem_edits.mpr ⟨ticket, hticket, List.mem_append_left _ hedit⟩) hkey _ rfl
  · intro hsynced edit hedit hname kind hkind
    obtain ⟨other, hother, hof⟩ := mem_edits.mp hedit
    have hsame : other.key = key := (mem_step hof).1.symm.trans hname
    rw [hstep other hsame] at hof
    refine (setStatus_of_planExisting hof hkind).2 ?_
    rw [hstatus other hother hsame]
    exact hsynced

/-- **A pushed status survives the next sync exactly when it is spelled as recorded.** For the ticket todo
of any document the store's calls lead to, and a start, done or cancel pushed with all its writes: when
the tracker then reports the status the ticket was moved to, the next plan leaves the todo's status alone
exactly when the change closed the issue or the tracker spells the status as the push recorded it. -/
theorem pushed_status_survives_iff (text : Unicode) (calls : List StoreCall) (w : PushWorld) (now : Instant)
    (name : String) (todo : Todo) (ticket : TicketRef) (edit : Edit) (push : StatusPush) (doc' : Doc)
    (current reported : TicketStatus) (fetched : List SyncedTicket) (known : List String)
    (config : TicketSyncConfig) (planned : SyncPlan)
    (htodo : (runFrom Doc.call Doc.empty calls).get todo.id = some todo) (hticket : todo.ticket = some ticket)
    (hedit : push.change.Makes todo.id edit) (hread : w.readStatus ticket.key name = .ok current)
    (hverdict : (statusVerdict text push.change ticket.syncedStatus current (w.events push.change.event)
      w.kind).verdict ≠ .noMove)
    (hpush : pushStatus text w now (runFrom Doc.call Doc.empty calls) name todo edit push = .ok (true, doc'))
    (hmoved : MovedTo text push.change w.kind (w.events push.change.event) reported)
    (hreports : Reports fetched ticket.key reported)
    (hplan : plan text ticket.tracker todo.node (doc'.listExact todo.node) fetched known config =
      .ok planned) :
    (∀ edit ∈ planned.edits, edit.key = ticket.key → ∀ kind, edit.change ≠ .setStatus kind) ↔
      SpelledAsRecorded text push.change w.kind (w.events push.change.event) current reported := by
  obtain ⟨key, hkey, hfound⟩ := Option.bind_eq_some_iff.mp htodo
  obtain ⟨record, hrecord, hspelled⟩ := record_eq_statusName hverdict hmoved
  have happlied := applyPushed_of_pushStatus hticket hread hverdict hpush
  rw [hrecord] at happlied
  obtain ⟨hnarrowed, after, hafter, hnode, hsynced⟩ := applyPushed_todo hedit happlied hkey hfound hticket
  have honce := (Doc.ticketsOnce_run calls).narrowed hnarrowed
  have hone : doc'.OnePerTicket ticket.tracker todo.node := by
    rintro _ _ _ ⟨_, hfirst, _, hkeyed⟩ ⟨_, hsecond, _, hkeyed'⟩
    exact honce.once hfirst hsecond hkeyed hkeyed'
  have hlookup := (Doc.ticketTodos_eq_some hone).mpr
    ⟨key, hafter, hnode, Doc.ticketKey_eq_some.mpr ⟨_, hsynced, rfl, rfl⟩⟩
  rw [plan_leaves_iff hplan hlookup hreports, ← hspelled, Todo.lastSynced, hsynced]
  exact ⟨fun h => Option.some.inj h, fun h => congrArg some h⟩

section Example

/-- The lower-case forms of the names. -/
def qaText : Unicode where
  lower
    | "QA" => "qa"
    | "Todo" => "todo"
    | name => name
  debug name := "\"" ++ name ++ "\""

/-- The time of the calls. -/
def pushInstant : Instant := ⟨0, "2026-10-01T00:00:00Z"⟩

/-- The ticket in a status. -/
def qaTicket (status : String) : SyncedTicket := ⟨"A-1", "First", .named status, [], none⟩

/-- A tracker with the ticket to do, and a move of a done todo's ticket. -/
def qaWorld (toStatus : String) : PushWorld where
  kind := .linear
  label := "linear"
  events event := if event = .todoDone then some ⟨["*"], toStatus⟩ else none
  writer := .ok ()
  tickets _ := .ok [qaTicket "Todo"]
  closeIssue _ _ := .ok ()
  moveStatus _ _ _ := .ok ()
  isTerminal := false
  confirms := false
  takeTrackerValue := .ok

/-- A status map in which work in QA is in progress. -/
def qaStatuses : TicketSyncConfig :=
  ⟨[⟨none, none, []⟩], ExtTreeMap.ofList [("QA", MappedStatus.inProgress), ("Todo", MappedStatus.pending)]⟩

/-- The todo a sync adds for the ticket. -/
def qaTodo : Todo :=
  ⟨"1", "A-1 First", .pending, none, some 1024, some "r", some pushInstant.text, some pushInstant.text, [],
    some ⟨"linear", "A-1", some "Todo"⟩⟩

/-- The calls of the sync. -/
def qaCalls : List StoreCall := [.add pushInstant (ticketAdd "linear" "r" (qaTicket "Todo"))]

/-- The push of the done todo. -/
def pushDone (toStatus : String) : Except String (Bool × Doc) :=
  pushStatus qaText (qaWorld toStatus) pushInstant (runFrom Doc.call Doc.empty qaCalls) "1" qaTodo
    (.setStatus "1" .completed ⟨"S"⟩) ⟨.done, false, .agent⟩

/-- The plan of the next sync, in which the ticket is in QA. -/
def nextPlan (doc : Doc) : Except PlanError SyncPlan :=
  plan qaText "linear" "r" (doc.listExact "r") [qaTicket "QA"] ["Todo", "QA"] qaStatuses

/-- The edits of the next plan after a push that was applied. -/
def editsAfter (pushed : Except String (Bool × Doc)) : Option (List PlannedEdit) :=
  pushed.toOption.bind fun result =>
    if result.1 then (nextPlan result.2).toOption.map SyncPlan.edits else none

/-- The edits after a push come from the push and the next plan. -/
theorem of_editsAfter {pushed : Except String (Bool × Doc)} {edits : List PlannedEdit}
    (h : editsAfter pushed = some edits) :
    ∃ doc' planned, pushed = .ok (true, doc') ∧ nextPlan doc' = .ok planned ∧ planned.edits = edits := by
  obtain ⟨⟨applied, doc'⟩, hpushed, h⟩ := Option.bind_eq_some_iff.mp h
  cases happlied : applied with
  | false => simp [happlied] at h
  | true =>
    rw [happlied] at h hpushed
    obtain ⟨planned, hplanned, hedits⟩ := Option.map_eq_some_iff.mp h
    refine ⟨doc', planned, ?_, ?_, hedits⟩
    · cases pushed with
      | error failure => contradiction
      | ok result => exact congrArg Except.ok (Option.some.inj hpushed)
    · cases hnext : nextPlan doc' with
      | error failure =>
        rw [hnext] at hplanned
        contradiction
      | ok other =>
        rw [hnext] at hplanned
        exact congrArg Except.ok (Option.some.inj hplanned)

/-- A push in the tracker's spelling survives. -/
theorem pushed_status_survives_sample : ∃ doc' planned, pushDone "QA" = .ok (true, doc') ∧
    nextPlan doc' = .ok planned ∧
    ∀ edit ∈ planned.edits, edit.key = "A-1" → ∀ kind, edit.change ≠ .setStatus kind := by
  obtain ⟨doc', planned, hpush, hplan, _⟩ :=
    of_editsAfter (show editsAfter (pushDone "QA") = some [] by decide +kernel)
  refine ⟨doc', planned, hpush, hplan, ?_⟩
  exact (pushed_status_survives_iff qaText qaCalls (qaWorld "QA") pushInstant "1" qaTodo
    ⟨"linear", "A-1", some "Todo"⟩ (.setStatus "1" .completed ⟨"S"⟩) ⟨.done, false, .agent⟩ doc' (.named "Todo")
    (.named "QA") [qaTicket "QA"] ["Todo", "QA"] qaStatuses planned
    (by decide +kernel) rfl ⟨rfl, rfl⟩ (by rfl) (by decide +kernel) hpush
    ⟨⟨["*"], "QA"⟩, "QA", rfl, rfl, by decide +kernel⟩
    ⟨⟨qaTicket "QA", List.mem_cons_self, rfl⟩, fun ticket hticket _ => by
      rw [List.mem_singleton.mp hticket]
      rfl⟩ hplan).mpr (Or.inr fun transition htransition => by
        obtain rfl := Option.some.inj htransition
        decide +kernel)

/-- A push in another spelling is undone: the tracker has the status the event names, and the plan puts
the done todo back in progress. -/
theorem pushed_status_undone : ∃ doc' planned, pushDone "qa" = .ok (true, doc') ∧
    (statusVerdict qaText .done (some "Todo") (.named "Todo")
      ((qaWorld "qa").events .todoDone) .linear).verdict = .write ∧
    MovedTo qaText .done .linear ((qaWorld "qa").events .todoDone) (.named "QA") ∧
    nextPlan doc' = .ok planned ∧ ⟨"A-1", .setStatus .inProgress⟩ ∈ planned.edits := by
  obtain ⟨doc', planned, hpush, hplan, hedits⟩ := of_editsAfter (show editsAfter (pushDone "qa") =
    some [⟨"A-1", .setStatus .inProgress⟩, ⟨"A-1", .recordSync "QA"⟩] by decide +kernel)
  have hmoved : MovedTo qaText .done .linear ((qaWorld "qa").events .todoDone) (.named "QA") :=
    ⟨⟨["*"], "qa"⟩, "QA", rfl, rfl, by decide +kernel⟩
  refine ⟨doc', planned, hpush, by decide +kernel, hmoved, hplan, ?_⟩
  rw [hedits]
  exact List.mem_cons_self

end Example

end Devkit.Todos
