import Devkit.Todos.Kept
import Devkit.Todos.Landing
import Devkit.Todos.PlannedEdits
import Devkit.Todos.TicketSync

/-!
# Syncs keep track of their todos

While a sync is under way its ids name todos of their tickets, or none, whatever else works on the
store. Its status edits are for tickets that moved since the plan, or that an add of the sync made a
todo for, as long as its adds make todos. They need not: the plan looks for a ticket's todo on the
node, and the add in the whole store.
-/

namespace Devkit.Todos

open Devkit.Library
open Std

/-- The next store call lands as planned: an add's ticket has no todo in the store, and a status
edit's todo still records the synced status the plan was made from, or is still pending when the
sync made it. -/
def Sync.landsAsPlanned (doc : Doc) (sync : Sync) : Bool :=
  match sync.adds, sync.edits with
  | add :: _, _ => (add.ticket.bind doc.ticketTodo).isNone
  | [], ⟨key, .setStatus _⟩ :: _ =>
    !sync.checked || (sync.ids[key]?.bind doc.get).all fun todo =>
      match sync.plannedOn[key]? with
      | some seen => todo.lastSynced == seen.lastSynced
      | none => todo.status == .pending
  | [], _ => true

/-- The step is not a sync's, or lands as the sync planned. -/
def Syncs.LandsAsPlanned (s : Syncs) (label : SyncLabel) : Prop :=
  match label with
  | .next client _ => (s.syncs client).all (Sync.landsAsPlanned s.doc) = true
  | _ => True

instance (s : Syncs) : (label : SyncLabel) → Decidable (s.LandsAsPlanned label)
  | .next client _ => inferInstanceAs (Decidable ((s.syncs client).all (Sync.landsAsPlanned s.doc) = true))
  | .add .. | .edit .. | .begin .. | .stop _ => isTrue trivial

/-- Where an edit's ticket has a todo in the listing, its status differs from the one recorded there;
otherwise an add of the ticket is yet to land or has made a todo. -/
def Sync.Awaits (sync : Sync) (ticket : SyncedTicket) : Prop :=
  match sync.plannedOn[ticket.key]? with
  | some seen => seen.lastSynced ≠ some (statusName ticket.status)
  | none => (∃ add ∈ sync.adds, add.ticket.map TicketRef.key = some ticket.key) ∨
      ∃ id ∈ sync.made, sync.ids[ticket.key]? = some id

/-- A sync under way keeps track of the document: its ids name todos of their tickets or none, its
adds are for tickets of its tracker, and every status edit is for a fetched ticket that awaits it. -/
structure Sync.Tracks (sync : Sync) (doc : Doc) : Prop where
  named : ∀ {ticket id : String}, sync.ids[ticket]? = some id → ∃ key, id = idOf key ∧ key < doc.nextId ∧
    ∀ {todo : Todo}, doc.todos[key]? = some todo → todo.ticketKey sync.tracker = some ticket
  adds : ∀ add ∈ sync.adds, ∀ ticket, add.ticket = some ticket → ticket.tracker = sync.tracker
  planned : ∀ edit ∈ sync.edits, ∀ kind, edit.change = .setStatus kind → ∃ ticket ∈ sync.fetched,
    ticket.key = edit.key ∧ target ticket.status sync.config = some kind ∧ sync.Awaits ticket

/-- Every sync under way keeps track of a numbered document. -/
structure Syncs.Tracked (s : Syncs) : Prop where
  numbered : s.doc.Numbered
  tracks : ∀ {client : ℕ} {sync : Sync}, s.syncs client = some sync → sync.Tracks s.doc

/-- A sync keeps track of a document that is kept. -/
theorem Sync.Tracks.kept {sync : Sync} {doc doc' : Doc} (h : sync.Tracks doc) (hkept : doc.Kept doc') :
    sync.Tracks doc' := by
  refine ⟨fun {ticket id} hid => ?_, h.adds, h.planned⟩
  obtain ⟨key, rfl, hkey, hticket⟩ := h.named hid
  refine ⟨key, rfl, hkey.trans_le hkept.nextId, fun {todo} htodo => ?_⟩
  rcases hkept.todos htodo with ⟨before, hbefore, _, hsame⟩ | ⟨hnew, _⟩
  · exact (hsame sync.tracker).trans (hticket hbefore)
  · exact absurd hkey hnew.not_gt

/-- The ticket todos of a listing are listed, and stand for their tickets. -/
theorem mem_of_ticketTodos {tracker ticket : String} {existing : List Todo} {todo : Todo}
    (h : (ticketTodos tracker existing)[ticket]? = some todo) :
    todo ∈ existing ∧ todo.ticketKey tracker = some ticket := by
  obtain ⟨listed, hlisted, hrow⟩ := List.mem_filterMap.mp (mem_of_getElem?_ofList h)
  obtain ⟨key, hkey, heq⟩ := Option.map_eq_some_iff.mp hrow
  obtain ⟨rfl, rfl⟩ := Prod.mk.inj heq
  exact ⟨hlisted, hkey⟩

/-- A change of parent or blockers is no status edit. -/
theorem change_of_mem_relationEdits {key : String} {move : Option (Option String)} {block unblock : List String}
    {edit : PlannedEdit} (hedit : edit ∈ relationEdits key move block unblock) (kind : StatusKind) :
    edit.change ≠ .setStatus kind := by
  unfold relationEdits at hedit
  rw [List.mem_append, List.mem_append] at hedit
  rcases hedit with (hmove | hblock) | hunblock
  · obtain ⟨parent, _, rfl⟩ := List.mem_map.mp hmove
    exact Change.noConfusion
  · split at hblock
    · obtain rfl := List.mem_singleton.mp hblock
      exact Change.noConfusion
    · exact absurd hblock List.not_mem_nil
  · split at hunblock
    · obtain rfl := List.mem_singleton.mp hunblock
      exact Change.noConfusion
    · exact absurd hunblock List.not_mem_nil

/-- A ticket with a todo in the listing has its status set only when the todo records another. -/
theorem setStatus_of_planExisting {tracker : String} {keys : ExtTreeMap String String} {synced : List String}
    {ticket : SyncedTicket} {kind kind' : StatusKind} {todo : Todo} {edit : PlannedEdit}
    (hedit : edit ∈ (planExisting tracker keys synced ticket kind todo).edits ++
      (planExisting tracker keys synced ticket kind todo).relations) (hkind : edit.change = .setStatus kind') :
    kind' = kind ∧ todo.lastSynced ≠ some (statusName ticket.status) := by
  rcases List.mem_append.mp hedit with hplain | hrelation
  · simp only [planExisting, List.mem_append] at hplain
    rcases hplain with hdescribe | hstatus
    · split at hdescribe
      · obtain rfl := List.mem_singleton.mp hdescribe
        exact Change.noConfusion hkind
      · exact absurd hdescribe List.not_mem_nil
    · split at hstatus
      · rename_i hmoved
        rcases List.mem_cons.mp hstatus with rfl | hrecord
        · exact ⟨(Change.setStatus.inj hkind).symm, hmoved⟩
        · obtain rfl := List.mem_singleton.mp hrecord
          exact Change.noConfusion hkind
      · exact absurd hstatus List.not_mem_nil
  · rw [planExisting_relations] at hrelation
    exact absurd hkind (change_of_mem_relationEdits hrelation kind')

/-- A ticket to add has its status set to the one it maps to. -/
theorem setStatus_of_planNew {tracker node : String} {synced : List String} {ticket : SyncedTicket}
    {kind kind' : StatusKind} {edit : PlannedEdit}
    (hedit : edit ∈ (planNew tracker node synced ticket kind).edits ++
      (planNew tracker node synced ticket kind).relations) (hkind : edit.change = .setStatus kind') :
    kind' = kind := by
  rcases List.mem_append.mp hedit with hplain | hrelation
  · simp only [planNew] at hplain
    split at hplain
    · obtain rfl := List.mem_singleton.mp hplain
      exact (Change.setStatus.inj hkind).symm
    · exact absurd hplain List.not_mem_nil
  · rw [planNew_relations] at hrelation
    exact absurd hkind (change_of_mem_relationEdits hrelation kind')

/-- A plan comes from validated tickets. -/
theorem validate_of_plan {text : Unicode} {tracker node : String} {existing : List Todo}
    {fetched : List SyncedTicket} {known : List String} {config : TicketSyncConfig} {planned : SyncPlan}
    (hplan : plan text tracker node existing fetched known config = .ok planned) :
    validate text fetched known config = .ok () := by
  unfold plan at hplan
  split at hplan
  · contradiction
  · assumption

/-- The status edits of a plan are for fetched tickets: one with a todo in the listing is in another
status than the todo records, and one without is added. -/
theorem plan_awaits {text : Unicode} {tracker node : String} {existing : List Todo} {fetched : List SyncedTicket}
    {known : List String} {config : TicketSyncConfig} {planned : SyncPlan}
    (hplan : plan text tracker node existing fetched known config = .ok planned) {edit : PlannedEdit}
    (hedit : edit ∈ planned.edits) {kind : StatusKind} (hkind : edit.change = .setStatus kind) :
    ∃ ticket ∈ fetched, ticket.key = edit.key ∧ target ticket.status config = some kind ∧
      (Sync.ofPlan tracker config existing fetched planned).Awaits ticket := by
  have hvalid := validate_of_plan hplan
  rw [plan_eq hvalid] at hplan
  obtain rfl := Except.ok.inj hplan
  obtain ⟨ticket, hticket, hstep⟩ := mem_edits.mp hedit
  obtain ⟨kind', htarget⟩ := Option.isSome_iff_exists.mp (target_isSome hvalid hticket)
  refine ⟨ticket, hticket, (mem_step hstep).1.symm, ?_⟩
  have hkindOf : kindOf config ticket = kind' := by rw [kindOf, htarget]; rfl
  unfold Sync.Awaits
  simp only [Sync.ofPlan, adds_eq]
  rw [stepOf, hkindOf, planTicket] at hstep
  cases htodo : (ticketTodos tracker existing)[ticket.key]? with
  | some seen =>
    rw [htodo] at hstep
    obtain ⟨rfl, hmoved⟩ := setStatus_of_planExisting hstep hkind
    exact ⟨htarget, hmoved⟩
  | none =>
    rw [htodo] at hstep
    obtain rfl := setStatus_of_planNew hstep hkind
    refine ⟨htarget, Or.inl ⟨ticketAdd tracker node ticket, List.mem_map_of_mem ?_, rfl⟩⟩
    exact List.mem_filter.mpr ⟨hticket, by rw [htodo]; rfl⟩

/-- The adds of a plan are for tickets of its tracker. -/
theorem plan_adds_tracker {text : Unicode} {tracker node : String} {existing : List Todo}
    {fetched : List SyncedTicket} {known : List String} {config : TicketSyncConfig} {planned : SyncPlan}
    (hplan : plan text tracker node existing fetched known config = .ok planned) {add : NewTodo}
    (hadd : add ∈ planned.adds) {ticket : TicketRef} (hticket : add.ticket = some ticket) :
    ticket.tracker = tracker := by
  rw [plan_eq (validate_of_plan hplan)] at hplan
  obtain rfl := Except.ok.inj hplan
  rw [adds_eq] at hadd
  obtain ⟨fetched, _, rfl⟩ := List.mem_map.mp hadd
  obtain rfl := Option.some.inj hticket
  rfl

/-- A sync that begins keeps track of its document. -/
theorem tracks_begin {text : Unicode} {doc : Doc} {tracker : Tracker} {config : TicketSyncConfig} {node : String}
    {request : Request} {sync : Sync} (hnumbered : doc.Numbered)
    (hbegin : Sync.begin text doc tracker config node request = some sync) : sync.Tracks doc := by
  unfold Sync.begin at hbegin
  split at hbegin
  · contradiction
  · obtain ⟨selected, _, hbegin⟩ := Option.bind_eq_some_iff.mp hbegin
    obtain ⟨fetched, _, hbegin⟩ := Option.bind_eq_some_iff.mp hbegin
    obtain ⟨known, _, hbegin⟩ := Option.bind_eq_some_iff.mp hbegin
    split at hbegin
    · contradiction
    · rename_i planned hplan
      split at hbegin
      · contradiction
      · obtain rfl := Option.some.inj hbegin
        refine ⟨fun {ticket id} hid => ?_, fun add hadd ticket hticket => plan_adds_tracker hplan hadd hticket,
          fun edit hedit kind hkind => plan_awaits hplan hedit hkind⟩
        rw [Sync.ofPlan, plannedIds, ExtTreeMap.getElem?_map] at hid
        obtain ⟨seen, hseen, rfl⟩ := Option.map_eq_some_iff.mp hid
        obtain ⟨hlisted, hticket⟩ := mem_of_ticketTodos hseen
        obtain ⟨key, hkey⟩ := mem_rows.mp (List.mem_filter.mp hlisted).1
        refine ⟨key, hnumbered.keyed hkey, hnumbered.counted hkey, fun {todo} htodo => ?_⟩
        obtain rfl := Option.some.inj (htodo.symm.trans hkey)
        exact hticket

/-- A landed add: what the store's add returned, noted under the ticket. -/
theorem landAdd_eq_ok {now : Instant} {landing : Landing} {add : NewTodo} {doc : Doc}
    {ids : ExtTreeMap String String} (h : landAdd now landing add = .ok ⟨doc, ids⟩) :
    ∃ ticket id, add.ticket = some ticket ∧ landing.doc.add now add = .ok (doc, id) ∧
      ids = landing.ids.insert ticket.key id := by
  unfold landAdd at h
  split at h
  · contradiction
  · rename_i ticket hticket
    split at h
    · rename_i doc' id hadd
      obtain ⟨rfl, rfl⟩ := Landing.mk.inj (Except.ok.inj h)
      exact ⟨ticket, id, hticket, hadd, rfl⟩
    · contradiction

/-- A sync whose add made a todo keeps track of the document. -/
theorem Sync.Tracks.add {sync : Sync} {doc doc' : Doc} {now : Instant} {add : NewTodo} {rest : List NewTodo}
    {ticket : TicketRef} {id : String} (h : sync.Tracks doc) (hadds : sync.adds = add :: rest)
    (hticket : add.ticket = some ticket) (hfree : add.ticket.bind doc.ticketTodo = none)
    (hadd : doc.add now add = .ok (doc', id)) :
    Sync.Tracks { sync with adds := rest, ids := sync.ids.insert ticket.key id, made := id :: sync.made } doc' := by
  have hkept := h.kept (Doc.add_kept hadd)
  obtain ⟨_, hexisting, _⟩ | ⟨_, new, hnew, rfl, rfl⟩ := Doc.add_cases hadd
  · rw [hfree] at hexisting
    contradiction
  have htracker := h.adds add (hadds ▸ List.mem_cons_self) ticket hticket
  refine ⟨fun {key id} hid => ?_, fun other hother => h.adds other (hadds ▸ List.mem_cons_of_mem add hother),
    fun edit hedit kind hkind => ?_⟩
  · rw [getElem?_insert_eq] at hid
    split at hid
    · rename_i heq
      obtain rfl := Option.some.inj hid
      refine ⟨_, rfl, Nat.lt_succ_self _, fun {todo} htodo => ?_⟩
      rw [getElem?_insert_eq, if_pos rfl] at htodo
      obtain rfl := Option.some.inj htodo
      simp [Todo.ticketKey, hnew.ticket, hticket, Option.filter, htracker, heq]
    · exact hkept.named hid
  · obtain ⟨fetched, hfetched, hkey, htarget, hawaits⟩ := h.planned edit hedit kind hkind
    refine ⟨fetched, hfetched, hkey, htarget, ?_⟩
    unfold Sync.Awaits at hawaits ⊢
    dsimp only
    cases hseen : sync.plannedOn[fetched.key]? with
    | some seen =>
      rw [hseen] at hawaits
      exact hawaits
    | none =>
      rw [hseen] at hawaits
      by_cases hsame : ticket.key = fetched.key
      · exact Or.inr ⟨_, List.mem_cons_self, by rw [getElem?_insert_eq, if_pos hsame]⟩
      · rcases hawaits with ⟨other, hother, hotherKey⟩ | ⟨id, hid, hmade⟩
        · rw [hadds] at hother
          rcases List.mem_cons.mp hother with rfl | hrest
          · rw [hticket] at hotherKey
            exact absurd (Option.some.inj hotherKey) hsame
          · exact Or.inl ⟨other, hrest, hotherKey⟩
        · exact Or.inr ⟨id, List.mem_cons_of_mem _ hid, by rw [getElem?_insert_eq, if_neg hsame]; exact hmade⟩

/-- A sync with fewer edits to land keeps track of the document. -/
theorem Sync.Tracks.edits {sync : Sync} {doc : Doc} {rest : List PlannedEdit} (h : sync.Tracks doc)
    (hrest : ∀ edit ∈ rest, edit ∈ sync.edits) (checked : Bool) :
    Sync.Tracks { sync with edits := rest, checked } doc :=
  ⟨h.named, h.adds, fun edit hedit => h.planned edit (hrest edit hedit)⟩

/-- The todo a status edit names is one of the edit's ticket. -/
theorem Sync.Tracks.ticketKey {sync : Sync} {doc : Doc} (h : sync.Tracks doc) {ticket id : String} {key : ℕ}
    {todo : Todo} (hid : sync.ids[ticket]? = some id) (hkey : parseKey id = some key)
    (htodo : doc.todos[key]? = some todo) : id = idOf key ∧ todo.ticketKey sync.tracker = some ticket := by
  obtain ⟨key', rfl, _, hticket⟩ := h.named hid
  rw [parseKey_idOf] at hkey
  obtain rfl := Option.some.inj hkey
  exact ⟨rfl, hticket htodo⟩

namespace Syncs

/-- Setting one client's sync, in a document that is kept, keeps every sync's track. -/
theorem Tracked.withSync {s : Syncs} {doc : Doc} (h : s.Tracked) (hkept : s.doc.Kept doc) {client : ℕ}
    {sync : Option Sync} (hsync : ∀ {next : Sync}, sync = some next → next.Tracks doc) :
    Tracked { s.withSync client sync with doc } := by
  refine ⟨h.numbered.kept hkept, fun {other found} hfound => ?_⟩
  by_cases heq : other = client
  · subst heq
    simp only [Syncs.withSync, Function.update_self] at hfound
    exact hsync hfound
  · simp only [Syncs.withSync, Function.update_of_ne heq] at hfound
    exact (h.tracks hfound).kept hkept

/-- Local work keeps every sync's track. -/
theorem Tracked.local {s : Syncs} {doc : Doc} (h : s.Tracked) (hkept : s.doc.Kept doc) :
    Tracked { s with doc } :=
  ⟨h.numbered.kept hkept, fun hsync => (h.tracks hsync).kept hkept⟩

/-- Ending a sync keeps every other's track. -/
theorem Tracked.ended {s : Syncs} (h : s.Tracked) (client : ℕ) : (s.withSync client none).Tracked :=
  h.withSync (Doc.Kept.refl s.doc) fun hnone => by contradiction

/-- An add that lands as planned keeps every sync's track. -/
theorem Tracked.nextAdd {s : Syncs} (h : s.Tracked) {client : ℕ} {sync : Sync} (hsync : s.syncs client = some sync)
    (now : Instant) {add : NewTodo} {rest : List NewTodo} (hadds : sync.adds = add :: rest)
    (hfree : add.ticket.bind s.doc.ticketTodo = none) : (s.nextAdd client now sync add rest).Tracked := by
  unfold Syncs.nextAdd
  split
  · exact h.ended client
  · rename_i doc ids hland
    obtain ⟨ticket, id, hticket, hadd, rfl⟩ := landAdd_eq_ok hland
    refine h.withSync (Doc.add_kept hadd) fun hnext => ?_
    obtain rfl := Option.some.inj hnext
    have hid : (sync.ids.insert ticket.key id)[ticket.key]? = some id := by rw [getElem?_insert_eq, if_pos rfl]
    simp only [hticket, Option.bind_some, hid]
    rw [hticket, Option.bind_some] at hfree
    rw [hfree]
    exact (h.tracks hsync).add hadds hticket (by rw [hticket]; exact hfree) hadd

/-- An edit that lands, is skipped or has read its todo keeps every sync's track. -/
theorem Tracked.nextEdit {s : Syncs} (h : s.Tracked) {client : ℕ} {sync : Sync}
    (hsync : s.syncs client = some sync) (now : Instant) {edit : PlannedEdit} {rest : List PlannedEdit}
    (hedits : sync.edits = edit :: rest) : (s.nextEdit client now sync edit rest).Tracked := by
  have htracks := h.tracks hsync
  have hrest : ∀ other ∈ rest, other ∈ sync.edits := fun other hother => hedits ▸ List.mem_cons_of_mem edit hother
  unfold Syncs.nextEdit
  split
  · exact h.ended client
  · split
    · split
      · exact h.ended client
      · rename_i doc changes happly
        refine h.withSync (Doc.apply_kept happly) fun hnext => ?_
        obtain rfl := Option.some.inj hnext
        exact (htracks.edits hrest false).kept (Doc.apply_kept happly)
    · split
      · refine h.withSync (Doc.Kept.refl s.doc) fun hnext => ?_
        obtain rfl := Option.some.inj hnext
        exact htracks.edits hrest sync.checked
      · refine h.withSync (Doc.Kept.refl s.doc) fun hnext => ?_
        obtain rfl := Option.some.inj hnext
        exact htracks.edits (fun _ hother => hother) true

/-- Every step that lands as planned keeps every sync's track. -/
theorem Tracked.step (text : Unicode) {s : Syncs} (h : s.Tracked) (label : SyncLabel)
    (hplanned : s.LandsAsPlanned label) : (s.step text label).Tracked := by
  cases label with
  | add now todo => exact h.local (Doc.kept_withDoc Doc.add_kept)
  | edit now edit => exact h.local (Doc.kept_withDoc Doc.apply_kept)
  | stop client => exact h.ended client
  | begin client tracker config node request =>
    simp only [Syncs.step]
    split
    · exact h.withSync (Doc.Kept.refl s.doc) fun hbegin => tracks_begin h.numbered hbegin
    · exact h
  | next client now =>
    simp only [Syncs.step]
    split
    · exact h
    · rename_i sync hsync
      rw [LandsAsPlanned, hsync, Option.all_some] at hplanned
      unfold Syncs.next
      split
      · rename_i add rest hadds
        rw [Sync.landsAsPlanned, hadds] at hplanned
        exact h.nextAdd hsync now hadds (Option.isNone_iff_eq_none.mp hplanned)
      · rename_i edit rest _ hedits
        exact h.nextEdit hsync now hedits
      · exact h.ended client

/-- No sync is under way at the start. -/
theorem tracked_start {doc : Doc} (hnumbered : doc.Numbered) : (Syncs.start doc).Tracked :=
  ⟨hnumbered, fun hsync => by contradiction⟩

end Syncs

end Devkit.Todos
