import Devkit.Todos.LandedEdits

/-!
# A ticket's todo after its edits

The edits a plan makes for one ticket leave its todo with the ticket's text and status name,
under the wanted parent unless it is nested under a todo of no ticket, and with the wanted
blockers among the ticket todos. Planning the ticket again from such a todo changes nothing.
-/

namespace Devkit.Todos

open Devkit.Library
open Std

/-- The plain todo after every edit of a list. -/
def settleAll (ids : ExtTreeMap String String) (seen : Option Todo) (edits : List PlannedEdit) (todo : Todo) :
    Todo :=
  edits.foldl (fun todo edit => edit.change.settle ids seen todo) todo

/-- Edits one after the other. -/
theorem settleAll_append (ids : ExtTreeMap String String) (seen : Option Todo) (first second : List PlannedEdit)
    (todo : Todo) :
    settleAll ids seen (first ++ second) todo = settleAll ids seen second (settleAll ids seen first todo) :=
  List.foldl_append

/-- A todo that leaves nothing to plan for the ticket. -/
structure SettledFor (tracker : String) (keys : ExtTreeMap String String) (synced : List String)
    (ticket : SyncedTicket) (todo : Todo) : Prop where
  description : todo.description = todoText tracker ticket.key ticket.title
  lastSynced : todo.lastSynced = some (statusName ticket.status)
  parent : moves keys todo (wantedParent synced ticket) = false
  blockers : ∀ key, (∃ id ∈ todo.blockedBy, keys[id]? = some key) ↔ key ∈ wantedBlockers synced ticket

/-- The sorted set has the members of the list. -/
@[simp] theorem mem_sortedSet {member : String} {texts : List String} :
    member ∈ sortedSet texts ↔ member ∈ texts := by
  rw [sortedSet, mem_dedup, List.mem_insertionSort]

/-- The ticket keys of a todo's blockers are the keys of their ids. -/
@[simp] theorem mem_heldBlockers {keys : ExtTreeMap String String} {todo : Todo} {key : String} :
    key ∈ heldBlockers keys todo ↔ ∃ id ∈ todo.blockedBy, keys[id]? = some key := by
  rw [heldBlockers, mem_sortedSet, List.mem_filterMap]

/-- Nothing is planned for a settled todo. -/
theorem planExisting_of_settled {tracker : String} {keys : ExtTreeMap String String} {synced : List String}
    {ticket : SyncedTicket} {todo : Todo} (kind : StatusKind) (h : SettledFor tracker keys synced ticket todo) :
    planExisting tracker keys synced ticket kind todo = ⟨[], [], []⟩ := by
  have hblock : (sortedSet (wantedBlockers synced ticket)).filter
      (fun key => !(heldBlockers keys todo).contains key) = [] := by
    rw [List.filter_eq_nil_iff]
    intro key hkey
    have hheld : key ∈ heldBlockers keys todo :=
      mem_heldBlockers.mpr ((h.blockers key).mpr (mem_sortedSet.mp hkey))
    simpa using hheld
  have hunblock : (heldBlockers keys todo).filter
      (fun key => !(sortedSet (wantedBlockers synced ticket)).contains key) = [] := by
    rw [List.filter_eq_nil_iff]
    intro key hkey
    have hwanted : key ∈ wantedBlockers synced ticket := (h.blockers key).mp (mem_heldBlockers.mp hkey)
    simpa using hwanted
  simp only [planExisting, h.description, h.lastSynced, h.parent, hblock, hunblock, ne_eq, not_true_eq_false,
    if_false, Bool.false_eq_true, List.append_nil]

/-- A change of parent or blockers is never skipped. -/
theorem settle_eq_on {ids : ExtTreeMap String String} {seen : Option Todo} {change : Change} {todo : Todo}
    (hrelation : ∀ now seen, change.fieldMoved now seen = false) :
    change.settle ids seen todo = change.on ids todo := by
  rw [Change.settle, if_neg]
  simp [hrelation]

/-- A status change touches the status only. -/
theorem on_setStatus (ids : ExtTreeMap String String) (kind : StatusKind) (todo : Todo) :
    ∃ status, (Change.setStatus kind).on ids todo = { todo with status } := by
  simp only [Change.on]
  split
  · exact ⟨_, rfl⟩
  · exact ⟨todo.status, rfl⟩

/-- The todo gets the ticket's text, when it is still the one seen. -/
theorem settleAll_describe {ids : ExtTreeMap String String} {key text : String} {seen : Todo} {todo : Todo}
    (htext : oneLine text = text) (hsame : todo.description = seen.description) :
    settleAll ids (some seen) (if seen.description ≠ text then [⟨key, .describe text⟩] else []) todo =
      { todo with description := text } := by
  split
  · simp [settleAll, Change.settle, Change.fieldMoved, Change.on, hsame, htext]
  · rename_i heq
    rw [not_not, ← hsame] at heq
    subst heq
    rfl

/-- The todo gets a status and the ticket's status name, when its status is still the one seen. -/
theorem settleAll_status {ids : ExtTreeMap String String} {key name : String} {kind : StatusKind}
    {seen todo : Todo} (hsame : todo.status = seen.status) (hticket : todo.ticket = seen.ticket)
    (hsome : seen.ticket.isSome = true) :
    ∃ after, settleAll ids (some seen) (if seen.lastSynced ≠ some name then
        [⟨key, .setStatus kind⟩, ⟨key, .recordSync name⟩] else []) todo = after ∧
      after.description = todo.description ∧ after.lastSynced = some name ∧ after.parent = todo.parent ∧
      after.blockedBy = todo.blockedBy := by
  obtain ⟨reference, href⟩ := Option.isSome_iff_exists.mp hsome
  obtain ⟨status, hstatus⟩ := on_setStatus ids kind todo
  refine ⟨_, rfl, ?_⟩
  split
  · have hfirst : (Change.setStatus kind).settle ids (some seen) todo = { todo with status } := by
      rw [Change.settle, if_neg (by simp [Change.fieldMoved, hsame]), hstatus]
    rw [settleAll, List.foldl_cons, List.foldl_cons, List.foldl_nil, hfirst, settle_eq_on fun _ _ => rfl]
    exact ⟨rfl, by simp [Change.on, Todo.lastSynced, hticket, href], rfl, rfl⟩
  · rename_i heq
    rw [not_not] at heq
    refine ⟨rfl, ?_, rfl, rfl⟩
    rw [← heq]
    simp [settleAll, Todo.lastSynced, hticket]

/-- The text and status edits of a ticket with a todo leave its text and status name on it. -/
theorem settleAll_edits (tracker : String) (ids keys : ExtTreeMap String String) (synced : List String)
    (ticket : SyncedTicket) (kind : StatusKind) {todo : Todo} (hticket : todo.ticket.isSome = true) :
    ∃ after, settleAll ids (some todo) (planExisting tracker keys synced ticket kind todo).edits todo.plain = after ∧
      after.description = todoText tracker ticket.key ticket.title ∧
      after.lastSynced = some (statusName ticket.status) ∧
      after.parent = todo.parent ∧ after.blockedBy = todo.blockedBy := by
  have htext : oneLine (todoText tracker ticket.key ticket.title) = todoText tracker ticket.key ticket.title :=
    oneLine_oneLine _
  simp only [planExisting]
  have hplain : todo.plain.description = todo.description := rfl
  rw [settleAll_append, settleAll_describe htext hplain]
  exact settleAll_status rfl rfl hticket

/-- The relation edits of a ticket: at most one move, one block and one unblock. -/
def relationEdits (key : String) (move : Option (Option String)) (block unblock : List String) :
    List PlannedEdit :=
  (move.toList.map fun parent => ⟨key, .move parent⟩) ++
    (if block ≠ [] then [⟨key, .block block⟩] else []) ++
    (if unblock ≠ [] then [⟨key, .unblock unblock⟩] else [])

/-- The parent after a move, if there is one. -/
def parentAfter (ids : ExtTreeMap String String) (move : Option (Option String)) (parent : Option String) :
    Option String :=
  match move with
  | some wanted => wanted.bind fun key => ids[key]?
  | none => parent

/-- Relation edits move the todo, add the blocking todos and drop the unblocking ones. -/
theorem settleAll_relations (ids : ExtTreeMap String String) (key : String) (seen : Option Todo) (todo : Todo)
    (move : Option (Option String)) (block unblock : List String) :
    ∃ after, settleAll ids seen (relationEdits key move block unblock) todo = after ∧
      after.description = todo.description ∧ after.lastSynced = todo.lastSynced ∧
      after.parent = parentAfter ids move todo.parent ∧
      ∀ id, id ∈ after.blockedBy ↔ (id ∈ todo.blockedBy ∨ ∃ key ∈ block, ids[key]? = some id) ∧
        ¬ ∃ key ∈ unblock, ids[key]? = some id := by
  refine ⟨_, rfl, ?_⟩
  rw [relationEdits, settleAll_append, settleAll_append]
  generalize hmoved : settleAll ids seen (move.toList.map fun parent => ⟨key, .move parent⟩) todo = moved
  generalize hblocked : settleAll ids seen (if block ≠ [] then [⟨key, .block block⟩] else []) moved = blocked
  generalize hleft : settleAll ids seen (if unblock ≠ [] then [⟨key, .unblock unblock⟩] else []) blocked = left
  have hmove : moved.description = todo.description ∧ moved.lastSynced = todo.lastSynced ∧
      moved.blockedBy = todo.blockedBy ∧ moved.parent = parentAfter ids move todo.parent := by
    subst hmoved
    cases move with
    | none => exact ⟨rfl, rfl, rfl, rfl⟩
    | some parent =>
      rw [Option.toList_some, List.map_singleton, settleAll, List.foldl_cons, List.foldl_nil,
        settle_eq_on fun _ _ => rfl]
      exact ⟨rfl, rfl, rfl, rfl⟩
  have hblock : blocked.description = moved.description ∧ blocked.lastSynced = moved.lastSynced ∧
      blocked.parent = moved.parent ∧
      ∀ id, id ∈ blocked.blockedBy ↔ id ∈ moved.blockedBy ∨ ∃ key ∈ block, ids[key]? = some id := by
    subst hblocked
    split
    · rw [settleAll, List.foldl_cons, List.foldl_nil, settle_eq_on fun _ _ => rfl]
      exact ⟨rfl, rfl, rfl, fun id => by simp [Change.on]⟩
    · rename_i hempty
      rw [not_not] at hempty
      subst hempty
      exact ⟨rfl, rfl, rfl, fun id => by simp [settleAll]⟩
  have hunblock : left.description = blocked.description ∧ left.lastSynced = blocked.lastSynced ∧
      left.parent = blocked.parent ∧
      ∀ id, id ∈ left.blockedBy ↔ id ∈ blocked.blockedBy ∧ ¬ ∃ key ∈ unblock, ids[key]? = some id := by
    subst hleft
    split
    · rw [settleAll, List.foldl_cons, List.foldl_nil, settle_eq_on fun _ _ => rfl]
      exact ⟨rfl, rfl, rfl, fun id => by simp [Change.on]⟩
    · rename_i hempty
      rw [not_not] at hempty
      subst hempty
      exact ⟨rfl, rfl, rfl, fun id => by simp [settleAll]⟩
  refine ⟨hunblock.1.trans (hblock.1.trans hmove.1), hunblock.2.1.trans (hblock.2.1.trans hmove.2.1),
    hunblock.2.2.1.trans (hblock.2.2.1.trans hmove.2.2.2), fun id => ?_⟩
  rw [hunblock.2.2.2, hblock.2.2.2, hmove.2.2.1]

/-- The ids of the ticket todos and the tickets of their ids, each read from the other. -/
def Inverse (keys ids : ExtTreeMap String String) : Prop :=
  ∀ id key : String, keys[id]? = some key ↔ ids[key]? = some id

/-- A wanted parent is one for which a todo stands or will stand. -/
theorem wantedParent_known {ids : ExtTreeMap String String} {synced : List String} {ticket : SyncedTicket}
    (hknown : ∀ key, synced.contains key = true → ids[key]?.isSome = true) {parent : String}
    (h : wantedParent synced ticket = some parent) : ∃ id, ids[parent]? = some id := by
  have hsynced := (Option.filter_eq_some_iff.mp h).2
  simp only [Bool.and_eq_true] at hsynced
  exact Option.isSome_iff_exists.mp (hknown parent hsynced.1)

/-- A wanted blocker is one for which a todo stands or will stand. -/
theorem wantedBlockers_known {ids : ExtTreeMap String String} {synced : List String} {ticket : SyncedTicket}
    (hknown : ∀ key, synced.contains key = true → ids[key]?.isSome = true) {blocker : String}
    (h : blocker ∈ wantedBlockers synced ticket) : ∃ id, ids[blocker]? = some id := by
  have hsynced := (List.mem_filter.mp h).2
  simp only [Bool.and_eq_true] at hsynced
  exact Option.isSome_iff_exists.mp (hknown blocker hsynced.1)

/-- Under the wanted parent, or at the top when none is wanted, the todo does not move. -/
theorem moves_wanted {keys ids : ExtTreeMap String String} {synced : List String} {ticket : SyncedTicket}
    {todo : Todo} (hinverse : Inverse keys ids)
    (hknown : ∀ key, synced.contains key = true → ids[key]?.isSome = true)
    (hparent : todo.parent = (wantedParent synced ticket).bind fun key => ids[key]?) :
    moves keys todo (wantedParent synced ticket) = false := by
  unfold moves
  cases hwanted : wantedParent synced ticket with
  | none =>
    rw [hwanted, Option.bind_none] at hparent
    rw [hparent]
    rfl
  | some wanted =>
    obtain ⟨id, hid⟩ := wantedParent_known hknown hwanted
    rw [hwanted, Option.bind_some, hid] at hparent
    rw [hparent, Option.map_some, (hinverse id wanted).mpr hid]
    simp

/-- A moved todo is where it is wanted, and one that does not move stays settled when its parent is
still read the same way. -/
theorem moves_after {keys keys' ids : ExtTreeMap String String} {synced : List String} {ticket : SyncedTicket}
    {todo after : Todo} (hinverse : Inverse keys' ids)
    (hknown : ∀ key, synced.contains key = true → ids[key]?.isSome = true)
    (hsame : ∀ id, todo.parent = some id → keys'[id]? = keys[id]?)
    (hparent : after.parent = parentAfter ids
      (if moves keys todo (wantedParent synced ticket) then some (wantedParent synced ticket) else none)
      todo.parent) : moves keys' after (wantedParent synced ticket) = false := by
  cases hmoves : moves keys todo (wantedParent synced ticket) with
  | true =>
    rw [hmoves] at hparent
    exact moves_wanted hinverse hknown hparent
  | false =>
    rw [hmoves] at hparent
    have hstays : after.parent = todo.parent := hparent
    unfold moves at hmoves ⊢
    rw [hstays]
    cases htodo : todo.parent with
    | none =>
      rw [htodo] at hmoves
      exact hmoves
    | some id =>
      rw [htodo, Option.map_some] at hmoves
      rw [Option.map_some, hsame id htodo]
      exact hmoves

/-- A parent that is no ticket todo is kept, and none is given. -/
theorem parent_untouched {keys keys' ids : ExtTreeMap String String} {todo : Todo} {wanted : Option String}
    (hinverse : Inverse keys' ids) (hsame : ∀ id, todo.parent = some id → keys'[id]? = keys[id]?) {id : String}
    (hid : keys'[id]? = none) :
    parentAfter ids (if moves keys todo wanted then some wanted else none) todo.parent = some id ↔
      todo.parent = some id := by
  cases hmoves : moves keys todo wanted with
  | false => rfl
  | true =>
    refine iff_of_false (fun hparent => ?_) fun hparent => ?_
    · obtain ⟨key, _, hkey⟩ := Option.bind_eq_some_iff.mp hparent
      rw [(hinverse id key).mpr hkey] at hid
      contradiction
    · unfold moves at hmoves
      rw [hparent, Option.map_some, ← hsame id hparent, hid] at hmoves
      contradiction

/-- Blocking by the wanted blockers not held and unblocking the held ones not wanted leaves exactly
the wanted ones among the ticket todos. -/
theorem blockers_after {keys keys' ids : ExtTreeMap String String} {todo after : Todo} {wanted : List String}
    (hinverse : Inverse keys' ids) (hknown : ∀ key ∈ wanted, ∃ id, ids[key]? = some id)
    (hsame : ∀ id ∈ todo.blockedBy, keys'[id]? = keys[id]?)
    (hafter : ∀ id, id ∈ after.blockedBy ↔ (id ∈ todo.blockedBy ∨
      ∃ key, (key ∈ wanted ∧ key ∉ heldBlockers keys todo) ∧ ids[key]? = some id) ∧
        ¬ ∃ key, (key ∈ heldBlockers keys todo ∧ key ∉ wanted) ∧ ids[key]? = some id) (key : String) :
    (∃ id ∈ after.blockedBy, keys'[id]? = some key) ↔ key ∈ wanted := by
  constructor
  · rintro ⟨id, hid, hkey⟩
    obtain ⟨hheld | ⟨other, ⟨hwanted, _⟩, hother⟩, hunblocked⟩ := (hafter id).mp hid
    · by_contra hnot
      refine hunblocked ⟨key, ⟨mem_heldBlockers.mpr ⟨id, hheld, ?_⟩, hnot⟩, (hinverse id key).mp hkey⟩
      rw [← hsame id hheld]
      exact hkey
    · obtain rfl : other = key := by
        rw [← hinverse, hkey] at hother
        exact (Option.some.inj hother).symm
      exact hwanted
  · intro hwanted
    obtain ⟨id, hid⟩ := hknown key hwanted
    refine ⟨id, (hafter id).mpr ⟨?_, ?_⟩, (hinverse id key).mpr hid⟩
    · by_cases hheld : key ∈ heldBlockers keys todo
      · obtain ⟨held, hmem, hkey⟩ := mem_heldBlockers.mp hheld
        rw [← hsame held hmem, hinverse, hid] at hkey
        exact Or.inl (Option.some.inj hkey ▸ hmem)
      · exact Or.inr ⟨key, ⟨hwanted, hheld⟩, hid⟩
    · rintro ⟨other, ⟨_, hnot⟩, hother⟩
      rw [← hinverse, (hinverse id key).mpr hid] at hother
      exact hnot (Option.some.inj hother ▸ hwanted)

/-- A ticket with a todo has these relation edits. -/
theorem planExisting_relations (tracker : String) (keys : ExtTreeMap String String) (synced : List String)
    (ticket : SyncedTicket) (kind : StatusKind) (todo : Todo) :
    (planExisting tracker keys synced ticket kind todo).relations = relationEdits ticket.key
      (if moves keys todo (wantedParent synced ticket) then some (wantedParent synced ticket) else none)
      ((sortedSet (wantedBlockers synced ticket)).filter fun key => !(heldBlockers keys todo).contains key)
      ((heldBlockers keys todo).filter fun key =>
        !(sortedSet (wantedBlockers synced ticket)).contains key) := by
  simp only [planExisting, relationEdits]
  cases moves keys todo (wantedParent synced ticket) <;> rfl

/-- The edits of a ticket with a todo settle it, and touch no parent or blocker that is no ticket
todo. -/
theorem settled_existing {tracker : String} {keys keys' ids : ExtTreeMap String String} {synced : List String}
    {ticket : SyncedTicket} (kind : StatusKind) {todo : Todo} (hinverse : Inverse keys' ids)
    (hknown : ∀ key, synced.contains key = true → ids[key]?.isSome = true)
    (hparent : ∀ id, todo.parent = some id → keys'[id]? = keys[id]?)
    (hblockers : ∀ id ∈ todo.blockedBy, keys'[id]? = keys[id]?) (hticket : todo.ticket.isSome = true) :
    ∃ after, settleAll ids (some todo) ((planExisting tracker keys synced ticket kind todo).edits ++
        (planExisting tracker keys synced ticket kind todo).relations) todo.plain = after ∧
      SettledFor tracker keys' synced ticket after ∧
      ∀ id, keys'[id]? = none →
        (id ∈ after.blockedBy ↔ id ∈ todo.blockedBy) ∧ (after.parent = some id ↔ todo.parent = some id) := by
  obtain ⟨middle, hmiddle, hdescription, hsynced, hmiddleParent, hmiddleBlockers⟩ :=
    settleAll_edits tracker ids keys synced ticket kind hticket
  obtain ⟨after, hafter, hdescription', hsynced', hparent', hblockers'⟩ :=
    settleAll_relations ids ticket.key (some todo) middle
      (if moves keys todo (wantedParent synced ticket) then some (wantedParent synced ticket) else none)
      ((sortedSet (wantedBlockers synced ticket)).filter fun key => !(heldBlockers keys todo).contains key)
      ((heldBlockers keys todo).filter fun key => !(sortedSet (wantedBlockers synced ticket)).contains key)
  rw [hmiddleParent] at hparent'
  simp only [List.mem_filter, mem_sortedSet, List.contains_eq_mem, Bool.not_eq_true', decide_eq_false_iff_not,
    hmiddleBlockers] at hblockers'
  refine ⟨after, ?_, ⟨hdescription'.trans hdescription, hsynced'.trans hsynced, ?_, fun key => ?_⟩,
    fun id hid => ⟨?_, ?_⟩⟩
  · rw [settleAll_append, hmiddle, planExisting_relations]
    exact hafter
  · exact moves_after hinverse hknown hparent hparent'
  · exact blockers_after hinverse (fun key => wantedBlockers_known hknown) hblockers hblockers' key
  · have hnone : ∀ key, ids[key]? ≠ some id := fun key hkey => by
      rw [← hinverse, hid] at hkey
      contradiction
    simp [hblockers', hnone]
  · rw [hparent']
    exact parent_untouched hinverse hparent hid

/-- A ticket without a todo has these relation edits. -/
theorem planNew_relations (tracker node : String) (synced : List String) (ticket : SyncedTicket)
    (kind : StatusKind) :
    (planNew tracker node synced ticket kind).relations = relationEdits ticket.key
      ((wantedParent synced ticket).map some) (wantedBlockers synced ticket) [] := by
  simp only [planNew, relationEdits]
  cases wantedParent synced ticket <;> simp

/-- The edits of a ticket just added settle its fresh todo. -/
theorem settled_new {tracker node : String} {keys' ids : ExtTreeMap String String} {synced : List String}
    {ticket : SyncedTicket} {kind : StatusKind} {todo : Todo} (hinverse : Inverse keys' ids)
    (hknown : ∀ key, synced.contains key = true → ids[key]?.isSome = true)
    (hdescription : todo.description = todoText tracker ticket.key ticket.title)
    (hsynced : todo.lastSynced = some (statusName ticket.status)) (hparent : todo.parent = none)
    (hblockers : todo.blockedBy = []) :
    SettledFor tracker keys' synced ticket (settleAll ids none
      ((planNew tracker node synced ticket kind).edits ++ (planNew tracker node synced ticket kind).relations)
      todo.plain) := by
  have hedits : ∃ status, settleAll ids none (planNew tracker node synced ticket kind).edits todo.plain =
      { todo.plain with status } := by
    simp only [planNew]
    split
    · exact on_setStatus ids kind todo.plain
    · exact ⟨todo.plain.status, rfl⟩
  obtain ⟨status, hstatus⟩ := hedits
  obtain ⟨after, hafter, hdescription', hsynced', hparent', hblockers'⟩ :=
    settleAll_relations ids ticket.key none { todo.plain with status } ((wantedParent synced ticket).map some)
      (wantedBlockers synced ticket) []
  rw [settleAll_append, hstatus, planNew_relations, hafter]
  refine ⟨hdescription'.trans hdescription, hsynced'.trans hsynced, ?_, fun key => ?_⟩
  · refine moves_wanted hinverse hknown ?_
    rw [hparent']
    cases wantedParent synced ticket with
    | none => exact hparent
    | some parent => rfl
  · have hnone : ∀ other, other ∉ heldBlockers keys' todo := by simp [hblockers]
    have hplain : todo.plain.blockedBy = [] := hblockers
    have hchanged : ∀ id, id ∈ after.blockedBy ↔ (id ∈ todo.blockedBy ∨
        ∃ key, (key ∈ wantedBlockers synced ticket ∧ key ∉ heldBlockers keys' todo) ∧ ids[key]? = some id) ∧
          ¬ ∃ key, (key ∈ heldBlockers keys' todo ∧ key ∉ wantedBlockers synced ticket) ∧
            ids[key]? = some id := by
      intro id
      simp [hblockers', hnone, hplain, hblockers]
    exact blockers_after hinverse (fun key => wantedBlockers_known hknown) (fun _ _ => rfl) hchanged key

/-- Order and times play no part in being settled. -/
theorem SettledFor.of_plain {tracker : String} {keys : ExtTreeMap String String} {synced : List String}
    {ticket : SyncedTicket} {todo : Todo} (h : SettledFor tracker keys synced ticket todo.plain) :
    SettledFor tracker keys synced ticket todo :=
  ⟨h.description, h.lastSynced, h.parent, h.blockers⟩

/-- Only which keys are synced matters. -/
theorem SettledFor.of_synced {tracker : String} {keys : ExtTreeMap String String} {synced synced' : List String}
    {ticket : SyncedTicket} {todo : Todo} (h : SettledFor tracker keys synced ticket todo)
    (hsame : ∀ key, synced.contains key = synced'.contains key) : SettledFor tracker keys synced' ticket todo := by
  have hparent : wantedParent synced ticket = wantedParent synced' ticket := by
    simp only [wantedParent, hsame]
  have hblockers : wantedBlockers synced ticket = wantedBlockers synced' ticket := by
    simp only [wantedBlockers, hsame]
  exact ⟨h.description, h.lastSynced, hparent ▸ h.parent, hblockers ▸ h.blockers⟩

end Devkit.Todos
