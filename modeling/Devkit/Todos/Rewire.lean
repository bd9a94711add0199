import Devkit.Library.Handover
import Devkit.Todos.LinkCycles
import Devkit.Todos.Promote

/-!
# What a promote hands over

Each write of a promote moves one blocking edge of the old todo to the new one and keeps what the moves come to
in the end. So the order in which the dependents are listed does not show, and a promote that stopped is finished
by running it again.
-/

namespace Devkit.Todos

open Devkit.Library
open Relation

namespace Doc

/-- The stored edges of a document. -/
def edges (doc : Doc) : String → String → Prop := Blocked (rows doc.todos)

/-- The id is one of the document's todos. -/
def Known (doc : Doc) (id : String) : Prop := ∃ todo ∈ rows doc.todos, todo.id = id

/-- A known id is under its key. -/
theorem Numbered.exists_key {doc : Doc} (h : doc.Numbered) {id : String} (hknown : doc.Known id) :
    ∃ (key : ℕ) (todo : Todo), doc.todos[key]? = some todo ∧ todo.id = id ∧ id = idOf key := by
  obtain ⟨todo, htodo, rfl⟩ := hknown
  obtain ⟨key, htodo⟩ := mem_rows.mp htodo
  exact ⟨key, todo, htodo, rfl, h.keyed htodo⟩

/-- A todo that is blocked is known. -/
theorem known_of_edge {doc : Doc} {id blocker : String} (h : doc.edges id blocker) : doc.Known id := by
  obtain ⟨todo, htodo, hid, _⟩ := h
  exact ⟨todo, htodo, hid⟩

/-- After a todo is written back its edges are those written, the others as before. -/
theorem edges_put {doc : Doc} (h : doc.Numbered) {key : ℕ} {todo after : Todo} (htodo : doc.todos[key]? = some todo)
    (hafter : after.id = todo.id) {id blocker : String} : (doc.put key after).edges id blocker ↔
      if id = idOf key then blocker ∈ after.blockedBy else doc.edges id blocker :=
  blocked_put_iff h htodo hafter

/-- A document with the same todos but for what blocks one of them. -/
structure Rewritten (doc doc' : Doc) : Prop where
  numbered : doc'.Numbered
  known : ∀ id, doc'.Known id ↔ doc.Known id

/-- Writing a todo back keeps the todos. -/
theorem rewritten_put {doc : Doc} (h : doc.Numbered) {key : ℕ} {todo after : Todo} (htodo : doc.todos[key]? = some todo)
    (hafter : after.id = todo.id) : doc.Rewritten (doc.put key after) := by
  have hkeys (other : ℕ) : (∃ found, (doc.put key after).todos[other]? = some found) ↔
    ∃ found, doc.todos[other]? = some found := by
    rw [getElem?_put]
    split
    · rename_i heq
      exact iff_of_true ⟨after, rfl⟩ ⟨todo, heq ▸ htodo⟩
    · exact Iff.rfl
  have hnumbered : (doc.put key after).Numbered := by
    refine ⟨fun {other found} hfound => ?_, fun {other found} hfound => ?_⟩
    · rw [getElem?_put] at hfound
      split at hfound
      · rename_i heq
        obtain rfl := Option.some.inj hfound
        exact heq ▸ hafter.trans (h.keyed htodo)
      · exact h.keyed hfound
    · obtain ⟨before, hbefore⟩ := (hkeys other).mp ⟨found, hfound⟩
      exact h.counted hbefore
  refine ⟨hnumbered, fun id => ⟨fun hknown => ?_, fun hknown => ?_⟩⟩
  · obtain ⟨other, found, hfound, _, rfl⟩ := hnumbered.exists_key hknown
    exact h.mem_rows_idOf.mpr ((hkeys other).mp ⟨found, hfound⟩)
  · obtain ⟨other, found, hfound, _, rfl⟩ := h.exists_key hknown
    exact hnumbered.mem_rows_idOf.mpr ((hkeys other).mpr ⟨found, hfound⟩)

/-- The edges of the todo under a key. -/
theorem Numbered.edges_idOf {doc : Doc} (h : doc.Numbered) {key : ℕ} {todo : Todo} (htodo : doc.todos[key]? = some todo)
    {blocker : String} : doc.edges (idOf key) blocker ↔ blocker ∈ todo.blockedBy :=
  h.blocked_idOf htodo

/-- Changing the blockers of a todo writes it back with those. -/
theorem setBlockers_put {doc : Doc} {key : ℕ} {todo : Todo} (htodo : doc.todos[key]? = some todo) (now : Instant)
    (change : List String → List String) : ∃ after, doc.setBlockers now (idOf key) change = .ok (doc.put key after) ∧
      after.id = todo.id ∧ ∀ blocker, blocker ∈ after.blockedBy ↔ blocker ∈ change todo.blockedBy := by
  have hmut : doc.todoMut (idOf key) = .ok (key, todo) := todoMut_eq_ok.mpr ⟨parseKey_idOf key, htodo⟩
  rw [setBlockers, hmut]
  refine ⟨_, rfl, rfl, fun blocker => ?_⟩
  rw [mem_dedup, List.mem_insertionSort]

/-- Recording a blocker of a known todo adds the edge. -/
theorem block_edges {doc : Doc} (h : doc.Numbered) (now : Instant) {id : String} (hknown : doc.Known id)
    (blocker : String) : ∃ doc' changes, doc.apply now (.block id [blocker]) = .ok (doc', changes) ∧
      doc.Rewritten doc' ∧ doc'.edges = AddEdges doc.edges id (· = blocker) := by
  obtain ⟨key, todo, htodo, _, rfl⟩ := h.exists_key hknown
  obtain ⟨after, hwrite, hid, hblockers⟩ := setBlockers_put htodo now (· ++ [blocker])
  refine ⟨doc.put key after, [], by rw [apply, hwrite]; rfl, rewritten_put h htodo hid,
    blocked_put h htodo hid fun other => ?_⟩
  rw [hblockers, List.mem_append, List.mem_singleton]

/-- Freeing a known todo of a blocker drops the edge. -/
theorem unblock_edges {doc : Doc} (h : doc.Numbered) (now : Instant) {id : String} (hknown : doc.Known id)
    (blocker : String) : ∃ doc' changes, doc.apply now (.unblock id [blocker]) = .ok (doc', changes) ∧
      doc.Rewritten doc' ∧ doc'.edges = DropEdge doc.edges id blocker := by
  obtain ⟨key, todo, htodo, _, rfl⟩ := h.exists_key hknown
  obtain ⟨after, hwrite, hid, hblockers⟩ :=
    setBlockers_put htodo now fun before => before.filter fun other => !([blocker].contains other)
  refine ⟨doc.put key after, [], by rw [apply, hwrite]; rfl, rewritten_put h htodo hid, ?_⟩
  funext other left
  rw [DropEdge, edges_put h htodo hid]
  refine propext ?_
  split
  · rename_i heq
    subst heq
    rw [hblockers, List.mem_filter, h.edges_idOf htodo]
    simp
  · rename_i hne
    exact (and_iff_left fun hdropped => hne hdropped.1).symm

end Doc

namespace LinkPush

/-- Every answer to a link push lets it go through. -/
structure Succeeds (push : LinkPush) : Prop where
  relations : push.relations = .ok ()
  readPair : ∀ key other, ∃ read, push.readPair key other = .ok read
  settle : ∀ key values, push.settle key values = .ok true
  setBlocked : ∀ key other, push.setBlocked key other = .ok ()

section Block

variable {text : Unicode} {push : LinkPush} {now : Instant} {list : Doc → List Todo} {doc : Doc}

/-- A link push that goes through records the store's edge. -/
theorem Succeeds.pushBlock (h : push.Succeeds) (blocked blocker : Todo) (key blockedBy : String) :
    push.pushBlock text now doc blocked blocker key blockedBy =
      (storeOutcome (doc.apply now (.block blocked.id [blocker.id]))).map fun result => result.1 := by
  obtain ⟨read, hread⟩ := h.readPair key blockedBy
  have hwrite : ∃ write, push.settleBlock text key blockedBy (blockVerdict read.1 read.2 true) = .ok (some write) := by
    cases blockVerdict read.1 read.2 true with
    | already => exact ⟨false, rfl⟩
    | noMove => exact ⟨false, rfl⟩
    | write => exact ⟨true, rfl⟩
    | conflict current baseline =>
      rw [settleBlock, h.settle]
      exact ⟨true, rfl⟩
  obtain ⟨write, hwrite⟩ := hwrite
  rw [LinkPush.pushBlock, h.relations, hread]
  dsimp only [withContext, Except.mapError, bind, Except.bind]
  rw [hwrite, h.setBlocked]
  dsimp only
  rw [ite_self]
  cases storeOutcome (doc.apply now (.block blocked.id [blocker.id])) with
  | ok result => rfl
  | error failure => rfl

variable (text now) in
/-- Unless the edge is there or would close a cycle, it is recorded. -/
theorem Succeeds.block (h : push.Succeeds) (hlist : (list doc).Perm (rows doc.todos)) (hnumbered : doc.Numbered)
    (blocked blocker : Todo) (hknown : doc.Known blocked.id) :
    push.block text now list doc blocked blocker = .ok none ∧
        (blocker.id ∈ blocked.blockedBy ∨ ReflTransGen doc.edges blocker.id blocked.id) ∨
      ∃ doc', push.block text now list doc blocked blocker = .ok (some doc') ∧
        ¬ ReflTransGen doc.edges blocker.id blocked.id ∧ doc.Rewritten doc' ∧
        doc'.edges = AddEdges doc.edges blocked.id (· = blocker.id) := by
  have hdistinct : ((list doc).map Todo.id).Nodup := (hlist.map Todo.id).nodup_iff.mpr hnumbered.distinct
  have hedges : Blocked (list doc) = doc.edges := by
    funext id other
    exact propext (exists_congr fun todo => and_congr_left' hlist.mem_iff)
  have hcycle : (Graph.mk (list doc)).cycleThrough blocked.id [blocker.id] = none ↔
      ¬ ReflTransGen doc.edges blocker.id blocked.id := by
    have hnone : (Graph.mk (list doc)).cycleThrough blocked.id [blocker.id] = none ↔
        ∀ other ∈ [blocker.id], ¬ Leads (list doc) other blocked.id := Graph.cycleThrough_eq_none_iff hdistinct
    rwa [List.forall_mem_singleton, Leads, hedges] at hnone
  rw [LinkPush.block]
  split
  · rename_i hthere
    exact Or.inl ⟨rfl, Or.inl hthere⟩
  · cases hsearch : (Graph.mk (list doc)).cycleThrough blocked.id [blocker.id] with
    | some cycle =>
      rw [hsearch] at hcycle
      exact Or.inl ⟨rfl, Or.inr (not_not.mp fun hnot => Option.some_ne_none _ (hcycle.mpr hnot))⟩
    | none =>
      obtain ⟨doc', changes, happly, hrewritten, hadded⟩ := Doc.block_edges hnumbered now hknown blocker.id
      have hwrite : (storeOutcome (doc.apply now (.block blocked.id [blocker.id]))).map (fun result =>
        result.1) = .ok doc' := by
        rw [happly]
        rfl
      have hlocal : (storeOutcome (doc.apply now (.block blocked.id [blocker.id]))).map (fun result => some result.1) =
          .ok (some doc') := by
        rw [happly]
        rfl
      refine Or.inr ⟨doc', ?_, hcycle.mp hsearch, hrewritten, hadded⟩
      dsimp only
      split
      · split
        · rw [h.pushBlock, hwrite]
          rfl
        · exact hlocal
      · exact hlocal

end Block

end LinkPush

/-- What one document comes to once every edge of the old todo is handed to the new one. -/
def Doc.handedOver (doc : Doc) (old new : String) : String → String → Prop := HandedOver doc.Known doc.edges old new

/-- A document on the way: it comes to the same in the end. -/
structure OnTheWay (start doc : Doc) (old new : String) : Prop where
  numbered : doc.Numbered
  known : ∀ id, doc.Known id ↔ start.Known id
  acyclic : ∀ id, ¬ TransGen doc.edges id id
  handed : doc.handedOver old new = start.handedOver old new
  kept : ∀ id blocker, blocker ≠ old → start.edges id blocker → doc.edges id blocker
  own : ∀ blocker, doc.edges old blocker ↔ start.edges old blocker

section Way

variable {start doc doc' : Doc} {old new : String} (h : OnTheWay start doc old new) (hne : old ≠ new)

include h

include hne

/-- Blocking a dependent by the new todo stays on the way. -/
theorem OnTheWay.addDependent (hrewritten : doc.Rewritten doc') {dependent : String}
    (hdependent : doc.edges dependent old)
    (hother : dependent ≠ new) (hback : ¬ ReflTransGen doc.edges new dependent)
    (hedges : doc'.edges = AddEdges doc.edges dependent (· = new)) : OnTheWay start doc' old new := by
  have hself : old ≠ dependent := fun heq => h.acyclic old (.single (heq ▸ hdependent))
  have hknown : doc'.Known = doc.Known := funext fun other => propext (hrewritten.known other)
  refine ⟨hrewritten.numbered, fun id => (hrewritten.known id).trans (h.known id), ?_, ?_, ?_, fun blocker => ?_⟩
  · rw [hedges]
    exact (acyclic_addEdges_iff h.acyclic).mpr fun target htarget => htarget ▸ hback
  · rw [Doc.handedOver, hedges, hknown, handedOver_addDependent h.acyclic hne hdependent hother hback]
    exact h.handed
  · intro id blocker hblocker hedge
    rw [hedges]
    exact Or.inl (h.kept id blocker hblocker hedge)
  · rw [hedges, ← h.own]
    exact or_iff_left fun hadded => hself hadded.1

/-- Freeing a dependent of the old todo stays on the way, once the new one blocks it or cannot. -/
theorem OnTheWay.dropDependent (hrewritten : doc.Rewritten doc') {dependent : String}
    (hdependent : doc.edges dependent old)
    (hmoved : dependent = new ∨ doc.edges dependent new ∨ ReflTransGen doc.edges new dependent)
    (hedges : doc'.edges = DropEdge doc.edges dependent old) : OnTheWay start doc' old new := by
  have hself : old ≠ dependent := fun heq => h.acyclic old (.single (heq ▸ hdependent))
  have hknown : doc'.Known = doc.Known := funext fun other => propext (hrewritten.known other)
  refine ⟨hrewritten.numbered, fun id => (hrewritten.known id).trans (h.known id), fun id hcycle => ?_, ?_, ?_,
    fun blocker => ?_⟩
  · rw [hedges] at hcycle
    exact h.acyclic id (TransGen.mono (fun _ _ => And.left) _ _ hcycle)
  · rw [Doc.handedOver, hedges, hknown, handedOver_dropDependent h.acyclic hne hdependent hmoved]
    exact h.handed
  · intro id blocker hblocker hedge
    rw [hedges]
    exact ⟨h.kept id blocker hblocker hedge, fun hdropped => hblocker hdropped.2⟩
  · rw [hedges, ← h.own]
    exact and_iff_left fun hdropped => hself hdropped.1

/-- Blocking the new todo by a blocker of the old one stays on the way, once nothing is blocked by the old one. -/
theorem OnTheWay.addBlocker (hrewritten : doc.Rewritten doc') (hnone : ∀ id, ¬ doc.edges id old) {blocker : String}
    (hblocker : doc.edges old blocker) (hknown : doc.Known blocker) (hother : blocker ≠ new)
    (hback : ¬ ReflTransGen doc.edges blocker new) (hedges : doc'.edges = AddEdges doc.edges new (· = blocker)) :
    OnTheWay start doc' old new := by
  have hsame : doc'.Known = doc.Known := funext fun other => propext (hrewritten.known other)
  refine ⟨hrewritten.numbered, fun id => (hrewritten.known id).trans (h.known id), ?_, ?_, ?_, fun target => ?_⟩
  · rw [hedges]
    exact (acyclic_addEdges_iff h.acyclic).mpr fun target htarget => htarget ▸ hback
  · rw [Doc.handedOver, hedges, hsame, handedOver_addBlocker hnone hne hblocker hknown hother hback]
    exact h.handed
  · intro id target htarget hedge
    rw [hedges]
    exact Or.inl (h.kept id target htarget hedge)
  · rw [hedges, ← h.own]
    exact or_iff_left fun hadded => hne hadded.1

end Way

namespace LinkPush

/-- Where writes end that go on after a document. -/
theorem lastDoc_append_cons (doc freed : Doc) (front back : List Doc) :
    lastDoc doc (front ++ freed :: back) = lastDoc freed back := by
  rw [lastDoc, List.getLast?_append, List.getLast?_cons, Option.some_or, Option.getD_some, lastDoc]

/-- Where writes end that go on after one that may not have been made. -/
theorem lastDoc_toList_append (doc : Doc) (blocked : Option Doc) (back : List Doc) :
    lastDoc doc (blocked.toList ++ back) = lastDoc (blocked.getD doc) back := by
  cases blocked with
  | none => rfl
  | some freed => exact lastDoc_append_cons doc freed [] back

section Run

variable {text : Unicode} {push : LinkPush} {now : Instant} {list : Doc → List Todo} {start : Doc} {old new : Todo}
  (hsucceeds : push.Succeeds) (hlist : ∀ doc, (list doc).Perm (rows doc.todos)) (hne : old.id ≠ new.id)

include hsucceeds hlist hne

variable (text now) in
/-- Moving one dependent: its block, if any, and its release from the old todo stay on the way. -/
theorem moveDependent_onTheWay {doc : Doc} (h : OnTheWay start doc old.id new.id) {dependent : Todo}
    (hdependent : doc.edges dependent.id old.id)
    (hsnapshot : new.id ∈ dependent.blockedBy → start.edges dependent.id new.id) :
    ∃ blocked freed changes,
      push.blockDependent text now list doc dependent new = .ok blocked ∧
      storeOutcome ((blocked.getD doc).apply now (.unblock dependent.id [old.id])) = .ok (freed, changes) ∧
      (∀ doc' ∈ blocked.toList, OnTheWay start doc' old.id new.id) ∧ OnTheWay start freed old.id new.id ∧
      ∀ id, freed.edges id old.id ↔ doc.edges id old.id ∧ id ≠ dependent.id := by
  have hknown := Doc.known_of_edge hdependent
  have hfreed {doc₁ freed : Doc} (hedges : freed.edges = DropEdge doc₁.edges dependent.id old.id)
      (hsame : ∀ id, doc₁.edges id old.id ↔ doc.edges id old.id) (id : String) :
      freed.edges id old.id ↔ doc.edges id old.id ∧ id ≠ dependent.id := by
    rw [hedges, DropEdge, hsame]
    exact and_congr_right' (not_congr (and_iff_left rfl))
  rw [blockDependent]
  by_cases hself : dependent.id = new.id
  · obtain ⟨freed, changes, happly, hrewritten, hedges⟩ := Doc.unblock_edges h.numbered now hknown old.id
    refine ⟨none, freed, changes, if_neg (not_not.mpr hself), by rw [Option.getD_none, happly]; rfl, nofun, ?_,
      hfreed hedges fun _ => Iff.rfl⟩
    exact h.dropDependent hne hrewritten hdependent (Or.inl hself) hedges
  rcases hsucceeds.block text now (hlist doc) h.numbered dependent new hknown with
    ⟨hblock, hthere⟩ | ⟨doc₁, hblock, hback, hrewritten, hadded⟩
  · obtain ⟨freed, changes, happly, hrewritten, hedges⟩ := Doc.unblock_edges h.numbered now hknown old.id
    refine ⟨none, freed, changes, by rw [if_pos hself, hblock], by rw [Option.getD_none, happly]; rfl, nofun, ?_,
      hfreed hedges fun _ => Iff.rfl⟩
    exact h.dropDependent hne hrewritten hdependent
      (Or.inr (hthere.imp_left fun hin => h.kept _ _ (Ne.symm hne) (hsnapshot hin))) hedges
  · have hway := h.addDependent hne hrewritten hdependent hself hback hadded
    have hstill : doc₁.edges dependent.id old.id := hadded ▸ Or.inl hdependent
    have hnew : doc₁.edges dependent.id new.id := hadded ▸ Or.inr ⟨rfl, rfl⟩
    obtain ⟨freed, changes, happly, hrewritten, hedges⟩ :=
      Doc.unblock_edges hway.numbered now (Doc.known_of_edge hstill) old.id
    refine ⟨some doc₁, freed, changes, by rw [if_pos hself, hblock], by rw [Option.getD_some, happly]; rfl, ?_, ?_,
      hfreed hedges fun id => ?_⟩
    · exact fun doc' hdoc' => List.mem_singleton.mp hdoc' ▸ hway
    · exact hway.dropDependent hne hrewritten hstill (Or.inr (Or.inl hnew)) hedges
    · rw [hadded]
      exact or_iff_left fun hedge => hne hedge.2

variable (text now) in
/-- Moving the dependents frees all of the old todo, on the way. -/
theorem moveDependents_onTheWay {dependents : List Todo} {doc : Doc} (h : OnTheWay start doc old.id new.id)
    (hdistinct : (dependents.map Todo.id).Nodup)
    (hdependents : ∀ id, doc.edges id old.id ↔ id ∈ dependents.map Todo.id)
    (hsnapshot : ∀ dependent ∈ dependents, new.id ∈ dependent.blockedBy → start.edges dependent.id new.id) :
    ∃ writes, push.moveDependents text now list old new dependents doc = .ok writes ∧
      (∀ doc' ∈ writes, OnTheWay start doc' old.id new.id) ∧
      ∀ id, ¬ (lastDoc doc writes).edges id old.id := by
  induction dependents generalizing doc with
  | nil => exact ⟨[], rfl, nofun, fun id hedge => absurd ((hdependents id).mp hedge) List.not_mem_nil⟩
  | cons dependent rest ih =>
    obtain ⟨hfirst, hdistinct⟩ := List.nodup_cons.mp hdistinct
    have hdependent : doc.edges dependent.id old.id := (hdependents dependent.id).mpr List.mem_cons_self
    obtain ⟨blocked, freed, changes, hblock, hfree, hblocked, hway, hleft⟩ :=
      moveDependent_onTheWay text now hsucceeds hlist hne h hdependent (hsnapshot dependent List.mem_cons_self)
    have hrest (id : String) : freed.edges id old.id ↔ id ∈ rest.map Todo.id := by
      rw [hleft, hdependents, List.map_cons, List.mem_cons]
      exact ⟨fun hin => hin.1.resolve_left hin.2, fun hin => ⟨Or.inr hin, fun heq => hfirst (heq ▸ hin)⟩⟩
    obtain ⟨writes, hwrites, hways, hnone⟩ :=
      ih hway hdistinct hrest fun other hother => hsnapshot other (List.mem_cons_of_mem dependent hother)
    refine ⟨blocked.toList ++ freed :: writes, ?_, fun doc' hdoc' => ?_, ?_⟩
    · rw [moveDependents, hblock]
      dsimp only [bind, Except.bind]
      rw [hfree]
      dsimp only
      rw [hwrites]
    · rcases List.mem_append.mp hdoc' with hin | hin
      · exact hblocked doc' hin
      · rcases List.mem_cons.mp hin with rfl | hin
        · exact hway
        · exact hways doc' hin
    · rw [lastDoc_append_cons]
      exact hnone

variable (text now) in
/-- Taking over one blocker: its block, if any, stays on the way and only adds edges. -/
theorem moveBlocker_onTheWay {doc : Doc} (h : OnTheWay start doc old.id new.id) (hnone : ∀ id, ¬ doc.edges id old.id)
    {fresh blocker : Todo} (hfresh : fresh ∈ rows doc.todos) (hid : fresh.id = new.id)
    (hblocker : blocker ∈ rows doc.todos)
    (hother : blocker.id ≠ new.id) (hedge : doc.edges old.id blocker.id) :
    ∃ blocked, push.block text now list doc fresh blocker = .ok blocked ∧
      (∀ doc' ∈ blocked.toList, OnTheWay start doc' old.id new.id) ∧
      OnTheWay start (blocked.getD doc) old.id new.id ∧
      (∀ id other, doc.edges id other → (blocked.getD doc).edges id other) ∧
      (∀ id, ¬ (blocked.getD doc).edges id old.id) ∧
      ((blocked.getD doc).edges new.id blocker.id ∨ ReflTransGen (blocked.getD doc).edges blocker.id new.id) := by
  have hknown : doc.Known fresh.id := ⟨fresh, hfresh, rfl⟩
  rcases hsucceeds.block text now (hlist doc) h.numbered fresh blocker hknown with
    ⟨hblock, hthere⟩ | ⟨doc₁, hblock, hback, hrewritten, hadded⟩
  · refine ⟨none, hblock, nofun, h, fun _ _ => id, hnone, ?_⟩
    rw [hid] at hthere
    exact hthere.imp_left fun hin => ⟨fresh, hfresh, hid, hin⟩
  · rw [hid] at hback hadded
    have hway := h.addBlocker hne hrewritten hnone hedge ⟨blocker, hblocker, rfl⟩ hother hback hadded
    refine ⟨some doc₁, hblock, fun doc' hdoc' => List.mem_singleton.mp hdoc' ▸ hway, hway, fun id other hin => ?_,
      fun id hin => ?_, Or.inl ?_⟩
    · exact hadded ▸ Or.inl hin
    · rw [Option.getD_some, hadded] at hin
      rcases hin with hin | ⟨_, heq⟩
      · exact hnone id hin
      · exact hnone old.id (heq ▸ hedge)
    · exact hadded ▸ Or.inr ⟨rfl, rfl⟩

variable (text now) in
/-- Taking over the blockers leaves none that could be, on the way. -/
theorem moveBlockers_onTheWay {ids : List String} {doc : Doc} (h : OnTheWay start doc old.id new.id)
    (hnone : ∀ id, ¬ doc.edges id old.id) (hnew : start.Known new.id)
    (hids : ∀ id ∈ ids, doc.edges old.id id ∧ ∃ key, id = idOf key) :
    ∃ writes, push.moveBlockers text now list new ids doc = .ok writes ∧
      (∀ doc' ∈ writes, OnTheWay start doc' old.id new.id) ∧
      OnTheWay start (lastDoc doc writes) old.id new.id ∧
      (∀ id other, doc.edges id other → (lastDoc doc writes).edges id other) ∧
      (∀ id, ¬ (lastDoc doc writes).edges id old.id) ∧
      ∀ id ∈ ids, start.Known id → id ≠ new.id →
        (lastDoc doc writes).edges new.id id ∨ ReflTransGen (lastDoc doc writes).edges id new.id := by
  induction ids generalizing doc with
  | nil => exact ⟨[], rfl, nofun, h, fun _ _ => id, hnone, nofun⟩
  | cons id rest ih =>
    obtain ⟨⟨hedge, key, rfl⟩, hrest⟩ := List.forall_mem_cons.mp hids
    have hget (key : ℕ) : doc.get (idOf key) = doc.todos[key]? := by rw [Doc.get, parseKey_idOf, Option.bind_some]
    obtain ⟨newKey, fresh, hfresh, hid, hname⟩ := h.numbered.exists_key ((h.known new.id).mpr hnew)
    rw [moveBlockers]
    cases hfound : (doc.get (idOf key)).filter fun blocker => blocker.id != new.id with
    | none =>
      obtain ⟨writes, hwrites, hways, hlast, hmore, hfree, hdone⟩ := ih h hnone hrest
      refine ⟨writes, hwrites, hways, hlast, hmore, hfree, List.forall_mem_cons.mpr ⟨fun hknown hother => ?_, hdone⟩⟩
      obtain ⟨other, todo, htodo, hid, heq⟩ := h.numbered.exists_key ((h.known (idOf key)).mpr hknown)
      obtain rfl := idOf_inj.mp heq
      rw [hget, htodo, Option.filter_some, if_pos (by rw [hid]; exact bne_iff_ne.mpr hother)] at hfound
      cases hfound
    | some blocker =>
      obtain ⟨hblocker, hother⟩ := Option.filter_eq_some_iff.mp hfound
      rw [hget] at hblocker
      have hkeyed : blocker.id = idOf key := h.numbered.keyed hblocker
      have hfreshGet : doc.get new.id = some fresh := by rw [hname, hget, hfresh]
      obtain ⟨blocked, hblock, hblocked, hway, hmore, hfree, hdone⟩ :=
        moveBlocker_onTheWay text now hsucceeds hlist hne h hnone (mem_rows.mpr ⟨newKey, hfresh⟩) hid
          (mem_rows.mpr ⟨key, hblocker⟩) (bne_iff_ne.mp hother) (hkeyed ▸ hedge)
      obtain ⟨writes, hwrites, hways, hlast, hmores, hfrees, hdones⟩ :=
        ih hway hfree fun id hid => ⟨hmore _ _ (hrest id hid).1, (hrest id hid).2⟩
      rw [← lastDoc_toList_append] at hlast hmores hfrees hdones
      refine ⟨blocked.toList ++ writes, ?_, fun doc' hdoc' => ?_, hlast,
        fun id other hin => hmores id other (hmore id other hin),
        hfrees, List.forall_mem_cons.mpr ⟨fun _ _ => ?_, hdones⟩⟩
      · rw [hfreshGet]
        dsimp only [bind, Except.bind]
        rw [hblock]
        dsimp only
        rw [hwrites]
      · exact (List.mem_append.mp hdoc').elim (hblocked doc') (hways doc')
      · rw [← hkeyed]
        exact hdone.imp (hmores _ _) (ReflTransGen.mono hmores _ _)

end Run

end LinkPush

/-- Recording the edge would close a cycle. -/
def Doc.ClosesCycle (doc : Doc) (id blocker : String) : Prop :=
  ∃ other, TransGen (AddEdges doc.edges id (· = blocker)) other other

/-- What a promote owes: nothing waits on the old todo, what waited on it waits on the new one, the new one waits
on what the old one did, cycles apart, and no other edge has changed. -/
structure HandsOver (doc final : Doc) (old new : String) : Prop where
  acyclic : Acyclic (rows final.todos)
  freed : ∀ id, ¬ final.edges id old
  dependents : ∀ id, doc.edges id old → id ≠ new → final.edges id new ∨ final.ClosesCycle id new
  blockers : ∀ id, doc.edges old id → doc.Known id → id ≠ new → final.edges new id ∨ final.ClosesCycle new id
  others : ∀ id blocker, blocker ≠ old → (blocker = new → ¬ doc.edges id old) →
    (id = new → doc.edges old blocker → ¬ doc.Known blocker) → (final.edges id blocker ↔ doc.edges id blocker)

/-- A blocker that leads to the todo would close a cycle. -/
theorem Doc.closesCycle_of_reach {doc : Doc} {id blocker : String} (h : ReflTransGen doc.edges blocker id) :
    doc.ClosesCycle id blocker :=
  ⟨id, .head' (Or.inr ⟨rfl, rfl⟩) (ReflTransGen.mono (fun _ _ => Or.inl) _ _ h)⟩

/-- A document whose edges are those handed over has handed over. -/
theorem handsOver_of_edges {doc final : Doc} {old new : String} (hacyclic : ∀ id, ¬ TransGen doc.edges id id)
    (hne : old ≠ new) (hfinal : ∀ id, ¬ TransGen final.edges id id) (hedges : final.edges = doc.handedOver old new) :
    HandsOver doc final old new := by
  refine ⟨hfinal, fun id hedge => ?_, fun id hedge hother => ?_, fun id hedge hknown hother => ?_, ?_⟩
  · rw [hedges] at hedge
    exact not_handedOver_old hacyclic hne id hedge
  · have hmoved : doc.handedOver old new id new ∨ ReflTransGen (doc.handedOver old new) new id :=
      handedOver_dependent hacyclic hedge hother
    rcases hmoved with hdone | hreach
    · exact Or.inl (hedges ▸ hdone)
    · exact Or.inr (Doc.closesCycle_of_reach (hedges ▸ hreach))
  · rcases handedOver_blocker hedge hknown hother with hdone | hreach
    · exact Or.inl (hedges ▸ hdone)
    · exact Or.inr (Doc.closesCycle_of_reach (hedges ▸ hreach))
  · intro id blocker hold hnew hinherited
    rw [hedges]
    exact handedOver_other hold hnew hinherited

namespace LinkPush

/-- A promote whose writes succeed ends at what is handed over, and every document it leaves is on the way. -/
theorem rewire_onTheWay (text : Unicode) {push : LinkPush} (now : Instant) {list : Doc → List Todo} {doc : Doc}
    {old new : Todo} (hsucceeds : push.Succeeds) (hlist : ∀ doc, (list doc).Perm (rows doc.todos))
    (hnumbered : doc.Numbered) (hacyclic : ∀ id, ¬ TransGen doc.edges id id)
    (hspelled : ∀ blocker, doc.edges old.id blocker → ∃ key, blocker = idOf key) (hold : old ∈ rows doc.todos)
    (hnew : doc.Known new.id) (hne : old.id ≠ new.id) :
    ∃ writes, push.rewire text now list doc old new = .ok writes ∧
      (∀ doc' ∈ writes, OnTheWay doc doc' old.id new.id) ∧
      (∀ id, ¬ TransGen (lastDoc doc writes).edges id id) ∧
      (lastDoc doc writes).edges = doc.handedOver old.id new.id := by
  have hstart : OnTheWay doc doc old.id new.id :=
    ⟨hnumbered, fun _ => Iff.rfl, hacyclic, rfl, fun _ _ _ => id, fun _ => Iff.rfl⟩
  have hdistinct : (((list doc).filter fun todo => todo.blockedBy.contains old.id).map Todo.id).Nodup :=
    (((hlist doc).map Todo.id).nodup_iff.mpr hnumbered.distinct).sublist (List.filter_sublist.map Todo.id)
  have hmem (todo : Todo) : todo ∈ (list doc).filter (fun todo => todo.blockedBy.contains old.id) ↔
      todo ∈ rows doc.todos ∧ old.id ∈ todo.blockedBy := by
    rw [List.mem_filter, (hlist doc).mem_iff, List.contains_iff_mem]
  have hdependents (id : String) : doc.edges id old.id ↔
      id ∈ ((list doc).filter fun todo => todo.blockedBy.contains old.id).map Todo.id := by
    rw [List.mem_map]
    refine exists_congr fun todo => ?_
    rw [hmem, and_assoc, and_comm (a := todo.id = id)]
  have hsnapshot : ∀ dependent ∈ (list doc).filter (fun todo => todo.blockedBy.contains old.id),
      new.id ∈ dependent.blockedBy → doc.edges dependent.id new.id :=
    fun dependent hdependent hin => ⟨dependent, ((hmem dependent).mp hdependent).1, rfl, hin⟩
  obtain ⟨moved, hmoved, hways, hnone⟩ :=
    moveDependents_onTheWay text now hsucceeds hlist hne hstart hdistinct hdependents hsnapshot
  have hmiddle : OnTheWay doc (lastDoc doc moved) old.id new.id := by
    cases hlast : moved.getLast? with
    | none => rwa [lastDoc, hlast]
    | some last =>
      rw [lastDoc, hlast]
      exact hways last (List.mem_of_getLast? hlast)
  have hown (id : String) (hid : id ∈ old.blockedBy) : doc.edges old.id id := ⟨old, hold, rfl, hid⟩
  obtain ⟨taken, htaken, htakes, hlast, _, hfree, hdone⟩ :=
    moveBlockers_onTheWay text now hsucceeds hlist hne hmiddle hnone hnew fun id hid =>
      ⟨(hmiddle.own id).mpr (hown id hid), hspelled id (hown id hid)⟩
  have hwhole : lastDoc doc (moved ++ taken) = lastDoc (lastDoc doc moved) taken := by
    rw [lastDoc, lastDoc, lastDoc, List.getLast?_append]
    cases taken.getLast? <;> rfl
  refine ⟨moved ++ taken, ?_, fun doc' hdoc' => (List.mem_append.mp hdoc').elim (hways doc') (htakes doc'), ?_, ?_⟩
  · rw [rewire, hmoved]
    dsimp only [bind, Except.bind]
    rw [htaken]
  · rw [hwhole]
    exact hlast.acyclic
  · rw [hwhole, ← hlast.handed, Doc.handedOver]
    refine (handedOver_self hfree fun id hedge hknown hother => ?_).symm
    obtain ⟨todo, htodo, hid, hin⟩ := (hlast.own id).mp hedge
    obtain rfl := List.inj_on_of_nodup_map hnumbered.distinct htodo hold hid
    exact hdone id hin ((hlast.known id).mp hknown) hother

/-- A promote hands over every blocking edge, whatever the order of the listing, and wherever it stopped running it
again comes to the same edges. -/
theorem rewire_handsOver (text : Unicode) (push : LinkPush) (now : Instant) (list : Doc → List Todo) (doc : Doc)
    (old new : Todo) (hsucceeds : push.Succeeds) (hlist : ∀ doc, (list doc).Perm (rows doc.todos))
    (hnumbered : doc.Numbered) (hacyclic : Acyclic (rows doc.todos)) (hold : old ∈ rows doc.todos)
    (hspelled : ∀ blocker ∈ old.blockedBy, ∃ key, blocker = idOf key) (hplain : old.ticket = none)
    (hnew : new ∈ rows doc.todos) (hticket : new.ticket.isSome = true) :
    ∃ writes, push.rewire text now list doc old new = .ok writes ∧ HandsOver doc (lastDoc doc writes) old.id new.id ∧
      ∀ stopped ∈ doc :: writes, stopped.Known old.id ∧ stopped.Known new.id ∧
        ∀ (text' : Unicode) (push' : LinkPush) (now' : Instant) (list' : Doc → List Todo), push'.Succeeds →
          (∀ doc, (list' doc).Perm (rows doc.todos)) → ∀ old' ∈ rows stopped.todos, ∀ new' ∈ rows stopped.todos,
            old'.id = old.id → new'.id = new.id → ∃ writes', push'.rewire text' now' list' stopped old' new' =
              .ok writes' ∧
              (lastDoc stopped writes').edges = (lastDoc doc writes).edges := by
  have hdistinct := hnumbered.distinct
  have hne : old.id ≠ new.id := by
    intro heq
    obtain rfl := List.inj_on_of_nodup_map hdistinct hold hnew heq
    rw [hplain] at hticket
    cases hticket
  have hown : ∀ blocker, doc.edges old.id blocker → ∃ key, blocker = idOf key := by
    intro blocker hedge
    obtain ⟨todo, htodo, hid, hin⟩ := hedge
    obtain rfl := List.inj_on_of_nodup_map hdistinct htodo hold hid
    exact hspelled blocker hin
  obtain ⟨writes, hwrites, hways, hfinal, hedges⟩ :=
    rewire_onTheWay text now hsucceeds hlist hnumbered hacyclic hown hold ⟨new, hnew, rfl⟩ hne
  refine ⟨writes, hwrites, handsOver_of_edges hacyclic hne hfinal hedges, fun stopped hstopped => ?_⟩
  have hway : OnTheWay doc stopped old.id new.id := by
    rcases List.mem_cons.mp hstopped with rfl | hin
    · exact ⟨hnumbered, fun _ => Iff.rfl, hacyclic, rfl, fun _ _ _ => id, fun _ => Iff.rfl⟩
    · exact hways stopped hin
  have hknown := (hway.known new.id).mpr ⟨new, hnew, rfl⟩
  refine ⟨(hway.known old.id).mpr ⟨old, hold, rfl⟩, hknown, ?_⟩
  intro text' push' now' list' hsucceeds' hlist' old' hold' new' _ hid hid'
  obtain ⟨writes', hwrites', _, _, hedges'⟩ :=
    rewire_onTheWay text' now' hsucceeds' hlist' hway.numbered hway.acyclic
      (fun blocker hedge => hown blocker ((hway.own blocker).mp (hid ▸ hedge))) hold' (hid' ▸ hknown) (hid ▸ hid' ▸ hne)
  exact ⟨writes', hwrites', by rw [hedges', hedges, hid, hid', hway.handed]⟩

section Example

/-- A todo to promote. -/
def plainSample : Todo := Doc.nestedTodo "1" .pending none ["4"]

/-- A todo with a ticket. -/
def ticketSample : Todo := { Doc.nestedTodo "2" .pending none [] with ticket := some ⟨"github", "o/r#2", none⟩ }

/-- A todo to promote between a dependent and a blocker, beside a ticket's todo. -/
def promoteDoc : Doc :=
  ⟨5, .ofList [(1, plainSample), (2, ticketSample), (3, Doc.nestedTodo "3" .pending none ["1"]),
    (4, Doc.nestedTodo "4" .pending none [])]⟩

/-- The sample is numbered as a store numbers. -/
theorem numbered_promoteDoc : promoteDoc.Numbered := by
  refine ⟨fun {key todo} htodo => ?_, fun {key todo} htodo => ?_⟩ <;>
    · have hrow := mem_of_getElem?_ofList htodo
      simp only [List.mem_cons, Prod.mk.injEq, List.not_mem_nil, or_false] at hrow
      obtain ⟨rfl, rfl⟩ | ⟨rfl, rfl⟩ | ⟨rfl, rfl⟩ | ⟨rfl, rfl⟩ := hrow <;> decide

/-- How many edges of the sample lead on from an id. -/
def depthSample (id : String) : ℕ := if id = "3" then 2 else if id = "1" then 1 else 0

/-- The sample has no cycle. -/
theorem acyclic_promoteDoc : Acyclic (rows promoteDoc.todos) := by
  have hdeeper : ∀ todo ∈ rows promoteDoc.todos, ∀ blocker ∈ todo.blockedBy,
      depthSample blocker < depthSample todo.id := by decide +kernel
  have hway : ∀ id id', TransGen (Blocked (rows promoteDoc.todos)) id id' → depthSample id' < depthSample id := by
    intro id id' hway
    induction hway with
    | single hedge =>
      obtain ⟨todo, htodo, rfl, hblocker⟩ := hedge
      exact hdeeper todo htodo _ hblocker
    | tail _ hedge ih =>
      obtain ⟨todo, htodo, rfl, hblocker⟩ := hedge
      exact (hdeeper todo htodo _ hblocker).trans ih
  exact fun id hcycle => lt_irrefl _ (hway id id hcycle)

/-- Link pushes that all go through. -/
def smoothPush : LinkPush :=
  ⟨fun _ => true, .ok (), fun _ _ => .ok (false, none), fun _ _ => .ok true, fun _ _ => .ok (), fun doc _ => .ok doc⟩

/-- The handover at a promote of the sample. -/
theorem rewire_handsOver_sample :
    ∃ writes, smoothPush.rewire asciiText ⟨0, ""⟩ (fun doc => rows doc.todos) promoteDoc plainSample ticketSample =
      .ok writes ∧ HandsOver promoteDoc (lastDoc promoteDoc writes) "1" "2" := by
  obtain ⟨writes, hwrites, hdone, _⟩ := rewire_handsOver asciiText smoothPush ⟨0, ""⟩ (fun doc => rows doc.todos)
    promoteDoc plainSample ticketSample ⟨rfl, fun _ _ => ⟨_, rfl⟩, fun _ _ => rfl, fun _ _ => rfl⟩
    (fun _ => .refl _) numbered_promoteDoc acyclic_promoteDoc (by decide +kernel)
    (fun blocker hblocker => ⟨4, by
      rw [List.mem_singleton.mp hblocker]
      decide⟩) rfl (by decide +kernel) rfl
  exact ⟨writes, hwrites, hdone⟩

end Example

end LinkPush

end Devkit.Todos
