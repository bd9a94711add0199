import Devkit.Todos.Pruned
import Devkit.Todos.TwinPlaces

/-!
# Removals and releases on both stores

Both stores remove the same todos of a purge and of a prune: a todo and its twin are done together, and
open todos need the one exactly when their twins need the other. A release gives back the same todos.
-/

namespace Devkit.Todos

open Devkit.Library
open Relation
open Std

section Matched

variable {all others : List Todo} {M : Todo → Todo → Prop}

/-- Nesting however deep is carried to todos that match. -/
theorem ancestor_of_match (htotal : ∀ a ∈ all, ∃ b ∈ others, M a b)
    (hnests : ∀ {a b a' b' : Todo}, M a a' → M b b' → a' ∈ others → b' ∈ others → NestsUnder all a b →
      NestsUnder others a' b') {a b a' b' : Todo} (ha : M a a') (hb : M b b') (ha' : a' ∈ others) (hb' : b' ∈ others)
    (h : Ancestor all a b) : Ancestor others a' b' := by
  induction h generalizing b' with
  | single hstep => exact .single (hnests ha hb ha' hb' hstep)
  | tail _ hstep ih =>
    obtain ⟨middle, hmiddle, hmatch⟩ := htotal _ hstep.1
    exact (ih hmatch hmiddle).tail (hnests hmatch hb hmiddle hb' hstep)

/-- What open todos need is carried to todos that match. -/
theorem neededByOpen_of_match (htotal : ∀ a ∈ all, ∃ b ∈ others, M a b)
    (hnests : ∀ {a b a' b' : Todo}, M a a' → M b b' → a' ∈ others → b' ∈ others → NestsUnder all a b →
      NestsUnder others a' b')
    (hwaits : ∀ {a b a' b' : Todo}, a ∈ all → b ∈ all → M a a' → M b b' → b.id ∈ a.blockedBy → b'.id ∈ a'.blockedBy)
    (hopen : ∀ {a a' : Todo}, M a a' → a.status.kind.isOpen = true → a'.status.kind.isOpen = true)
    {b b' : Todo} (hb : b ∈ all) (hb' : b' ∈ others) (hmatch : M b b') (h : NeededByOpen all b) :
    NeededByOpen others b' := by
  obtain ⟨a, ha, hisOpen, hneeds⟩ := h
  obtain ⟨a', ha', hother⟩ := htotal a ha
  refine ⟨a', ha', hopen hother hisOpen, ?_⟩
  cases hneeds with
  | inl hblocked => exact Or.inl (hwaits ha hb hother hmatch hblocked)
  | inr hbelow => exact Or.inr (ancestor_of_match htotal hnests hother hmatch ha' hb' hbelow)

end Matched

section Removals

variable {lib : TaskLibraries} {s : Twins}

/-- A todo and its twin, both in their lists. -/
def Paired (lib : TaskLibraries) (s : Twins) (todo twin : Todo) : Prop :=
  todo ∈ rows s.doc.todos ∧ twin ∈ s.replica.todos lib ∧ Twin s.made todo twin

/-- The id of a paired todo was returned. -/
theorem Paired.mem_made {todo twin : Todo} (h : Paired lib s todo twin) : todo.id ∈ s.made :=
  ExtTreeMap.mem_iff_isSome_getElem?.mpr (by rw [h.2.2.id]; rfl)

/-- Paired todos nest under paired todos alike. -/
theorem Simulates.nestsUnder_iff (h : Simulates lib s) {todo twin parent parentTwin : Todo}
    (hpair : Paired lib s todo twin) (hparent : Paired lib s parent parentTwin) :
    NestsUnder (rows s.doc.todos) todo parent ↔ NestsUnder (s.replica.todos lib) twin parentTwin := by
  obtain ⟨key, htodo⟩ := mem_rows.mp hpair.1
  have hsame := h.parent_eq_iff htodo hpair.2.2 (some parent.id) fun id hid =>
    Option.some.inj hid ▸ hparent.mem_made
  rw [Option.map_some, translate_of_made hparent.2.2.id] at hsame
  exact ⟨fun hunder => ⟨hpair.2.1, hparent.2.1, hsame.mpr hunder.2.2⟩,
    fun hunder => ⟨hpair.1, hparent.1, hsame.mp hunder.2.2⟩⟩

/-- Paired todos wait on paired todos alike. -/
theorem Simulates.waits_iff (h : Simulates lib s) {todo twin blocker blockerTwin : Todo}
    (hpair : Paired lib s todo twin) (hblocker : Paired lib s blocker blockerTwin) :
    blocker.id ∈ todo.blockedBy ↔ blockerTwin.id ∈ twin.blockedBy := by
  obtain ⟨key, htodo⟩ := mem_rows.mp hpair.1
  rw [hpair.2.2.blockedBy, ← translate_of_made hblocker.2.2.id]
  constructor
  · exact fun hwaits => ⟨blocker.id, hwaits, rfl⟩
  · rintro ⟨named, hwaits, hsame⟩
    exact (h.names.translate_inj (h.blocker htodo named hwaits) (Or.inl hblocker.mem_made)).mp hsame ▸ hwaits

/-- Open todos need a todo exactly when their twins need its twin. -/
theorem Simulates.neededByOpen_iff (h : Simulates lib s) {todo twin : Todo} (hpair : Paired lib s todo twin) :
    NeededByOpen (rows s.doc.todos) todo ↔ NeededByOpen (s.replica.todos lib) twin := by
  have hstatus : ∀ {a b : Todo}, Paired lib s a b → b.status = a.status := fun hmatch => hmatch.2.2.status
  constructor
  · refine neededByOpen_of_match (M := Paired lib s) (fun a ha => ?_)
      (fun ha hb _ _ hunder => (h.nestsUnder_iff ha hb).mp hunder)
      (fun _ _ ha hb hwaits => (h.waits_iff ha hb).mp hwaits) (fun ha hisOpen => by rwa [hstatus ha])
      hpair.1 hpair.2.1 hpair
    obtain ⟨key, hkey⟩ := mem_rows.mp ha
    obtain ⟨b, hb, htwin⟩ := h.twin_mem hkey
    exact ⟨b, hb, ha, hb, htwin⟩
  · refine neededByOpen_of_match (M := fun b a => Paired lib s a b) (fun b hb => ?_)
      (fun ha hb _ _ hunder => (h.nestsUnder_iff ha hb).mpr hunder)
      (fun _ _ ha hb hwaits => (h.waits_iff ha hb).mpr hwaits) (fun ha hisOpen => by rwa [← hstatus ha])
      hpair.2.1 hpair.1 hpair
    obtain ⟨key, a, hkey, htwin⟩ := h.todo_mem hb
    exact ⟨a, mem_rows.mpr ⟨key, hkey⟩, mem_rows.mpr ⟨key, hkey⟩, hb, htwin⟩

/-- Taking the same todos out of both stores keeps them in step. -/
theorem Simulates.drop (h : Simulates lib s) {doc : Doc} {r : Replica} (gone : Todo → Prop)
    (hnext : doc.nextId = s.doc.nextId)
    (hdoc : ∀ {key : ℕ} {todo : Todo}, doc.todos[key]? = some todo ↔ s.doc.todos[key]? = some todo ∧ ¬ gone todo)
    (htask : ∀ {id : String} {key : ℕ} {todo : Todo} {uuid : Uuid} {task : Properties} {twin : Todo},
      Found lib s id key todo uuid task twin → (r.tasks[uuid]? = some task ↔ ¬ gone todo))
    (hsub : ∀ {uuid : Uuid} {task : Properties}, r.tasks[uuid]? = some task → s.replica.tasks[uuid]? = some task) :
    Simulates lib ⟨doc, r, s.made⟩ := by
  refine ⟨⟨fun htodo => h.numbered.keyed (hdoc.mp htodo).1, fun htodo => ?_⟩, ?_, fun {key todo} htodo => ?_,
    fun {uuid task} hheld => ?_, fun htodo => h.parent (hdoc.mp htodo).1, fun htodo => h.blocker (hdoc.mp htodo).1,
    fun htodo => h.ticket (hdoc.mp htodo).1⟩
  · exact hnext.symm ▸ h.numbered.counted (hdoc.mp htodo).1
  · exact hnext.symm ▸ h.names
  · obtain ⟨hbefore, hkept⟩ := hdoc.mp htodo
    obtain ⟨uuid, task, twin, hfound⟩ := h.found hbefore
    exact ⟨uuid, task, twin, (htask hfound).mpr hkept, hfound.read, hfound.twins⟩
  · obtain ⟨key, todo, twin, hfound⟩ := h.found_task (hsub hheld)
    exact ⟨key, todo, hdoc.mpr ⟨hfound.held, (htask hfound).mp hheld⟩, hfound.made⟩

/-- A purge is alike. -/
theorem alike_purge (h : Simulates lib s) (now : Instant) {id : String} (hmeant : s.Meant lib id) :
    Alike lib s (s.doc.apply now (.purge id)) (s.replica.apply lib now (.purge (translate s.made id))) := by
  refine alike_of_found h hmeant fun {key todo uuid task twin} hfound => ?_
  have htwin : s.replica.taskOf lib twin (translate s.made id) = .ok (uuid, task) := hfound.taskOf _
  rw [htwin]
  have hkey : ∀ {other : ℕ} {held : Todo}, s.doc.todos[other]? = some held → (held = todo ↔ key = other) := by
    intro other held hheld
    constructor
    · rintro rfl
      exact idOf_inj.mp ((h.numbered.keyed hfound.held).symm.trans (h.numbered.keyed hheld))
    · rintro rfl
      exact Option.some.inj (hheld.symm.trans hfound.held)
  refine .accepted (h.drop (· = todo) rfl (fun {other held} => ?_)
    (fun {asked other held uuid' task' twin'} hother => ?_) (fun {uuid' task'} hheld => ?_))
  · change (s.doc.todos.erase key)[other]? = some held ↔ _
    rw [getElem?_erase_eq]
    split
    · rename_i heq
      exact iff_of_false nofun fun hkept => hkept.2 ((hkey hkept.1).mpr heq)
    · rename_i hne
      exact ⟨fun hheld => ⟨hheld, fun hsame => hne ((hkey hheld).mp hsame)⟩, And.left⟩
  · change (s.replica.tasks.erase uuid)[uuid']? = some task' ↔ _
    rw [getElem?_erase_eq]
    split
    · rename_i heq
      refine iff_of_false nofun (not_not.mpr ((hkey hother.held).mpr ?_))
      have hsame := h.names.injective hother.made (heq ▸ hfound.made)
      exact Option.some.inj ((hsame ▸ hfound.parsed).symm.trans hother.parsed)
    · rename_i hne
      refine iff_of_true hother.stored fun hsame => hne ?_
      have hsameId : asked = id := by rw [← hother.named, ← hfound.named, hsame]
      exact Uuid.text_inj.mp (Option.some.inj (hfound.made.symm.trans (hsameId ▸ hother.made)))
  · change (s.replica.tasks.erase uuid)[uuid']? = some task' at hheld
    rw [getElem?_erase_eq] at hheld
    split at hheld
    · contradiction
    · exact hheld

/-- A todo has the uuid of the task it is read from. -/
theorem id_of_todoFrom {uuid : Uuid} {task : Properties} {todo : Todo} (h : todoFrom lib uuid task = some todo) :
    todo.id = uuid.text := by
  obtain ⟨_, _, h⟩ := Option.bind_eq_some_iff.mp h
  obtain ⟨_, _, h⟩ := Option.bind_eq_some_iff.mp h
  rw [← Option.some.inj h]

/-- The todos of a replica have different ids. -/
theorem distinct_todos {r : Replica} : ((r.todos lib).map Todo.id).Nodup := by
  rw [Replica.todos, List.Nodup, List.pairwise_map, List.pairwise_filterMap]
  refine (toList_pairwise_ne r.tasks).imp fun {row other} hne todo htodo todo' htodo' heq => hne ?_
  rw [id_of_todoFrom htodo, id_of_todoFrom htodo'] at heq
  exact Uuid.text_inj.mp heq

/-- One removal of a prune takes out the task it names, when that is read back. -/
theorem getElem?_pruneOne {r : Replica} {now : Instant} (state : Replica × List StatusChange) (id : String)
    {uuid : Uuid} {task : Properties} :
    (r.pruneOne lib now state id).1.tasks[uuid]? = some task ↔ state.1.tasks[uuid]? = some task ∧
      ¬ (lib.tryParse id = some uuid ∧ (r.tasks[uuid]?.bind (todoFrom lib uuid)).isSome = true) := by
  unfold Replica.pruneOne
  cases hparse : lib.tryParse id with
  | none => simp
  | some other =>
    dsimp only
    by_cases hother : other = uuid
    · subst hother
      cases hread : r.tasks[other]?.bind (todoFrom lib other) with
      | none => simp
      | some todo => simp
    · have hne : some other ≠ some uuid := fun heq => hother (Option.some.inj heq)
      rw [and_iff_left fun hsame => hne hsame.1]
      cases r.tasks[other]?.bind (todoFrom lib other) with
      | none => rfl
      | some todo =>
        change (state.1.tasks.erase other)[uuid]? = some task ↔ _
        rw [getElem?_erase_eq, if_neg hother]

/-- A prune of the other store takes out the tasks it names that are read back. -/
theorem getElem?_foldl_pruneOne {r : Replica} {now : Instant} (ids : List String) (state : Replica × List StatusChange)
    {uuid : Uuid} {task : Properties} :
    (ids.foldl (r.pruneOne lib now) state).1.tasks[uuid]? = some task ↔ state.1.tasks[uuid]? = some task ∧
      ¬ ∃ id ∈ ids, lib.tryParse id = some uuid ∧ (r.tasks[uuid]?.bind (todoFrom lib uuid)).isSome = true := by
  induction ids generalizing state with
  | nil => simp
  | cons id rest ih =>
    rw [List.foldl_cons, ih, getElem?_pruneOne, and_assoc, ← not_or]
    simp only [List.mem_cons, exists_eq_or_imp]

/-- Texts that are ids or print as no task's uuid are translated to a task's uuid only from its todo's id. -/
theorem Found.mem_translated {id : String} {key : ℕ} {todo : Todo} {uuid : Uuid} {task : Properties} {twin : Todo}
    (hfound : Found lib s id key todo uuid task twin) (h : Simulates lib s) {ids : List String}
    (hnamed : ∀ id ∈ ids, id ∈ s.made ∨ ∀ uuid ∈ s.replica.tasks, id ≠ uuid.text) :
    twin.id ∈ ids.map (translate s.made) ↔ todo.id ∈ ids := by
  rw [List.mem_map, hfound.named, hfound.read.id]
  constructor
  · rintro ⟨other, hother, heq⟩
    by_cases hmade : other ∈ s.made
    · obtain ⟨text, htext⟩ := Option.isSome_iff_exists.mp (ExtTreeMap.mem_iff_isSome_getElem?.mp hmade)
      rw [translate_of_made htext] at heq
      exact h.names.injective (heq ▸ htext) hfound.made ▸ hother
    · have hlive : uuid ∈ s.replica.tasks := ExtTreeMap.mem_iff_isSome_getElem?.mpr (by rw [hfound.stored]; rfl)
      rw [translate_of_not_mem hmade] at heq
      exact absurd heq ((hnamed other hother).resolve_left hmade uuid hlive)
  · exact fun hmem => ⟨id, hmem, hfound.translated⟩

/-- A prune is alike where the texts it names are ids or print as no task's uuid. -/
theorem alike_prune (h : Simulates lib s) (now : Instant) {ids : List String}
    (hnamed : ∀ id ∈ ids, id ∈ s.made ∨ ∀ uuid ∈ s.replica.tasks, id ≠ uuid.text) :
    Alike lib s (s.doc.apply now (.prune ids)) (s.replica.apply lib now (.prune (ids.map (translate s.made)))) := by
  obtain ⟨after, changes, happly, hnext, hkept⟩ := s.doc.apply_prune_kept now ids h.numbered
  rw [happly]
  refine .accepted (h.drop (fun todo => todo.id ∈ ids ∧ todo.status.kind.isOpen = false ∧
    ¬ NeededByOpen (rows s.doc.todos) todo) hnext (hkept _ _) (fun {id key todo uuid task twin} hfound =>
      ?_) (fun {uuid task} hheld => ?_))
  · have hread : todoFrom lib uuid task = some twin := (todoFrom_eq_some hfound.read.canonical).mpr hfound.read
    have htwin : twin ∈ s.replica.todos lib := mem_todos.mpr ⟨uuid, task, hfound.stored, hread⟩
    have hpair : Paired lib s todo twin := ⟨mem_rows.mpr ⟨key, hfound.held⟩, htwin, hfound.twins⟩
    rw [getElem?_foldl_pruneOne, and_iff_right hfound.stored, hfound.stored, Option.bind_some, hread,
      ← hfound.mem_translated h hnamed, h.neededByOpen_iff hpair, ← hfound.twins.status]
    refine not_congr ?_
    constructor
    · rintro ⟨id', hremoved, hparse, _⟩
      obtain ⟨hasked, other, hother, rfl, hdone⟩ := (mem_removable distinct_todos).mp hremoved
      obtain ⟨uuid', task', hstored, hother⟩ := mem_todos.mp hother
      rw [id_of_todoFrom hother, lib.tryParse_text] at hparse
      obtain rfl := Option.some.inj hparse
      obtain rfl := Option.some.inj (hfound.stored.symm.trans hstored)
      obtain rfl := Option.some.inj (hread.symm.trans hother)
      exact ⟨hasked, hdone⟩
    · intro hgone
      refine ⟨twin.id, (mem_removable distinct_todos).mpr ⟨hgone.1, twin, htwin, rfl, hgone.2⟩, ?_, rfl⟩
      rw [hfound.read.id, lib.tryParse_text]
  · exact ((getElem?_foldl_pruneOne _ _).mp hheld).1

/-- A started task is a pending one. -/
theorem pending_of_started {status : String} {start holder : Option String} {claimant : Holder}
    (h : readTaskStatus status start holder = some (.inProgress claimant)) : status = "pending" := by
  unfold readTaskStatus at h
  dsimp only at h
  split at h
  · assumption
  · split at h
    · exact Status.noConfusion (Option.some.inj h)
    · split at h
      · exact Status.noConfusion (Option.some.inj h)
      · contradiction

/-- A task is given back exactly when its todo is. -/
theorem Found.released_iff {id : String} {key : ℕ} {todo : Todo} {uuid : Uuid} {task : Properties} {twin : Todo}
    (hfound : Found lib s id key todo uuid task twin) (holder : Holder) :
    (Replica.releasedTodo lib holder uuid task).isSome = released holder todo := by
  have hread : todoFrom lib uuid task = some twin := (todoFrom_eq_some hfound.read.canonical).mpr hfound.read
  have hsame : released holder twin = released holder todo := by rw [released, released, hfound.twins.status]
  rw [Replica.releasedTodo, hread, ← hsame]
  split
  · rw [Option.filter_some]
    cases released holder twin <;> rfl
  · rename_i hclosed
    rw [released]
    split
    · rename_i claimant hstarted
      have hpending := pending_of_started (hstarted ▸ hfound.read.status)
      refine absurd ?_ hclosed
      cases hstatus : task["status"]? with
      | none =>
        rw [hstatus] at hpending
        exact absurd hpending (by decide)
      | some status =>
        rw [hstatus] at hpending
        exact congrArg some hpending
    · rfl

/-- Rewriting every todo and its task as twins keeps the stores in step. -/
theorem Simulates.map (h : Simulates lib s) {f : Todo → Todo} {g : Uuid → Properties → Properties}
    (hsame : ∀ todo, (f todo).id = todo.id ∧ (f todo).parent = todo.parent ∧ (f todo).blockedBy = todo.blockedBy ∧
      (f todo).ticket = todo.ticket)
    (hwrites : ∀ {id : String} {key : ℕ} {todo : Todo} {uuid : Uuid} {task : Properties} {twin : Todo},
      Found lib s id key todo uuid task twin → ∃ after, ReadAs lib uuid (g uuid task) after ∧
        Twin s.made (f todo) after) :
    Simulates lib ⟨{ s.doc with todos := s.doc.todos.map fun _ todo => f todo }, ⟨s.replica.tasks.map g⟩, s.made⟩ := by
  have hbefore : ∀ {key : ℕ} {after : Todo}, (s.doc.todos.map fun _ todo => f todo)[key]? = some after →
      ∃ todo, s.doc.todos[key]? = some todo ∧ f todo = after := by
    intro key after hafter
    rw [ExtTreeMap.getElem?_map] at hafter
    exact Option.map_eq_some_iff.mp hafter
  refine ⟨⟨fun {key after} hafter => ?_, fun {key after} hafter => ?_⟩, h.names, fun {key after} hafter => ?_,
    fun {uuid after} hafter => ?_, fun {key after} hafter => ?_, fun {key after} hafter => ?_,
    fun {key after} hafter => ?_⟩
  · obtain ⟨todo, htodo, rfl⟩ := hbefore hafter
    exact (hsame todo).1.trans (h.numbered.keyed htodo)
  · obtain ⟨todo, htodo, _⟩ := hbefore hafter
    exact h.numbered.counted htodo
  · obtain ⟨todo, htodo, rfl⟩ := hbefore hafter
    obtain ⟨uuid, task, twin, hfound⟩ := h.found htodo
    obtain ⟨twin', hread, htwin⟩ := hwrites hfound
    refine ⟨uuid, g uuid task, twin', ?_, hread, htwin⟩
    change (s.replica.tasks.map g)[uuid]? = _
    rw [ExtTreeMap.getElem?_map, hfound.stored, Option.map_some]
  · change (s.replica.tasks.map g)[uuid]? = some after at hafter
    rw [ExtTreeMap.getElem?_map] at hafter
    obtain ⟨task, htask, rfl⟩ := Option.map_eq_some_iff.mp hafter
    obtain ⟨key, todo, _, hfound⟩ := h.found_task htask
    refine ⟨key, f todo, ?_, (hsame todo).1.symm ▸ hfound.made⟩
    change (s.doc.todos.map fun _ todo => f todo)[key]? = _
    rw [ExtTreeMap.getElem?_map, hfound.held, Option.map_some]
  · obtain ⟨todo, htodo, rfl⟩ := hbefore hafter
    rw [(hsame todo).2.1]
    exact h.parent htodo
  · obtain ⟨todo, htodo, rfl⟩ := hbefore hafter
    rw [(hsame todo).2.2.1]
    exact h.blocker htodo
  · obtain ⟨todo, htodo, rfl⟩ := hbefore hafter
    rw [(hsame todo).2.2.2, (hsame todo).1]
    exact h.ticket htodo

/-- A release of all that a holder has is alike. -/
theorem alike_releaseAll (h : Simulates lib s) (now : Instant) (holder : Holder) :
    Alike lib s (s.doc.apply now (.releaseAll holder)) (s.replica.apply lib now (.releaseAll holder)) := by
  simp only [Doc.apply, Replica.apply, Replica.releaseAll]
  split
  · exact .accepted h
  · refine .accepted (h.map (f := giveBack now holder) (fun todo => ?_) fun {id key todo uuid task twin} hfound => ?_)
    · rw [giveBack]
      split <;> exact ⟨rfl, rfl, rfl, rfl⟩
    · have hpending : Recordable .pending := True.intro
      rw [hfound.released_iff, giveBack]
      split
      · exact ⟨_, ReadAs.writeStatus now hfound.read hpending, { hfound.twins with status := rfl }⟩
      · exact ⟨twin, hfound.read, hfound.twins⟩

end Removals

end Devkit.Todos
