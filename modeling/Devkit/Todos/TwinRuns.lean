import Devkit.Todos.TwinAdds
import Devkit.Todos.TwinBlockers

/-!
# One script, two stores, one list

A script whose calls are regular is answered alike by both stores, call by call, and leaves lists that
correspond. Without that the stores part: a blocker that is no uuid is kept by one and dropped by the other.
-/

namespace Devkit.Todos

open Devkit.Library
open Std

section Calls

variable {lib : TaskLibraries} {s : Twins}

/-- An edit that is alike is answered alike and keeps the stores in step. -/
theorem Alike.step {now : Instant} {edit : Edit} (h : Simulates lib s) (fresh : Uuid)
    (halike : Alike lib s (s.doc.apply now edit) (s.replica.apply lib now (edit.mapIds (translate s.made)))) :
    s.SameAnswer lib ⟨.edit now edit, fresh⟩ ∧ Simulates lib (s.step lib ⟨.edit now edit, fresh⟩) := by
  have hanswer : s.answer ⟨.edit now edit, fresh⟩ = (s.doc.apply now edit).map fun written => (written.1, none) := rfl
  have htwin : s.twinAnswer lib ⟨.edit now edit, fresh⟩ =
      (s.replica.apply lib now (edit.mapIds (translate s.made))).map fun written => (written.1, none) := rfl
  rw [Twins.SameAnswer, Twins.step, hanswer, htwin]
  generalize s.doc.apply now edit = outcome at halike
  generalize s.replica.apply lib now (edit.mapIds (translate s.made)) = outcome' at halike
  cases halike with
  | accepted hafter => exact ⟨rfl, hafter⟩
  | refused => exact ⟨rfl, h⟩

/-- An edit the stores take alike is alike. -/
theorem alike_edit (h : Simulates lib s) (now : Instant) (edit : Edit) (hregular : s.RegularEdit lib edit) :
    Alike lib s (s.doc.apply now edit) (s.replica.apply lib now (edit.mapIds (translate s.made))) := by
  cases edit with
  | setStatus id target actor =>
    exact alike_changeStatus h now _ hregular.1 fun current next hnamed hnext =>
      recordable_transition hregular.2 hnamed hnext
  | takeOver id source actor =>
    exact alike_changeStatus h now _ hregular.1 fun current next hnamed hnext =>
      recordable_takeOver hregular.2 hnamed hnext
  | describe id description => exact alike_describe h now description hregular
  | move id parent order => exact alike_move h now hregular.1 hregular.2.1 hregular.2.2
  | reorder id order => exact alike_reorder h now order hregular.1 hregular.2
  | relocate id project => exact alike_relocate h now project hregular.1 hregular.2
  | releaseAll holder => exact alike_releaseAll h now holder
  | purge id => exact alike_purge h now hregular
  | prune ids => exact alike_prune h now hregular
  | block id blockers => exact alike_block h now hregular.1 hregular.2
  | unblock id blockers => exact alike_unblock h now hregular.1 hregular.2
  | recordSync id syncedStatus => exact alike_recordSync h now syncedStatus hregular

/-- An add under a parent that is missing is refused by both stores. -/
theorem add_refused (h : Simulates lib s) {now : Instant} {todo : NewTodo} {fresh : Uuid} {parent : String}
    (hnone : todo.ticket.bind s.doc.ticketTodo = none) (hparent : todo.parent = some parent)
    (hmissing : Missing lib s parent) :
    s.SameAnswer lib ⟨.add now todo, fresh⟩ ∧ Simulates lib (s.step lib ⟨.add now todo, fresh⟩) := by
  obtain ⟨failure, hfailure⟩ := hmissing.resolveParent
  have hanswer : s.answer ⟨.add now todo, fresh⟩ = .error (.noTodo parent) := by
    simp only [Twins.answer, Doc.answer, Doc.add, hnone, hparent, todoMut_of_get hmissing.get]
    rfl
  have htwin : s.twinAnswer lib ⟨.add now todo, fresh⟩ = .error failure := by
    simp only [Twins.twinAnswer, StoreCall.mapIds, Replica.answer, Replica.add, hparent, Option.map_some, hfailure]
    rfl
  rw [Twins.SameAnswer, Twins.step, hanswer, htwin]
  exact ⟨rfl, h⟩

/-- A parent that is found is the one the other store places the todo under. -/
theorem resolveParent_found {parent : Option String}
    (hparent : ∀ id ∈ parent, ∃ key held uuid task twin, Found lib s id key held uuid task twin) :
    s.replica.resolveParent lib (parent.map (translate s.made)) = .ok (parent.map (translate s.made)) := by
  cases parent with
  | none => rfl
  | some id =>
    obtain ⟨_, _, _, _, _, hfound⟩ := hparent id rfl
    exact hfound.resolveParent

/-- An add of a ticket that has a todo returns that todo's id in both stores. -/
theorem add_existing (h : Simulates lib s) {now : Instant} {todo : NewTodo} {fresh : Uuid} {existing : Todo}
    (hexisting : todo.ticket.bind s.doc.ticketTodo = some existing)
    (hparent : ∀ id ∈ todo.parent, ∃ key held uuid task twin, Found lib s id key held uuid task twin) :
    s.SameAnswer lib ⟨.add now todo, fresh⟩ ∧ Simulates lib (s.step lib ⟨.add now todo, fresh⟩) := by
  obtain ⟨ticket, hticket, hfind⟩ := Option.bind_eq_some_iff.mp hexisting
  obtain ⟨key, hheld⟩ := mem_rows.mp (List.mem_of_find?_eq_some hfind)
  have hsame := List.find?_some hfind
  cases hother : existing.ticket with
  | none => simp [hother] at hsame
  | some other =>
    simp only [hother, Option.any_some, TicketRef.sameTicket, Bool.and_eq_true, beq_iff_eq] at hsame
    obtain ⟨uuid, task, twin, hfound⟩ := h.found hheld
    have huuid : uuid = ticketTodoUuid lib "" ticket.tracker ticket.key := by
      have hmade := h.ticket hheld other hother
      rw [hsame.1, hsame.2] at hmade
      exact Uuid.text_inj.mp (Option.some.inj (hfound.made.symm.trans hmade))
    have hanswer : s.answer ⟨.add now todo, fresh⟩ = .ok (s.doc, some existing.id) := by
      simp only [Twins.answer, Doc.answer, Doc.add, hexisting]
      rfl
    have htwin : s.twinAnswer lib ⟨.add now todo, fresh⟩ = .ok (s.replica, some uuid.text) := by
      have hhas : s.replica.tasks.contains uuid = true := by
        rw [ExtTreeMap.contains_eq_isSome_getElem?, hfound.stored]
        rfl
      simp only [Twins.twinAnswer, StoreCall.mapIds, Replica.answer, Replica.add, resolveParent_found hparent, hticket,
        Option.map_some, ← huuid]
      change Except.map _ (if _ then _ else _) = _
      rw [if_pos hhas]
      rfl
    rw [Twins.SameAnswer, Twins.step, hanswer, htwin]
    have hmade : s.made.insert existing.id uuid.text = s.made := by
      refine ExtTreeMap.ext_getElem? fun id => ?_
      rw [getElem?_insert_eq]
      split
      · rename_i heq
        rw [← heq, hfound.made]
      · rfl
    refine ⟨rfl, ?_⟩
    change Simulates lib ⟨s.doc, s.replica, s.made.insert existing.id uuid.text⟩
    rw [hmade]
    exact h

/-- An add of a new todo makes it and its twin. -/
theorem add_new (h : Simulates lib s) {now : Instant} {todo : NewTodo} {fresh : Uuid}
    (hnone : todo.ticket.bind s.doc.ticketTodo = none) (hnamed : projectOf todo.project ≠ "")
    (hplaced : s.Placed todo.project todo.parent todo.order none) (hunused : s.Unused (Twins.uuidFor lib fresh todo))
    (hparent : ∀ parent ∈ todo.parent, ∃ key held uuid task twin, Found lib s parent key held uuid task twin) :
    s.SameAnswer lib ⟨.add now todo, fresh⟩ ∧ Simulates lib (s.step lib ⟨.add now todo, fresh⟩) := by
  have hmade : ∀ id ∈ todo.parent, id ∈ s.made := by
    intro id hid
    obtain ⟨_, _, _, _, _, hfound⟩ := hparent id hid
    exact hfound.mem_made
  have hchecked : ∀ id, todo.parent = some id → ∃ found, s.doc.todoMut id = .ok found := by
    intro id hid
    obtain ⟨_, _, _, _, _, hfound⟩ := hparent id hid
    exact ⟨_, hfound.todoMut⟩
  obtain ⟨hsame, hexact⟩ := h.placed todo.project none rfl hplaced hmade nofun
  have hanswer : s.answer ⟨.add now todo, fresh⟩ =
      .ok (⟨max s.doc.nextId 1 + 1, s.doc.todos.insert (max s.doc.nextId 1)
        ⟨idOf (max s.doc.nextId 1), oneLine todo.description, .pending, todo.parent,
          some (todo.order.getD (s.doc.afterLast todo.project todo.parent none)), todo.project, some now.text,
          some now.text, [], todo.ticket⟩⟩, some (idOf (max s.doc.nextId 1))) := by
    simp only [Twins.answer, Doc.answer, Doc.add, hnone]
    cases hof : todo.parent with
    | none => rfl
    | some id =>
      obtain ⟨found, hfound⟩ := hchecked id hof
      simp only [hfound]
      rfl
  have htwin : s.twinAnswer lib ⟨.add now todo, fresh⟩ =
      .ok (⟨s.replica.tasks.insert (Twins.uuidFor lib fresh todo) (Replica.newTask now
        { todo with parent := todo.parent.map (translate s.made) } (todo.parent.map (translate s.made))
          (todo.order.getD (s.doc.afterLast todo.project todo.parent none)))⟩,
        some (Twins.uuidFor lib fresh todo).text) := by
    simp only [Twins.twinAnswer, StoreCall.mapIds, Replica.answer, Replica.add, resolveParent_found hparent]
    cases hticket : todo.ticket with
    | none =>
      simp only [Twins.uuidFor, hticket, Option.map_none, Option.getD_none] at hunused ⊢
      rw [← hsame]
      rfl
    | some ticket =>
      have huuid : Twins.uuidFor lib fresh todo = ticketTodoUuid lib "" ticket.tracker ticket.key := by
        rw [Twins.uuidFor, hticket]
        rfl
      have hfree : ¬ s.replica.tasks.contains (ticketTodoUuid lib "" ticket.tracker ticket.key) = true := by
        rw [ExtTreeMap.contains_eq_isSome_getElem?]
        intro hhas
        obtain ⟨task, htask⟩ := Option.isSome_iff_exists.mp hhas
        obtain ⟨_, _, _, hfound⟩ := h.found_task htask
        exact hunused.1 _ (huuid ▸ hfound.made)
      rw [huuid, ← hsame]
      change Except.map _ (if _ then _ else _) = _
      rw [if_neg hfree]
      rfl
  rw [Twins.SameAnswer, Twins.step, hanswer, htwin]
  obtain ⟨node, hnode, hon⟩ := nodeOf_projectOf hnamed
  obtain ⟨entry, modified, hread⟩ := readAs_newTask lib now (Twins.uuidFor lib fresh todo)
    { todo with parent := todo.parent.map (translate s.made) } (todo.parent.map (translate s.made))
    (todo.order.getD (s.doc.afterLast todo.project todo.parent none)) hnode
  have hkey : s.doc.nextId ≤ max s.doc.nextId 1 := le_max_left _ _
  refine ⟨rfl, h.extend hkey hunused rfl hmade rfl (fun ticket hticket => ?_) hread
    ⟨?_, rfl, rfl, ?_, hexact, hon, fun blocker => ?_, rfl⟩⟩
  · rw [Twins.uuidFor, show todo.ticket = some ticket from hticket]
    rfl
  · exact (getElem?_insert_eq _ _ _ _).trans (if_pos rfl)
  · cases hof : todo.parent with
    | none => rfl
    | some parent =>
      rw [Option.map_some, Option.map_some, translate_insert (h.made_ne hkey (hmade parent hof))]
  · exact iff_of_false List.not_mem_nil fun ⟨_, hnamed, _⟩ => List.not_mem_nil hnamed

/-- A regular call is answered alike and keeps the stores in step. -/
theorem Simulates.step (h : Simulates lib s) {c : TwinCall} (hregular : s.Regular lib c) :
    s.SameAnswer lib c ∧ Simulates lib (s.step lib c) := by
  obtain ⟨call, fresh⟩ := c
  cases call with
  | edit now edit => exact (alike_edit h now edit hregular).step h fresh
  | add now todo =>
    obtain ⟨hmeant, hcase⟩ := hregular
    cases hexisting : todo.ticket.bind s.doc.ticketTodo with
    | some existing =>
      rw [hexisting] at hcase
      refine add_existing h hexisting fun parent hparent => ?_
      refine (h.found_or_missing (hmeant parent hparent)).resolve_right fun hgone => ?_
      have hfound : (s.doc.get parent).isSome = true := hcase parent hparent
      rw [hgone.get] at hfound
      contradiction
    | none =>
      rw [hexisting] at hcase
      obtain ⟨hnamed, hplaced, hunused⟩ := hcase
      by_cases hmissing : ∃ parent, todo.parent = some parent ∧ Missing lib s parent
      · obtain ⟨parent, hparent, hmissing⟩ := hmissing
        exact add_refused h hexisting hparent hmissing
      · refine add_new h hexisting hnamed hplaced hunused fun parent hparent => ?_
        exact (h.found_or_missing (hmeant parent hparent)).resolve_right fun hgone => hmissing ⟨parent, hparent, hgone⟩

end Calls

/-- Two new stores are in step. -/
theorem simulates_start (lib : TaskLibraries) : Simulates lib Twins.start := by
  have hnone : ∀ key : ℕ, (∅ : ExtTreeMap ℕ Todo)[key]? = none := fun key => ExtTreeMap.getElem?_empty
  have hempty : ∀ {key : ℕ} {todo : Todo}, Twins.start.doc.todos[key]? ≠ some todo := by
    intro key todo hheld
    exact nomatch (hnone key).symm.trans hheld
  refine ⟨⟨fun hheld => absurd hheld hempty, fun hheld => absurd hheld hempty⟩,
    ⟨fun {id text} hid => ?_, fun {id other text} hid => ?_⟩, fun hheld => absurd hheld hempty,
    fun {uuid task} hheld => ?_, fun hheld => absurd hheld hempty, fun hheld => absurd hheld hempty,
    fun hheld => absurd hheld hempty⟩
  · simp [Twins.start] at hid
  · simp [Twins.start] at hid
  · simp [Twins.start] at hheld

/-- Stores in step have lists that correspond. -/
theorem Simulates.corresponds {lib : TaskLibraries} {s : Twins} (h : Simulates lib s) : s.Corresponds lib := by
  refine ⟨fun todo htodo => ?_, fun twin htwin => ?_, fun todo htodo other hother twin htwin htwin' => ?_⟩
  · obtain ⟨key, htodo⟩ := mem_rows.mp htodo
    exact h.twin_mem htodo
  · obtain ⟨key, todo, htodo, htwins⟩ := h.todo_mem htwin
    exact ⟨todo, mem_rows.mpr ⟨key, htodo⟩, htwins⟩
  · obtain ⟨key, htodo⟩ := mem_rows.mp htodo
    obtain ⟨otherKey, hother⟩ := mem_rows.mp hother
    have hsame := h.names.injective htwin.id htwin'.id
    rw [h.numbered.keyed htodo, h.numbered.keyed hother, idOf_inj] at hsame
    subst hsame
    exact Option.some.inj (htodo.symm.trans hother)

/-- A script of regular calls on two new stores is answered alike, call by call, and leaves lists that correspond. -/
theorem twin_stores_agree (lib : TaskLibraries) (calls : List TwinCall)
    (hregular : Along (Twins.step lib) (Twins.Regular lib) Twins.start calls) :
    Along (Twins.step lib) (Twins.SameAnswer lib) Twins.start calls ∧
      (runFrom (Twins.step lib) Twins.start calls).Corresponds lib := by
  have hstep : ∀ s c, Simulates lib s → s.Regular lib c → Simulates lib (s.step lib c) := fun s c h hc => (h.step hc).2
  exact ⟨hregular.strengthen (Simulates lib) hstep (fun s c h hc => (h.step hc).1) (simulates_start lib),
    (hregular.invariant (Simulates lib) hstep (simulates_start lib)).corresponds⟩

section Sample

/-- The libraries where uuids are in the usual form and times are at the epoch. -/
def sampleLibraries : TaskLibraries where
  tryParse := Uuid.parse
  nameBased _ := ⟨"9f5b44a6-5fd7-5a1c-8a4f-0c6ee2c2a6f3", by decide, by decide⟩
  rfc3339 seconds := if seconds = 0 then some "1970-01-01T00:00:00+00:00" else none
  tryParse_text := Uuid.parse_text

/-- Two new uuids. -/
def firstUuid : Uuid := ⟨"0f7bb5b2-0a3c-4a07-9d3c-2f1d2a6c7e11", by decide, by decide⟩

def secondUuid : Uuid := ⟨"5c1e8d0a-7b42-4f6e-b0d9-93a4c5e6f702", by decide, by decide⟩

/-- When the sample calls are made. -/
def epoch : Instant := ⟨0, "1970-01-01T00:00:00+00:00"⟩

/-- A todo, one under it that waits on it, the first completed, and an edit of none. -/
def sampleScript : List TwinCall :=
  [⟨.add epoch ⟨none, "plan", none, none, none⟩, firstUuid⟩,
    ⟨.add epoch ⟨none, "build", some "1", none, none⟩, secondUuid⟩,
    ⟨.edit epoch (.block "2" ["1"]), firstUuid⟩,
    ⟨.edit epoch (.setStatus "1" .completed ⟨"agent"⟩), firstUuid⟩,
    ⟨.edit epoch (.describe "9" "gone"), firstUuid⟩]

/-- A todo that is told to wait on a word. -/
def wordScript : List TwinCall :=
  [⟨.add epoch ⟨none, "plan", none, none, none⟩, firstUuid⟩, ⟨.edit epoch (.block "1" ["later"]), firstUuid⟩]

/-- A uuid that is on no list is not used. -/
theorem unused_of_rows {s : Twins} {uuid : Uuid} (hmade : ∀ row ∈ s.made.toList, row.2 ≠ uuid.text)
    (hblockers : ∀ todo ∈ rows s.doc.todos, uuid.text ∉ todo.blockedBy) : s.Unused uuid :=
  ⟨fun id heq => hmade (id, uuid.text) (ExtTreeMap.mem_toList_iff_getElem?_eq_some.mpr heq) rfl, hblockers⟩

/-- The sample is answered alike, its last call refused by both, and leaves lists that correspond. -/
theorem twin_stores_agree_sample :
    Along (Twins.step sampleLibraries) (Twins.SameAnswer sampleLibraries) Twins.start sampleScript ∧
      (runFrom (Twins.step sampleLibraries) Twins.start sampleScript).Corresponds sampleLibraries := by
  refine twin_stores_agree sampleLibraries sampleScript
    ⟨⟨nofun, by decide, ⟨exact_of_lt (by decide +kernel), by decide +kernel⟩,
      unused_of_rows (by decide +kernel) (by decide +kernel)⟩,
      ⟨?_, by decide, ⟨exact_of_lt (by decide +kernel), by decide +kernel⟩,
        unused_of_rows (by decide +kernel) (by decide +kernel)⟩,
      ⟨Or.inl (by decide +kernel), ?_⟩, ⟨Or.inl (by decide +kernel), by decide⟩,
      Or.inr ⟨by decide +kernel, fun todo hfind => ?_⟩, trivial⟩
  · intro parent hparent
    obtain rfl := Option.some.inj hparent
    exact Or.inl (by decide +kernel)
  · intro blocker hblocker
    obtain rfl := List.mem_singleton.mp hblocker
    exact Or.inl (by decide +kernel)
  · exact nomatch Except.ok.inj hfind

/-- The stores do not agree on every script: a word is a blocker in one and none in the other. -/
theorem twin_stores_part : ¬ ∀ (lib : TaskLibraries) (calls : List TwinCall),
    Along (Twins.step lib) (Twins.SameAnswer lib) Twins.start calls ∧
      (runFrom (Twins.step lib) Twins.start calls).Corresponds lib := by
  intro hagree
  have hnone : ∀ twin ∈ (runFrom (Twins.step sampleLibraries) Twins.start wordScript).replica.todos sampleLibraries,
      twin.blockedBy = [] := by decide +kernel
  have hword : ∃ todo ∈ rows (runFrom (Twins.step sampleLibraries) Twins.start wordScript).doc.todos,
      "later" ∈ todo.blockedBy := by decide +kernel
  obtain ⟨todo, htodo, hblocker⟩ := hword
  obtain ⟨twin, htwin, hsame⟩ := (hagree sampleLibraries wordScript).2.twin todo htodo
  have hmem := (hsame.blockedBy _).mpr ⟨"later", hblocker, rfl⟩
  rw [hnone twin htwin] at hmem
  exact List.not_mem_nil hmem

end Sample

end Devkit.Todos
