import Devkit.Todos.TwinNames

/-!
# Edits of one todo on both stores

Between calls every todo has a task that is read as its twin, and every task is that of a todo. An edit
of one todo finds the two together or neither, and writes the todo and the task back so that they are
twins again.
-/

namespace Devkit.Todos

open Devkit.Library
open Std

/-- What every regular call keeps: each todo has one task, read as its twin, and parents and blockers are
ids that are translated one to one. -/
structure Simulates (lib : TaskLibraries) (s : Twins) : Prop where
  numbered : s.doc.Numbered
  names : OneToOne s.made s.doc.nextId
  live : ∀ {key : ℕ} {todo : Todo}, s.doc.todos[key]? = some todo → ∃ uuid task twin,
    s.replica.tasks[uuid]? = some task ∧ ReadAs lib uuid task twin ∧ Twin s.made todo twin
  task : ∀ {uuid : Uuid} {task : Properties}, s.replica.tasks[uuid]? = some task →
    ∃ (key : ℕ) (todo : Todo), s.doc.todos[key]? = some todo ∧ s.made[todo.id]? = some uuid.text
  parent : ∀ {key : ℕ} {todo : Todo}, s.doc.todos[key]? = some todo → ∀ id, todo.parent = some id → id ∈ s.made
  blocker : ∀ {key : ℕ} {todo : Todo}, s.doc.todos[key]? = some todo → ∀ id ∈ todo.blockedBy,
    id ∈ s.made ∨ Unreturned s.made id
  ticket : ∀ {key : ℕ} {todo : Todo}, s.doc.todos[key]? = some todo → ∀ ticket, todo.ticket = some ticket →
    s.made[todo.id]? = some (ticketTodoUuid lib "" ticket.tracker ticket.key).text

/-- An id that was returned names a todo and its task. -/
structure Found (lib : TaskLibraries) (s : Twins) (id : String) (key : ℕ) (todo : Todo) (uuid : Uuid)
    (task : Properties) (twin : Todo) : Prop where
  made : s.made[id]? = some uuid.text
  named : todo.id = id
  parsed : parseKey id = some key
  held : s.doc.todos[key]? = some todo
  stored : s.replica.tasks[uuid]? = some task
  read : ReadAs lib uuid task twin
  twins : Twin s.made todo twin

section Found

variable {lib : TaskLibraries} {s : Twins} {id : String} {key : ℕ} {todo : Todo} {uuid : Uuid}
  {task : Properties} {twin : Todo}

/-- A todo of the built-in store is found with its task. -/
theorem Simulates.found (h : Simulates lib s) (htodo : s.doc.todos[key]? = some todo) :
    ∃ uuid task twin, Found lib s todo.id key todo uuid task twin := by
  obtain ⟨uuid, task, twin, htask, hread, htwin⟩ := h.live htodo
  have hkey : parseKey todo.id = some key := by rw [h.numbered.keyed htodo, parseKey_idOf]
  exact ⟨uuid, task, twin, hread.id ▸ htwin.id, rfl, hkey, htodo, htask, hread, htwin⟩

/-- A task is found with its todo. -/
theorem Simulates.found_task (h : Simulates lib s) (htask : s.replica.tasks[uuid]? = some task) :
    ∃ key todo twin, Found lib s todo.id key todo uuid task twin := by
  obtain ⟨key, todo, htodo, hmade⟩ := h.task htask
  obtain ⟨other, task', twin, hfound⟩ := h.found htodo
  obtain rfl := Uuid.text_inj.mp (Option.some.inj (hmade.symm.trans hfound.made))
  obtain rfl := Option.some.inj (htask.symm.trans hfound.stored)
  exact ⟨key, todo, twin, hfound⟩

/-- The built-in store finds the todo. -/
theorem Found.todoMut (h : Found lib s id key todo uuid task twin) : s.doc.todoMut id = .ok (key, todo) :=
  Doc.todoMut_eq_ok.mpr ⟨h.parsed, h.held⟩

/-- The translated id is the uuid of the task. -/
theorem Found.translated (h : Found lib s id key todo uuid task twin) : translate s.made id = uuid.text :=
  translate_of_made h.made

/-- The id was returned. -/
theorem Found.mem_made (h : Found lib s id key todo uuid task twin) : id ∈ s.made :=
  ExtTreeMap.mem_iff_isSome_getElem?.mpr (by rw [h.made]; rfl)

/-- The other store finds the twin. -/
theorem Found.resolve (h : Found lib s id key todo uuid task twin) :
    s.replica.resolve lib (translate s.made id) = .ok twin := by
  rw [Replica.resolve, h.translated, find_text, h.stored, Option.bind_some,
    (todoFrom_eq_some h.read.canonical).mpr h.read]
  rfl

/-- The task behind the twin is the task. -/
theorem Found.taskOf (h : Found lib s id key todo uuid task twin) (asked : String) :
    s.replica.taskOf lib twin asked = .ok (uuid, task) := by
  simp only [Replica.taskOf, h.read.id, lib.tryParse_text, h.stored]

/-- A change of the twin writes its task. -/
theorem Found.change (h : Found lib s id key todo uuid task twin) (write : Writer → Writer) :
    s.replica.change lib twin write = .ok ⟨s.replica.tasks.insert uuid (write (Writer.new task)).task⟩ := by
  rw [Replica.change, h.taskOf]
  rfl

/-- The todo's parent was returned by an add. -/
theorem Found.parents (hfound : Found lib s id key todo uuid task twin) (h : Simulates lib s) :
    ∀ parent, todo.parent = some parent → parent ∈ s.made := h.parent hfound.held

/-- The todo's blockers were returned by adds, or are uuids none returned. -/
theorem Found.blockers (hfound : Found lib s id key todo uuid task twin) (h : Simulates lib s) :
    ∀ blocker ∈ todo.blockedBy, blocker ∈ s.made ∨ Unreturned s.made blocker := h.blocker hfound.held

/-- A text that names no todo is refused by the built-in store. -/
theorem todoMut_of_get {doc : Doc} {id : String} (h : doc.get id = none) : doc.todoMut id = .error (.noTodo id) := by
  unfold Doc.todoMut
  have hnone : ((parseKey id).bind fun key => (doc.todos[key]?).map fun todo => (key, todo)) = none := by
    cases hkey : parseKey id with
    | none => rfl
    | some key =>
      rw [Doc.get, hkey, Option.bind_some] at h
      rw [Option.bind_some, h, Option.map_none]
  rw [hnone]

/-- A text that finds no todo is refused by the other store. -/
theorem resolve_of_find {r : Replica} {id : String} (h : ∀ todo, r.find lib id ≠ .ok (some todo)) :
    ∃ failure, r.resolve lib id = .error failure := by
  rw [Replica.resolve]
  cases hfind : r.find lib id with
  | error failure => exact ⟨failure, rfl⟩
  | ok found =>
    cases found with
    | none => exact ⟨_, rfl⟩
    | some todo => exact absurd hfind (h todo)

/-- Neither store finds a todo of the id. -/
structure Missing (lib : TaskLibraries) (s : Twins) (id : String) : Prop where
  get : s.doc.get id = none
  resolve : ∃ failure, s.replica.resolve lib (translate s.made id) = .error failure

/-- An id that was returned, or names nothing, is found in both stores or in neither. -/
theorem Simulates.found_or_missing (h : Simulates lib s) (hmeant : s.Meant lib id) :
    (∃ key todo uuid task twin, Found lib s id key todo uuid task twin) ∨ Missing lib s id := by
  by_cases hmem : id ∈ s.made
  · obtain ⟨uuid, huuid⟩ := h.names.uuid_of_mem hmem
    obtain ⟨key, _, rfl, _, _⟩ := h.names.returned huuid
    cases htodo : s.doc.todos[key]? with
    | some todo =>
      obtain ⟨uuid', task, twin, hfound⟩ := h.found htodo
      rw [h.numbered.keyed htodo] at hfound
      exact Or.inl ⟨key, todo, uuid', task, twin, hfound⟩
    | none =>
      refine Or.inr ⟨by rw [Doc.get, parseKey_idOf, Option.bind_some, htodo], ?_⟩
      rw [translate_of_made huuid]
      refine resolve_of_find fun twin hfind => ?_
      rw [find_text] at hfind
      obtain ⟨task, htask, _⟩ := Option.bind_eq_some_iff.mp (Except.ok.inj hfind)
      obtain ⟨key', todo, _, hfound⟩ := h.found_task htask
      have hsame := h.names.injective huuid hfound.made
      rw [h.numbered.keyed hfound.held, idOf_inj] at hsame
      subst hsame
      rw [hfound.held] at htodo
      contradiction
  · have hunknown := hmeant.resolve_left hmem
    refine Or.inr ⟨hunknown.1, ?_⟩
    rw [translate_of_not_mem hmem]
    exact resolve_of_find hunknown.2

/-- Writing a todo and its task back as twins keeps the stores in step. -/
theorem Simulates.put (h : Simulates lib s) (hfound : Found lib s id key todo uuid task twin) {todo' twin' : Todo}
    {task' : Properties} (hid : todo'.id = todo.id)
    (hticket : ∀ ticket', todo'.ticket = some ticket' → ∃ ticket, todo.ticket = some ticket ∧
      ticket'.tracker = ticket.tracker ∧ ticket'.key = ticket.key)
    (hparent : ∀ parent, todo'.parent = some parent → parent ∈ s.made)
    (hblockers : ∀ blocker ∈ todo'.blockedBy, blocker ∈ s.made ∨ Unreturned s.made blocker)
    (hread : ReadAs lib uuid task' twin') (htwin : Twin s.made todo' twin') :
    Simulates lib ⟨s.doc.put key todo', ⟨s.replica.tasks.insert uuid task'⟩, s.made⟩ := by
  have hcases : ∀ {other : ℕ} {held : Todo}, (s.doc.put key todo').todos[other]? = some held →
      (other = key ∧ held = todo') ∨ (other ≠ key ∧ s.doc.todos[other]? = some held) := by
    intro other held hheld
    rw [Doc.getElem?_put] at hheld
    split at hheld
    · rename_i heq
      exact Or.inl ⟨heq.symm, (Option.some.inj hheld).symm⟩
    · rename_i hne
      exact Or.inr ⟨fun heq => hne heq.symm, hheld⟩
  refine ⟨?_, h.names, ?_, ?_, ?_, ?_, ?_⟩
  · refine ⟨fun {other held} hheld => ?_, fun {other held} hheld => ?_⟩
    · rcases hcases hheld with ⟨rfl, rfl⟩ | ⟨_, hbefore⟩
      · exact hid.trans (h.numbered.keyed hfound.held)
      · exact h.numbered.keyed hbefore
    · rcases hcases hheld with ⟨rfl, rfl⟩ | ⟨_, hbefore⟩
      · exact h.numbered.counted hfound.held
      · exact h.numbered.counted hbefore
  · intro other held hheld
    rcases hcases hheld with ⟨rfl, rfl⟩ | ⟨hne, hbefore⟩
    · exact ⟨uuid, task', twin', (getElem?_insert_eq _ uuid uuid task').trans (if_pos rfl), hread, htwin⟩
    · obtain ⟨uuid', task'', twin'', htask, hread', htwin'⟩ := h.live hbefore
      refine ⟨uuid', task'', twin'', ?_, hread', htwin'⟩
      change (s.replica.tasks.insert uuid task')[uuid']? = some task''
      rw [getElem?_insert_eq, if_neg, htask]
      rintro rfl
      have hsame := h.names.injective (hread'.id ▸ htwin'.id) hfound.made
      rw [h.numbered.keyed hbefore, ← hfound.named, h.numbered.keyed hfound.held, idOf_inj] at hsame
      exact hne hsame
  · intro other held hheld
    change (s.replica.tasks.insert uuid task')[other]? = some held at hheld
    rw [getElem?_insert_eq] at hheld
    split at hheld
    · rename_i heq
      refine ⟨key, todo', (Doc.getElem?_put s.doc key key todo').trans (if_pos rfl), ?_⟩
      rw [hid, hfound.named, ← heq]
      exact hfound.made
    · rename_i hne
      obtain ⟨key', held', hheld', hmade⟩ := h.task hheld
      refine ⟨key', held', (Doc.getElem?_put s.doc key key' todo').trans ?_, hmade⟩
      rw [if_neg, hheld']
      rintro rfl
      obtain rfl := Option.some.inj (hfound.held.symm.trans hheld')
      rw [hfound.named, hfound.made] at hmade
      exact hne (Uuid.text_inj.mp (Option.some.inj hmade))
  · intro other held hheld parent hunder
    rcases hcases hheld with ⟨rfl, rfl⟩ | ⟨_, hbefore⟩
    · exact hparent parent hunder
    · exact h.parent hbefore parent hunder
  · intro other held hheld blocker hblocker
    rcases hcases hheld with ⟨rfl, rfl⟩ | ⟨_, hbefore⟩
    · exact hblockers blocker hblocker
    · exact h.blocker hbefore blocker hblocker
  · intro other held hheld ticket' hhas
    rcases hcases hheld with ⟨rfl, rfl⟩ | ⟨_, hbefore⟩
    · obtain ⟨ticket, hof, htracker, hkey⟩ := hticket ticket' hhas
      rw [hid, htracker, hkey]
      exact h.ticket hfound.held ticket hof
    · exact h.ticket hbefore ticket' hhas

end Found

/-- Both stores accept a call and stay in step, or both refuse it. -/
inductive Alike (lib : TaskLibraries) (s : Twins) {A B : Type} :
    Except StoreError (Doc × A) → Except ReplicaError (Replica × B) → Prop
  | accepted {doc : Doc} {r : Replica} {a : A} {b : B} (h : Simulates lib ⟨doc, r, s.made⟩) :
    Alike lib s (.ok (doc, a)) (.ok (r, b))
  | refused {failure : StoreError} {failure' : ReplicaError} : Alike lib s (.error failure) (.error failure')

section Statuses

/-- A started task that is read back has a named holder. -/
theorem named_of_read {status : String} {start holder : Option String} {claimant : Holder}
    (h : readTaskStatus status start holder = some (.inProgress claimant)) : claimant.text ≠ "" := by
  unfold readTaskStatus at h
  dsimp only at h
  split at h
  · split at h
    · obtain rfl := Status.inProgress.inj (Option.some.inj h)
      cases hnamed : holder.filter (· ≠ "") with
      | none => exact by decide
      | some name =>
        obtain ⟨_, hname⟩ := Option.filter_eq_some_iff.mp hnamed
        simpa using hname
    · exact Status.noConfusion (Option.some.inj h)
  · split at h
    · exact Status.noConfusion (Option.some.inj h)
    · split at h
      · exact Status.noConfusion (Option.some.inj h)
      · contradiction

/-- Who has a name moves a todo to a status that can be recorded, and so does anyone who makes it pending. -/
theorem recordable_moved {target : StatusKind} {actor : Holder} {claimant : Option Holder}
    (hactor : actor.text = "" → target = .pending) (hclaimant : ∀ holder ∈ claimant, holder.text ≠ "") :
    Recordable (moved target actor claimant) := by
  have hended : target ≠ .pending → (claimant.getD actor).text ≠ "" := by
    intro htarget
    cases claimant with
    | none => exact fun hunnamed => htarget (hactor hunnamed)
    | some holder => exact hclaimant holder rfl
  cases target with
  | pending => exact True.intro
  | inProgress => exact fun hunnamed => StatusKind.noConfusion (hactor hunnamed)
  | completed => exact ⟨_, rfl, hended StatusKind.noConfusion⟩
  | cancelled => exact ⟨_, rfl, hended StatusKind.noConfusion⟩

/-- A change of status by who has a name, or to pending, can be recorded. -/
theorem recordable_transition {current next : Status} {target : StatusKind} {actor : Holder}
    (hactor : actor.text = "" → target = .pending)
    (hcurrent : ∀ holder, current = .inProgress holder → holder.text ≠ "")
    (h : transition current target actor = .ok (some next)) : Recordable next := by
  unfold transition at h
  split at h
  · rename_i holder
    have hstarts : target = .inProgress → Recordable (.inProgress actor) := fun htarget hunnamed =>
      StatusKind.noConfusion (htarget.symm.trans (hactor hunnamed))
    split at h
    · rename_i hstart
      obtain rfl := Option.some.inj (Except.ok.inj h)
      exact hstarts hstart.1
    · split at h
      · cases h
      · split at h
        · rename_i hbelow
          obtain rfl := Option.some.inj (Except.ok.inj h)
          exact hstarts hbelow.1
        · split at h
          · cases h
          · obtain rfl := Option.some.inj (Except.ok.inj h)
            refine recordable_moved hactor fun claimant hclaimant => ?_
            rw [← Option.some.inj hclaimant]
            exact hcurrent holder rfl
  · split at h
    · cases h
    · obtain rfl := Option.some.inj (Except.ok.inj h)
      exact recordable_moved hactor nofun

/-- A take-over by who has a name can be recorded. -/
theorem recordable_takeOver {current next : Status} {source actor : Holder} (hactor : actor.text ≠ "")
    (hcurrent : ∀ holder, current = .inProgress holder → holder.text ≠ "")
    (h : takeOver current source actor = .ok (some next)) : Recordable next := by
  have hnamed : actor.text = "" → StatusKind.inProgress = .pending := fun hunnamed => absurd hunnamed hactor
  unfold takeOver at h
  split at h
  · split at h
    · obtain rfl := Option.some.inj (Except.ok.inj h)
      exact hactor
    · exact recordable_transition hnamed hcurrent h
  · exact recordable_transition hnamed hcurrent h

end Statuses

/-- The project of a node with a name is read as that node. -/
theorem nodeOf_projectOf {project : Option String} (hnamed : projectOf project ≠ "") :
    ∃ node, nodeOf (projectOf project) = some node ∧ node.getD globalNode = projectOf project := by
  refine ⟨_, if_neg hnamed, ?_⟩
  split
  · rename_i hglobal
    exact hglobal.symm
  · rfl

section Edits

variable {lib : TaskLibraries} {s : Twins} (h : Simulates lib s) (now : Instant) {id : String}

include h

/-- Calls that find their todo first are alike when they are once it is found. -/
theorem alike_of_found {A B : Type} (hmeant : s.Meant lib id) {f : ℕ × Todo → Except StoreError (Doc × A)}
    {g : Todo → Except ReplicaError (Replica × B)}
    (hfound : ∀ {key : ℕ} {todo : Todo} {uuid : Uuid} {task : Properties} {twin : Todo},
      Found lib s id key todo uuid task twin → Alike lib s (f (key, todo)) (g twin)) :
    Alike lib s (s.doc.todoMut id >>= f) (s.replica.resolve lib (translate s.made id) >>= g) := by
  cases h.found_or_missing hmeant with
  | inl hboth =>
    obtain ⟨key, todo, uuid, task, twin, hboth⟩ := hboth
    rw [hboth.todoMut, hboth.resolve]
    exact hfound hboth
  | inr hmissing =>
    obtain ⟨failure, hfailure⟩ := hmissing.resolve
    rw [todoMut_of_get hmissing.get, hfailure]
    exact .refused

/-- A todo written back without its task's ids changed is alike its task written back. -/
theorem alike_put {A B : Type} {key : ℕ} {todo todo' twin twin' : Todo} {uuid : Uuid} {task : Properties} {a : A}
    {b : B} (hfound : Found lib s id key todo uuid task twin) (write : Writer → Writer) (hid : todo'.id = todo.id)
    (hticket : ∀ ticket', todo'.ticket = some ticket' → ∃ ticket, todo.ticket = some ticket ∧
      ticket'.tracker = ticket.tracker ∧ ticket'.key = ticket.key)
    (hparent : ∀ parent, todo'.parent = some parent → parent ∈ s.made)
    (hblockers : ∀ blocker ∈ todo'.blockedBy, blocker ∈ s.made ∨ Unreturned s.made blocker)
    (hread : ReadAs lib uuid (write (Writer.new task)).task twin') (htwin : Twin s.made todo' twin') :
    Alike lib s (.ok (s.doc.put key todo', a)) (s.replica.change lib twin write >>= fun r => .ok (r, b)) := by
  rw [hfound.change]
  exact .accepted (h.put hfound hid hticket hparent hblockers hread htwin)

/-- A description is written alike. -/
theorem alike_describe (description : String) (hmeant : s.Meant lib id) :
    Alike lib s (s.doc.apply now (.describe id description))
      (s.replica.apply lib now (.describe (translate s.made id) description)) := by
  refine alike_of_found h hmeant fun {key todo uuid task twin} hfound => ?_
  exact alike_put h hfound _ rfl (fun ticket hticket => ⟨ticket, hticket, rfl, rfl⟩) (hfound.parents h)
    (hfound.blockers h) (ReadAs.setDescription now hfound.read (oneLine description))
    { hfound.twins with description := rfl }

/-- An order that is read back is written alike. -/
theorem alike_reorder (order : Int64) (hmeant : s.Meant lib id) (hexact : Twins.Exact order) :
    Alike lib s (s.doc.apply now (.reorder id order))
      (s.replica.apply lib now (.reorder (translate s.made id) order)) := by
  refine alike_of_found h hmeant fun {key todo uuid task twin} hfound => ?_
  exact alike_put h hfound _ rfl (fun ticket hticket => ⟨ticket, hticket, rfl, rfl⟩) (hfound.parents h)
    (hfound.blockers h) (ReadAs.setOrder now hfound.read (orderText order))
    { hfound.twins with order := hexact }

/-- A node with a name is written alike. -/
theorem alike_relocate (project : Option String) (hmeant : s.Meant lib id) (hnamed : projectOf project ≠ "") :
    Alike lib s (s.doc.apply now (.relocate id project))
      (s.replica.apply lib now (.relocate (translate s.made id) project)) := by
  refine alike_of_found h hmeant fun {key todo uuid task twin} hfound => ?_
  obtain ⟨node, hnode, hread⟩ := nodeOf_projectOf hnamed
  exact alike_put h hfound _ rfl (fun ticket hticket => ⟨ticket, hticket, rfl, rfl⟩) (hfound.parents h)
    (hfound.blockers h) (ReadAs.setProject now hfound.read hnode) { hfound.twins with node := hread }

/-- A synced status is recorded alike. -/
theorem alike_recordSync (syncedStatus : String) (hmeant : s.Meant lib id) :
    Alike lib s (s.doc.apply now (.recordSync id syncedStatus))
      (s.replica.apply lib now (.recordSync (translate s.made id) syncedStatus)) := by
  refine alike_of_found h hmeant fun {key todo uuid task twin} hfound => ?_
  cases hticket : todo.ticket with
  | none =>
    simp only [hticket, hfound.twins.ticket.trans hticket, Option.isNone_none, if_pos]
    exact .refused
  | some ticket =>
    have htwin : twin.ticket = some ticket := hfound.twins.ticket.trans hticket
    simp only [hticket, htwin, Option.isNone_some]
    refine alike_put h hfound _ rfl (fun ticket' hticket' => ⟨ticket, hticket, ?_, ?_⟩) (hfound.parents h)
      (hfound.blockers h) (ReadAs.setTicketStatus now hfound.read htwin syncedStatus)
      { hfound.twins with ticket := rfl }
    · rw [← Option.some.inj hticket']
    · rw [← Option.some.inj hticket']

/-- A change of status is alike, where the rule leads to statuses that can be recorded. -/
theorem alike_changeStatus (rule : Status → Except Claimed (Option Status)) (hmeant : s.Meant lib id)
    (hrule : ∀ current next, (∀ holder, current = .inProgress holder → holder.text ≠ "") →
      rule current = .ok (some next) → Recordable next) :
    Alike lib s (s.doc.changeStatus now id rule) (s.replica.changeStatus lib now (translate s.made id) rule) := by
  cases h.found_or_missing hmeant with
  | inr hmissing =>
    obtain ⟨failure, hfailure⟩ := hmissing.resolve
    rw [Doc.changeStatus, todoMut_of_get hmissing.get, Replica.changeStatus, hfailure]
    exact .refused
  | inl hboth =>
    obtain ⟨key, todo, uuid, task, twin, hfound⟩ := hboth
    rw [Doc.changeStatus, hfound.todoMut, Replica.changeStatus, hfound.resolve]
    dsimp only [bind, Except.bind]
    rw [hfound.twins.status]
    have hread := hfound.read.status
    rw [hfound.twins.status] at hread
    cases hnext : rule todo.status with
    | error claim => exact .refused
    | ok next =>
      cases next with
      | none => exact .accepted h
      | some next =>
        have hrecordable := hrule todo.status next (fun holder hholder => named_of_read (hholder ▸ hread)) hnext
        exact alike_put h hfound _ rfl (fun ticket hticket => ⟨ticket, hticket, rfl, rfl⟩) (hfound.parents h)
          (hfound.blockers h) (ReadAs.writeStatus now hfound.read hrecordable)
          { hfound.twins with status := rfl }

end Edits

end Devkit.Todos
