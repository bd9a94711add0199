import Devkit.Library.Selections
import Devkit.Todos.ListWrites
import Devkit.Todos.Pruned

/-!
# What one call leaves of a resent list

A holder's remembered steps point at todos of their own that say what the steps say and stand no
earlier than the steps' places. A call that is not refused and names no ticket leaves each step of
its list with such a todo: a new one, or that of the step it continues.
-/

namespace Devkit.Todos.Native

open Devkit.Library
open Std

namespace Mirroring

/-- The todo of a remembered step says what the step says, is no ticket's, and stands no earlier than
the step's place. -/
structure Keeps (doc : Doc) (place : ℕ) (step : MirroredStep) (key : ℕ) : Prop where
  todo : step.todo = idOf key
  counted : key < doc.nextId
  face : ∀ seen, doc.face key = some seen → seen.description = step.text ∧ seen.ticket = none ∧
    ∃ order, seen.order = some order ∧ (place : ℤ) * 1024 ≤ order.toInt

/-- A store whose holder's remembered steps have todos of their own. -/
structure Sound (harness : Harness) (holder : Holder) (s : Mirroring) : Prop where
  numbered : s.doc.Numbered
  keeps : ∀ (place : ℕ) (step : MirroredStep), (s.native.snapshot harness holder)[place]? = some step →
    ∃ key, Keeps s.doc place step key
  distinct : ((s.native.snapshot harness holder).map MirroredStep.todo).Nodup

/-- The order the todo of a remembered step is stored with. -/
def storedOrder (s : Mirroring) (previous : List Mirrored) (i : ℕ) : Option Int64 := do
  let prev ← previous[i]?
  let todo ← s.doc.get prev.todo
  todo.order

/-- The order a step of a list has after the call: the stored one where the step continues the one
remembered at its own place, that of its place otherwise. -/
def orderAfter (s : Mirroring) (harness : Harness) (holder : Holder) (next : List Step) (j : ℕ) : Int64 :=
  let previous := s.previous harness holder
  if (pair previous next)[j]? = some (some j) then (s.storedOrder previous j).getD (placeOrder j)
  else placeOrder j

section Previous

variable {harness : Harness} {holder : Holder} {s : Mirroring}

/-- The todo of a canonical id is the one under its key. -/
theorem get_idOf (doc : Doc) (key : ℕ) : doc.get (idOf key) = doc.todos[key]? := by
  rw [Doc.get, parseKey_idOf]
  rfl

/-- A previous step, the key of its todo and what is seen there. -/
structure Backed (s : Mirroring) (i : ℕ) (prev : Mirrored) (key : ℕ) (seen : Face) : Prop where
  todo : prev.todo = idOf key
  counted : key < s.doc.nextId
  face : s.doc.face key = some seen
  text : seen.description = prev.text
  kind : seen.kind = prev.status
  ticket : seen.ticket = none
  order : ∃ order, seen.order = some order ∧ (i : ℤ) * 1024 ≤ order.toInt

/-- The todos a call reads are stored under the keys of their ids, and are no tickets'. -/
theorem Sound.todosOf (hsound : Sound harness holder s) {todo : Todo} (htodo : todo ∈ s.todosOf harness holder) :
    todo.ticket = none ∧ ∃ key, s.doc.todos[key]? = some todo ∧ todo.id = idOf key := by
  obtain ⟨step, hstep, hget⟩ := List.mem_filterMap.mp htodo
  obtain ⟨place, hplace⟩ := List.mem_iff_getElem?.mp hstep
  obtain ⟨key, hkeeps⟩ := hsound.keeps place step hplace
  rw [hkeeps.todo, get_idOf] at hget
  exact ⟨(hkeeps.face todo.face (Doc.face_eq_some.mpr ⟨todo, hget, rfl⟩)).2.1, key, hget,
    hsound.numbered.keyed hget⟩

/-- Every previous step has a todo that says what the step says. -/
theorem Sound.backed (hsound : Sound harness holder s) {i : ℕ} {prev : Mirrored}
    (hprev : (s.previous harness holder)[i]? = some prev) : ∃ key seen, Backed s i prev key seen := by
  obtain ⟨place, step, hle, hstep, h⟩ := getElem?_filterMap_eq_some hprev
  obtain ⟨todo, hfind, h⟩ := Option.bind_eq_some_iff.mp h
  obtain ⟨key, hkeeps⟩ := hsound.keeps place step hstep
  obtain ⟨hnone, found, hfound, hid⟩ := hsound.todosOf (List.mem_of_find?_eq_some hfind)
  have hnamed : (todo.id == step.todo) = true :=
    List.find?_some (p := fun todo : Todo => todo.id == step.todo) hfind
  rw [beq_iff_eq, hid, hkeeps.todo, idOf_inj] at hnamed
  subst hnamed
  have hface : s.doc.face found = some todo.face := Doc.face_eq_some.mpr ⟨todo, hfound, rfl⟩
  obtain ⟨htext, hticket, order, horder, hplace⟩ := hkeeps.face todo.face hface
  have hstatus : prev = ⟨step.text, step.todo, todo.status.kind⟩ := by
    rw [← Option.some.inj h, hnone]
    cases step.status <;> rfl
  subst hstatus
  exact ⟨found, todo.face, hkeeps.todo, hkeeps.counted, hface, htext, rfl, hticket, order, horder, by omega⟩

/-- The previous steps have different todos. -/
theorem Sound.previous_distinct (hsound : Sound harness holder s) :
    ((s.previous harness holder).map Mirrored.todo).Nodup := by
  refine (sublist_map_filterMap (fun step prev h => ?_) _).nodup hsound.distinct
  obtain ⟨todo, _, h⟩ := Option.bind_eq_some_iff.mp h
  obtain rfl := Option.some.inj h
  rfl

/-- Two previous steps of one todo are the same. -/
theorem Sound.previous_inj (hsound : Sound harness holder s) {i k : ℕ} {prev other : Mirrored}
    (hprev : (s.previous harness holder)[i]? = some prev)
    (hother : (s.previous harness holder)[k]? = some other) (htodo : prev.todo = other.todo) : i = k := by
  refine (List.getElem?_inj ?_ hsound.previous_distinct).mp ?_
  · rw [List.length_map]
    exact (List.getElem?_eq_some_iff.mp hprev).1
  · rw [List.getElem?_map, List.getElem?_map, hprev, hother, Option.map_some, Option.map_some, htodo]

end Previous

/-- A relocation changes nothing a list sees, and no ticket's todo. -/
structure Relocated (doc doc' : Doc) : Prop where
  numbered : doc.Numbered → doc'.Numbered
  nextId : doc'.nextId = doc.nextId
  face : ∀ key, doc'.face key = doc.face key
  tickets : ∀ (key : ℕ) (todo : Todo), doc'.todos[key]? = some todo → todo.ticket.isSome = true →
    doc.todos[key]? = some todo

/-- Relocating a todo that is no ticket's is a relocation. -/
theorem relocated_apply {doc doc' : Doc} {now : Instant} {key : ℕ} {project : Option String}
    {changes : List StatusChange} (h : doc.apply now (.relocate (idOf key) project) = .ok (doc', changes))
    (hticket : ∀ seen, doc.face key = some seen → seen.ticket = none) : Relocated doc doc' := by
  obtain ⟨hnext, hface⟩ := Doc.apply_relocate_face h
  refine ⟨fun hnumbered => hnumbered.kept (Doc.apply_kept h), hnext, hface, fun other todo htodo hsome => ?_⟩
  have hne : other ≠ key := by
    rintro rfl
    have hseen : doc.face other = some todo.face := (hface other).symm.trans (Doc.face_eq_some.mpr ⟨todo, htodo, rfl⟩)
    have hnone : todo.ticket = none := hticket _ hseen
    rw [hnone] at hsome
    contradiction
  obtain ⟨⟨found, before⟩, hmut, h⟩ := bind_eq_ok.mp h
  obtain ⟨hkey, -⟩ := Doc.todoMut_eq_ok.mp hmut
  obtain rfl := Option.some.inj ((parseKey_idOf key).symm.trans hkey)
  obtain ⟨rfl, -⟩ := Prod.mk.inj (Except.ok.inj h)
  rwa [Doc.getElem?_put, if_neg (Ne.symm hne)] at htodo

/-- Relocations of todos that are no tickets' are one. -/
theorem relocated_foldlM {clock : ℕ → Instant} {edits : List Edit} {doc doc' : Doc} {writes writes' : ℕ}
    (h : edits.foldlM (fun state edit => writeOrStop clock edit state) (doc, writes) = .ok (doc', writes'))
    (hedits : ∀ edit ∈ edits, ∃ key project, edit = .relocate (idOf key) project ∧
      ∀ seen, doc.face key = some seen → seen.ticket = none) : Relocated doc doc' := by
  induction edits generalizing doc writes with
  | nil =>
    obtain ⟨rfl, -⟩ := Prod.mk.inj (Except.ok.inj h)
    exact ⟨id, rfl, fun _ => rfl, fun _ _ htodo _ => htodo⟩
  | cons edit rest ih =>
    rw [List.foldlM_cons] at h
    obtain ⟨⟨middle, count⟩, hfirst, hrest⟩ := bind_eq_ok.mp h
    obtain ⟨key, project, rfl, hticket⟩ := hedits edit List.mem_cons_self
    unfold writeOrStop at hfirst
    split at hfirst
    · rename_i changes happly
      obtain ⟨rfl, -⟩ := Prod.mk.inj (Except.ok.inj hfirst)
      have hstep := relocated_apply happly hticket
      have hlater := ih hrest fun edit hmem => by
        obtain ⟨key, project, hedit, hnone⟩ := hedits edit (List.mem_cons_of_mem _ hmem)
        exact ⟨key, project, hedit, fun seen hseen => hnone seen (hstep.face key ▸ hseen)⟩
      exact ⟨hlater.numbered ∘ hstep.numbered, hlater.nextId.trans hstep.nextId,
        fun key => (hlater.face key).trans (hstep.face key),
        fun key todo htodo hsome => hstep.tickets key todo (hlater.tickets key todo htodo hsome) hsome⟩
    · contradiction

/-- A text that names no ticket among some todos names none among fewer. -/
theorem namesNone_mono {c : Capture} {next : List Step} {todos fewer : List Todo}
    (hsub : ∀ todo ∈ fewer, todo.ticket.isSome = true → todo ∈ todos) (h : NamesNone c next todos) :
    NamesNone c next fewer := by
  intro step hstep
  have hnone := h step hstep
  unfold Capture.ticketNamed at hnone ⊢
  cases horigin : c.origin with
  | none => rfl
  | some isLocal =>
    rw [horigin] at hnone
    have hopen : ∀ todo ∈ fewer.filter openTicket, todo ∈ todos.filter openTicket := by
      intro todo htodo
      obtain ⟨hmem, hopen⟩ := List.mem_filter.mp htodo
      exact List.mem_filter.mpr ⟨hsub todo hmem (Bool.and_eq_true_iff.mp hopen).2, hopen⟩
    simp only [Option.bind_some, Option.map_eq_none_iff, namedTicket, Option.or_eq_none_iff,
      List.find?_eq_none] at hnone ⊢
    exact ⟨fun todo htodo => hnone.1 todo (hopen todo htodo), fun todo htodo => hnone.2 todo (hopen todo htodo)⟩

/-- After relocations the repository's todos name no ticket that they did not name before. -/
theorem Relocated.namesNone {c : Capture} {next : List Step} {doc doc' : Doc} (hrelocated : Relocated doc doc')
    (h : NamesNone c next (c.repoTodos doc)) : NamesNone c next (c.repoTodos doc') := by
  refine namesNone_mono (fun todo htodo hsome => ?_) h
  unfold Capture.repoTodos at htodo ⊢
  cases hrepo : c.repo with
  | none =>
    rw [hrepo] at htodo
    exact absurd htodo List.not_mem_nil
  | some repo =>
    rw [hrepo] at htodo
    obtain ⟨hrow, hnode⟩ := List.mem_filter.mp htodo
    obtain ⟨key, hkey⟩ := mem_rows.mp hrow
    exact List.mem_filter.mpr ⟨mem_rows.mpr ⟨key, hrelocated.tickets key todo hkey hsome⟩, hnode⟩

section Call

variable {c : Capture} {clock : ℕ → Instant} {s : Mirroring} {list : List Item}

/-- A call that is not refused relocated, wrote all its changes, and remembers its list. -/
theorem listReplace_ok (h : (s.listReplace c clock list).2 = .ok ()) : ∃ doc writes state,
    (relocates c (s.todosOf c.harness c.actor) (s.previous c.harness c.actor)).foldlM
        (fun state edit => writeOrStop clock edit state) (s.doc, 0) = .ok (doc, writes) ∧
      (diff (s.previous c.harness c.actor) (stepsOf list)).foldlM
        (Replacing.change c clock
          (fun id => (s.todosOf c.harness c.actor).any fun todo => todo.id == id && todo.ticket.isSome)
          (s.previous c.harness c.actor) (stepsOf list))
        ⟨doc, writes, s.continued c.harness c.actor (stepsOf list), none, [], none⟩ = .ok state ∧
      state.failed = none ∧ (s.listReplace c clock list).1 = ⟨state.doc, s.native.setSnapshot c.harness c.actor
        (remembered (stepsOf list) state.ids state.uncancelled)⟩ := by
  unfold listReplace at h ⊢
  dsimp only at h ⊢
  split at h
  · contradiction
  · rename_i state hreplaced
    obtain ⟨⟨doc, writes⟩, hrelocated, hchanged⟩ := bind_eq_ok.mp hreplaced
    refine ⟨doc, writes, state, hrelocated, hchanged, ?_, ?_⟩
    · cases hfailed : state.failed with
      | none => rfl
      | some refusal =>
        rw [hfailed] at h
        contradiction
    · rfl

end Call

section Continued

variable {harness : Harness} {holder : Holder} {s : Mirroring} {next : List Step} {j i key : ℕ} {prev : Mirrored}
  {step : Step} {seen : Face}

/-- The last member of a list whose members are all the same. -/
theorem getLast?_getD_eq {A : Type*} {l : List A} {value default : A} (hall : ∀ x ∈ l, x = value)
    (hnone : l = [] → default = value) : l.getLast?.getD default = value := by
  cases hlast : l.getLast? with
  | none => exact hnone (List.getLast?_eq_none_iff.mp hlast)
  | some last => exact hall last (List.mem_of_getLast? hlast)

/-- The order a previous step is stored with is the one seen of its todo. -/
theorem Backed.storedOrder (hbacked : Backed s i prev key seen)
    (hprev : (s.previous harness holder)[i]? = some prev) {order : Int64} (horder : seen.order = some order) :
    s.storedOrder (s.previous harness holder) i = some order := by
  obtain ⟨todo, htodo, hface⟩ := Doc.face_eq_some.mp hbacked.face
  rw [Mirroring.storedOrder, hprev]
  change ((s.doc.get prev.todo).bind Todo.order) = some order
  rw [hbacked.todo, get_idOf, htodo]
  exact (congrArg Face.order hface).trans horder

/-- The changes of a call leave the todo of a step that continues a previous one with the step's
status. -/
theorem kind_continued (hsound : Sound harness holder s) (hbacked : Backed s i prev key seen)
    (hpair : (pair (s.previous harness holder) next)[j]? = some (some i))
    (hprev : (s.previous harness holder)[i]? = some prev) (hstep : next[j]? = some step) {changes : List Change}
    (hchanges : ∀ change, change.target.isSome → (change ∈ changes ↔ change ∈ diff (s.previous harness holder) next)) :
    (changes.filterMap (Change.kindFor (idOf key))).getLast?.getD seen.kind = step.status := by
  refine getLast?_getD_eq (fun kind hkind => ?_) fun hnone => ?_
  · obtain ⟨change, hmem, hfor⟩ := List.mem_filterMap.mp hkind
    cases change with
    | add index => cases hfor
    | reorder todo order => cases hfor
    | cancel todo =>
      simp only [Change.kindFor, Option.ite_none_right_eq_some] at hfor
      obtain ⟨k, other, hother, htodo, hfree⟩ := cancel_mem_diff ((hchanges _ rfl).mp hmem)
      have hsame : k = i := hsound.previous_inj hother hprev (htodo.trans (hfor.1.trans hbacked.todo.symm))
      exact absurd (hsame ▸ hpair) (hfree j)
    | status todo target =>
      simp only [Change.kindFor, Option.ite_none_right_eq_some] at hfor
      obtain ⟨l, k, other, later, hpair', hother, hlater, -, htodo, htarget⟩ :=
        status_mem_diff.mp ((hchanges _ rfl).mp hmem)
      have hsame : k = i := hsound.previous_inj hother hprev (htodo.trans (hfor.1.trans hbacked.todo.symm))
      subst hsame
      obtain rfl := pair_inj hpair' hpair
      rw [hlater] at hstep
      obtain rfl := Option.some.inj hstep
      rw [← Option.some.inj hfor.2, htarget]
  · by_contra hne
    have hmem : Change.status prev.todo step.status ∈ changes := by
      refine (hchanges _ rfl).mpr (status_mem_diff.mpr ⟨j, i, prev, step, hpair, hprev, hstep, ?_, rfl, rfl⟩)
      exact hbacked.kind ▸ hne
    have hkind : step.status ∈ changes.filterMap (Change.kindFor (idOf key)) :=
      List.mem_filterMap.mpr ⟨_, hmem, by rw [Change.kindFor, if_pos hbacked.todo]⟩
    rw [hnone] at hkind
    exact List.not_mem_nil hkind

/-- The changes of a call leave the todo of a step that continues a previous one with the stored order
where the step is at its remembered place, and that of its place otherwise. -/
theorem order_continued (hsound : Sound harness holder s) (hbacked : Backed s i prev key seen)
    (hpair : (pair (s.previous harness holder) next)[j]? = some (some i))
    (hprev : (s.previous harness holder)[i]? = some prev) {changes : List Change}
    (hchanges : ∀ change, change.target.isSome → (change ∈ changes ↔ change ∈ diff (s.previous harness holder) next)) :
    (changes.filterMap (Change.orderFor (idOf key))).getLast?.or seen.order =
      some (s.orderAfter harness holder next j) := by
  have hmoves : ∀ order ∈ changes.filterMap (Change.orderFor (idOf key)), i ≠ j ∧ order = placeOrder j := by
    intro order horder
    obtain ⟨change, hmem, hfor⟩ := List.mem_filterMap.mp horder
    cases change with
    | add index => cases hfor
    | cancel todo => cases hfor
    | status todo target => cases hfor
    | reorder todo order =>
      simp only [Change.orderFor, Option.ite_none_right_eq_some] at hfor
      obtain ⟨l, k, other, hpair', hother, hne, htodo, horder⟩ :=
        reorder_mem_diff.mp ((hchanges _ rfl).mp hmem)
      have hsame : k = i := hsound.previous_inj hother hprev (htodo.trans (hfor.1.trans hbacked.todo.symm))
      subst hsame
      obtain rfl := pair_inj hpair' hpair
      exact ⟨hne, by rw [← Option.some.inj hfor.2, horder]⟩
  by_cases hstays : i = j
  · subst hstays
    have hnone : changes.filterMap (Change.orderFor (idOf key)) = [] :=
      List.eq_nil_iff_forall_not_mem.mpr fun order horder => (hmoves order horder).1 rfl
    obtain ⟨order, horder, -⟩ := hbacked.order
    rw [hnone, orderAfter, if_pos hpair, hbacked.storedOrder hprev horder]
    exact horder
  · have hmem : Change.reorder prev.todo (placeOrder j) ∈ changes :=
      (hchanges _ rfl).mpr (reorder_mem_diff.mpr ⟨j, i, prev, hpair, hprev, hstays, rfl, rfl⟩)
    have horder : placeOrder j ∈ changes.filterMap (Change.orderFor (idOf key)) :=
      List.mem_filterMap.mpr ⟨_, hmem, by rw [Change.orderFor, if_pos hbacked.todo]⟩
    have hmoved : s.orderAfter harness holder next j = placeOrder j := by
      rw [orderAfter, if_neg]
      rw [hpair]
      exact fun heq => hstays (Option.some.inj (Option.some.inj heq))
    rw [hmoved]
    cases hlast : (changes.filterMap (Change.orderFor (idOf key))).getLast? with
    | none => exact absurd (List.getLast?_eq_none_iff.mp hlast ▸ horder) List.not_mem_nil
    | some last => rw [(hmoves last (List.mem_of_getLast? hlast)).2]; rfl

end Continued

/-- Each step of a list has a todo of its own with its text, its status and its order. -/
structure Placed (s : Mirroring) (harness : Harness) (holder : Holder) (next : List Step) (keys : ℕ → ℕ)
    (s' : Mirroring) : Prop where
  numbered : s'.doc.Numbered
  snapshot : s'.native.snapshot harness holder =
    (next.zip (List.range next.length)).map fun (step, j) => ⟨step.text, idOf (keys j), some step.status⟩
  counted : ∀ j < next.length, keys j < s'.doc.nextId
  face : ∀ j step, next[j]? = some step → s'.doc.face (keys j) =
    some ⟨step.text, step.status, some (s.orderAfter harness holder next j), none⟩
  inj : ∀ j < next.length, ∀ k < next.length, keys j = keys k → j = k

section Call

variable {c : Capture} {clock : ℕ → Instant} {s : Mirroring} {list : List Item}

/-- The texts of steps are on one line. -/
theorem oneLine_of_mem_stepsOf {step : Step} (h : step ∈ stepsOf list) : oneLine step.text = step.text := by
  obtain ⟨item, -, h⟩ := List.mem_filterMap.mp h
  obtain ⟨text, -, h⟩ := Option.bind_eq_some_iff.mp h
  obtain ⟨word, -, h⟩ := Option.bind_eq_some_iff.mp h
  obtain ⟨status, -, h⟩ := Option.bind_eq_some_iff.mp h
  obtain rfl := Option.some.inj h
  exact oneLine_oneLine text

/-- The relocations of a call change nothing a list sees. -/
theorem Sound.relocated (hsound : Sound c.harness c.actor s) {doc : Doc} {writes : ℕ}
    (h : (relocates c (s.todosOf c.harness c.actor) (s.previous c.harness c.actor)).foldlM
      (fun state edit => writeOrStop clock edit state) (s.doc, 0) = .ok (doc, writes)) : Relocated s.doc doc := by
  refine relocated_foldlM h fun edit hedit => ?_
  obtain ⟨prev, hprev, rfl⟩ := List.mem_map.mp hedit
  obtain ⟨i, hi⟩ := List.mem_iff_getElem?.mp (List.mem_filter.mp hprev).1
  obtain ⟨key, seen, hbacked⟩ := hsound.backed hi
  refine ⟨key, some c.node, by rw [hbacked.todo], fun other hother => ?_⟩
  rw [← Option.some.inj (hbacked.face.symm.trans hother)]
  exact hbacked.ticket

/-- A step that continues a previous one starts with its todo, any other with none. -/
theorem continued_getElem? {harness : Harness} {holder : Holder} {next : List Step} {j : ℕ} {p : Option ℕ}
    (hpair : (pair (s.previous harness holder) next)[j]? = some p) :
    (s.continued harness holder next)[j]? =
      some (p.bind fun i => ((s.previous harness holder)[i]?).map Mirrored.todo) := by
  rw [continued, List.getElem?_map, hpair]
  cases p with
  | none => rfl
  | some i =>
    change some (((s.previous harness holder)[i]?).bind fun prev => some prev.todo) = _
    rw [Option.bind_some, Option.map_eq_bind]
    rfl

/-- A holder's list is the one that was set. -/
theorem snapshot_setSnapshot (map : NativeMap) (harness : Harness) (holder : Holder) (steps : List MirroredStep) :
    (map.setSnapshot harness holder steps).snapshot harness holder = steps := by
  rw [NativeMap.setSnapshot, NativeMap.snapshot, ExtTreeMap.getElem?_insert_self]
  rfl

/-- When every step has a todo, all of them are remembered. -/
theorem remembered_of_ids {next : List Step} {ids : List (Option String)} {idAt : ℕ → String}
    (hids : ids = (List.range next.length).map fun j => some (idAt j)) : remembered next ids [] =
      (next.zip (List.range next.length)).map fun (step, j) => ⟨step.text, idAt j, some step.status⟩ := by
  rw [remembered, hids, List.append_nil, List.zip_map_right, List.filterMap_map]
  exact List.filterMap_eq_map_iff_forall_eq_some.mpr fun row _ => rfl

/-- The changes after the adds are about previous steps' todos, which are no tickets'. -/
theorem Sound.targets {harness : Harness} {holder : Holder} {next : List Step} (hsound : Sound harness holder s)
    {change : Change} (h : change ∈ diff (s.previous harness holder) next) (hadd : ∀ index, change ≠ .add index) :
    ∃ key, change.target = some (idOf key) ∧ key < s.doc.nextId ∧
      ((s.todosOf harness holder).any fun todo => todo.id == idOf key && todo.ticket.isSome) = false := by
  obtain ⟨i, prev, hprev, htarget⟩ := target_of_mem_diff h hadd
  obtain ⟨key, seen, hbacked⟩ := hsound.backed hprev
  refine ⟨key, hbacked.todo ▸ htarget, hbacked.counted, List.any_eq_false.mpr fun todo htodo => ?_⟩
  rw [(hsound.todosOf htodo).1]
  simp

/-- What the changes of a call leave of a step: a todo made by it, or that of the step it continues. -/
structure StepPlaced (s : Mirroring) (harness : Harness) (holder : Holder) (next : List Step) (state : Replacing)
    (j : ℕ) (step : Step) (key : ℕ) : Prop where
  id : state.ids[j]? = some (some (idOf key))
  counted : key < state.doc.nextId
  face : state.doc.face key =
    some ⟨step.text, step.status, some (s.orderAfter harness holder next j), none⟩
  source : j ∈ newIndices (s.previous harness holder) next ∧ s.doc.nextId ≤ key ∨
    ∃ i, (pair (s.previous harness holder) next)[j]? = some (some i) ∧ key < s.doc.nextId ∧
      ((s.previous harness holder)[i]?).map Mirrored.todo = some (idOf key)

/-- The changes of a call place every step of its list. -/
theorem Sound.stepPlaced {next : List Step} {start middle state : Replacing} {later : List Change}
    {harness : Harness} {holder : Holder} (hsound : Sound harness holder s)
    (hstart : start.ids = s.continued harness holder next) (hrelocated : Relocated s.doc start.doc)
    (hdiff : diff (s.previous harness holder) next =
      (newIndices (s.previous harness holder) next).map Change.add ++ later)
    (hlater : ∀ index, Change.add index ∉ later)
    (hadded : Added c next start (newIndices (s.previous harness holder) next) middle)
    (hsettles : Settles middle later state) {j : ℕ} {step : Step} (hstep : next[j]? = some step) :
    ∃ key, StepPlaced s harness holder next state j step key := by
  have hmem : ∀ change, change.target.isSome → (change ∈ later ↔ change ∈ diff (s.previous harness holder) next) := by
    intro change htarget
    rw [hdiff, List.mem_append]
    refine ⟨Or.inr, fun h => h.resolve_left fun hadd => ?_⟩
    obtain ⟨index, -, rfl⟩ := List.mem_map.mp hadd
    contradiction
  have hlt : j < (pair (s.previous harness holder) next).length := by
    rw [length_pair]
    exact (List.getElem?_eq_some_iff.mp hstep).1
  obtain ⟨p, hget⟩ : ∃ p, (pair (s.previous harness holder) next)[j]? = some p :=
    ⟨_, List.getElem?_eq_getElem hlt⟩
  cases p with
  | none =>
    have hnew := mem_newIndices.mpr hget
    obtain ⟨key, hle, hcounted, hid, hface⟩ := hadded.placed j hnew step hstep
    rw [hrelocated.nextId] at hle
    have hother : ∀ change ∈ later, change.target ≠ some (idOf key) := by
      intro change hchange htarget
      obtain ⟨other, htarget', hlt', -⟩ := hsound.targets ((hmem change (by rw [htarget]; rfl)).mp hchange)
        fun index heq => hlater index (heq ▸ hchange)
      rw [htarget, Option.some.injEq, idOf_inj] at htarget'
      omega
    have horder : s.orderAfter harness holder next j = placeOrder j := by
      rw [orderAfter, if_neg]
      rw [hget]
      exact fun heq => by cases heq
    refine ⟨key, by rw [hsettles.ids, hid], by rw [hsettles.nextId]; exact hcounted, ?_, Or.inl ⟨hnew, hle⟩⟩
    rw [hsettles.face, hface, Option.map_some, foldl_after_other _ _ hother, horder]
  | some i =>
    obtain ⟨prev, step', hprev, hstep', htext⟩ := pair_eq_some hget
    obtain rfl := Option.some.inj (hstep'.symm.trans hstep)
    obtain ⟨key, seen, hbacked⟩ := hsound.backed hprev
    have hcounted : key < start.doc.nextId := hrelocated.nextId ▸ hbacked.counted
    have hold : j ∉ newIndices (s.previous harness holder) next := fun hnew => by
      rw [mem_newIndices.mp hnew] at hget
      cases hget
    refine ⟨key, ?_, ?_, ?_, Or.inr ⟨i, hget, hbacked.counted, by rw [hprev, Option.map_some, hbacked.todo]⟩⟩
    · rw [hsettles.ids, hadded.others j hold, hstart, continued_getElem? hget, Option.bind_some, hprev,
        Option.map_some, hbacked.todo]
    · rw [hsettles.nextId]
      exact hcounted.trans_le hadded.nextId
    · have hbefore : middle.doc.face key = some seen := by
        rw [hadded.face key hcounted, hrelocated.face, hbacked.face]
      rw [hsettles.face, hbefore, Option.map_some]
      obtain ⟨hdescription, hticket⟩ := foldl_after_rest (idOf key) later seen
      refine congrArg some (Face.ext (hdescription.trans (hbacked.text.trans htext)) ?_ ?_
        (hticket.trans hbacked.ticket))
      · rw [foldl_after_kind]
        exact kind_continued hsound hbacked hget hprev hstep hmem
      · rw [foldl_after_order]
        exact order_continued hsound hbacked hget hprev hmem

/-- Steps placed in one todo are one step. -/
theorem StepPlaced.inj {next : List Step} {start middle state : Replacing} {harness : Harness} {holder : Holder}
    (hsound : Sound harness holder s)
    (hadded : Added c next start (newIndices (s.previous harness holder) next) middle)
    (hids : state.ids = middle.ids) {j k key : ℕ} {step later : Step}
    (hj : StepPlaced s harness holder next state j step key)
    (hk : StepPlaced s harness holder next state k later key) : j = k := by
  cases hj.source with
  | inl hnew =>
    cases hk.source with
    | inl hnew' => exact hadded.distinct j hnew.1 k hnew'.1 _ (hids ▸ hj.id) (hids ▸ hk.id)
    | inr hold =>
      obtain ⟨_, _, hlt, _⟩ := hold
      omega
  | inr hold =>
    obtain ⟨i, hpair, hlt, htodo⟩ := hold
    cases hk.source with
    | inl hnew => omega
    | inr hold' =>
      obtain ⟨i', hpair', -, htodo'⟩ := hold'
      obtain ⟨prev, hprev, hid⟩ := Option.map_eq_some_iff.mp htodo
      obtain ⟨other, hother, hid'⟩ := Option.map_eq_some_iff.mp htodo'
      have hsame : i = i' := hsound.previous_inj hprev hother (hid.trans hid'.symm)
      subst hsame
      exact pair_inj hpair hpair'

/-- A call that is not refused and names no ticket leaves each step of its list with a todo of its own. -/
theorem listReplace_placed (hsound : Sound c.harness c.actor s) (h : (s.listReplace c clock list).2 = .ok ())
    (hnames : NamesNone c (stepsOf list) (c.repoTodos s.doc)) :
    ∃ keys, Placed s c.harness c.actor (stepsOf list) keys (s.listReplace c clock list).1 := by
  obtain ⟨doc, writes, state, hrelocates, hchanges, hfailed, hafter⟩ := listReplace_ok h
  have hrelocated := hsound.relocated hrelocates
  have hnumbered := changes_numbered hchanges (hrelocated.numbered hsound.numbered)
  obtain ⟨later, hdiff, hlater⟩ := @diff_adds (s.previous c.harness c.actor) (stepsOf list)
  rw [hdiff, List.foldlM_append] at hchanges
  obtain ⟨middle, hadds, hrest⟩ := bind_eq_ok.mp hchanges
  obtain ⟨hmiddle, hsettles⟩ := changes_settle hrest hfailed fun change hchange => by
    have hmem : change ∈ diff (s.previous c.harness c.actor) (stepsOf list) :=
      hdiff ▸ List.mem_append_right _ hchange
    obtain ⟨key, htarget, -, hticket⟩ := hsound.targets hmem fun index heq => hlater index (heq ▸ hchange)
    exact ⟨key, htarget, hticket⟩
  obtain ⟨-, hadded⟩ := adds_place
    (by rw [continued, List.length_map, length_pair]) (hrelocated.namesNone hnames)
    (fun step hstep => oneLine_of_mem_stepsOf hstep)
    (fun j hj => by
      have hlt := (List.getElem?_eq_some_iff.mp (mem_newIndices.mp hj)).1
      rwa [length_pair] at hlt) hadds hmiddle
  have hplaced : ∀ j, ∃ key, ∀ step, (stepsOf list)[j]? = some step →
      StepPlaced s c.harness c.actor (stepsOf list) state j step key := by
    intro j
    cases hstep : (stepsOf list)[j]? with
    | none => exact ⟨0, fun step hsome => by cases hsome⟩
    | some step =>
      obtain ⟨key, hkey⟩ := hsound.stepPlaced rfl hrelocated hdiff hlater hadded hsettles hstep
      exact ⟨key, fun other hother => Option.some.inj hother ▸ hkey⟩
  choose keys hkeys using hplaced
  have hat : ∀ j (hlt : j < (stepsOf list).length),
      StepPlaced s c.harness c.actor (stepsOf list) state j (stepsOf list)[j] (keys j) :=
    fun j hlt => hkeys j _ (List.getElem?_eq_getElem hlt)
  have hids : state.ids = (List.range (stepsOf list).length).map fun j => some (idOf (keys j)) := by
    have hlength : state.ids.length = (stepsOf list).length := by
      rw [hsettles.ids, hadded.length, continued, List.length_map, length_pair]
    refine List.ext_getElem? fun j => ?_
    rw [List.getElem?_map]
    by_cases hlt : j < (stepsOf list).length
    · rw [(hat j hlt).id, List.getElem?_range hlt]
      rfl
    · rw [List.getElem?_eq_none (by omega), List.getElem?_eq_none (by rw [List.length_range]; omega)]
      rfl
  refine ⟨keys, ?_, ?_, ?_, ?_, ?_⟩
  · rw [hafter]
    exact hnumbered
  · rw [hafter, snapshot_setSnapshot, hsettles.uncancelled, hadded.uncancelled]
    exact remembered_of_ids hids
  · rw [hafter]
    exact fun j hlt => (hat j hlt).counted
  · rw [hafter]
    exact fun j step hstep => (hkeys j step hstep).face
  · intro j hj k hk heq
    exact (hat j hj).inj hsound hadded hsettles.ids (heq ▸ hat k hk)

end Call

end Mirroring

end Devkit.Todos.Native
