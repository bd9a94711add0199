import Devkit.Library.Runs
import Devkit.Todos.BlockCycle
import Devkit.Todos.Kept
import Devkit.Todos.Pruned

/-!
# Blockers recorded by many processes

A `todo block` and a hook that mirrors a blocker each list the todos, check that the new edges close
no cycle, and then write them in store calls of their own. The runs of any processes interleave,
and with them any other store calls that record no blocker. A run names its todo and the blockers
by ids the store gave out.

A write adds edges from one todo, so it closes a cycle exactly when a way leads from a blocker back
to the todo in the store as it is then. The check has ruled that out in the listing it read; what
may break it is an edge recorded since.
-/

namespace Devkit.Todos

open Devkit.Library
open Std
open Relation

/-- A run that has checked its edges: the todo, the listing it checked, and the blockers it has yet
to write, one store call after the other. -/
structure LinkRun where
  id : String
  checked : List Todo
  writes : List (List String)

/-- The store and the runs under way, one for each process. -/
structure Linking where
  doc : Doc
  runs : ExtTreeMap ℕ LinkRun

/-- One step of a process: a run's listing and check, its next write, its end at any point, or
another store call. -/
inductive LinkLabel
  | link (process key : ℕ) (blockers : List ℕ) (pushed : String → Bool)
  | recordBlock (process key : ℕ) (blockers : List ℕ)
  | write (process : ℕ) (now : Instant)
  | stop (process : ℕ)
  | edit (now : Instant) (edit : Edit)
  | add (now : Instant) (todo : NewTodo)

/-- The edit records blockers. -/
def Edit.isBlock : Edit → Bool
  | .block _ _ => true
  | _ => false

/-- The writes of a `todo block`: the local edges in one call, then each that is pushed. -/
def linkWrites (blockers : List String) (pushed : String → Bool) : List (List String) :=
  let local_ := blockers.filter fun blocker => !pushed blocker
  (if local_.isEmpty then [] else [local_]) ++ (blockers.filter pushed).map fun blocker => [blocker]

/-- The blockers a hook may record: those that close no cycle on their own. -/
def safeBlockers (todos : List Todo) (id : String) (blockers : List String) : List String :=
  blockers.filter fun blocker => ((Graph.mk todos).cycleThrough id [blocker]).isNone

namespace Linking

/-- The state in which no run is under way. -/
def start (doc : Doc) : Linking := ⟨doc, ∅⟩

/-- The stored edges close no cycle. -/
def Acyclic (s : Linking) : Prop := Todos.Acyclic (rows s.doc.todos)

/-- Begin a process's run, unless it has one. -/
def begin (s : Linking) (process : ℕ) (run : Option LinkRun) : Linking :=
  match run with
  | some run => if s.runs.contains process then s else { s with runs := s.runs.insert process run }
  | none => s

/-- The run of `todo block`, once its check has passed. -/
def linkRun (doc : Doc) (key : ℕ) (blockers : List ℕ) (pushed : String → Bool) : Option LinkRun :=
  let todos := rows doc.todos
  match (Graph.mk todos).cycleThrough (idOf key) (blockers.map idOf) with
  | some _ => none
  | none => some ⟨idOf key, todos, linkWrites (blockers.map idOf) pushed⟩

/-- The run of a hook's blockers, when some may be recorded. -/
def recordRun (doc : Doc) (key : ℕ) (blockers : List ℕ) : Option LinkRun :=
  let todos := rows doc.todos
  match safeBlockers todos (idOf key) (blockers.map idOf) with
  | [] => none
  | safe => some ⟨idOf key, todos, [safe]⟩

/-- A run's next write; a refused one ends it. -/
def write (s : Linking) (process : ℕ) (now : Instant) : Linking :=
  match s.runs[process]? with
  | none => s
  | some run =>
    match run.writes with
    | [] => { s with runs := s.runs.erase process }
    | blockers :: rest =>
      match s.doc.apply now (.block run.id blockers) with
      | .error _ => { s with runs := s.runs.erase process }
      | .ok (doc, _) => ⟨doc, s.runs.insert process { run with writes := rest }⟩

/-- One step. -/
def step (s : Linking) : LinkLabel → Linking
  | .link process key blockers pushed => s.begin process (linkRun s.doc key blockers pushed)
  | .recordBlock process key blockers => s.begin process (recordRun s.doc key blockers)
  | .write process now => s.write process now
  | .stop process => { s with runs := s.runs.erase process }
  | .edit now edit => if edit.isBlock then s else { s with doc := s.doc.withDoc (s.doc.apply now edit) }
  | .add now todo => { s with doc := s.doc.withDoc (s.doc.add now todo) }

/-- Since the run listed the todos it checked, no way has appeared from a blocker it writes next back
to its todo, where its todo is still there. -/
def Undisturbed (s : Linking) : LinkLabel → Prop
  | .write process _ => ∀ run blockers rest, s.runs[process]? = some run → run.writes = blockers :: rest →
      (∃ todo ∈ rows s.doc.todos, todo.id = run.id) → ∀ blocker ∈ blockers,
        Leads (rows s.doc.todos) blocker run.id → Leads run.checked blocker run.id
  | _ => True

end Linking

namespace Doc

/-- The stored edges, by key. -/
theorem blocked_iff {doc : Doc} {id blocker : String} : Blocked (rows doc.todos) id blocker ↔
    ∃ (key : ℕ) (todo : Todo), doc.todos[key]? = some todo ∧ todo.id = id ∧ blocker ∈ todo.blockedBy := by
  simp only [Blocked, mem_rows]
  constructor
  · intro hblocked
    obtain ⟨todo, ⟨key, htodo⟩, hid, hblocker⟩ := hblocked
    exact ⟨key, todo, htodo, hid, hblocker⟩
  · intro hblocked
    obtain ⟨key, todo, htodo, hid, hblocker⟩ := hblocked
    exact ⟨todo, ⟨key, htodo⟩, hid, hblocker⟩

/-- In a numbered document a todo has an id exactly when it is under the id's key. -/
theorem Numbered.mem_rows_idOf {doc : Doc} (h : doc.Numbered) {key : ℕ} :
    (∃ todo ∈ rows doc.todos, todo.id = idOf key) ↔ ∃ todo, doc.todos[key]? = some todo := by
  constructor
  · intro hmember
    obtain ⟨todo, htodo, hid⟩ := hmember
    obtain ⟨other, htodo⟩ := mem_rows.mp htodo
    obtain rfl := idOf_inj.mp ((h.keyed htodo).symm.trans hid)
    exact ⟨todo, htodo⟩
  · intro hmember
    obtain ⟨todo, htodo⟩ := hmember
    exact ⟨todo, mem_rows.mpr ⟨key, htodo⟩, h.keyed htodo⟩

/-- The edges of the todo under a key. -/
theorem Numbered.blocked_idOf {doc : Doc} (h : doc.Numbered) {key : ℕ} {todo : Todo}
    (htodo : doc.todos[key]? = some todo) {blocker : String} :
    Blocked (rows doc.todos) (idOf key) blocker ↔ blocker ∈ todo.blockedBy := by
  rw [blocked_iff]
  constructor
  · intro hblocked
    obtain ⟨other, found, hfound, hname, hblocker⟩ := hblocked
    obtain rfl := idOf_inj.mp ((h.keyed hfound).symm.trans hname)
    obtain rfl := Option.some.inj (htodo.symm.trans hfound)
    exact hblocker
  · exact fun hblocker => ⟨key, todo, htodo, h.keyed htodo, hblocker⟩

/-- After a todo is written back its edges are those written, the others as before. -/
theorem blocked_put_iff {doc : Doc} (h : doc.Numbered) {key : ℕ} {todo after : Todo}
    (htodo : doc.todos[key]? = some todo) (hafter : after.id = todo.id) {id blocker : String} :
    Blocked (rows (doc.put key after).todos) id blocker ↔
      if id = idOf key then blocker ∈ after.blockedBy else Blocked (rows doc.todos) id blocker := by
  have hid : after.id = idOf key := hafter.trans (h.keyed htodo)
  rw [blocked_iff, blocked_iff]
  split
  · rename_i heq
    constructor
    · intro hblocked
      obtain ⟨other, found, hfound, hname, hblocker⟩ := hblocked
      rw [getElem?_put] at hfound
      split at hfound
      · obtain rfl := Option.some.inj hfound
        exact hblocker
      · rename_i hkey
        exact absurd (idOf_inj.mp ((h.keyed hfound).symm.trans (hname.trans heq))).symm hkey
    · exact fun hblocker => ⟨key, after, by rw [getElem?_put, if_pos rfl], hid.trans heq.symm, hblocker⟩
  · rename_i hne
    have hother {other : ℕ} (hkey : key = other) {found : Todo} (hfound : doc.todos[other]? = some found)
        (hname : found.id = id) : False :=
      hne (hname.symm.trans ((h.keyed hfound).trans (congrArg idOf hkey.symm)))
    constructor
    · intro hblocked
      obtain ⟨other, found, hfound, hname, hblocker⟩ := hblocked
      rw [getElem?_put] at hfound
      split at hfound
      · obtain rfl := Option.some.inj hfound
        exact absurd (hname.symm.trans hid) hne
      · exact ⟨other, found, hfound, hname, hblocker⟩
    · intro hblocked
      obtain ⟨other, found, hfound, hname, hblocker⟩ := hblocked
      refine ⟨other, found, ?_, hname, hblocker⟩
      rw [getElem?_put, if_neg fun hkey => hother hkey hfound hname]
      exact hfound

/-- Writing a todo back with more blockers adds exactly their edges. -/
theorem blocked_put {doc : Doc} (h : doc.Numbered) {key : ℕ} {todo after : Todo}
    (htodo : doc.todos[key]? = some todo) (hafter : after.id = todo.id) {targets : String → Prop}
    (hblockers : ∀ blocker, blocker ∈ after.blockedBy ↔ blocker ∈ todo.blockedBy ∨ targets blocker) :
    Blocked (rows (doc.put key after).todos) = AddEdges (Blocked (rows doc.todos)) (idOf key) targets := by
  funext id blocker
  refine propext ?_
  rw [AddEdges, blocked_put_iff h htodo hafter]
  by_cases hid : id = idOf key
  · subst hid
    rw [if_pos rfl, hblockers, h.blocked_idOf htodo]
    exact or_congr_right (iff_and_self.mpr fun _ => rfl)
  · rw [if_neg hid]
    exact (or_iff_left fun hadded => hid hadded.1).symm

/-- Recording blockers of a todo adds exactly their edges. -/
theorem block_addEdges {doc : Doc} (h : doc.Numbered) (now : Instant) {key : ℕ} {todo : Todo}
    (htodo : doc.todos[key]? = some todo) (blockers : List String) :
    ∃ doc' changes, doc.apply now (.block (idOf key) blockers) = .ok (doc', changes) ∧
      Blocked (rows doc'.todos) = AddEdges (Blocked (rows doc.todos)) (idOf key) (· ∈ blockers) := by
  have hmut : doc.todoMut (idOf key) = .ok (key, todo) := todoMut_eq_ok.mpr ⟨parseKey_idOf key, htodo⟩
  simp only [apply, setBlockers, hmut]
  refine ⟨_, [], rfl, blocked_put h htodo ?_ fun blocker => ?_⟩
  · rfl
  · rw [mem_dedup, List.mem_insertionSort, List.mem_append]

/-- Recording blockers of a todo that is gone fails. -/
theorem block_refused {doc : Doc} (now : Instant) {key : ℕ} (hgone : doc.todos[key]? = none)
    (blockers : List String) : ∃ refusal, doc.apply now (.block (idOf key) blockers) = .error refusal := by
  have hmut : doc.todoMut (idOf key) = .error (.noTodo (idOf key)) := by
    rw [todoMut, parseKey_idOf, Option.bind_some, hgone]
    rfl
  simp only [apply, setBlockers, hmut]
  exact ⟨_, rfl⟩

/-- A todo of the later document has no blocker that the todo under its key did not have before. -/
structure NoNewEdges (doc doc' : Doc) : Prop where
  edges : ∀ {key : ℕ} {after : Todo}, doc'.todos[key]? = some after → after.blockedBy = [] ∨
    ∃ before, doc.todos[key]? = some before ∧ after.id = before.id ∧ after.blockedBy ⊆ before.blockedBy

/-- Without new edges the stored edges were there before. -/
theorem NoNewEdges.blocked {doc doc' : Doc} (h : doc.NoNewEdges doc') {id blocker : String}
    (hblocked : Blocked (rows doc'.todos) id blocker) : Blocked (rows doc.todos) id blocker := by
  obtain ⟨key, after, hafter, hid, hblocker⟩ := blocked_iff.mp hblocked
  cases h.edges hafter with
  | inl hnone =>
    rw [hnone] at hblocker
    exact absurd hblocker List.not_mem_nil
  | inr hold =>
    obtain ⟨before, hbefore, hsame, hsub⟩ := hold
    exact blocked_iff.mpr ⟨key, before, hbefore, hsame.symm.trans hid, hsub hblocker⟩

/-- Without new edges no cycle is closed. -/
theorem NoNewEdges.acyclic {doc doc' : Doc} (h : doc.NoNewEdges doc') (hacyclic : Acyclic (rows doc.todos)) :
    Acyclic (rows doc'.todos) :=
  fun id hcycle => hacyclic id (TransGen.mono (fun _ _ => h.blocked) _ _ hcycle)

/-- A call that only drops todos records no new edge. -/
theorem noNewEdges_of_subset {doc doc' : Doc}
    (hsub : ∀ {key : ℕ} {todo : Todo}, doc'.todos[key]? = some todo → doc.todos[key]? = some todo) :
    doc.NoNewEdges doc' :=
  ⟨fun htodo => Or.inr ⟨_, hsub htodo, rfl, List.Subset.refl _⟩⟩

/-- Writing back a todo with no more blockers records no new edge. -/
theorem noNewEdges_put {doc : Doc} {key : ℕ} {before after : Todo} (hfound : doc.todos[key]? = some before)
    (hid : after.id = before.id) (hsub : after.blockedBy ⊆ before.blockedBy) :
    doc.NoNewEdges (doc.put key after) := by
  refine ⟨fun {other todo} htodo => ?_⟩
  rw [getElem?_put] at htodo
  split at htodo
  · rename_i heq
    obtain rfl := Option.some.inj htodo
    exact Or.inr ⟨before, heq ▸ hfound, hid, hsub⟩
  · exact Or.inr ⟨todo, htodo, rfl, List.Subset.refl _⟩

/-- A change of status by any rule records no new edge. -/
theorem changeStatus_noNewEdges (rule : Status → Except Claimed (Option Status)) {doc doc' : Doc} {now : Instant}
    {id : String} {changes : List StatusChange} (h : doc.changeStatus now id rule = .ok (doc', changes)) :
    doc.NoNewEdges doc' := by
  unfold changeStatus at h
  split at h
  · cases h
  · rename_i key todo hmut
    obtain ⟨_, htodo⟩ := todoMut_eq_ok.mp hmut
    split at h
    · rename_i next _
      cases next with
      | none =>
        obtain ⟨rfl, rfl⟩ := Prod.mk.inj (Except.ok.inj h)
        exact noNewEdges_of_subset fun htodo => htodo
      | some next =>
        obtain ⟨rfl, rfl⟩ := Prod.mk.inj (Except.ok.inj h)
        exact noNewEdges_put htodo rfl (List.Subset.refl _)
    · cases h

/-- A release records no edge: only statuses change. -/
theorem release_noNewEdges {doc doc' : Doc} {now : Instant} {holder : Holder} {changes : List StatusChange}
    (h : doc.apply now (.releaseAll holder) = .ok (doc', changes)) : doc.NoNewEdges doc' := by
  simp only [apply] at h
  split at h
  · obtain ⟨rfl, rfl⟩ := Prod.mk.inj (Except.ok.inj h)
    exact noNewEdges_of_subset fun htodo => htodo
  · obtain ⟨rfl, rfl⟩ := Prod.mk.inj (Except.ok.inj h)
    refine ⟨fun {key after} hafter => ?_⟩
    rw [ExtTreeMap.getElem?_map] at hafter
    obtain ⟨before, hbefore, rfl⟩ := Option.map_eq_some_iff.mp hafter
    refine Or.inr ⟨before, hbefore, ?_⟩
    unfold giveBack
    split <;> exact ⟨rfl, List.Subset.refl _⟩

/-- An edit other than a block records no new edge. -/
theorem apply_noNewEdges {doc doc' : Doc} {now : Instant} {edit : Edit} {changes : List StatusChange}
    (hedit : ∀ id blockers, edit ≠ .block id blockers) (h : doc.apply now edit = .ok (doc', changes)) :
    doc.NoNewEdges doc' := by
  cases edit with
  | block id blockers => exact absurd rfl (hedit id blockers)
  | setStatus id target actor => exact changeStatus_noNewEdges (transition · target actor) h
  | takeOver id source actor => exact changeStatus_noNewEdges (Todos.takeOver · source actor) h
  | releaseAll => exact release_noNewEdges h
  | prune ids =>
    obtain ⟨pruned, hpruned⟩ := doc.apply_prune now ids
    obtain ⟨rfl, rfl⟩ := Prod.mk.inj (Except.ok.inj (hpruned.symm.trans h))
    exact noNewEdges_of_subset fun htodo => ((getElem?_eraseAll_eq_some _ _ _ _).mp htodo).2
  | purge =>
    obtain ⟨⟨key, todo⟩, hmut, h⟩ := bind_eq_ok.mp h
    obtain ⟨rfl, rfl⟩ := Prod.mk.inj (Except.ok.inj h)
    refine noNewEdges_of_subset fun {other todo} htodo => ?_
    rw [ExtTreeMap.getElem?_erase] at htodo
    split at htodo
    · cases htodo
    · exact htodo
  | recordSync =>
    obtain ⟨⟨key, todo⟩, hmut, h⟩ := bind_eq_ok.mp h
    obtain ⟨_, htodo⟩ := todoMut_eq_ok.mp hmut
    cases hticket : todo.ticket with
    | none =>
      simp only [hticket] at h
      cases h
    | some ticket =>
      simp only [hticket] at h
      obtain ⟨rfl, rfl⟩ := Prod.mk.inj (Except.ok.inj h)
      exact noNewEdges_put htodo rfl (List.Subset.refl _)
  | unblock id blockers =>
    obtain ⟨after, hset, h⟩ := bind_eq_ok.mp h
    obtain ⟨rfl, rfl⟩ := Prod.mk.inj (Except.ok.inj h)
    obtain ⟨⟨key, todo⟩, hmut, hset⟩ := bind_eq_ok.mp hset
    obtain ⟨_, htodo⟩ := todoMut_eq_ok.mp hmut
    obtain rfl := Except.ok.inj hset
    refine noNewEdges_put htodo rfl fun blocker hblocker => ?_
    rw [mem_dedup, List.mem_insertionSort] at hblocker
    exact (List.mem_filter.mp hblocker).1
  | describe | relocate | reorder =>
    obtain ⟨⟨key, todo⟩, hmut, h⟩ := bind_eq_ok.mp h
    obtain ⟨_, htodo⟩ := todoMut_eq_ok.mp hmut
    obtain ⟨rfl, rfl⟩ := Prod.mk.inj (Except.ok.inj h)
    exact noNewEdges_put htodo rfl (List.Subset.refl _)
  | move id parent order =>
    have hput : ∀ order : Todo → Option Int64, (doc.todoMut id >>= fun found =>
        .ok (doc.put found.1 { found.2 with parent, order := order found.2, modified := some now.text }, [])) =
          Except.ok (doc', changes) → doc.NoNewEdges doc' := by
      intro order h
      obtain ⟨⟨key, todo⟩, hmut, h⟩ := bind_eq_ok.mp h
      obtain ⟨_, htodo⟩ := todoMut_eq_ok.mp hmut
      obtain ⟨rfl, rfl⟩ := Prod.mk.inj (Except.ok.inj h)
      exact noNewEdges_put htodo rfl (List.Subset.refl _)
    cases parent with
    | none => exact hput (fun todo => some (order.getD (doc.afterLast todo.project none (some id)))) h
    | some parent =>
      obtain ⟨_, _, h⟩ := bind_eq_ok.mp h
      exact hput (fun todo => some (order.getD (doc.afterLast todo.project (some parent) (some id)))) h

/-- An add records no edge. -/
theorem add_noNewEdges {doc doc' : Doc} {now : Instant} {todo : NewTodo} {id : String}
    (h : doc.add now todo = .ok (doc', id)) : doc.NoNewEdges doc' := by
  have hinsert : ∀ (key nextId : ℕ) (new : Todo), new.blockedBy = [] →
      doc.NoNewEdges ⟨nextId, doc.todos.insert key new⟩ := by
    intro key nextId new hnew
    refine ⟨fun {other after} hafter => ?_⟩
    rw [getElem?_insert_eq] at hafter
    split at hafter
    · obtain rfl := Option.some.inj hafter
      exact Or.inl hnew
    · exact Or.inr ⟨after, hafter, rfl, List.Subset.refl _⟩
  unfold add at h
  split at h
  · obtain ⟨rfl, rfl⟩ := Prod.mk.inj (Except.ok.inj h)
    exact noNewEdges_of_subset fun htodo => htodo
  · cases hparent : todo.parent with
    | none =>
      simp only [hparent] at h
      obtain ⟨rfl, rfl⟩ := Prod.mk.inj (Except.ok.inj h)
      exact hinsert _ _ _ rfl
    | some parent =>
      simp only [hparent] at h
      obtain ⟨_, _, h⟩ := bind_eq_ok.mp h
      obtain ⟨rfl, rfl⟩ := Prod.mk.inj (Except.ok.inj h)
      exact hinsert _ _ _ rfl

end Doc

namespace Linking

/-- Ids are those of the keys, and no run is about to write a blocker that led back to its todo in
the listing it checked. -/
structure Sound (s : Linking) : Prop where
  numbered : s.doc.Numbered
  checked : ∀ {process : ℕ} {run : LinkRun}, s.runs[process]? = some run → (∃ key, run.id = idOf key) ∧
    ∀ blockers ∈ run.writes, ∀ blocker ∈ blockers, ¬ Leads run.checked blocker run.id

/-- The writes of a `todo block` are of the blockers it was asked for. -/
theorem mem_linkWrites {blockers : List String} {pushed : String → Bool} {writes : List String}
    (hwrites : writes ∈ linkWrites blockers pushed) : writes ⊆ blockers := by
  cases List.mem_append.mp hwrites with
  | inl hlocal =>
    split at hlocal
    · exact absurd hlocal List.not_mem_nil
    · rw [List.mem_singleton.mp hlocal]
      exact (List.filter_sublist).subset
  | inr hpushed =>
    obtain ⟨blocker, hblocker, rfl⟩ := List.mem_map.mp hpushed
    exact List.cons_subset.mpr ⟨(List.mem_filter.mp hblocker).1, List.nil_subset blockers⟩

/-- A run that begins has checked what it is about to write. -/
theorem sound_begin {s : Linking} (h : s.Sound) (process : ℕ) {run : Option LinkRun}
    (hrun : ∀ begun, run = some begun → (∃ key, begun.id = idOf key) ∧
      ∀ blockers ∈ begun.writes, ∀ blocker ∈ blockers, ¬ Leads begun.checked blocker begun.id) :
    (s.begin process run).Sound := by
  cases run with
  | none => exact h
  | some begun =>
    rw [begin]
    split
    · exact h
    · refine ⟨h.numbered, fun {other run} hfound => ?_⟩
      rw [getElem?_insert_eq] at hfound
      split at hfound
      · obtain rfl := Option.some.inj hfound
        exact hrun begun rfl
      · exact h.checked hfound

/-- A run of `todo block` begins when its check has passed. -/
theorem linkRun_checked {doc : Doc} (h : doc.Numbered) {key : ℕ} {blockers : List ℕ} {pushed : String → Bool}
    {run : LinkRun} (hrun : linkRun doc key blockers pushed = some run) : (∃ key, run.id = idOf key) ∧
      ∀ writes ∈ run.writes, ∀ blocker ∈ writes, ¬ Leads run.checked blocker run.id := by
  rw [linkRun] at hrun
  split at hrun
  · cases hrun
  · rename_i hnone
    obtain rfl := Option.some.inj hrun
    exact ⟨⟨key, rfl⟩, fun writes hwrites blocker hblocker =>
      (Graph.cycleThrough_eq_none_iff h.distinct).mp hnone blocker (mem_linkWrites hwrites hblocker)⟩

/-- A hook's run begins with blockers that pass on their own. -/
theorem recordRun_checked {doc : Doc} (h : doc.Numbered) {key : ℕ} {blockers : List ℕ} {run : LinkRun}
    (hrun : recordRun doc key blockers = some run) : (∃ key, run.id = idOf key) ∧
      ∀ writes ∈ run.writes, ∀ blocker ∈ writes, ¬ Leads run.checked blocker run.id := by
  have hsafe : ∀ blocker ∈ safeBlockers (rows doc.todos) (idOf key) (blockers.map idOf),
      ¬ Leads (rows doc.todos) blocker (idOf key) := by
    intro blocker hblocker
    have hnone := Option.isNone_iff_eq_none.mp (List.mem_filter.mp hblocker).2
    exact (Graph.cycleThrough_eq_none_iff h.distinct).mp hnone blocker List.mem_cons_self
  rw [recordRun] at hrun
  split at hrun
  · cases hrun
  · obtain rfl := Option.some.inj hrun
    refine ⟨⟨key, rfl⟩, fun writes hwrites => ?_⟩
    rw [List.mem_singleton.mp hwrites]
    exact hsafe

/-- Every step keeps the state sound. -/
theorem sound_step (s : Linking) (label : LinkLabel) (h : s.Sound) : (s.step label).Sound := by
  have herase : ∀ (process : ℕ), Sound { s with runs := s.runs.erase process } := by
    intro process
    refine ⟨h.numbered, fun {other run} hfound => ?_⟩
    rw [getElem?_erase_eq] at hfound
    split at hfound
    · cases hfound
    · exact h.checked hfound
  cases label with
  | link process key blockers pushed => exact sound_begin h process fun run hrun => linkRun_checked h.numbered hrun
  | recordBlock process key blockers => exact sound_begin h process fun run hrun => recordRun_checked h.numbered hrun
  | stop process => exact herase process
  | add now todo => exact ⟨h.numbered.kept (Doc.kept_withDoc Doc.add_kept), h.checked⟩
  | edit now edit =>
    rw [step]
    split
    · exact h
    · exact ⟨h.numbered.kept (Doc.kept_withDoc Doc.apply_kept), h.checked⟩
  | write process now =>
    rw [step, write]
    split
    · exact h
    · rename_i run hrun
      split
      · exact herase process
      · rename_i blockers rest hwrites
        split
        · exact herase process
        · rename_i doc changes happly
          refine ⟨h.numbered.kept (Doc.apply_kept happly), fun {other later} hfound => ?_⟩
          rw [getElem?_insert_eq] at hfound
          split at hfound
          · obtain rfl := Option.some.inj hfound
            obtain ⟨hkey, hchecked⟩ := h.checked hrun
            exact ⟨hkey, fun writes hmem => hchecked writes (hwrites ▸ List.mem_cons_of_mem blockers hmem)⟩
          · exact h.checked hfound

/-- A run's write keeps the store free of cycles exactly when it is undisturbed. -/
theorem acyclic_write_iff {s : Linking} (h : s.Sound) (hacyclic : s.Acyclic) (process : ℕ) (now : Instant) :
    (s.write process now).Acyclic ↔ s.Undisturbed (.write process now) := by
  rw [write]
  cases hrun : s.runs[process]? with
  | none => exact iff_of_true hacyclic fun run _ _ hsome => by rw [hrun] at hsome; cases hsome
  | some run =>
    dsimp only
    cases hwrites : run.writes with
    | nil =>
      refine iff_of_true hacyclic fun other _ _ hsome hother => ?_
      obtain rfl := Option.some.inj (hrun.symm.trans hsome)
      rw [hwrites] at hother
      cases hother
    | cons blockers rest =>
      dsimp only
      obtain ⟨⟨key, hid⟩, hchecked⟩ := h.checked hrun
      have hleads : ∀ blocker ∈ blockers, ¬ Leads run.checked blocker run.id :=
        hchecked blockers (by rw [hwrites]; exact List.mem_cons_self)
      have hundisturbed : s.Undisturbed (.write process now) ↔ ((∃ todo ∈ rows s.doc.todos, todo.id = run.id) →
          ∀ blocker ∈ blockers, ¬ Leads (rows s.doc.todos) blocker run.id) := by
        constructor
        · intro hundisturbed hthere blocker hblocker hback
          exact hleads blocker hblocker (hundisturbed run blockers rest hrun hwrites hthere blocker hblocker hback)
        · intro hnone other otherBlockers otherRest hsome hother hthere blocker hblocker hback
          obtain rfl := Option.some.inj (hrun.symm.trans hsome)
          obtain ⟨rfl, rfl⟩ := List.cons.inj (hwrites.symm.trans hother)
          exact absurd hback (hnone hthere blocker hblocker)
      rw [hundisturbed, hid, h.numbered.mem_rows_idOf]
      cases htodo : s.doc.todos[key]? with
      | none =>
        obtain ⟨refusal, hrefused⟩ := Doc.block_refused now htodo blockers
        rw [hrefused]
        exact iff_of_true hacyclic fun ⟨_, hsome⟩ => by cases hsome
      | some todo =>
        obtain ⟨doc, changes, happly, hedges⟩ := Doc.block_addEdges h.numbered now htodo blockers
        rw [happly]
        have hafter : (∀ id, ¬ TransGen (AddEdges (Blocked (rows s.doc.todos)) (idOf key) (· ∈ blockers)) id id) ↔
            ∀ blocker ∈ blockers, ¬ Leads (rows s.doc.todos) blocker (idOf key) := acyclic_addEdges_iff hacyclic
        rw [← hedges] at hafter
        exact hafter.trans ⟨fun hnone _ => hnone, fun hnone => hnone ⟨todo, rfl⟩⟩

/-- A step keeps the store free of cycles exactly when it is undisturbed. -/
theorem acyclic_step_iff (s : Linking) (label : LinkLabel) (h : s.Sound) (hacyclic : s.Acyclic) :
    (s.step label).Acyclic ↔ s.Undisturbed label := by
  have hbegin : ∀ (process : ℕ) (run : Option LinkRun), (s.begin process run).Acyclic := by
    intro process run
    cases run with
    | none => exact hacyclic
    | some run =>
      rw [begin]
      split <;> exact hacyclic
  cases label with
  | link process key blockers pushed => exact iff_of_true (hbegin process _) trivial
  | recordBlock process key blockers => exact iff_of_true (hbegin process _) trivial
  | write process now => exact acyclic_write_iff h hacyclic process now
  | stop process => exact iff_of_true hacyclic trivial
  | edit now edit =>
    refine iff_of_true ?_ trivial
    rw [step]
    split
    · exact hacyclic
    · rename_i hedit
      cases happly : s.doc.apply now edit with
      | error refusal => exact hacyclic
      | ok written =>
        refine (Doc.apply_noNewEdges (fun id blockers heq => hedit ?_) happly).acyclic hacyclic
        rw [heq]
        rfl
  | add now todo =>
    refine iff_of_true ?_ trivial
    rw [step]
    cases hadd : s.doc.add now todo with
    | error refusal => exact hacyclic
    | ok written => exact (Doc.add_noNewEdges hadd).acyclic hacyclic

/-- A write is undisturbed where every edge stored since the run's check is one of its own todo. -/
theorem undisturbed_of_edges {s : Linking} {process : ℕ} (now : Instant)
    (hedges : ∀ run, s.runs[process]? = some run → ∀ id blocker, Blocked (rows s.doc.todos) id blocker →
      Blocked run.checked id blocker ∨ id = run.id) : s.Undisturbed (.write process now) := by
  intro run blockers rest hrun _ _ blocker hblocker hback
  clear hblocker
  induction hback using ReflTransGen.head_induction_on with
  | refl => exact .refl
  | head hedge _ ih =>
    cases hedges run hrun _ _ hedge with
    | inl hchecked => exact .head hchecked ih
    | inr hown =>
      rw [hown]
      exact .refl

/-- In every run of any processes, the stored edges close no cycle in any state reached exactly when
every write is undisturbed. -/
theorem acyclic_throughout_iff (doc : Doc) (labels : List LinkLabel) (hnumbered : doc.Numbered)
    (hacyclic : Todos.Acyclic (rows doc.todos)) :
    Throughout step Acyclic (start doc) labels ↔ Along step Undisturbed (start doc) labels :=
  throughout_iff_along Sound Acyclic sound_step acyclic_step_iff
    ⟨hnumbered, fun hrun => by simp [start] at hrun⟩ (show (start doc).Acyclic from hacyclic) labels

section Example

/-- Two todos that wait on nothing. -/
def twoDoc : Doc :=
  ⟨3, .ofList [(1, Doc.nestedTodo "1" .pending none []), (2, Doc.nestedTodo "2" .pending none [])]⟩

/-- The sample is numbered as a store numbers. -/
theorem numbered_twoDoc : twoDoc.Numbered := by
  refine ⟨fun {key todo} htodo => ?_, fun {key todo} htodo => ?_⟩ <;>
    · have hrow := mem_of_getElem?_ofList htodo
      simp only [List.mem_cons, Prod.mk.injEq, List.not_mem_nil, or_false] at hrow
      obtain ⟨rfl, rfl⟩ | ⟨rfl, rfl⟩ := hrow <;> decide

/-- The sample has no edges. -/
theorem not_blocked_twoDoc {id blocker : String} : ¬ Blocked (rows twoDoc.todos) id blocker := by
  have hnone : ∀ todo ∈ rows twoDoc.todos, todo.blockedBy = [] := by decide +kernel
  intro hblocked
  obtain ⟨todo, htodo, _, hblocker⟩ := hblocked
  rw [hnone todo htodo] at hblocker
  exact List.not_mem_nil hblocker

/-- The sample has no cycle. -/
theorem acyclic_twoDoc : Todos.Acyclic (rows twoDoc.todos) := by
  intro id hcycle
  cases hcycle with
  | single hedge => exact not_blocked_twoDoc hedge
  | tail _ hedge => exact not_blocked_twoDoc hedge

/-- Two processes each list the todos, then each makes one of them wait on the other. -/
def crossedLinks : List LinkLabel :=
  [.link 0 1 [2] fun _ => false, .link 1 2 [1] fun _ => false, .write 0 ⟨0, ""⟩, .write 1 ⟨0, ""⟩]

/-- In the sample each of the two edges passes its check. -/
theorem linkRun_twoDoc {key other : ℕ} (hne : idOf other ≠ idOf key) :
    linkRun twoDoc key [other] (fun _ => false) = some ⟨idOf key, rows twoDoc.todos, [[idOf other]]⟩ := by
  have hnone : (Graph.mk (rows twoDoc.todos)).cycleThrough (idOf key) [idOf other] = none := by
    refine (Graph.cycleThrough_eq_none_iff numbered_twoDoc.distinct).mpr fun blocker hblocker hway => ?_
    rw [List.mem_singleton.mp hblocker] at hway
    cases hway.cases_head with
    | inl heq => exact hne heq
    | inr hstep =>
      obtain ⟨_, hedge, _⟩ := hstep
      exact not_blocked_twoDoc hedge
  rw [linkRun, List.map_singleton, hnone]
  rfl

/-- The sample once both runs have passed their checks. -/
def twoChecked : Linking :=
  ⟨twoDoc, (ExtTreeMap.insert ∅ 0 ⟨"1", rows twoDoc.todos, [["2"]]⟩).insert 1 ⟨"2", rows twoDoc.todos, [["1"]]⟩⟩

/-- Both runs of the sample pass their checks. -/
theorem runFrom_twoChecked (rest : List LinkLabel) :
    runFrom step (start twoDoc) ((.link 0 1 [2] fun _ => false) :: (.link 1 2 [1] fun _ => false) :: rest) =
      runFrom step twoChecked rest := by
  have hfirst : linkRun twoDoc 1 [2] (fun _ => false) = some ⟨"1", rows twoDoc.todos, [["2"]]⟩ :=
    linkRun_twoDoc (by decide)
  have hsecond : linkRun twoDoc 2 [1] (fun _ => false) = some ⟨"2", rows twoDoc.todos, [["1"]]⟩ :=
    linkRun_twoDoc (by decide)
  have hone : (start twoDoc).step (.link 0 1 [2] fun _ => false) =
      ⟨twoDoc, ExtTreeMap.insert ∅ 0 ⟨"1", rows twoDoc.todos, [["2"]]⟩⟩ := by
    change begin (start twoDoc) 0 (linkRun twoDoc 1 [2] fun _ => false) = _
    rw [hfirst]
    have hfree : (start twoDoc).runs.contains 0 = false := by decide
    rw [begin, hfree]
    rfl
  have htwo : step ⟨twoDoc, ExtTreeMap.insert ∅ 0 ⟨"1", rows twoDoc.todos, [["2"]]⟩⟩
      (.link 1 2 [1] fun _ => false) = twoChecked := by
    change begin ⟨twoDoc, _⟩ 1 (linkRun twoDoc 2 [1] fun _ => false) = _
    rw [hsecond]
    rfl
  rw [runFrom_cons, runFrom_cons, hone, htwo]

/-- Two runs that check before either writes leave two todos that wait on each other. -/
theorem crossed_links_cycle : ¬ Throughout step Acyclic (start twoDoc) crossedLinks := by
  intro hthroughout
  have hend := hthroughout crossedLinks (List.prefix_refl _)
  rw [crossedLinks, runFrom_twoChecked] at hend
  have hedges : ∀ ends ∈ [("1", "2"), ("2", "1")],
      ∃ todo ∈ rows (runFrom step twoChecked [.write 0 ⟨0, ""⟩, .write 1 ⟨0, ""⟩]).doc.todos,
        todo.id = ends.1 ∧ ends.2 ∈ todo.blockedBy := by decide +kernel
  exact hend "1" (.head (hedges ("1", "2") (by decide)) (.single (hedges ("2", "1") (by decide))))

/-- The exact condition at the two crossed runs of the sample. -/
theorem acyclic_throughout_iff_sample :
    Throughout step Acyclic (start twoDoc) crossedLinks ↔ Along step Undisturbed (start twoDoc) crossedLinks :=
  acyclic_throughout_iff twoDoc crossedLinks numbered_twoDoc acyclic_twoDoc

end Example

end Linking

end Devkit.Todos
