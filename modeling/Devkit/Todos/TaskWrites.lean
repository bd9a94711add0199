import Devkit.Todos.Taskchampion
import Mathlib.Data.String.Basic

/-!
# What a task reads as after writes

A write changes the property it names and the time of the last change. So the todo read back differs
in one field, and the dependencies a task has are those whose properties are there.
-/

namespace Devkit.Todos

open Devkit.Library
open Std

/-- Dropping equal neighbours of a sorted list leaves it strictly sorted. -/
theorem pairwise_dedup {texts : List String} (h : texts.Pairwise (· ≤ ·)) : (dedup texts).Pairwise (· < ·) := by
  induction texts using dedup.induct with
  | case1 a rest ih =>
    rw [dedup, if_pos rfl]
    exact ih h.of_cons
  | case2 a b rest hne ih =>
    rw [dedup, if_neg hne]
    refine List.pairwise_cons.mpr ⟨fun c hc => ?_, ih h.of_cons⟩
    have hab : a < b := (List.rel_of_pairwise_cons h List.mem_cons_self).lt_of_ne hne
    cases List.mem_cons.mp (mem_dedup.mp hc) with
    | inl heq => exact heq ▸ hab
    | inr hrest => exact hab.trans_le (List.rel_of_pairwise_cons h.of_cons hrest)
  | case3 short hshort =>
    rw [dedup]
    · cases short with
      | nil => exact .nil
      | cons a rest =>
        cases rest with
        | nil => exact List.pairwise_singleton _ _
        | cons b rest => exact absurd rfl (hshort a b rest)
    · exact hshort

/-- Sorted without duplicates, lists of the same texts are the same. -/
theorem dedup_sort_congr {texts others : List String} (h : ∀ text, text ∈ texts ↔ text ∈ others) :
    dedup (texts.insertionSort (· ≤ ·)) = dedup (others.insertionSort (· ≤ ·)) := by
  have hsorted : ∀ texts : List String, (dedup (texts.insertionSort (· ≤ ·))).Pairwise (· < ·) := fun texts =>
    pairwise_dedup (List.pairwise_insertionSort (· ≤ ·) texts)
  refine List.Perm.eq_of_pairwise (fun a b _ _ hab hba => absurd hba hab.asymm) (hsorted _) (hsorted _) ?_
  refine (List.perm_ext_iff_of_nodup ((hsorted texts).imp fun h => h.ne) ((hsorted others).imp fun h => h.ne)).mpr
    fun text => ?_
  rw [mem_dedup, mem_dedup, List.mem_insertionSort, List.mem_insertionSort]
  exact h text

section Properties

/-- A property after an update. -/
theorem getElem?_update (task : Properties) (property other : String) (value : Option String) :
    (update task property value)[other]? = if property = other then value else task[other]? := by
  cases value with
  | some value => exact getElem?_insert_eq task property other value
  | none => exact getElem?_erase_eq task property other

/-- A write changes the property it names; the time of the last change is another. -/
theorem getElem?_set (now : Instant) (w : Writer) (property : String) (value : Option String) {other : String}
    (hother : other ≠ "modified") :
    (w.set now property value).task[other]? = if property = other then value else w.task[other]? := by
  rw [Writer.set, getElem?_update]
  split
  · rfl
  · split
    · rfl
    · rw [getElem?_update, if_neg hother.symm]

/-- The name of a dependency's property is that of its uuid. -/
@[simp] theorem stripDependency_dependency (uuid : Uuid) : stripDependency (dependency uuid) = some uuid.text := by
  unfold stripDependency dependency
  rw [String.toList_append]
  change some (String.ofList uuid.text.toList) = _
  rw [String.ofList_toList]

/-- A property is that of a dependency exactly when it is named so. -/
theorem stripDependency_eq_some {property rest : String} :
    stripDependency property = some rest ↔ property = "dep_" ++ rest := by
  constructor
  · intro h
    unfold stripDependency at h
    split at h
    · rename_i chars hchars
      obtain rfl := Option.some.inj h
      apply String.toList_inj.mp
      rw [String.toList_append, String.toList_ofList, String.toList_ofList]
      exact hchars
    · contradiction
  · intro h
    rw [h, stripDependency, String.toList_append]
    change some (String.ofList rest.toList) = _
    rw [String.ofList_toList]

/-- Different uuids have different dependency properties. -/
@[simp] theorem dependency_inj {uuid other : Uuid} : dependency uuid = dependency other ↔ uuid = other := by
  constructor
  · intro h
    have hstrip := congrArg stripDependency h
    rw [stripDependency_dependency, stripDependency_dependency] at hstrip
    exact Uuid.text_inj.mp (Option.some.inj hstrip)
  · exact congrArg dependency

end Properties

section Blockers

variable {lib : TaskLibraries}

/-- Every dependency property is named by a uuid as it prints. -/
def Canonical (task : Properties) : Prop :=
  ∀ (property rest value : String), task[property]? = some value → stripDependency property = some rest →
    ∃ uuid : Uuid, rest = uuid.text

/-- The blockers read are those of the dependency properties. -/
theorem mem_readBlockers {task : Properties} (hcanonical : Canonical task) {blocker : String} :
    blocker ∈ readBlockers lib task ↔ ∃ uuid : Uuid, blocker = uuid.text ∧ task[dependency uuid]?.isSome = true := by
  rw [readBlockers, mem_dedup, List.mem_insertionSort, List.mem_map]
  constructor
  · rintro ⟨uuid, huuid, rfl⟩
    obtain ⟨rest, hrest, hparse⟩ := List.mem_filterMap.mp huuid
    obtain ⟨property, hproperty, hstrip⟩ := List.mem_filterMap.mp hrest
    rw [ExtTreeMap.mem_keys, ExtTreeMap.mem_iff_isSome_getElem?] at hproperty
    obtain ⟨value, hvalue⟩ := Option.isSome_iff_exists.mp hproperty
    obtain ⟨other, rfl⟩ := hcanonical property rest value hvalue hstrip
    rw [lib.tryParse_text] at hparse
    obtain rfl := Option.some.inj hparse
    refine ⟨other, rfl, ?_⟩
    rw [dependency, ← stripDependency_eq_some.mp hstrip]
    exact hproperty
  · rintro ⟨uuid, rfl, hsome⟩
    refine ⟨uuid, List.mem_filterMap.mpr ⟨uuid.text, ?_, lib.tryParse_text uuid⟩, rfl⟩
    refine List.mem_filterMap.mpr ⟨dependency uuid, ?_, stripDependency_dependency uuid⟩
    rwa [ExtTreeMap.mem_keys, ExtTreeMap.mem_iff_isSome_getElem?]

/-- A write of another property keeps the names of the dependencies canonical. -/
theorem Canonical.set {w : Writer} (h : Canonical w.task) {now : Instant} {property : String}
    {value : Option String} (hproperty : ∀ rest, stripDependency property = some rest →
      ∃ uuid : Uuid, rest = uuid.text) :
    Canonical (w.set now property value).task := by
  intro other rest held hheld hstrip
  by_cases hmodified : other = "modified"
  · have hnone : stripDependency "modified" = none := by decide
    rw [hmodified, hnone] at hstrip
    contradiction
  · rw [getElem?_set now w property value hmodified] at hheld
    split at hheld
    · rename_i heq
      rw [← heq] at hstrip
      exact hproperty rest hstrip
    · exact h other rest held hheld hstrip

/-- A write of a property that names no dependency keeps the names canonical. -/
theorem Canonical.setPlain {w : Writer} (h : Canonical w.task) (now : Instant) {property : String}
    (value : Option String) (hproperty : stripDependency property = none) :
    Canonical (w.set now property value).task := by
  refine h.set fun rest hrest => ?_
  rw [hproperty] at hrest
  contradiction

/-- Tasks with the same dependency properties read the same blockers. -/
theorem readBlockers_congr (lib : TaskLibraries) {task other : Properties} (htask : Canonical task)
    (hother : Canonical other)
    (h : ∀ uuid, task[dependency uuid]? = other[dependency uuid]?) :
      readBlockers lib task = readBlockers lib other := by
  refine dedup_sort_congr fun blocker => ?_
  have hread : ∀ task : Properties, Canonical task →
      (blocker ∈ ((task.keys.filterMap stripDependency).filterMap lib.tryParse).map Uuid.text ↔
        ∃ uuid : Uuid, blocker = uuid.text ∧ task[dependency uuid]?.isSome = true) := by
    intro task htask
    rw [← mem_readBlockers htask, readBlockers, mem_dedup, List.mem_insertionSort]
  rw [hread task htask, hread other hother]
  simp only [h]

/-- A property that names no dependency is none. -/
theorem dependency_ne {property : String} (hproperty : stripDependency property = none) (uuid : Uuid) :
    dependency uuid ≠ property := by
  intro heq
  rw [← heq, stripDependency_dependency] at hproperty
  contradiction

/-- A write of a property that names no dependency leaves the dependencies. -/
theorem getElem?_set_dependency (now : Instant) (w : Writer) {property : String} (value : Option String)
    (hproperty : stripDependency property = none) (uuid : Uuid) :
    (w.set now property value).task[dependency uuid]? = w.task[dependency uuid]? := by
  rw [getElem?_set now w property value (dependency_ne (by decide) uuid), if_neg (dependency_ne hproperty uuid).symm]

/-- A write of a property that names no dependency reads the same blockers. -/
theorem readBlockers_set (lib : TaskLibraries) {w : Writer} (h : Canonical w.task) (now : Instant) {property : String}
    (value : Option String) (hproperty : stripDependency property = none) :
    readBlockers lib (w.set now property value).task = readBlockers lib w.task :=
  readBlockers_congr lib (h.setPlain now value hproperty) h fun uuid =>
    getElem?_set_dependency now w value hproperty uuid

end Blockers

/-- The todo a task is read as, field by field. -/
structure ReadAs (lib : TaskLibraries) (uuid : Uuid) (task : Properties) (todo : Todo) : Prop where
  canonical : Canonical task
  id : todo.id = uuid.text
  description : todo.description = task["description"]?.getD ""
  status : readTaskStatus (task["status"]?.getD "") task["start"]? task["holder"]? = some todo.status
  parent : todo.parent = task["subof"]?
  order : todo.order = task["order"]?.bind readOrder
  project : task["project"]?.bind nodeOf = some todo.project
  entry : todo.entry = readStamp lib task "entry"
  modified : todo.modified = readStamp lib task "modified"
  blockedBy : todo.blockedBy = readBlockers lib task
  ticket : todo.ticket = readTicket task["ticket_tracker"]? task["ticket_key"]? task["ticket_status"]?

section ReadAs

variable {lib : TaskLibraries} {uuid : Uuid} {w : Writer} {todo : Todo} (now : Instant)

/-- What a task with canonical dependencies is read as. -/
theorem todoFrom_eq_some {task : Properties} (hcanonical : Canonical task) :
    todoFrom lib uuid task = some todo ↔ ReadAs lib uuid task todo := by
  constructor
  · intro h
    obtain ⟨project, hproject, h⟩ := Option.bind_eq_some_iff.mp h
    obtain ⟨status, hstatus, h⟩ := Option.bind_eq_some_iff.mp h
    obtain rfl := Option.some.inj h
    exact ⟨hcanonical, rfl, rfl, hstatus, rfl, rfl, hproject, rfl, rfl, rfl, rfl⟩
  · intro h
    rw [todoFrom, h.project, Option.bind_eq_bind, Option.bind_some, h.status, Option.bind_eq_bind, Option.bind_some,
      ← h.id, ← h.description, ← h.parent, ← h.order, ← h.entry, ← h.modified, ← h.blockedBy, ← h.ticket]

/-- A new text is read back. -/
theorem ReadAs.setDescription (h : ReadAs lib uuid w.task todo) (text : String) :
    ReadAs lib uuid (w.set now "description" (some text)).task { todo with
      description := text
      modified := readStamp lib (w.set now "description" (some text)).task "modified" } := by
  have hplain : stripDependency "description" = none := by decide
  have hblockers := readBlockers_set lib h.canonical now (some text) hplain
  refine ⟨h.canonical.setPlain now (some text) hplain, h.id, ?_, ?_, ?_, ?_, ?_, ?_, rfl, ?_, ?_⟩ <;>
    simp [getElem?_set, readStamp, hblockers, h.status, h.parent, h.order, h.project, h.entry, h.blockedBy, h.ticket]

/-- A new parent is read back. -/
theorem ReadAs.setParent (h : ReadAs lib uuid w.task todo) (parent : Option String) :
    ReadAs lib uuid (w.set now "subof" parent).task { todo with
      parent
      modified := readStamp lib (w.set now "subof" parent).task "modified" } := by
  have hplain : stripDependency "subof" = none := by decide
  have hblockers := readBlockers_set lib h.canonical now parent hplain
  refine ⟨h.canonical.setPlain now parent hplain, h.id, ?_, ?_, ?_, ?_, ?_, ?_, rfl, ?_, ?_⟩ <;>
    simp [getElem?_set, readStamp, hblockers, h.description, h.status, h.order, h.project, h.entry, h.blockedBy,
      h.ticket]

/-- A new order is read back as a double. -/
theorem ReadAs.setOrder (h : ReadAs lib uuid w.task todo) (text : String) :
    ReadAs lib uuid (w.set now "order" (some text)).task { todo with
      order := readOrder text
      modified := readStamp lib (w.set now "order" (some text)).task "modified" } := by
  have hplain : stripDependency "order" = none := by decide
  have hblockers := readBlockers_set lib h.canonical now (some text) hplain
  refine ⟨h.canonical.setPlain now (some text) hplain, h.id, ?_, ?_, ?_, ?_, ?_, ?_, rfl, ?_, ?_⟩ <;>
    simp [getElem?_set, readStamp, hblockers, h.description, h.status, h.parent, h.project, h.entry, h.blockedBy,
      h.ticket]

/-- A new project is read back as its node. -/
theorem ReadAs.setProject (h : ReadAs lib uuid w.task todo) {project : String} {node : Option String}
    (hnode : nodeOf project = some node) :
    ReadAs lib uuid (w.set now "project" (some project)).task { todo with
      project := node
      modified := readStamp lib (w.set now "project" (some project)).task "modified" } := by
  have hplain : stripDependency "project" = none := by decide
  have hblockers := readBlockers_set lib h.canonical now (some project) hplain
  refine ⟨h.canonical.setPlain now (some project) hplain, h.id, ?_, ?_, ?_, ?_, ?_, ?_, rfl, ?_, ?_⟩ <;>
    simp [getElem?_set, readStamp, hblockers, h.description, h.status, h.parent, h.order, h.entry, h.blockedBy,
      h.ticket, hnode]

/-- A new synced status is read back in the ticket. -/
theorem ReadAs.setTicketStatus (h : ReadAs lib uuid w.task todo) {ticket : TicketRef}
    (hticket : todo.ticket = some ticket) (text : String) :
    ReadAs lib uuid (w.set now "ticket_status" (some text)).task { todo with
      ticket := some { ticket with syncedStatus := some text }
      modified := readStamp lib (w.set now "ticket_status" (some text)).task "modified" } := by
  have hplain : stripDependency "ticket_status" = none := by decide
  have hblockers := readBlockers_set lib h.canonical now (some text) hplain
  have hread : readTicket w.task["ticket_tracker"]? w.task["ticket_key"]? (some text) =
      some { ticket with syncedStatus := some text } := by
    have hnames := h.ticket.symm.trans hticket
    unfold readTicket at hnames ⊢
    split at hnames
    · rename_i tracker key htracker hkey
      rw [← Option.some.inj hnames]
    · contradiction
  refine ⟨h.canonical.setPlain now (some text) hplain, h.id, ?_, ?_, ?_, ?_, ?_, ?_, rfl, ?_, ?_⟩ <;>
    simp [getElem?_set, readStamp, hblockers, h.description, h.status, h.parent, h.order, h.project, h.entry,
      h.blockedBy, hread]

end ReadAs

section Statuses

variable (now : Instant) (w : Writer) {other : String}

/-- Properties after a status is set; the end time goes with it. -/
theorem getElem?_status (status : TaskStatus) (hmodified : other ≠ "modified") (hend : other ≠ "end") :
    (w.status now status).task[other]? = if "status" = other then some status.stored else w.task[other]? := by
  unfold Writer.status
  rw [getElem?_set now _ _ _ hmodified]
  split
  · rfl
  · split
    · rw [getElem?_set now _ _ _ hmodified, if_neg hend.symm]
    · rfl

/-- Properties after a start, which keeps the start time there is. -/
theorem getElem?_start (hmodified : other ≠ "modified") :
    (w.start now).task[other]? =
      if "start" = other then some (w.task["start"]?.getD now.seconds) else w.task[other]? := by
  unfold Writer.start
  rw [ExtTreeMap.contains_eq_isSome_getElem?]
  split
  · rename_i hstarted
    obtain ⟨time, htime⟩ := Option.isSome_iff_exists.mp hstarted
    split
    · rename_i heq
      rw [← heq, htime]
      rfl
    · rfl
  · rename_i hstopped
    rw [getElem?_set now _ _ _ hmodified, Option.not_isSome_iff_eq_none.mp hstopped]
    rfl

/-- Properties after a stop. -/
theorem getElem?_stop (hmodified : other ≠ "modified") :
    (w.stop now).task[other]? = if "start" = other then none else w.task[other]? := by
  unfold Writer.stop
  rw [ExtTreeMap.contains_eq_isSome_getElem?]
  split
  · exact getElem?_set now w "start" none hmodified
  · rename_i hstopped
    split
    · rename_i heq
      rw [← heq]
      exact Option.not_isSome_iff_eq_none.mp hstopped
    · rfl

variable {w}

/-- Setting the status names no dependency. -/
theorem Canonical.status (h : Canonical w.task) (status : TaskStatus) : Canonical (w.status now status).task := by
  unfold Writer.status
  refine Canonical.setPlain ?_ now _ (by decide)
  split
  · exact h.setPlain now _ (by decide)
  · exact h

/-- A start names no dependency. -/
theorem Canonical.start (h : Canonical w.task) : Canonical (w.start now).task := by
  unfold Writer.start
  split
  · exact h
  · exact h.setPlain now _ (by decide)

/-- A stop names no dependency. -/
theorem Canonical.stop (h : Canonical w.task) : Canonical (w.stop now).task := by
  unfold Writer.stop
  split
  · exact h.setPlain now _ (by decide)
  · exact h

/-- A status that is read back as it is written: whoever started or ended the todo has a name. -/
def Recordable : Status → Prop
  | .pending => True
  | .inProgress holder => holder.text ≠ ""
  | .completed holder | .cancelled holder => ∃ named, holder = some named ∧ named.text ≠ ""

/-- The properties a written status touches. -/
def statusProperties : List String := ["status", "start", "end", "holder", "modified"]

/-- A status names no dependency. -/
theorem Canonical.writeStatus (h : Canonical w.task) (status : Status) :
    Canonical (w.writeStatus now status).task := by
  cases status with
  | pending => exact ((h.status now .pending).stop now).setPlain now none (by decide)
  | inProgress holder => exact ((h.status now .pending).start now).setPlain now _ (by decide)
  | completed holder | cancelled holder =>
    cases holder with
    | none => exact (h.stop now).status now _
    | some holder => exact ((h.stop now).status now _).setPlain now _ (by decide)

/-- A written status leaves the other properties. -/
theorem getElem?_writeStatus (status : Status) (hother : other ∉ statusProperties) :
    (w.writeStatus now status).task[other]? = w.task[other]? := by
  simp only [statusProperties, List.mem_cons, List.not_mem_nil, or_false, not_or] at hother
  obtain ⟨hstatus, hstart, hend, hholder, hmodified⟩ := hother
  cases status with
  | pending =>
    rw [Writer.writeStatus, Writer.release, getElem?_set now _ _ _ hmodified, if_neg (Ne.symm hholder),
      getElem?_stop now _ hmodified, if_neg (Ne.symm hstart), getElem?_status now _ _ hmodified hend,
      if_neg (Ne.symm hstatus)]
  | inProgress holder =>
    rw [Writer.writeStatus, getElem?_set now _ _ _ hmodified, if_neg (Ne.symm hholder),
      getElem?_start now _ hmodified, if_neg (Ne.symm hstart), getElem?_status now _ _ hmodified hend,
      if_neg (Ne.symm hstatus)]
  | completed holder | cancelled holder =>
    cases holder with
    | none =>
      rw [Writer.writeStatus, Writer.close, getElem?_status now _ _ hmodified hend, if_neg (Ne.symm hstatus),
        getElem?_stop now _ hmodified, if_neg (Ne.symm hstart)]
    | some holder =>
      simp only [Writer.writeStatus, Writer.close]
      rw [getElem?_set now _ _ _ hmodified, if_neg (Ne.symm hholder),
        getElem?_status now _ _ hmodified hend, if_neg (Ne.symm hstatus), getElem?_stop now _ hmodified,
        if_neg (Ne.symm hstart)]

/-- A status that can be recorded is read back. -/
theorem readTaskStatus_writeStatus {status : Status} (hrecordable : Recordable status) :
    readTaskStatus ((w.writeStatus now status).task["status"]?.getD "") (w.writeStatus now status).task["start"]?
      (w.writeStatus now status).task["holder"]? = some status := by
  cases status with
  | pending =>
    simp [Writer.writeStatus, Writer.release, getElem?_set, getElem?_stop, getElem?_status, readTaskStatus,
      TaskStatus.stored]
  | inProgress holder =>
    have hnamed : holder.text ≠ "" := hrecordable
    simp [Writer.writeStatus, getElem?_set, getElem?_start, getElem?_status, readTaskStatus, TaskStatus.stored,
      hnamed, Option.filter]
  | completed holder | cancelled holder =>
    obtain ⟨named, rfl, hnamed⟩ := hrecordable
    simp [Writer.writeStatus, Writer.close, getElem?_set, getElem?_status, readTaskStatus, TaskStatus.stored,
      hnamed, Option.filter]

/-- A status that can be recorded is read back in the todo. -/
theorem ReadAs.writeStatus {lib : TaskLibraries} {uuid : Uuid} {todo : Todo} {status : Status}
    (h : ReadAs lib uuid w.task todo) (hrecordable : Recordable status) :
    ReadAs lib uuid (w.writeStatus now status).task { todo with
      status
      modified := readStamp lib (w.writeStatus now status).task "modified" } := by
  have hsame : ∀ other, other ∉ statusProperties → (w.writeStatus now status).task[other]? = w.task[other]? :=
    fun other hother => getElem?_writeStatus now status hother
  have hplain : ∀ property ∈ statusProperties, stripDependency property = none := by decide
  have hdependency : ∀ uuid : Uuid, dependency uuid ∉ statusProperties := fun uuid hmem =>
    dependency_ne (hplain _ hmem) uuid rfl
  have hblockers := readBlockers_congr lib (h.canonical.writeStatus now status) h.canonical fun uuid =>
    hsame _ (hdependency uuid)
  refine ⟨h.canonical.writeStatus now status, h.id, ?_, readTaskStatus_writeStatus now hrecordable, ?_, ?_, ?_, ?_,
    rfl, ?_, ?_⟩ <;>
    simp [hsame, statusProperties, readStamp, hblockers, h.description, h.parent, h.order, h.project, h.entry,
      h.blockedBy, h.ticket]

end Statuses

section Dependencies

variable (lib : TaskLibraries) {uuid : Uuid} (now : Instant)

/-- Set or remove the dependency on a task. -/
def setDependency (add : Bool) (w : Writer) (on : Uuid) : Writer :=
  w.set now (dependency on) (if add then some "" else none)

/-- A dependency set or removed is a blocker more or less. -/
theorem mem_readBlockers_setDependency {w : Writer} (h : Canonical w.task) (add : Bool) (on : Uuid) (blocker : String) :
    Canonical (setDependency now add w on).task ∧ (blocker ∈ readBlockers lib (setDependency now add w on).task ↔
      if blocker = on.text then add = true else blocker ∈ readBlockers lib w.task) := by
  have hcanonical : Canonical (setDependency now add w on).task := by
    refine h.set fun rest hrest => ⟨on, ?_⟩
    rw [stripDependency_dependency] at hrest
    exact (Option.some.inj hrest).symm
  have hlookup : ∀ other : Uuid, (setDependency now add w on).task[dependency other]? =
      if on = other then (if add then some "" else none) else w.task[dependency other]? := by
    intro other
    rw [setDependency, getElem?_set now w _ _ (dependency_ne (by decide) other)]
    simp only [dependency_inj]
  refine ⟨hcanonical, ?_⟩
  rw [mem_readBlockers hcanonical, mem_readBlockers h]
  simp only [hlookup]
  by_cases hon : blocker = on.text
  · rw [if_pos hon]
    constructor
    · rintro ⟨other, hother, hsome⟩
      rw [if_pos (Uuid.text_inj.mp (hon.symm.trans hother))] at hsome
      cases add with
      | true => rfl
      | false => contradiction
    · intro hadd
      refine ⟨on, hon, ?_⟩
      rw [if_pos rfl, if_pos hadd]
      rfl
  · rw [if_neg hon]
    refine exists_congr fun other => and_congr_right fun hother => ?_
    rw [if_neg fun heq => hon (by rw [hother, heq])]

/-- Dependencies set or removed are blockers more or less. -/
theorem mem_readBlockers_foldl (add : Bool) (uuids : List Uuid) {w : Writer} (h : Canonical w.task) (blocker : String) :
    Canonical (uuids.foldl (setDependency now add) w).task ∧
      (blocker ∈ readBlockers lib (uuids.foldl (setDependency now add) w).task ↔
        if blocker ∈ uuids.map Uuid.text then add = true else blocker ∈ readBlockers lib w.task) := by
  induction uuids generalizing w with
  | nil => exact ⟨h, by simp⟩
  | cons on rest ih =>
    have hstep := mem_readBlockers_setDependency lib now h add on blocker
    obtain ⟨hcanonical, hrest⟩ := ih hstep.1
    refine ⟨hcanonical, ?_⟩
    rw [List.foldl_cons, hrest, hstep.2]
    by_cases hon : blocker = on.text <;> by_cases hmem : blocker ∈ rest.map Uuid.text <;> simp [hon, hmem]

/-- Properties other than the dependencies stay. -/
theorem getElem?_foldl_setDependency (add : Bool) (uuids : List Uuid) (w : Writer) {property : String}
    (hplain : stripDependency property = none) (hmodified : property ≠ "modified") :
    (uuids.foldl (setDependency now add) w).task[property]? = w.task[property]? := by
  induction uuids generalizing w with
  | nil => rfl
  | cons on rest ih =>
    rw [List.foldl_cons, ih, setDependency, getElem?_set now w _ _ hmodified, if_neg (dependency_ne hplain on)]

variable {lib} in
/-- Dependencies set or removed are read back in the todo's blockers. -/
theorem ReadAs.setDependencies {w : Writer} {todo : Todo} (h : ReadAs lib uuid w.task todo) (add : Bool)
    (uuids : List Uuid) :
    ReadAs lib uuid (uuids.foldl (setDependency now add) w).task { todo with
      blockedBy := readBlockers lib (uuids.foldl (setDependency now add) w).task
      modified := readStamp lib (uuids.foldl (setDependency now add) w).task "modified" } := by
  have hsame : ∀ property, stripDependency property = none → property ≠ "modified" →
      (uuids.foldl (setDependency now add) w).task[property]? = w.task[property]? :=
    fun property => getElem?_foldl_setDependency now add uuids w
  refine ⟨(mem_readBlockers_foldl lib now add uuids h.canonical "").1, h.id, ?_, ?_, ?_, ?_, ?_, ?_,
    rfl, rfl, ?_⟩ <;>
    simp [hsame, stripDependency, readStamp, h.description, h.status, h.parent, h.order, h.project, h.entry, h.ticket]

end Dependencies

/-- A new task is read as the todo it was made for. -/
theorem readAs_newTask (lib : TaskLibraries) (now : Instant) (uuid : Uuid) (todo : NewTodo) (parent : Option String)
    (order : Int64) {node : Option String} (hnode : nodeOf (projectOf todo.project) = some node) :
    ∃ entry modified, ReadAs lib uuid (Replica.newTask now todo parent order)
      ⟨uuid.text, oneLine todo.description, .pending, parent, readOrder (orderText order), node, entry, modified, [],
        todo.ticket⟩ := by
  have hempty : Canonical (Writer.new ∅).task := fun property rest value hheld => by
    simp [Writer.new] at hheld
  have hnone : ∀ property : String, (Writer.new ∅).task[property]? = none := fun property => by simp [Writer.new]
  have hcanonical : Canonical (Replica.newTask now todo parent order) := by
    have hplain : stripDependency "description" = none ∧ stripDependency "entry" = none ∧
        stripDependency "project" = none ∧ stripDependency "order" = none ∧ stripDependency "subof" = none := by
      decide
    obtain ⟨hdescription, hentry, hproject, horder, hparent⟩ := hplain
    have hbase := (((((hempty.setPlain now (some (oneLine todo.description)) hdescription).status
      now .pending).setPlain now (some now.seconds) hentry).setPlain now
        (some (projectOf todo.project)) hproject).setPlain
      now (some (orderText order)) horder).setPlain now parent hparent
    unfold Replica.newTask
    cases todo.ticket with
    | none => exact hbase
    | some ticket =>
      exact ((hbase.setPlain now _ (by decide)).setPlain now _ (by decide)).setPlain now _ (by decide)
  have hblockers : readBlockers lib (Replica.newTask now todo parent order) = [] := by
    rw [List.eq_nil_iff_forall_not_mem]
    intro blocker hblocker
    obtain ⟨on, _, hsome⟩ := (mem_readBlockers hcanonical).mp hblocker
    have hstatus : ∀ w : Writer, (w.status now .pending).task[dependency on]? = w.task[dependency on]? := fun w => by
      rw [getElem?_status now w _ (dependency_ne (by decide) on) (dependency_ne (by decide) on),
        if_neg (dependency_ne (by decide) on).symm]
    unfold Replica.newTask at hsome
    cases hticket : todo.ticket with
    | none =>
      simp [hticket, getElem?_set_dependency, stripDependency, hstatus, hnone] at hsome
    | some ticket =>
      simp [hticket, getElem?_set_dependency, stripDependency, hstatus, hnone] at hsome
  refine ⟨_, _, hcanonical, rfl, ?_, ?_, ?_, ?_, ?_, rfl, rfl, hblockers.symm, ?_⟩ <;>
    cases hticket : todo.ticket <;>
    simp [Replica.newTask, hticket, getElem?_set, getElem?_status, hnone, readTaskStatus, TaskStatus.stored, hnode,
      readTicket]

end Devkit.Todos
