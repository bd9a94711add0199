import Devkit.Todos.TwinRuns

/-!
# Statuses written and read back

A status is spread over four properties, of which some may be left from any earlier status. Whatever was there, the
status a rule gives to a named holder is read back as it was written, and nothing else of the todo has changed but
the time of the last change.
-/

namespace Devkit.Todos

open Devkit.Library
open Std

/-- The statuses that a rule gives a todo for a holder with a name. -/
inductive GivesNext (todo : Todo) : Status → Prop
  | transition {target : StatusKind} {actor : Holder} {next : Status} (hactor : actor.text ≠ "")
    (hnext : transition todo.status target actor = .ok (some next)) : GivesNext todo next
  | takeOver {source actor : Holder} {next : Status} (hactor : actor.text ≠ "")
    (hnext : takeOver todo.status source actor = .ok (some next)) : GivesNext todo next
  | releaseAll {holder : Holder} (hholder : holder.text ≠ "") (hagent : holder.isHuman = false)
    (hreleased : released holder todo = true) : GivesNext todo .pending

section Trip

variable {lib : TaskLibraries} {uuid : Uuid} {task : Properties} {todo : Todo} (now : Instant) (w : Writer)

/-- A status that a rule gives a todo that was read can be recorded. -/
theorem GivesNext.recordable {next : Status} (hread : todoFrom lib uuid task = some todo) (h : GivesNext todo next) :
    Recordable next := by
  have hclaimant : ∀ holder, todo.status = .inProgress holder → holder.text ≠ "" := by
    intro holder hholder
    obtain ⟨project, _, hread⟩ := Option.bind_eq_some_iff.mp hread
    obtain ⟨status, hstatus, hread⟩ := Option.bind_eq_some_iff.mp hread
    obtain rfl := Option.some.inj hread
    change status = .inProgress holder at hholder
    exact named_of_read (hholder ▸ hstatus)
  cases h with
  | transition hactor hnext => exact recordable_transition (fun hunnamed => absurd hunnamed hactor) hclaimant hnext
  | takeOver hactor hnext => exact recordable_takeOver hactor hclaimant hnext
  | releaseAll => exact True.intro

/-- Tasks with the same names of dependency properties, whatever they name, read the same blockers. -/
theorem readBlockers_of_names {task other : Properties}
    (h : ∀ property rest, stripDependency property = some rest → (property ∈ task ↔ property ∈ other)) :
    readBlockers lib task = readBlockers lib other := by
  have hstripped : ∀ rest, rest ∈ task.keys.filterMap stripDependency ↔
    rest ∈ other.keys.filterMap stripDependency := by
    intro rest
    rw [List.mem_filterMap, List.mem_filterMap]
    refine exists_congr fun property => and_congr_left fun hstrip => ?_
    rw [ExtTreeMap.mem_keys, ExtTreeMap.mem_keys]
    exact h property rest hstrip
  refine dedup_sort_congr fun blocker => ?_
  rw [List.mem_map, List.mem_map]
  refine exists_congr fun uuid => and_congr_left fun _ => ?_
  rw [List.mem_filterMap, List.mem_filterMap]
  exact exists_congr fun rest => and_congr_left fun _ => hstripped rest

variable (lib) in
/-- A written status reads the same blockers. -/
theorem readBlockers_writeStatus (status : Status) :
    readBlockers lib (w.writeStatus now status).task = readBlockers lib w.task := by
  refine readBlockers_of_names fun property rest hstrip => ?_
  have hplain : ∀ property ∈ statusProperties, stripDependency property = none := by decide
  have hother : property ∉ statusProperties := fun hmem => by
    rw [hplain property hmem] at hstrip
    cases hstrip
  rw [ExtTreeMap.mem_iff_isSome_getElem?, ExtTreeMap.mem_iff_isSome_getElem?, getElem?_writeStatus now status hother]

/-- After a status is set, there is an end time exactly where the task is closed. -/
theorem end_mem_status (status : TaskStatus) : "end" ∈ (w.status now status).task ↔ status ≠ .pending := by
  rw [ExtTreeMap.mem_iff_isSome_getElem?, Writer.status, getElem?_set now _ _ _ (by decide), if_neg (by decide)]
  by_cases hclosed : status = .pending
  · cases hended : w.task.contains "end" with
    | true => simp [hclosed, getElem?_set]
    | false =>
      rw [ExtTreeMap.contains_eq_isSome_getElem?] at hended
      simp [hclosed, hended]
  · cases hended : w.task.contains "end" with
    | true =>
      rw [ExtTreeMap.contains_eq_isSome_getElem?] at hended
      simp [hclosed, hended]
    | false => simp [hclosed, getElem?_set]

/-- A written status leaves an end time exactly where it is a closed one. -/
theorem end_mem_writeStatus (status : Status) :
    "end" ∈ (w.writeStatus now status).task ↔ status.kind.isOpen = false := by
  have hset (w : Writer) (property : String) (value : Option String) (hproperty : property ≠ "end") :
      "end" ∈ (w.set now property value).task ↔ "end" ∈ w.task := by
    rw [ExtTreeMap.mem_iff_isSome_getElem?, getElem?_set now w property value (by decide), if_neg hproperty,
      ExtTreeMap.mem_iff_isSome_getElem?]
  have hstop (w : Writer) : "end" ∈ (w.stop now).task ↔ "end" ∈ w.task := by
    rw [ExtTreeMap.mem_iff_isSome_getElem?, getElem?_stop now w (by decide), if_neg (by decide),
      ExtTreeMap.mem_iff_isSome_getElem?]
  have hstart (w : Writer) : "end" ∈ (w.start now).task ↔ "end" ∈ w.task := by
    rw [ExtTreeMap.mem_iff_isSome_getElem?, getElem?_start now w (by decide), if_neg (by decide),
      ExtTreeMap.mem_iff_isSome_getElem?]
  cases status with
  | pending =>
    rw [Writer.writeStatus, Writer.release, hset _ _ _ (by decide), hstop, end_mem_status]
    decide
  | inProgress holder =>
    rw [Writer.writeStatus, hset _ _ _ (by decide), hstart, end_mem_status]
    exact iff_of_false (fun h => h rfl) Bool.noConfusion
  | completed holder | cancelled holder =>
    have hclosed (status : TaskStatus) (h : status ≠ .pending) : "end" ∈ (w.close now status holder).task := by
      cases holder with
      | none => exact (end_mem_status now _ status).mpr h
      | some holder => exact (hset _ _ _ (by decide)).mpr ((end_mem_status now _ status).mpr h)
    exact iff_of_true (hclosed _ TaskStatus.noConfusion) rfl

end Trip

/-- A status that a rule gives a todo for a named holder is read back with that holder from the task it is written to,
with no other change but to the time of the last, and the task has an end time exactly where it is closed. -/
theorem status_roundTrip (lib : TaskLibraries) (now : Instant) {uuid : Uuid} {task : Properties} {todo : Todo}
    {next : Status} (hread : todoFrom lib uuid task = some todo) (hnext : GivesNext todo next) :
    (∃ modified, todoFrom lib uuid ((Writer.new task).writeStatus now next).task =
      some { todo with status := next, modified }) ∧
      ("end" ∈ ((Writer.new task).writeStatus now next).task ↔ next.kind.isOpen = false) := by
  refine ⟨⟨readStamp lib ((Writer.new task).writeStatus now next).task "modified", ?_⟩,
    end_mem_writeStatus now (Writer.new task) next⟩
  have hsame : ∀ other, other ∉ statusProperties →
    ((Writer.new task).writeStatus now next).task[other]? = task[other]? :=
    fun other hother => getElem?_writeStatus now next hother
  have hstatus := readTaskStatus_writeStatus (w := Writer.new task) now (hnext.recordable hread)
  have hblockers : readBlockers lib ((Writer.new task).writeStatus now next).task = readBlockers lib task :=
    readBlockers_writeStatus lib now (Writer.new task) next
  obtain ⟨project, hproject, hread⟩ := Option.bind_eq_some_iff.mp hread
  obtain ⟨status, _, hread⟩ := Option.bind_eq_some_iff.mp hread
  obtain rfl := Option.some.inj hread
  have hnode : ((Writer.new task).writeStatus now next).task["project"]?.bind nodeOf = some project := by
    rw [hsame _ (by decide)]
    exact hproject
  rw [todoFrom, hnode, Option.bind_eq_bind, Option.bind_some, hstatus, Option.bind_eq_bind, Option.bind_some, hblockers]
  simp [hsame, statusProperties, readStamp]

section Sample

/-- A task that was completed with its start time left. -/
def staleTask : Properties :=
  ((((((∅ : Properties).insert "project" "repo").insert "description" "plan").insert "status" "completed").insert
    "start" "1").insert "end" "2").insert "holder" "other"

/-- What the task is read as. -/
def staleTodo : Todo :=
  ⟨firstUuid.text, "plan", .completed (some ⟨"other"⟩), none, none, some "repo", none, none, [], none⟩

/-- Whoever starts the completed task again is read back, and the end time is gone. -/
theorem status_roundTrip_sample :
    (∃ modified, todoFrom sampleLibraries firstUuid
      ((Writer.new staleTask).writeStatus epoch (.inProgress ⟨"agent"⟩)).task =
      some { staleTodo with status := .inProgress ⟨"agent"⟩, modified }) ∧
      "end" ∉ ((Writer.new staleTask).writeStatus epoch (.inProgress ⟨"agent"⟩)).task := by
  have hread : todoFrom sampleLibraries firstUuid staleTask = some staleTodo := by decide +kernel
  have hstart : transition staleTodo.status .inProgress ⟨"agent"⟩ = .ok (some (.inProgress ⟨"agent"⟩)) := rfl
  obtain ⟨hback, hended⟩ := status_roundTrip sampleLibraries epoch hread (.transition (by decide) hstart)
  exact ⟨hback, fun hend => Bool.noConfusion (hended.mp hend)⟩

end Sample

end Devkit.Todos
