import Mathlib.Data.List.Nodup
import Devkit.Library.Selections
import Devkit.Ticket.Status

/-!
# Pull requests paired with worktrees again

The batched answers are paired with the worktrees by position and laid over one another by branch. Where the
attached worktrees are on different branches, each ends up with the answer to its own question.
-/

namespace Devkit.Ticket

open Devkit.Library

section Collect

variable {V : Type} {pairs : List (String × V)} {key : String}

/-- A map has no entry for a key that no pair has. -/
theorem collect_eq_none (h : key ∉ pairs.map Prod.fst) : collect pairs key = none := by
  rw [collect, Option.map_eq_none_iff, List.find?_eq_none]
  intro pair hpair heq
  rw [beq_iff_eq] at heq
  exact h (heq ▸ List.mem_map_of_mem (List.mem_reverse.mp hpair))

/-- The map has the entry of a key whose pairs agree. -/
theorem collect_eq_some_of_unique {v : V} (h : (key, v) ∈ pairs) (hunique : ∀ other, (key, other) ∈ pairs → other = v) :
    collect pairs key = some v := by
  cases hfind : pairs.reverse.find? fun pair => pair.1 == key with
  | none =>
    have hnone := List.find?_eq_none.mp hfind (key, v) (List.mem_reverse.mpr h)
    simp at hnone
  | some pair =>
    obtain ⟨name, value⟩ := pair
    have hmem := List.mem_reverse.mp (List.mem_of_find?_eq_some hfind)
    have hkey : name = key := by simpa using List.find?_some hfind
    subst hkey
    rw [collect, hfind, ← hunique value hmem]
    rfl

/-- The map of pairs with different keys has an entry for each of them. -/
theorem collect_eq_some (hdistinct : (pairs.map Prod.fst).Nodup) {v : V} (h : (key, v) ∈ pairs) :
    collect pairs key = some v :=
  collect_eq_some_of_unique h fun _ hother =>
    congrArg Prod.snd (List.inj_on_of_nodup_map hdistinct hother h rfl)

end Collect

section Recorded

variable (recorded : String → String → Option PrLocator) (default : Repo) (forge : Forge)

/-- The locator of an attached row's record. -/
def locatorOf (row : IssueWorktree) : Option PrLocator :=
  if row.branch = detached then none else recorded row.worktree row.branch

/-- What the forge is asked for the row's record, if it names a repository. -/
def recordedTarget (row : IssueWorktree) : Option (Repo × ℕ) :=
  (locatorOf recorded row).bind fun loc => (loc.resolveOr default).toOption.map fun repo => (repo, loc.number)

/-- The row's branch with the number asked for. -/
def recordedPending (row : IssueWorktree) : Option (String × ℕ) :=
  (recordedTarget recorded default row).map fun target => (row.branch, target.2)

/-- The row's branch with the reason its locator names no repository. -/
def recordedRefusal (row : IssueWorktree) : Option (String × HeadLookup) :=
  (locatorOf recorded row).bind fun loc =>
    match loc.resolveOr default with
    | .ok _ => none
    | .error reason => some (row.branch, .unavailable reason)

/-- An attached row without a recorded pull request is looked up by its branch. -/
def unrecordedBranch (row : IssueWorktree) : Option String :=
  if row.branch = detached then none
  else if (recorded row.worktree row.branch).isSome then none else some row.branch

/-- The branches looked up by name are those of the rows without a record. -/
theorem partitionByRecord_branches (rows : List IssueWorktree) :
    (partitionByRecord recorded rows).2 = rows.filterMap (unrecordedBranch recorded) := by
  induction rows with
  | nil => rfl
  | cons row rest ih =>
    rw [List.filterMap_cons, ← ih, partitionByRecord, unrecordedBranch]
    by_cases hdetached : row.branch = detached
    · simp [hdetached]
    · cases hloc : recorded row.worktree row.branch <;> simp [hdetached]

/-- The targets asked for are those of the rows' records, with their branches beside them. -/
theorem targetsOf_partition (rows : List IssueWorktree) :
    targetsOf default (partitionByRecord recorded rows).1 = (rows.filterMap (recordedTarget recorded default),
      rows.filterMap (recordedPending recorded default), rows.filterMap (recordedRefusal recorded default)) := by
  induction rows with
  | nil => rfl
  | cons row rest ih =>
    rw [List.filterMap_cons, List.filterMap_cons, List.filterMap_cons, partitionByRecord]
    by_cases hdetached : row.branch = detached
    · simp [ih, hdetached, recordedPending, recordedTarget, recordedRefusal, locatorOf]
    · cases hloc : recorded row.worktree row.branch with
      | none => simp [ih, hdetached, recordedPending, recordedTarget, recordedRefusal, locatorOf, hloc]
      | some loc =>
        cases hrepo : loc.resolveOr default with
        | error reason =>
          simp [ih, hdetached, recordedPending, recordedTarget, recordedRefusal, locatorOf, hloc, targetsOf, hrepo,
            Except.toOption]
        | ok repo =>
          simp [ih, hdetached, recordedPending, recordedTarget, recordedRefusal, locatorOf, hloc, targetsOf, hrepo,
            Except.toOption]

/-- The answer to a row's own question, in the batch of all rows' recorded pull requests or by its branch. -/
def answerOf (rows : List IssueWorktree) (i : ℕ) (row : IssueWorktree) : Option HeadLookup :=
  match recorded row.worktree row.branch with
  | none => forge.prsByHead default (rows.filterMap (unrecordedBranch recorded)) row.branch
  | some loc => some (match loc.resolveOr default with
    | .error reason => .unavailable reason
    | .ok _ =>
      match forge.prs (rows.filterMap (recordedTarget recorded default)) with
      | .error reason => .unavailable reason
      | .ok answers =>
        recordedResult ((answers[((rows.take i).filterMap (recordedTarget recorded default)).length]?).getD
          (.error ("the batched lookup did not answer for #" ++ toString loc.number))) loc.number)

end Recorded

section Answers

variable (answers : List (Except String (Option PrBrief))) (n : ℕ)

/-- The answers padded to the number of questions. -/
def padded : List (Option (Except String (Option PrBrief))) :=
  (answers.map some ++ List.replicate (n - answers.length) none).take n

/-- There are as many padded answers as questions. -/
theorem length_padded : (padded answers n).length = n := by
  simp only [padded, List.length_take, List.length_append, List.length_map, List.length_replicate]
  omega

/-- A padded answer is the one at its place, where there is one. -/
theorem getElem?_padded {k : ℕ} (hk : k < n) : (padded answers n)[k]? = some answers[k]? := by
  rw [padded, List.getElem?_take_of_lt hk]
  by_cases hanswer : k < answers.length
  · rw [List.getElem?_append_left (by simpa using hanswer), List.getElem?_map, List.getElem?_eq_getElem hanswer]
    rfl
  · rw [List.getElem?_append_right (by simpa using hanswer), List.length_map, List.getElem?_replicate,
      if_pos (by omega), List.getElem?_eq_none (by omega)]

/-- The recorded answers are those of the pending branches, in order. -/
theorem recordedAnswers_keys (pending : List (String × ℕ)) (f : (String × ℕ) × Option (Except String (Option PrBrief)) →
    HeadLookup) : ((pending.zip (padded answers pending.length)).map fun pair => (pair.1.1, f pair)).map Prod.fst =
      pending.map Prod.fst := by
  rw [List.map_map]
  calc (pending.zip (padded answers pending.length)).map (Prod.fst ∘ fun pair => (pair.1.1, f pair))
      = ((pending.zip (padded answers pending.length)).map Prod.fst).map Prod.fst := by rw [List.map_map]; rfl
    _ = pending.map Prod.fst := by rw [List.map_fst_zip (Nat.le_of_eq (length_padded answers _).symm)]

/-- The answer of a pending branch is the one at its place. -/
theorem recordedAnswers_eq_some {pending : List (String × ℕ)} (hdistinct : (pending.map Prod.fst).Nodup)
    {k number : ℕ} {branch : String} (hget : pending[k]? = some (branch, number)) :
    recordedAnswers pending answers branch = some (recordedResult ((answers[k]?).getD
      (.error ("the batched lookup did not answer for #" ++ toString number))) number) := by
  refine collect_eq_some (by rw [← recordedAnswers_keys answers pending] at hdistinct; exact hdistinct) ?_
  refine List.mem_map.mpr ⟨((branch, number), answers[k]?), ?_, rfl⟩
  refine List.mem_iff_getElem?.mpr ⟨k, List.getElem?_zip_eq_some.mpr ⟨hget, ?_⟩⟩
  exact getElem?_padded answers _ (List.getElem?_eq_some_iff.mp hget).1

/-- A branch that is not pending has no answer. -/
theorem recordedAnswers_eq_none {pending : List (String × ℕ)} {branch : String}
    (h : branch ∉ pending.map Prod.fst) : recordedAnswers pending answers branch = none := by
  refine collect_eq_none ?_
  rw [← recordedAnswers_keys answers pending] at h
  exact h

end Answers

section Recorded

variable (recorded : String → String → Option PrLocator) (default : Repo) (forge : Forge)

/-- The branches of the attached rows. -/
def attachedBranches (rows : List IssueWorktree) : List String :=
  (rows.filter fun row => row.branch != detached).map (·.branch)

/-- What a partial function names by the row's branch, for attached rows only, it names once each. -/
theorem nodup_filterMap_branch {B : Type} {rows : List IssueWorktree} (hdistinct : (attachedBranches rows).Nodup)
    {f : IssueWorktree → Option B} {nameOf : B → String}
    (hf : ∀ row b, f row = some b → row.branch ≠ detached ∧ nameOf b = row.branch) :
    ((rows.filterMap f).map nameOf).Nodup := by
  have hattached : (rows.filter fun row => row.branch != detached).filterMap f = rows.filterMap f := by
    rw [List.filterMap_filter]
    refine List.filterMap_congr fun row _ => ?_
    cases hrow : f row with
    | none => simp
    | some b => simp [(hf row b hrow).1]
  rw [← hattached]
  exact (sublist_map_filterMap (fun row b h => (hf row b h).2) _).nodup hdistinct

/-- Attached rows on one branch are one row. -/
theorem eq_of_branch_eq {rows : List IssueWorktree} (hdistinct : (attachedBranches rows).Nodup)
    {row other : IssueWorktree} (hmem : row ∈ rows) (hother : other ∈ rows) (hattached : row.branch ≠ detached)
    (hbranch : other.branch = row.branch) : other = row :=
  List.inj_on_of_nodup_map hdistinct
    (List.mem_filter.mpr ⟨hother, by simpa [hbranch] using hattached⟩)
    (List.mem_filter.mpr ⟨hmem, by simpa using hattached⟩) hbranch

/-- A partial function that names by the row's branch names no other row's branch. -/
theorem not_mem_filterMap_branch {B : Type} {rows : List IssueWorktree} (hdistinct : (attachedBranches rows).Nodup)
    {f : IssueWorktree → Option B} {nameOf : B → String}
    (hf : ∀ row b, f row = some b → row.branch ≠ detached ∧ nameOf b = row.branch) {row : IssueWorktree}
    (hmem : row ∈ rows) (hattached : row.branch ≠ detached) (hnone : f row = none) :
    row.branch ∉ (rows.filterMap f).map nameOf := by
  intro h
  obtain ⟨b, hb, hname⟩ := List.mem_map.mp h
  obtain ⟨other, hother, hsome⟩ := List.mem_filterMap.mp hb
  obtain ⟨-, hbranch⟩ := hf other b hsome
  rw [eq_of_branch_eq hdistinct hmem hother hattached (hbranch.symm.trans hname), hnone] at hsome
  cases hsome

/-- A row that a locator is known of is attached. -/
theorem locatorOf_eq_some {row : IssueWorktree} {loc : PrLocator} (h : locatorOf recorded row = some loc) :
    row.branch ≠ detached ∧ recorded row.worktree row.branch = some loc := by
  unfold locatorOf at h
  split at h
  · cases h
  · rename_i hattached
    exact ⟨hattached, h⟩

/-- A pending branch is that of its attached row. -/
theorem recordedPending_branch {row : IssueWorktree} {pending : String × ℕ}
    (h : recordedPending recorded default row = some pending) : row.branch ≠ detached ∧ pending.1 = row.branch := by
  obtain ⟨target, htarget, rfl⟩ := Option.map_eq_some_iff.mp h
  obtain ⟨loc, hloc, -⟩ := Option.bind_eq_some_iff.mp htarget
  exact ⟨(locatorOf_eq_some recorded hloc).1, rfl⟩

/-- A refused branch is that of its attached row. -/
theorem recordedRefusal_branch {row : IssueWorktree} {refused : String × HeadLookup}
    (h : recordedRefusal recorded default row = some refused) : row.branch ≠ detached ∧ refused.1 = row.branch := by
  obtain ⟨loc, hloc, hrefused⟩ := Option.bind_eq_some_iff.mp h
  refine ⟨(locatorOf_eq_some recorded hloc).1, ?_⟩
  split at hrefused
  · cases hrefused
  · rw [← Option.some.inj hrefused]

/-- What the forge answers the batch, an error as the answer to each question. -/
def batchAnswers (targets : List (Repo × ℕ)) (pending : List (String × ℕ)) :
    List (Except String (Option PrBrief)) :=
  match forge.prs targets with
  | .ok found => found
  | .error reason => pending.map fun _ => .error reason

/-- The recorded lookups are the answers to the pending branches, and the refusals of the others. -/
theorem recordedLookups_eq (rows : List IssueWorktree) (branch : String) :
    recordedLookups (partitionByRecord recorded rows).1 default forge branch =
      (recordedAnswers (rows.filterMap (recordedPending recorded default))
        (batchAnswers forge (rows.filterMap (recordedTarget recorded default))
          (rows.filterMap (recordedPending recorded default))) branch).or
        (collect (rows.filterMap (recordedRefusal recorded default)) branch) := by
  have htargets := targetsOf_partition recorded default rows
  unfold recordedLookups
  split
  · rename_i hempty
    rw [List.isEmpty_iff.mp hempty] at htargets
    obtain ⟨-, hrest⟩ := Prod.mk.inj htargets
    obtain ⟨hpending, hout⟩ := Prod.mk.inj hrest
    rw [← hpending, ← hout]
    rfl
  · rw [htargets]
    rfl

/-- The recorded lookups of all rows, and the batch's for the branches they leave out. -/
def lookupsOf (rows : List IssueWorktree) : Table HeadLookup :=
  let (bound, branches) := partitionByRecord recorded rows
  mergeLookups (recordedLookups bound default forge) (forge.prsByHead default branches)

/-- Each attached row has the answer to its own question. -/
theorem lookupsOf_eq {rows : List IssueWorktree} (hdistinct : (attachedBranches rows).Nodup) {i : ℕ}
    {row : IssueWorktree} (hget : rows[i]? = some row) (hattached : row.branch ≠ detached) :
    lookupsOf recorded default forge rows row.branch = answerOf recorded default forge rows i row := by
  have hmem : row ∈ rows := List.mem_of_getElem? hget
  have hpending := fun row pending => @recordedPending_branch recorded default row pending
  have hrefusal := fun row refused => @recordedRefusal_branch recorded default row refused
  change (recordedLookups (partitionByRecord recorded rows).1 default forge row.branch).or
    (forge.prsByHead default (partitionByRecord recorded rows).2 row.branch) = _
  rw [recordedLookups_eq, partitionByRecord_branches]
  unfold answerOf
  cases hloc : recorded row.worktree row.branch with
  | none =>
    have hlocator : locatorOf recorded row = none := by rw [locatorOf, if_neg hattached, hloc]
    rw [recordedAnswers_eq_none _ (not_mem_filterMap_branch hdistinct hpending hmem hattached
        (by rw [recordedPending, recordedTarget, hlocator]; rfl)),
      collect_eq_none (not_mem_filterMap_branch hdistinct hrefusal hmem hattached
        (by rw [recordedRefusal, hlocator]; rfl))]
    rfl
  | some loc =>
    have hlocator : locatorOf recorded row = some loc := by rw [locatorOf, if_neg hattached, hloc]
    cases hrepo : loc.resolveOr default with
    | error reason =>
      have hrefused : recordedRefusal recorded default row = some (row.branch, .unavailable reason) := by
        simp only [recordedRefusal, hlocator, Option.bind_some, hrepo]
      rw [recordedAnswers_eq_none _ (not_mem_filterMap_branch hdistinct hpending hmem hattached
          (by simp only [recordedPending, recordedTarget, hlocator, Option.bind_some, hrepo]; rfl)),
        collect_eq_some (nodup_filterMap_branch hdistinct hrefusal)
          (List.mem_filterMap.mpr ⟨row, hmem, hrefused⟩)]
      dsimp only
      rw [hrepo]
      rfl
    | ok repo =>
      have htarget : recordedTarget recorded default row = some (repo, loc.number) := by
        simp only [recordedTarget, hlocator, Option.bind_some, hrepo]
        rfl
      have hpend : recordedPending recorded default row = some (row.branch, loc.number) := by
        rw [recordedPending, htarget]
        rfl
      have hplace : ((rows.take i).filterMap (recordedPending recorded default)).length =
          ((rows.take i).filterMap (recordedTarget recorded default)).length := by
        rw [List.length_filterMap_eq_countP, List.length_filterMap_eq_countP]
        simp only [recordedPending, Option.isSome_map]
      have hat := getElem?_filterMap_of_getElem? hget hpend
      rw [hplace] at hat
      rw [recordedAnswers_eq_some _ (nodup_filterMap_branch hdistinct hpending) hat]
      dsimp only [Option.or]
      unfold batchAnswers
      rw [hrepo]
      cases forge.prs (rows.filterMap (recordedTarget recorded default)) with
      | ok answers => rfl
      | error reason =>
        rw [List.getElem?_map, hat]
        rfl

end Recorded

end Devkit.Ticket
