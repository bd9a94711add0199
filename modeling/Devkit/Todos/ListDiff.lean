import Mathlib.Data.List.Basic
import Devkit.Todos.Item

/-!
# Turning a resent list into edits

Plan tools send the whole list on every call, so each call is compared with the list the tool sent
before it. A step continues the first remembered step of the same text that no earlier step
continues; the differences are adds, then status changes, then cancels, then reorders.
-/

namespace Devkit.Todos.Native

/-- One step of a list as a plan tool sent it. -/
structure Step where
  text : String
  status : StatusKind
deriving DecidableEq

/-- A step of the previous list and the todo it became. -/
structure Mirrored where
  text : String
  todo : String
  status : StatusKind
deriving DecidableEq

/-- One difference between the previous list and the next. -/
inductive Change
  | add (index : ℕ)
  | cancel (todo : String)
  | status (todo : String) (target : StatusKind)
  | reorder (todo : String) (order : Int64)
deriving DecidableEq

/-- The order of the step at an index of the list. The multiplication wraps. -/
def placeOrder (index : ℕ) : Int64 := Int64.ofNat index * orderGap

/-- The first previous step not yet paired that has a text. -/
def findUnpaired (previous : List Mirrored) (paired : List Bool) (text : String) : Option ℕ :=
  (List.range previous.length).find? fun i =>
    !paired.getD i false && previous[i]?.any fun prev => prev.text == text

/-- The flags with one more previous step paired. -/
def markPaired (paired : List Bool) : Option ℕ → List Bool
  | some i => paired.set i true
  | none => paired

/-- The pairing of the steps that are left, some previous steps being paired already. -/
def pairFrom (previous : List Mirrored) : List Bool → List Step → List (Option ℕ)
  | _, [] => []
  | paired, step :: rest =>
    let found := findUnpaired previous paired step.text
    found :: pairFrom previous (markPaired paired found) rest

/-- For each step of the next list, the index of the previous step it continues. -/
def pair (previous : List Mirrored) (next : List Step) : List (Option ℕ) :=
  pairFrom previous (List.replicate previous.length false) next

/-- The changes that take the previous list, in its order, to the next. -/
def diff (previous : List Mirrored) (next : List Step) : List Change :=
  let pairs := pair previous next
  let paired := (pairs.filterMap id).foldl (fun paired i => paired.set i true)
    (List.replicate previous.length false)
  let adds := pairs.zipIdx.filterMap fun (p, index) => if p.isNone then some (Change.add index) else none
  let statuses := (pairs.zip next).filterMap fun (p, step) => do
    let prev ← previous[← p]?
    if prev.status ≠ step.status then some (Change.status prev.todo step.status) else none
  let cancels := (previous.zip paired).filterMap fun (prev, paired) =>
    if !paired then some (Change.cancel prev.todo) else none
  let reorders := pairs.zipIdx.filterMap fun (p, index) => do
    let source ← p
    let prev ← previous[source]?
    if source ≠ index then some (Change.reorder prev.todo (placeOrder index)) else none
  adds ++ statuses ++ cancels ++ reorders

section Pairing

variable {previous : List Mirrored} {next : List Step} {paired : List Bool}

/-- An unpaired step that is found is in the list, not yet paired, and has the text. -/
theorem findUnpaired_eq_some {text : String} {i : ℕ} (h : findUnpaired previous paired text = some i) :
    paired.getD i false = false ∧ ∃ prev, previous[i]? = some prev ∧ prev.text = text := by
  have hfound := List.find?_some h
  rw [Bool.and_eq_true, Bool.not_eq_true'] at hfound
  obtain ⟨prev, hprev, htext⟩ := (Option.any_eq_true _ _).mp hfound.2
  exact ⟨hfound.1, prev, hprev, beq_iff_eq.mp htext⟩

@[simp] theorem length_pairFrom : (pairFrom previous paired next).length = next.length := by
  induction next generalizing paired with
  | nil => rfl
  | cons step rest ih => rw [pairFrom, List.length_cons, ih, List.length_cons]

/-- Every step is paired or added. -/
@[simp] theorem length_pair : (pair previous next).length = next.length := length_pairFrom

/-- A step that was paired stays paired. -/
theorem getD_markPaired {found : Option ℕ} {i : ℕ} (hfalse : (markPaired paired found).getD i false = false) :
    paired.getD i false = false := by
  cases found with
  | none => exact hfalse
  | some j =>
    rw [markPaired, List.getD_eq_getElem?_getD, List.getElem?_set] at hfalse
    rw [List.getD_eq_getElem?_getD]
    split at hfalse
    · rename_i heq
      subst heq
      split at hfalse
      · simp at hfalse
      · rename_i hlength
        rw [List.getElem?_eq_none (not_lt.mp hlength)]
        rfl
    · exact hfalse

/-- A step continues a previous one of its text that was not paired before. -/
theorem pairFrom_eq_some {j i : ℕ} (h : (pairFrom previous paired next)[j]? = some (some i)) :
    paired.getD i false = false ∧
      ∃ prev step, previous[i]? = some prev ∧ next[j]? = some step ∧ prev.text = step.text := by
  induction next generalizing paired j with
  | nil => simp [pairFrom] at h
  | cons step rest ih =>
    rw [pairFrom] at h
    cases j with
    | zero =>
      obtain ⟨hfree, prev, hprev, htext⟩ := findUnpaired_eq_some (Option.some.inj h)
      exact ⟨hfree, prev, step, hprev, rfl, htext⟩
    | succ j =>
      obtain ⟨hfree, prev, later, hprev, hlater, htext⟩ := ih h
      exact ⟨getD_markPaired hfree, prev, later, hprev, hlater, htext⟩

/-- A paired step continues a previous one of its text. -/
theorem pair_eq_some {j i : ℕ} (h : (pair previous next)[j]? = some (some i)) :
    ∃ prev step, previous[i]? = some prev ∧ next[j]? = some step ∧ prev.text = step.text :=
  (pairFrom_eq_some h).2

/-- While the flags cover the previous list, no two steps continue the same one. -/
theorem pairFrom_inj (hlength : paired.length = previous.length) {j k i : ℕ}
    (hj : (pairFrom previous paired next)[j]? = some (some i))
    (hk : (pairFrom previous paired next)[k]? = some (some i)) : j = k := by
  induction next generalizing paired j k with
  | nil => simp [pairFrom] at hj
  | cons step rest ih =>
    rw [pairFrom] at hj hk
    have hmarked : ∀ {l : ℕ}, findUnpaired previous paired step.text = some i →
        (pairFrom previous (markPaired paired (findUnpaired previous paired step.text)) rest)[l]? ≠
          some (some i) := by
      intro l hfound hl
      obtain ⟨_, prev, hprev, _⟩ := findUnpaired_eq_some hfound
      have hlt : i < paired.length := hlength ▸ (List.getElem?_eq_some_iff.mp hprev).1
      have hfalse := (pairFrom_eq_some hl).1
      rw [hfound, markPaired, List.getD_eq_getElem?_getD, List.getElem?_set_self hlt] at hfalse
      simp at hfalse
    cases j with
    | zero =>
      cases k with
      | zero => rfl
      | succ k => exact absurd hk (hmarked (Option.some.inj hj))
    | succ j =>
      cases k with
      | zero => exact absurd hj (hmarked (Option.some.inj hk))
      | succ k =>
        refine congrArg Nat.succ (ih ?_ hj hk)
        cases findUnpaired previous paired step.text with
        | none => exact hlength
        | some found => rw [markPaired, List.length_set, hlength]

/-- No two steps continue the same previous one. -/
theorem pair_inj {j k i : ℕ} (hj : (pair previous next)[j]? = some (some i))
    (hk : (pair previous next)[k]? = some (some i)) : j = k :=
  pairFrom_inj List.length_replicate hj hk

end Pairing

section Changes

variable {previous : List Mirrored} {next : List Step}

/-- The indices of the steps that are new. -/
def newIndices (previous : List Mirrored) (next : List Step) : List ℕ :=
  (pair previous next).zipIdx.filterMap fun (p, index) => if p.isNone then some index else none

/-- A step is new when it continues no previous one. -/
theorem mem_newIndices {j : ℕ} : j ∈ newIndices previous next ↔ (pair previous next)[j]? = some none := by
  rw [newIndices, List.mem_filterMap]
  constructor
  · rintro ⟨⟨p, index⟩, hmem, h⟩
    have hp := List.mem_zipIdx_iff_getElem?.mp hmem
    cases p with
    | none =>
      cases h
      exact hp
    | some i => simp at h
  · intro h
    exact ⟨(none, j), List.mem_zipIdx_iff_getElem?.mpr h, rfl⟩

/-- The difference begins with an add for each new step, and has no other adds. -/
theorem diff_adds : ∃ later : List Change, diff previous next =
    (newIndices previous next).map Change.add ++ later ∧ ∀ index, Change.add index ∉ later := by
  have hadds : (pair previous next).zipIdx.filterMap
      (fun (p, index) => if p.isNone then some (Change.add index) else none) =
        (newIndices previous next).map Change.add := by
    rw [newIndices, List.map_filterMap]
    refine List.filterMap_congr fun row _ => ?_
    obtain ⟨p, index⟩ := row
    cases p <;> rfl
  refine ⟨_, by rw [diff, hadds, List.append_assoc, List.append_assoc], fun index hmem => ?_⟩
  simp only [List.mem_append, List.mem_filterMap] at hmem
  obtain ⟨_, _, h⟩ | ⟨_, _, h⟩ | ⟨_, _, h⟩ := hmem <;> simp [Option.bind_eq_some_iff] at h

/-- A status change is that of a step and the previous one it continues. -/
theorem status_mem_diff {todo : String} {target : StatusKind} :
    Change.status todo target ∈ diff previous next ↔ ∃ (j i : ℕ) (prev : Mirrored) (step : Step),
      (pair previous next)[j]? = some (some i) ∧ previous[i]? = some prev ∧ next[j]? = some step ∧
        prev.status ≠ step.status ∧ prev.todo = todo ∧ step.status = target := by
  simp only [diff, List.mem_append, List.mem_filterMap]
  constructor
  · intro h
    obtain ((⟨_, _, h⟩ | ⟨⟨p, step⟩, hmem, h⟩) | ⟨_, _, h⟩) | ⟨_, _, h⟩ := h
    · simp at h
    · obtain ⟨j, hj⟩ := List.mem_iff_getElem?.mp hmem
      obtain ⟨hp, hstep⟩ := List.getElem?_zip_eq_some.mp hj
      obtain ⟨i, rfl, h⟩ := Option.bind_eq_some_iff.mp h
      obtain ⟨prev, hprev, h⟩ := Option.bind_eq_some_iff.mp h
      split at h
      · rename_i hne
        cases h
        exact ⟨j, i, prev, step, hp, hprev, hstep, hne, rfl, rfl⟩
      · contradiction
    · simp at h
    · simp [Option.bind_eq_some_iff] at h
  · rintro ⟨j, i, prev, step, hp, hprev, hstep, hne, rfl, rfl⟩
    refine Or.inl (Or.inl (Or.inr ⟨(some i, step), ?_, ?_⟩))
    · exact List.mem_of_getElem? (List.getElem?_zip_eq_some.mpr ⟨hp, hstep⟩)
    · simp [hprev, hne]

/-- A reorder is that of a step and the previous one it continues at another index. -/
theorem reorder_mem_diff {todo : String} {order : Int64} :
    Change.reorder todo order ∈ diff previous next ↔ ∃ (j i : ℕ) (prev : Mirrored),
      (pair previous next)[j]? = some (some i) ∧ previous[i]? = some prev ∧ i ≠ j ∧ prev.todo = todo ∧
        placeOrder j = order := by
  simp only [diff, List.mem_append, List.mem_filterMap]
  constructor
  · intro h
    obtain ((⟨_, _, h⟩ | ⟨_, _, h⟩) | ⟨_, _, h⟩) | ⟨⟨p, j⟩, hmem, h⟩ := h
    · simp at h
    · simp [Option.bind_eq_some_iff] at h
    · simp at h
    · have hp := List.mem_zipIdx_iff_getElem?.mp hmem
      obtain ⟨i, rfl, h⟩ := Option.bind_eq_some_iff.mp h
      obtain ⟨prev, hprev, h⟩ := Option.bind_eq_some_iff.mp h
      split at h
      · rename_i hne
        cases h
        exact ⟨j, i, prev, hp, hprev, hne, rfl, rfl⟩
      · contradiction
  · rintro ⟨j, i, prev, hp, hprev, hne, rfl, rfl⟩
    refine Or.inr ⟨(some i, j), List.mem_zipIdx_iff_getElem?.mpr hp, ?_⟩
    simp [hprev, hne]

/-- Flags set at the members of a list are those of its members and those set before. -/
theorem getElem?_setAll (flags : List Bool) (is : List ℕ) (i : ℕ) :
    (is.foldl (fun flags i => flags.set i true) flags)[i]? = flags[i]?.map fun flag => flag || is.contains i := by
  induction is generalizing flags with
  | nil => simp
  | cons first rest ih =>
    rw [List.foldl_cons, ih, List.getElem?_set]
    by_cases heq : first = i
    · subst heq
      by_cases hlt : first < flags.length
      · simp [hlt]
      · simp [hlt]
    · rw [if_neg heq]
      simp [Ne.symm heq]

/-- A cancel is that of a previous step that no step continues. -/
theorem cancel_mem_diff {todo : String} (h : Change.cancel todo ∈ diff previous next) :
    ∃ (i : ℕ) (prev : Mirrored), previous[i]? = some prev ∧ prev.todo = todo ∧
      ∀ j : ℕ, (pair previous next)[j]? ≠ some (some i) := by
  simp only [diff, List.mem_append, List.mem_filterMap] at h
  obtain ((⟨_, _, h⟩ | ⟨_, _, h⟩) | ⟨⟨prev, flag⟩, hmem, h⟩) | ⟨_, _, h⟩ := h
  · simp at h
  · simp [Option.bind_eq_some_iff] at h
  · obtain ⟨i, hi⟩ := List.mem_iff_getElem?.mp hmem
    obtain ⟨hprev, hflag⟩ := List.getElem?_zip_eq_some.mp hi
    split at h
    · rename_i hfree
      cases h
      refine ⟨i, prev, hprev, rfl, fun j hj => ?_⟩
      rw [getElem?_setAll] at hflag
      obtain ⟨_, _, rfl⟩ := Option.map_eq_some_iff.mp hflag
      simp [List.mem_of_getElem? hj] at hfree
    · contradiction
  · simp [Option.bind_eq_some_iff] at h

/-- The todo a change is about; an add has none yet. -/
def Change.target : Change → Option String
  | .add _ => none
  | .cancel todo => some todo
  | .status todo _ => some todo
  | .reorder todo _ => some todo

/-- A change that is no add is about a previous step's todo. -/
theorem target_of_mem_diff {change : Change} (h : change ∈ diff previous next) (hadd : ∀ index, change ≠ .add index) :
    ∃ (i : ℕ) (prev : Mirrored), previous[i]? = some prev ∧ change.target = some prev.todo := by
  cases change with
  | add index => exact absurd rfl (hadd index)
  | cancel todo =>
    obtain ⟨i, prev, hprev, rfl, _⟩ := cancel_mem_diff h
    exact ⟨i, prev, hprev, rfl⟩
  | status todo target =>
    obtain ⟨_, i, prev, _, _, hprev, _, _, rfl, _⟩ := status_mem_diff.mp h
    exact ⟨i, prev, hprev, rfl⟩
  | reorder todo order =>
    obtain ⟨_, i, prev, _, hprev, _, rfl, _⟩ := reorder_mem_diff.mp h
    exact ⟨i, prev, hprev, rfl⟩

end Changes

end Devkit.Todos.Native
