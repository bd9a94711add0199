import Devkit.Todos.ListDiff

/-!
# A list after its difference was applied

The changes of a difference name todos, so each acts on the entries of its todo. Where no todo has two entries, the
entry of a step ends with the step's status and the order of its index, and the list as it stands then differs from the
resent one in nothing.
-/

namespace Devkit.Todos.Native

/-- An entry of a list with its order. -/
structure PlacedStep extends Mirrored where
  order : Int64
deriving DecidableEq

/-- What a change does to an entry: one of another todo is left as it is. -/
def Change.actOn (e : PlacedStep) : Change → PlacedStep
  | .add _ => e
  | .cancel todo => if e.todo = todo then { e with status := .cancelled } else e
  | .status todo target => if e.todo = todo then { e with status := target } else e
  | .reorder todo order => if e.todo = todo then { e with order } else e

/-- An entry after some changes, in turn. -/
def changed (changes : List Change) (e : PlacedStep) : PlacedStep := changes.foldl Change.actOn e

/-- The previous entry at an index, at the order it was given. -/
def placedAt (orders : ℕ → Int64) (previous : List Mirrored) (i : ℕ) : Option PlacedStep :=
  previous[i]?.map fun prev => ⟨prev, orders i⟩

/-- The entry of a step after the difference was applied: the one it continues, or the one added for it. -/
def resentStep (orders : ℕ → Int64) (fresh : ℕ → String) (previous : List Mirrored) (next : List Step) (j : ℕ)
    (step : Step) : PlacedStep :=
  let new : PlacedStep := ⟨⟨step.text, fresh j, step.status⟩, placeOrder j⟩
  match (pair previous next)[j]? with
  | some (some i) => ((placedAt orders previous i).map (changed (diff previous next))).getD new
  | _ => new

/-- The resent list's entries after the difference was applied. -/
def resent (orders : ℕ → Int64) (fresh : ℕ → String) (previous : List Mirrored) (next : List Step) : List PlacedStep :=
  next.zipIdx.map fun row => resentStep orders fresh previous next row.2 row.1

/-- The pairing is one-to-one between entries of a text, in the order of their positions, and passes over no entry. -/
structure PairsInOrder (previous : List Mirrored) (next : List Step) (pairs : List (Option ℕ)) : Prop where
  text : ∀ j i : ℕ, pairs[j]? = some (some i) →
    ∃ prev step, previous[i]? = some prev ∧ next[j]? = some step ∧ prev.text = step.text
  one : ∀ j k i : ℕ, pairs[j]? = some (some i) → pairs[k]? = some (some i) → j = k
  order : ∀ (j k i l : ℕ) (step later : Step), j < k → next[j]? = some step → next[k]? = some later →
    step.text = later.text → pairs[j]? = some (some i) → pairs[k]? = some (some l) → i < l
  first : ∀ (j i : ℕ) (prev : Mirrored) (step : Step) (found : Option ℕ), pairs[j]? = some found →
    (∀ l ∈ found, i < l) → previous[i]? = some prev → next[j]? = some step → prev.text = step.text →
    ∃ k < j, pairs[k]? = some (some i)

section Pairing

variable {previous : List Mirrored} {next : List Step} {paired : List Bool}

/-- A step that is flagged after one more was paired was flagged before, or is that one. -/
theorem eq_of_getD_markPaired {found : Option ℕ} {i : ℕ} (htrue : (markPaired paired found).getD i false = true) :
    paired.getD i false = true ∨ found = some i := by
  cases found with
  | none => exact Or.inl htrue
  | some j =>
    by_cases heq : j = i
    · exact Or.inr (congrArg some heq)
    · rw [markPaired, List.getD_eq_getElem?_getD, List.getElem?_set_ne heq, ← List.getD_eq_getElem?_getD] at htrue
      exact Or.inl htrue

/-- A previous step of a text that is passed over is paired already. -/
theorem paired_of_findUnpaired {text : String} {i : ℕ} {prev : Mirrored} (hprev : previous[i]? = some prev)
    (htext : prev.text = text) (hbefore : ∀ l ∈ findUnpaired previous paired text, i < l) :
    paired.getD i false = true := by
  by_contra hfree
  have hlength := (List.getElem?_eq_some_iff.mp hprev).1
  have hholds : (!paired.getD i false && previous[i]?.any fun prev => prev.text == text) = true := by
    rw [Bool.eq_false_iff.mpr hfree, hprev]
    simpa using htext
  cases hfound : findUnpaired previous paired text with
  | none =>
    have hnone := List.find?_eq_none.mp hfound i (List.mem_range.mpr hlength)
    exact hnone hholds
  | some l =>
    have hlt := hbefore l hfound
    unfold findUnpaired at hfound
    obtain ⟨-, before, after, hsplit, hskipped⟩ := List.find?_eq_some_iff_append.mp hfound
    have hi : i ∈ before := by
      have hget : (before ++ l :: after)[i]? = some i := by
        rw [← hsplit, List.getElem?_range hlength]
      have hl : before.length = l := by
        have hat : (before ++ l :: after)[before.length]? = some l := by simp
        rw [← hsplit, List.getElem?_range (by rw [← List.length_range (n := previous.length), hsplit]; simp)] at hat
        exact Option.some.inj hat
      rw [List.getElem?_append_left (by omega)] at hget
      exact List.mem_of_getElem? hget
    have hskip := hskipped i hi
    rw [hholds] at hskip
    contradiction

/-- A step of a text that a pairing passes over was flagged, or is paired with an earlier one. -/
theorem pairFrom_first {j i : ℕ} {prev : Mirrored} {step : Step} {found : Option ℕ}
    (hfound : (pairFrom previous paired next)[j]? = some found) (hbefore : ∀ l ∈ found, i < l)
    (hprev : previous[i]? = some prev) (hstep : next[j]? = some step) (htext : prev.text = step.text) :
    paired.getD i false = true ∨ ∃ k < j, (pairFrom previous paired next)[k]? = some (some i) := by
  induction next generalizing paired j with
  | nil => simp [pairFrom] at hfound
  | cons first rest ih =>
    rw [pairFrom] at hfound
    cases j with
    | zero =>
      obtain rfl := Option.some.inj hfound
      obtain rfl := Option.some.inj hstep
      exact Or.inl (paired_of_findUnpaired hprev htext hbefore)
    | succ j =>
      rcases ih hfound hstep with hmarked | ⟨k, hk, hpair⟩
      · rcases eq_of_getD_markPaired hmarked with hflag | heq
        · exact Or.inl hflag
        · refine Or.inr ⟨0, Nat.succ_pos j, ?_⟩
          rw [pairFrom]
          exact congrArg some heq
      · refine Or.inr ⟨k + 1, Nat.succ_lt_succ hk, ?_⟩
        rw [pairFrom]
        exact hpair

/-- The pairing of two lists is in order. -/
theorem pair_inOrder (previous : List Mirrored) (next : List Step) :
    PairsInOrder previous next (pair previous next) := by
  have hfirst : ∀ (j i : ℕ) (prev : Mirrored) (step : Step) (found : Option ℕ), (pair previous next)[j]? = some found →
      (∀ l ∈ found, i < l) → previous[i]? = some prev → next[j]? = some step → prev.text = step.text →
      ∃ k < j, (pair previous next)[k]? = some (some i) := by
    intro j i prev step found hfound hbefore hprev hstep htext
    refine (pairFrom_first hfound hbefore hprev hstep htext).resolve_left fun hflag => ?_
    rw [List.getD_eq_getElem?_getD, List.getElem?_replicate] at hflag
    split at hflag <;> simp at hflag
  refine ⟨fun j i => pair_eq_some, fun j k i => pair_inj,
    fun j k i l step later hlt hstep hlater htext hj hk => ?_, hfirst⟩
  obtain ⟨prev, later', hprev, hlater', htext'⟩ := pair_eq_some hk
  obtain rfl := Option.some.inj (hlater.symm.trans hlater')
  by_contra hnot
  have hne : l ≠ i := by
    rintro rfl
    exact absurd (pair_inj hj hk) (Nat.ne_of_lt hlt)
  obtain ⟨m, hm, hpair⟩ := hfirst j l prev step (some i) hj (fun l' hl' => by
    obtain rfl := Option.some.inj hl'
    omega) hprev hstep (htext'.trans htext.symm)
  have heq := pair_inj hpair hk
  omega

end Pairing

section Effects

/-- The status a change gives an entry of a todo. -/
def Change.setsStatus (todo : String) : Change → Option StatusKind
  | .cancel target => if todo = target then some .cancelled else none
  | .status target wanted => if todo = target then some wanted else none
  | _ => none

/-- The order a change gives an entry of a todo. -/
def Change.setsOrder (todo : String) : Change → Option Int64
  | .reorder target order => if todo = target then some order else none
  | _ => none

/-- One change sets the status and the order it gives, and leaves the rest. -/
theorem actOn_spec (e : PlacedStep) (change : Change) :
    (change.actOn e).text = e.text ∧ (change.actOn e).todo = e.todo ∧
      (change.actOn e).status = (change.setsStatus e.todo).getD e.status ∧
      (change.actOn e).order = (change.setsOrder e.todo).getD e.order := by
  cases change with
  | add index => exact ⟨rfl, rfl, rfl, rfl⟩
  | cancel todo =>
    by_cases heq : e.todo = todo <;> simp [Change.actOn, Change.setsStatus, Change.setsOrder, heq]
  | status todo target =>
    by_cases heq : e.todo = todo <;> simp [Change.actOn, Change.setsStatus, Change.setsOrder, heq]
  | reorder todo order =>
    by_cases heq : e.todo = todo <;> simp [Change.actOn, Change.setsStatus, Change.setsOrder, heq]

/-- No change touches the text or the todo of an entry. -/
theorem changed_same (changes : List Change) (e : PlacedStep) :
    (changed changes e).text = e.text ∧ (changed changes e).todo = e.todo := by
  induction changes generalizing e with
  | nil => exact ⟨rfl, rfl⟩
  | cons change rest ih =>
    obtain ⟨htext, htodo, -, -⟩ := actOn_spec e change
    obtain ⟨hrest, hrestTodo⟩ := ih (change.actOn e)
    exact ⟨hrest.trans htext, hrestTodo.trans htodo⟩

/-- A field that each change of an entry sets to one value or leaves alone ends with that value, if it
has it or some change gives it. -/
theorem changed_field {V : Type} (field : PlacedStep → V) (sets : String → Change → Option V)
    (hact : ∀ e change, field (change.actOn e) = (sets e.todo change).getD (field e)) {changes : List Change}
    {e : PlacedStep} {value : V} (honly : ∀ change ∈ changes, ∀ other, sets e.todo change = some other → other = value)
    (hgiven : field e = value ∨ ∃ change ∈ changes, sets e.todo change = some value) :
    field (changed changes e) = value := by
  induction changes generalizing e with
  | nil => exact hgiven.resolve_right (by simp)
  | cons change rest ih =>
    obtain ⟨-, htodo, -, -⟩ := actOn_spec e change
    refine ih (fun later hlater other hother => ?_) ?_
    · rw [htodo] at hother
      exact honly later (List.mem_cons_of_mem _ hlater) other hother
    · rw [htodo, hact]
      cases hsets : sets e.todo change with
      | some other => exact Or.inl (honly change List.mem_cons_self other hsets)
      | none =>
        refine hgiven.imp id fun hlater => ?_
        obtain ⟨later, hmem, hlater⟩ := hlater
        refine ⟨later, (List.mem_cons.mp hmem).resolve_left ?_, hlater⟩
        rintro rfl
        rw [hsets] at hlater
        contradiction

/-- An entry whose changes all give one status ends with it, if it has it or some change gives it. -/
theorem changed_status {changes : List Change} {e : PlacedStep} {status : StatusKind}
    (honly : ∀ change ∈ changes, ∀ other, change.setsStatus e.todo = some other → other = status)
    (hgiven : e.status = status ∨ ∃ change ∈ changes, change.setsStatus e.todo = some status) :
    (changed changes e).status = status := by
  exact changed_field (fun e => e.status) Change.setsStatus (fun e change => (actOn_spec e change).2.2.1) honly hgiven

/-- An entry whose changes all give one order ends with it, if it has it or some change gives it. -/
theorem changed_order {changes : List Change} {e : PlacedStep} {order : Int64}
    (honly : ∀ change ∈ changes, ∀ other, change.setsOrder e.todo = some other → other = order)
    (hgiven : e.order = order ∨ ∃ change ∈ changes, change.setsOrder e.todo = some order) :
    (changed changes e).order = order := by
  exact changed_field (fun e => e.order) Change.setsOrder (fun e change => (actOn_spec e change).2.2.2) honly hgiven

variable {previous : List Mirrored} {next : List Step}

/-- The entries of different places are of different todos. -/
theorem index_eq_of_todo (hdistinct : (previous.map Mirrored.todo).Nodup) {i l : ℕ} {prev other : Mirrored}
    (hprev : previous[i]? = some prev) (hother : previous[l]? = some other) (htodo : prev.todo = other.todo) :
      i = l := by
  have hi := (List.getElem?_eq_some_iff.mp hprev).1
  refine (List.nodup_iff_injective_get.mp hdistinct |> fun hinj => ?_)
  have hl := (List.getElem?_eq_some_iff.mp hother).1
  have hget : (previous.map Mirrored.todo).get ⟨i, by simpa using hi⟩ =
      (previous.map Mirrored.todo).get ⟨l, by simpa using hl⟩ := by
    simpa [(List.getElem?_eq_some_iff.mp hprev).2, (List.getElem?_eq_some_iff.mp hother).2] using htodo
  exact congrArg Fin.val (hinj hget)

/-- A step's entry ends with its text, its status and the order of its index. -/
theorem changed_paired (hdistinct : (previous.map Mirrored.todo).Nodup) {i j : ℕ} {prev : Mirrored} {step : Step}
    (hpair : (pair previous next)[j]? = some (some i)) (hprev : previous[i]? = some prev)
    (hstep : next[j]? = some step) :
    (changed (diff previous next) ⟨prev, placeOrder i⟩).status = step.status ∧
      (changed (diff previous next) ⟨prev, placeOrder i⟩).order = placeOrder j := by
  constructor
  · refine changed_status (fun change hchange other hother => ?_) ?_
    · cases change with
      | add index => cases hother
      | reorder todo order => cases hother
      | cancel todo =>
        obtain ⟨l, dropped, hdropped, rfl, hfree⟩ := cancel_mem_diff hchange
        simp only [Change.setsStatus] at hother
        split at hother
        · rename_i htodo
          obtain rfl := index_eq_of_todo hdistinct hprev hdropped htodo
          exact absurd hpair (hfree j)
        · contradiction
      | status todo target =>
        obtain ⟨k, l, other', later, hk, hother', hlater, -, rfl, rfl⟩ := status_mem_diff.mp hchange
        simp only [Change.setsStatus] at hother
        split at hother
        · rename_i htodo
          obtain rfl := index_eq_of_todo hdistinct hprev hother' htodo
          obtain rfl := pair_inj hpair hk
          obtain rfl := Option.some.inj (hstep.symm.trans hlater)
          exact (Option.some.inj hother).symm
        · contradiction
    · by_cases hsame : prev.status = step.status
      · exact Or.inl hsame
      · refine Or.inr ⟨.status prev.todo step.status, ?_, if_pos rfl⟩
        exact status_mem_diff.mpr ⟨j, i, prev, step, hpair, hprev, hstep, hsame, rfl, rfl⟩
  · refine changed_order (fun change hchange other hother => ?_) ?_
    · cases change with
      | add index => cases hother
      | cancel todo => cases hother
      | status todo target => cases hother
      | reorder todo order =>
        obtain ⟨k, l, other', hk, hother', -, rfl, rfl⟩ := reorder_mem_diff.mp hchange
        simp only [Change.setsOrder] at hother
        split at hother
        · rename_i htodo
          obtain rfl := index_eq_of_todo hdistinct hprev hother' htodo
          obtain rfl := pair_inj hpair hk
          exact (Option.some.inj hother).symm
        · contradiction
    · by_cases hsame : i = j
      · exact Or.inl (congrArg placeOrder hsame)
      · refine Or.inr ⟨.reorder prev.todo (placeOrder j), ?_, if_pos rfl⟩
        exact reorder_mem_diff.mpr ⟨j, i, prev, hpair, hprev, hsame, rfl, rfl⟩

end Effects

section Settled

variable {previous : List Mirrored} {next : List Step}

/-- The cancels are those of the previous steps that no step continues. -/
theorem cancel_mem_diff_iff {todo : String} : Change.cancel todo ∈ diff previous next ↔
    ∃ (i : ℕ) (prev : Mirrored), previous[i]? = some prev ∧ prev.todo = todo ∧
      ∀ j : ℕ, (pair previous next)[j]? ≠ some (some i) := by
  refine ⟨cancel_mem_diff, ?_⟩
  rintro ⟨i, prev, hprev, rfl, hfree⟩
  have hi := (List.getElem?_eq_some_iff.mp hprev).1
  have hflag : ((pair previous next).filterMap id).contains i = false := by
    rw [Bool.eq_false_iff, ne_eq, List.contains_iff_mem]
    intro hmem
    obtain ⟨found, hfound, heq⟩ := List.mem_filterMap.mp hmem
    obtain ⟨j, hj⟩ := List.mem_iff_getElem?.mp hfound
    exact hfree j (hj.trans (congrArg some heq))
  simp only [diff, List.mem_append, List.mem_filterMap]
  refine Or.inl (Or.inr ⟨(prev, false), ?_, rfl⟩)
  refine List.mem_of_getElem? (i := i) (List.getElem?_zip_eq_some.mpr ⟨hprev, ?_⟩)
  rw [getElem?_setAll, List.getElem?_replicate, if_pos hi, Option.map_some, hflag]
  rfl

/-- Where the texts of two lists are the same, each step continues the entry at its own place. -/
theorem pair_of_same_texts (htexts : previous.map Mirrored.text = next.map Step.text) {j : ℕ} (hj : j < next.length) :
    (pair previous next)[j]? = some (some j) := by
  have hpairs := pair_inOrder previous next
  have hlength : previous.length = next.length := by simpa using congrArg List.length htexts
  induction j using Nat.strong_induction_on with
  | _ j ih =>
    obtain ⟨prev, hprev⟩ : ∃ prev, previous[j]? = some prev :=
      ⟨_, List.getElem?_eq_getElem (hlength ▸ hj)⟩
    obtain ⟨step, hstep⟩ : ∃ step, next[j]? = some step := ⟨_, List.getElem?_eq_getElem hj⟩
    obtain ⟨found, hfound⟩ : ∃ found, (pair previous next)[j]? = some found :=
      ⟨_, List.getElem?_eq_getElem (by simpa using hj)⟩
    have htext : prev.text = step.text := by
      have hat := congrArg (fun texts : List String => texts[j]?) htexts
      simpa [hprev, hstep] using hat
    by_cases hbefore : ∀ l ∈ found, j < l
    · obtain ⟨k, hk, hpair⟩ := hpairs.first j j prev step found hfound hbefore hprev hstep htext
      rw [ih k hk (by omega)] at hpair
      have heq := Option.some.inj (Option.some.inj hpair)
      omega
    · push Not at hbefore
      obtain ⟨l, rfl, hl⟩ := hbefore
      rcases Nat.lt_or_eq_of_le hl with hlt | rfl
      · have heq := hpairs.one l j l (ih l hlt (by omega)) hfound
        omega
      · exact hfound

/-- Lists of the same texts and statuses differ in nothing. -/
theorem diff_eq_nil (htexts : previous.map Mirrored.text = next.map Step.text)
    (hstatuses : previous.map Mirrored.status = next.map Step.status) : diff previous next = [] := by
  have hlength : previous.length = next.length := by simpa using congrArg List.length htexts
  have hself : ∀ {j i : ℕ}, (pair previous next)[j]? = some (some i) → i = j := by
    intro j i hpair
    have hj : j < next.length := by simpa using (List.getElem?_eq_some_iff.mp hpair).1
    rw [pair_of_same_texts htexts hj] at hpair
    exact (Option.some.inj (Option.some.inj hpair)).symm
  rw [List.eq_nil_iff_forall_not_mem]
  intro change hchange
  cases change with
  | add index =>
    obtain ⟨later, hdiff, hlater⟩ := @diff_adds previous next
    rw [hdiff, List.mem_append] at hchange
    obtain ⟨found, hfound, heq⟩ := List.mem_map.mp (hchange.resolve_right (hlater index))
    have hnone := mem_newIndices.mp hfound
    have hj : found < next.length := by simpa using (List.getElem?_eq_some_iff.mp hnone).1
    rw [pair_of_same_texts htexts hj] at hnone
    cases hnone
  | status todo target =>
    obtain ⟨j, i, prev, step, hpair, hprev, hstep, hne, -, -⟩ := status_mem_diff.mp hchange
    obtain rfl := hself hpair
    have hat := congrArg (fun statuses : List StatusKind => statuses[i]?) hstatuses
    exact hne (by simpa [hprev, hstep] using hat)
  | cancel todo =>
    obtain ⟨i, prev, hprev, -, hfree⟩ := cancel_mem_diff hchange
    exact hfree i (pair_of_same_texts htexts (hlength ▸ (List.getElem?_eq_some_iff.mp hprev).1))
  | reorder todo order =>
    obtain ⟨j, i, prev, hpair, -, hne, -, -⟩ := reorder_mem_diff.mp hchange
    exact hne (hself hpair)

/-- The resent list's entry at an index is that of its step. -/
theorem getElem?_resent {orders : ℕ → Int64} {fresh : ℕ → String} {j : ℕ} {step : Step} (hstep : next[j]? = some step) :
    (resent orders fresh previous next)[j]? = some (resentStep orders fresh previous next j step) := by
  simp [resent, hstep]

/-- Every step's entry has the step's text, its status and the order of its index. -/
theorem resentStep_spec (fresh : ℕ → String) (hdistinct : (previous.map Mirrored.todo).Nodup) {j : ℕ} {step : Step}
    (hstep : next[j]? = some step) :
    (resentStep placeOrder fresh previous next j step).text = step.text ∧
      (resentStep placeOrder fresh previous next j step).status = step.status ∧
      (resentStep placeOrder fresh previous next j step).order = placeOrder j := by
  unfold resentStep
  split
  · rename_i i hpair
    obtain ⟨prev, step', hprev, hstep', htext⟩ := pair_eq_some hpair
    obtain rfl := Option.some.inj (hstep.symm.trans hstep')
    obtain ⟨hstatus, horder⟩ := changed_paired hdistinct hpair hprev hstep
    rw [placedAt, hprev, Option.map_some, Option.map_some, Option.getD_some]
    exact ⟨(changed_same _ _).1.trans htext, hstatus, horder⟩
  · exact ⟨rfl, rfl, rfl⟩

/-- Where no todo has two entries and each entry has the order of its index, the difference gives each resent step its
status and the order of its index, pairs steps of equal text in order, cancels what is left, and leaves no
difference. -/
theorem diff_settles (fresh : ℕ → String) (previous : List Mirrored) (next : List Step)
    (hdistinct : (previous.map Mirrored.todo).Nodup) :
    (∀ (j : ℕ) (step : Step), next[j]? = some step → ∃ e, (resent placeOrder fresh previous next)[j]? = some e ∧
      e.text = step.text ∧ e.status = step.status ∧ e.order = placeOrder j) ∧
      PairsInOrder previous next (pair previous next) ∧
      (∀ todo, Change.cancel todo ∈ diff previous next ↔ ∃ (i : ℕ) (prev : Mirrored), previous[i]? = some prev ∧
        prev.todo = todo ∧ ∀ j : ℕ, (pair previous next)[j]? ≠ some (some i)) ∧
      diff ((resent placeOrder fresh previous next).map PlacedStep.toMirrored) next = [] := by
  have hentry : ∀ (j : ℕ) (step : Step), next[j]? = some step →
    ∃ e, (resent placeOrder fresh previous next)[j]? = some e ∧
      e.text = step.text ∧ e.status = step.status ∧ e.order = placeOrder j := fun j step hstep =>
    ⟨_, getElem?_resent hstep, resentStep_spec fresh hdistinct hstep⟩
  have hlength : (resent placeOrder fresh previous next).length = next.length := by simp [resent]
  have hreadings : ∀ {V : Type} (sent : PlacedStep → V) (wanted : Step → V),
      (∀ (j : ℕ) (e : PlacedStep) (step : Step), (resent placeOrder fresh previous next)[j]? = some e →
        next[j]? = some step → sent e = wanted step) →
      (resent placeOrder fresh previous next).map sent = next.map wanted := by
    intro V sent wanted hsame
    refine List.ext_getElem (by simp [hlength]) fun j hj hj' => ?_
    rw [List.getElem_map, List.getElem_map]
    exact hsame j _ _ (List.getElem?_eq_getElem _) (List.getElem?_eq_getElem _)
  refine ⟨hentry, pair_inOrder previous next, fun todo => cancel_mem_diff_iff, diff_eq_nil ?_ ?_⟩
  · rw [List.map_map]
    refine hreadings _ _ fun j e step he hstep => ?_
    obtain ⟨found, hfound, htext, -, -⟩ := hentry j step hstep
    obtain rfl := Option.some.inj (he.symm.trans hfound)
    exact htext
  · rw [List.map_map]
    refine hreadings _ _ fun j e step he hstep => ?_
    obtain ⟨found, hfound, -, hstatus, -⟩ := hentry j step hstep
    obtain rfl := Option.some.inj (he.symm.trans hfound)
    exact hstatus

end Settled

section Samples

/-- Two entries of different todos, and the list with the steps swapped and one of them done. -/
def twoEntries : List Mirrored := [⟨"a", "1", .pending⟩, ⟨"b", "2", .pending⟩]

def swapped : List Step := [⟨"b", .completed⟩, ⟨"a", .pending⟩]

/-- A list resent with its steps swapped. -/
theorem diff_settles_sample :
    diff ((resent placeOrder (fun _ => "new") twoEntries swapped).map PlacedStep.toMirrored) swapped = [] :=
  (diff_settles (fun _ => "new") twoEntries swapped (by decide)).2.2.2

/-- Entries one gap further on keep their orders where they stay and lose them where they move, and an entry whose todo
has another entry is cancelled with it. -/
theorem diff_settles_fails :
    ((resent (fun i => placeOrder (i + 1)) (fun _ => "new") twoEntries (twoEntries.map fun e => ⟨e.text, e.status⟩)).map
      PlacedStep.order = [placeOrder 1, placeOrder 2]) ∧
      ((resent (fun i => placeOrder (i + 1)) (fun _ => "new") twoEntries swapped).map PlacedStep.order =
        [placeOrder 0, placeOrder 1]) ∧
      ((resent placeOrder (fun _ => "new") [⟨"a", "1", .pending⟩, ⟨"b", "1", .pending⟩] [⟨"a", .pending⟩]).map
        (fun e => e.status) = [.cancelled]) := by
  decide +kernel

end Samples

end Devkit.Todos.Native
