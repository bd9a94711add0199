import Devkit.Library.Outcomes
import Devkit.Ticket.Status
import Mathlib.Data.Int.Notation
import Mathlib.Data.List.Basic

/-!
# The hook wrappers of a guarded commit

While git commits, every hook runs through a wrapper that runs the repository's own hook first. Once a reference
transaction is prepared the wrapper compares each update of HEAD with the commit that was asked for, and writes down
the commit it saw. What git and the hooks do in between is given: HEAD when the wrapper runs, the lines of the
transaction, and how each call and each write goes.
-/

namespace Devkit.Git

open Devkit.Library
open Devkit.Ticket (splitOnce)

/-- The id of an object. -/
abbrev Oid := String

/-- The texts of an error, the outermost first. -/
abbrev Failure := List String

/-- The error of a condition that does not hold. -/
def ensure (holds : Bool) (message : String) : Except Failure Unit := if holds then .ok () else .error [message]

/-- HEAD: the ref it points at, or `HEAD` itself when it is detached, and the commit it names, none on an unborn
branch. -/
structure Head where
  target : String
  commit : Option Oid
deriving DecidableEq

/-- How a query of git goes: it says what it is asked, or exits with a failure and says why, or cannot be run to its
end. -/
inductive Query
  | answers
  | fails (reason : String)
  | breaks (reason : String)
deriving DecidableEq

/-- The commit HEAD names, or none on an unborn branch: none for any query that fails. -/
def headCommit (query : Query) (head : Head) : Except Failure (Option Oid) :=
  match query with
  | .answers => .ok head.commit
  | .fails _ => .ok none
  | .breaks reason => .error [reason]

/-- The ref HEAD points at, or `HEAD` itself when it is detached. -/
def headRef (query : Query) (head : Head) : Except Failure String :=
  match query with
  | .answers => .ok head.target
  | .fails _ => .ok "HEAD"
  | .breaks reason => .error [reason]

/-- What a hook wrapper needs to know about the commit it guards. -/
structure HookState where
  oldHead : Option Oid
  target : String
  selectedTree : Oid
  proposed : String

/-- What the file holds that the wrapper writes the commit to which it saw prepared. -/
inductive Proposed
  | absent
  | torn
  | commit (oid : Oid)
deriving DecidableEq

/-- How the commit is written down: on disk, or the file cannot be made, is cut short, or is not known to be on
disk. -/
inductive Write
  | synced
  | notMade (reason : String)
  | cut (reason : String)
  | notSynced (reason : String)
deriving DecidableEq

/-- What the file holds after a write. -/
def Write.after (write : Write) (before : Proposed) (oid : Oid) : Proposed :=
  match write with
  | .synced | .notSynced _ => .commit oid
  | .notMade _ => before
  | .cut _ => .torn

/-- The error of a write. -/
def Write.result (path : String) : Write → Except Failure Unit
  | .synced => .ok ()
  | .notMade reason => .error ["writing " ++ path, reason]
  | .cut reason | .notSynced reason => .error [reason]

/-- One run of a wrapper: the hook and its arguments, whether its state and input are read, how the repository's own
hook exits, and what the wrapper is told after it. -/
structure HookCall where
  hook : String
  args : List String
  reads : Except Failure Unit
  ownHook : Except Failure ℤ
  payload : List String
  head : Head
  symbolicRef : Query
  tree : Oid → Query
  write : Oid → Write
  revParseHead : Except Failure Oid

/-- The sides and the name of an update of a reference transaction. -/
def updateOf (line : String) : Option (Oid × Oid × String) := do
  let first ← splitOnce ' ' line
  let second ← splitOnce ' ' first.2
  some (first.1, second.1, second.2)

/-- The id that stands for no commit, as long as another. -/
def nullId (oid : Oid) : Oid := String.ofList (List.replicate oid.utf8ByteSize '0')

/-- The tree that a commit is asked for. -/
def readTree (treeOf : Oid → Oid) (query : Query) (oid : Oid) : Except Failure Oid :=
  match query with
  | .answers => .ok (treeOf oid)
  | .fails reason | .breaks reason => .error [reason]

/-- Compare one update of HEAD with the commit asked for, and write the new one down. -/
def verifyUpdate (treeOf : Oid → Oid) (state : HookState) (call : HookCall) (old new : Oid) (proposed : Proposed) :
    Except Failure Unit × Proposed :=
  let checked : Except Failure Unit := do
    ensure (old = state.oldHead.getD (nullId new)) "HEAD moved while the commit was prepared; commit refused"
    let tree ← readTree treeOf (call.tree new) new
    ensure (tree = state.selectedTree) "a commit hook changed the committed tree; commit refused"
  match checked with
  | .error failure => (.error failure, proposed)
  | .ok () => ((call.write new).result state.proposed, (call.write new).after proposed new)

/-- Compare the updates of a transaction with the commit asked for; whether one of them is of HEAD. -/
def verifyLines (treeOf : Oid → Oid) (state : HookState) (call : HookCall) (proposed : Proposed) (matched : Bool) :
    List String → Except Failure Bool × Proposed
  | [] => (.ok matched, proposed)
  | line :: lines =>
    match updateOf line with
    | none => (.error ["unreadable reference transaction line " ++ line.quote], proposed)
    | some (old, new, name) =>
      if name ≠ state.target ∧ name ≠ "HEAD" then verifyLines treeOf state call proposed matched lines
      else
        match verifyUpdate treeOf state call old new proposed with
        | (.error failure, proposed) => (.error failure, proposed)
        | (.ok (), proposed) => verifyLines treeOf state call proposed true lines

/-- A transaction without an update of HEAD is let through once HEAD names the commit written down. -/
def verifyElsewhere (call : HookCall) (proposed : Proposed) : Except Failure Unit := do
  let head ← call.revParseHead
  ensure (proposed = .commit head) "a reference update does not move the expected HEAD; commit refused"

/-- Confirm that a transaction moves the expected ref from the expected commit to one of the selected tree. -/
def verifyTransaction (treeOf : Oid → Oid) (state : HookState) (call : HookCall) (proposed : Proposed) :
    Except Failure Unit × Proposed :=
  let pointing : Except Failure Unit := do
    let target ← headRef call.symbolicRef call.head
    ensure (target = state.target) "HEAD now names another ref; commit refused"
  match pointing with
  | .error failure => (.error failure, proposed)
  | .ok () =>
    match verifyLines treeOf state call proposed false call.payload with
    | (.error failure, proposed) => (.error failure, proposed)
    | (.ok true, proposed) => (.ok (), proposed)
    | (.ok false, proposed) => (verifyElsewhere call proposed, proposed)

/-- Run the repository's own hook, then confirm the transaction once it is prepared; the exit status for the hook. -/
def runHook (treeOf : Oid → Oid) (state : HookState) (call : HookCall) (proposed : Proposed) :
    Except Failure ℤ × Proposed :=
  let own : Except Failure ℤ := do
    call.reads
    call.ownHook
  match own with
  | .error failure => (.error failure, proposed)
  | .ok code =>
    if code ≠ 0 ∨ call.hook ≠ "reference-transaction" ∨ call.args ≠ ["prepared"] then (.ok code, proposed)
    else
      match verifyTransaction treeOf state call proposed with
      | (.error failure, proposed) => (.error failure, proposed)
      | (.ok (), proposed) => (.ok 0, proposed)

/-- What is written down after the wrappers ran. -/
def proposedAfter (treeOf : Oid → Oid) (state : HookState) (calls : List HookCall) : Proposed :=
  calls.foldl (fun proposed call => (runHook treeOf state call proposed).2) .absent

/-- An update of HEAD, or of the ref it pointed at, that a wrapper is told of. -/
def IsUpdate (target : String) (calls : List HookCall) (old new : Oid) : Prop :=
  ∃ call ∈ calls, ∃ line ∈ call.payload, ∃ name, updateOf line = some (old, new, name) ∧
    (name = target ∨ name = "HEAD")

/-- A commit written down is one that a prepared transaction moves HEAD to, from the expected commit, and records the
selected tree. -/
def Verified (treeOf : Oid → Oid) (state : HookState) (calls : List HookCall) (proposed : Proposed) : Prop :=
  ∀ oid, proposed = .commit oid →
    IsUpdate state.target calls (state.oldHead.getD (nullId oid)) oid ∧ treeOf oid = state.selectedTree

section Verify

variable {treeOf : Oid → Oid} {state : HookState} {calls : List HookCall} {call : HookCall} {proposed : Proposed}

theorem ensure_eq_ok {holds : Bool} {message : String} (h : ensure holds message = .ok ()) : holds = true := by
  rw [ensure] at h
  split at h
  · assumption
  · cases h

/-- A write of a commit that passed the checks keeps what is written down verified. -/
theorem Verified.verifyUpdate (call : HookCall) (h : Verified treeOf state calls proposed) {old new : Oid}
    (hupdate : IsUpdate state.target calls old new) :
    Verified treeOf state calls (verifyUpdate treeOf state call old new proposed).2 := by
  unfold Git.verifyUpdate
  dsimp only
  split
  · exact h
  · rename_i hchecked
    obtain ⟨_, hold, hrest⟩ := bind_eq_ok.mp hchecked
    obtain ⟨tree, htree, hsame⟩ := bind_eq_ok.mp hrest
    have hold := of_decide_eq_true (ensure_eq_ok hold)
    have hsame := of_decide_eq_true (ensure_eq_ok hsame)
    have hnew : Verified treeOf state calls (.commit new) := by
      intro oid hoid
      obtain rfl := Proposed.commit.inj hoid
      rw [← hold]
      refine ⟨hupdate, ?_⟩
      cases hquery : call.tree new with
      | answers =>
        rw [hquery] at htree
        rw [← hsame]
        exact Except.ok.inj htree
      | fails reason =>
        rw [hquery] at htree
        cases htree
      | breaks reason =>
        rw [hquery] at htree
        cases htree
    cases call.write new with
    | synced => exact hnew
    | notMade reason => exact h
    | cut reason => exact fun oid hoid => Proposed.noConfusion hoid
    | notSynced reason => exact hnew

/-- Comparing the updates of a transaction keeps what is written down verified. -/
theorem Verified.verifyLines (h : Verified treeOf state calls proposed) (hcall : call ∈ calls) {lines : List String}
    (hlines : lines ⊆ call.payload) (matched : Bool) :
    Verified treeOf state calls (verifyLines treeOf state call proposed matched lines).2 := by
  induction lines generalizing proposed matched with
  | nil => exact h
  | cons line lines ih =>
    obtain ⟨hline, hrest⟩ := List.cons_subset.mp hlines
    rw [Git.verifyLines]
    split
    · exact h
    · rename_i old new name hupdate
      split
      · exact ih h hrest matched
      · rename_i hname
        rw [not_and_or, not_not, not_not] at hname
        have hwritten := h.verifyUpdate call ⟨call, hcall, line, hline, name, hupdate, hname⟩
        split
        · rename_i failure written hverify
          rw [hverify] at hwritten
          exact hwritten
        · rename_i written hverify
          rw [hverify] at hwritten
          exact ih hwritten hrest true

/-- A wrapper keeps what is written down verified. -/
theorem Verified.runHook (h : Verified treeOf state calls proposed) (hcall : call ∈ calls) :
    Verified treeOf state calls (runHook treeOf state call proposed).2 := by
  have hlines := h.verifyLines hcall (List.Subset.refl call.payload) false
  have htransaction : Verified treeOf state calls (verifyTransaction treeOf state call proposed).2 := by
    unfold verifyTransaction
    dsimp only
    split
    · exact h
    · split
      all_goals
        rename_i hverify
        rw [hverify] at hlines
        exact hlines
  unfold Git.runHook
  dsimp only
  split
  · exact h
  · split
    · exact h
    · split
      all_goals
        rename_i hverify
        rw [hverify] at htransaction
        exact htransaction

/-- The commit written down after the wrappers ran is verified. -/
theorem verified_proposedAfter (treeOf : Oid → Oid) (state : HookState) (calls : List HookCall) :
    Verified treeOf state calls (proposedAfter treeOf state calls) := by
  have hfold : ∀ rest : List HookCall, rest ⊆ calls → ∀ proposed, Verified treeOf state calls proposed →
      Verified treeOf state calls (rest.foldl (fun proposed call => (runHook treeOf state call proposed).2) proposed) := by
    intro rest
    induction rest with
    | nil => exact fun _ _ h => h
    | cons call rest ih =>
      intro hrest proposed h
      obtain ⟨hcall, hrest⟩ := List.cons_subset.mp hrest
      exact ih hrest _ (h.runHook hcall)
  exact hfold calls (List.Subset.refl calls) .absent fun oid hoid => Proposed.noConfusion hoid

end Verify

end Devkit.Git
