import Devkit.Git.Commit

/-!
# All or nothing

A guarded commit ends untouched, committed or retained. It ends untouched by an error before git is asked for the
commit, or by a commit that git refused; retained by every other error; and committed once the replacement index is
in place. What stands against it: a lock or a scratch directory that is not removed, a refused commit whose hooks made
HEAD name another ref, and a first commit on a HEAD that could not be read.
-/

namespace Devkit.Git

open Devkit.Library

/-- An error that names nothing to recover, with the repository as it was. -/
def Untouched (repo : Repository) (ending : Except Refusal String × Repository) : Prop :=
  (∃ cause, ending.1 = .error ⟨none, cause⟩) ∧ ending.2 = repo

/-- What the commit is made of, from the checks on. -/
def make (steps : Steps) (source : Source) (index : String) (head : Head) : Except Failure Prepared := do
  checks steps index
  prepare steps source (scratchPath steps index) head

/-- Success: HEAD is a commit of the selected tree on top of the old HEAD, the shared index is the replacement, and
the lock is free for another process. -/
def Committed (treeOf : Oid → Oid) (parents : Oid → List Oid) (steps : Steps) (source : Source) (repo : Repository)
    (ending : Except Refusal String × Repository) : Prop :=
  (∃ message, ending.1 = .ok message) ∧
    ∃ index hooks oid prepared, steps.gitPaths = .ok (index, hooks) ∧ make steps source index repo.head = .ok prepared ∧
      ending.2.head.commit = some oid ∧ parents oid = repo.head.commit.toList ∧
      steps.writeSelectedTree = .ok (treeOf oid) ∧ ending.2.index = some prepared.replacement ∧
      ending.2.lock = if steps.relocked then .other else .free

/-- An error that names the scratch directory and the lock, and both are still there. -/
def Retained (steps : Steps) (repo : Repository) (ending : Except Refusal String × Repository) : Prop :=
  ∃ index hooks cause, steps.gitPaths = .ok (index, hooks) ∧
    ending.1 = .error ⟨some ("recovery files retained at " ++ scratchPath steps index ++ "; index lock: " ++
      (index ++ ".lock") ++ ". Inspect HEAD before retrying."), cause⟩ ∧
    ending.2.lock = .held ∧ scratchPath steps index ∈ ending.2.scratch ∧ ending.2.index = repo.index

/-- One of the three ways a guarded commit ends. -/
def Ends (treeOf : Oid → Oid) (parents : Oid → List Oid) (steps : Steps) (source : Source) (repo : Repository)
    (ending : Except Refusal String × Repository) : Prop :=
  Untouched repo ending ∨ Committed treeOf parents steps source repo ending ∨ Retained steps repo ending

/-- A guarded commit ends in exactly one of three ways, and never removes a lock of another process. -/
def AllOrNothing (treeOf : Oid → Oid) (parents : Oid → List Oid) (steps : Steps) (source : Source)
    (repo : Repository) : Prop :=
  let ending := commitGuarded treeOf steps source repo
  Ends treeOf parents steps source repo ending ∧
    ¬ (Untouched repo ending ∧ Committed treeOf parents steps source repo ending) ∧
    ¬ (Untouched repo ending ∧ Retained steps repo ending) ∧
    ¬ (Committed treeOf parents steps source repo ending ∧ Retained steps repo ending) ∧
    (repo.lock = .other → ending.2.lock = .other)

/-- How a commit ends that took the lock. -/
def underLock (treeOf : Oid → Oid) (steps : Steps) (source : Source) (index : String) (repo : Repository) :
    Except Refusal String × Repository :=
  settle steps (commitLocked treeOf steps source index ⟨index ++ ".lock", true, none, false⟩ { repo with lock := .held })

/-- The commit takes the lock beside an index. -/
def TakesLock (steps : Steps) (repo : Repository) (index : String) : Prop :=
  (∃ top, steps.topLevel = .ok top) ∧ (∃ hooks, steps.gitPaths = .ok (index, hooks)) ∧ repo.lock = .free ∧
    steps.takeLock = .ok ()

/-- Git refuses the commit: the call fails, the wrappers wrote nothing down, and HEAD names the commit it named. -/
def Refuses (treeOf : Oid → Oid) (steps : Steps) (state : HookState) : Prop :=
  steps.aimHooks = .ok () ∧ (∃ out, steps.commit.output = .ok out ∧ out.success = false) ∧
    headCommit steps.headAfter steps.commit.head = .ok state.oldHead ∧ readProposed treeOf steps state = .absent

/-- Git makes the commit that the wrappers wrote down, and the index is moved into place. -/
def Installs (treeOf : Oid → Oid) (steps : Steps) (state : HookState) : Prop :=
  steps.aimHooks = .ok () ∧ (∃ out, steps.commit.output = .ok out) ∧
    (∃ oid, headCommit steps.headAfter steps.commit.head = .ok (some oid) ∧
      readProposed treeOf steps state = .commit oid) ∧
    install steps = .ok ()

/-- What a guarded commit that took the lock needs to end all or nothing. -/
structure Sound (treeOf : Oid → Oid) (steps : Steps) (source : Source) (repo : Repository) (index : String) :
    Prop where
  /-- A commit that stops before git is asked for it removes the lock, and the scratch directory it made. -/
  stopped : ∀ failure, make steps source index repo.head = .error failure →
    steps.removesLock = true ∧ (checks steps index = .ok () → steps.removesScratch = true)
  /-- A commit that git refuses leaves HEAD on its ref and removes the lock and the scratch directory. -/
  refused : ∀ prepared, make steps source index repo.head = .ok prepared → Refuses treeOf steps prepared.state →
    steps.commit.head = repo.head ∧ steps.removesLock = true ∧ steps.removesScratch = true
  /-- A commit that is made knew the commit HEAD named. -/
  made : ∀ prepared, make steps source index repo.head = .ok prepared → Installs treeOf steps prepared.state →
    steps.headBefore = .answers ∨ repo.head.commit = none

/-- What git says of the updates of HEAD it asks the wrappers about: each is to a commit on top of the commit HEAD
named, and no commit has the null id. -/
structure Documented (parents : Oid → List Oid) (steps : Steps) (head : Head) : Prop where
  parents_eq : ∀ target old new, headRef steps.symbolicRef head = .ok target →
    IsUpdate target steps.commit.calls old new → parents new = if old = nullId new then [] else [old]
  ne_nullId : ∀ oid new, head.commit = some oid → oid ≠ nullId new

section Endings

variable {treeOf : Oid → Oid} {parents : Oid → List Oid} {steps : Steps} {source : Source} {repo : Repository}
  {index : String} {held : Held} {prepared : Prepared}

/-- What a preparation that succeeds read of HEAD and wrote of the selected tree. -/
theorem prepare_eq_ok {scratch : String} {head : Head} (h : prepare steps source scratch head = .ok prepared) :
    headCommit steps.headBefore head = .ok prepared.state.oldHead ∧
      headRef steps.symbolicRef head = .ok prepared.state.target ∧
      steps.writeSelectedTree = .ok prepared.state.selectedTree := by
  obtain ⟨_, _, h⟩ := bind_eq_ok.mp h
  obtain ⟨oldHead, hold, h⟩ := bind_eq_ok.mp h
  obtain ⟨target, htarget, h⟩ := bind_eq_ok.mp h
  obtain ⟨_, _, h⟩ := bind_eq_ok.mp h
  obtain ⟨_, _, h⟩ := bind_eq_ok.mp h
  obtain ⟨_, _, h⟩ := bind_eq_ok.mp h
  obtain ⟨_, _, h⟩ := bind_eq_ok.mp h
  obtain ⟨_, _, h⟩ := bind_eq_ok.mp h
  obtain ⟨_, _, h⟩ := bind_eq_ok.mp h
  obtain ⟨_, _, h⟩ := bind_eq_ok.mp h
  obtain ⟨selectedTree, hselected, h⟩ := bind_eq_ok.mp h
  obtain ⟨_, _, h⟩ := bind_eq_ok.mp h
  obtain ⟨_, _, h⟩ := bind_eq_ok.mp h
  obtain ⟨_, _, h⟩ := bind_eq_ok.mp h
  obtain ⟨_, _, h⟩ := bind_eq_ok.mp h
  obtain rfl := Except.ok.inj h
  exact ⟨hold, htarget, hselected⟩

/-- A commit whose call failed is reported as an error. -/
theorem report_eq_error {out : Output} (h : out.success = false) : ∃ failure, report out = .error failure := by
  rw [report, h]
  exact ⟨_, rfl⟩

/-- The way out of a commit whose files are kept changes nothing and names them. -/
theorem settle_kept {failure : Failure} (h : held.retain = true) :
    settle steps (.error failure, held, repo) = (.error ⟨some held.recovery, failure⟩, repo) := by
  rw [settle, Held.drop]
  simp only [h, if_true]
  rfl

/-- The way out of a commit whose files are not kept names none. -/
theorem settle_dropped {failure : Failure} (h : held.retain = false) :
    settle steps (.error failure, held, repo) = (.error ⟨none, failure⟩, held.drop steps repo) := by
  rw [settle]
  simp only [h]
  rfl

/-- What the removal of the lock and the scratch directory leaves. -/
theorem drop_eq {lock scratch : String} {head : Head} :
    Held.drop ⟨lock, true, some scratch, false⟩ steps
        { repo with head := head, lock := .held, scratch := scratch :: repo.scratch } =
      { repo with
        head := head
        lock := if steps.removesLock then .free else .held
        scratch := if steps.removesScratch then repo.scratch else scratch :: repo.scratch } := by
  rw [Held.drop]
  simp only [Bool.true_and, List.erase_cons_head]
  rfl

/-- Both removals succeed exactly when the repository is left as it was, but for HEAD. -/
theorem removed_iff {scratch : String} {head : Head} (hfree : repo.lock = .free) :
    ({ repo with
        head := head
        lock := if steps.removesLock then .free else .held
        scratch := if steps.removesScratch then repo.scratch else scratch :: repo.scratch } : Repository) = repo ↔
      head = repo.head ∧ steps.removesLock = true ∧ steps.removesScratch = true := by
  obtain ⟨headOld, content, lock, directories⟩ := repo
  obtain rfl : lock = .free := hfree
  simp only [Repository.mk.injEq, true_and]
  apply and_congr Iff.rfl
  apply and_congr
  · cases steps.removesLock with
    | true => exact iff_of_true rfl rfl
    | false => exact iff_of_false Lock.noConfusion Bool.noConfusion
  · cases steps.removesScratch with
    | true => exact iff_of_true rfl rfl
    | false =>
      apply iff_of_false _ Bool.noConfusion
      exact List.cons_ne_self _ _

/-- A commit that stops at the checks. -/
theorem commitLocked_checks {failure : Failure} (h : checks steps index = .error failure) :
    commitLocked treeOf steps source index held repo = (.error failure, held, repo) := by
  rw [commitLocked, h]

/-- A commit that stops while it is prepared. -/
theorem commitLocked_prepare (repo : Repository) {failure : Failure} (hchecks : checks steps index = .ok ())
    (h : prepare steps source (scratchPath steps index) repo.head = .error failure) :
    commitLocked treeOf steps source index held repo =
      (.error failure, { held with scratch := some (scratchPath steps index) },
        { repo with scratch := scratchPath steps index :: repo.scratch }) := by
  rw [commitLocked, hchecks]
  dsimp only
  rw [h]

/-- Once its call gave an output, a commit ends refused, installed, or with its files kept. -/
theorem conclude_ends (treeOf : Oid → Oid) (prepared : Prepared) (held : Held) (repo : Repository) {out : Output}
    (haim : steps.aimHooks = .ok ()) (hout : steps.commit.output = .ok out)
    (hhead : repo.head = steps.commit.head) :
    (Refuses treeOf steps prepared.state ∧ ∃ failure,
      conclude treeOf steps prepared out held repo = (.error failure, { held with retain := false }, repo)) ∨
    (Installs treeOf steps prepared.state ∧ ∃ message,
      conclude treeOf steps prepared out held repo = (.ok message, { held with ownsLock := false, retain := false },
        { repo with
          index := some prepared.replacement
          lock := if steps.relocked then .other else .free })) ∨
    (¬ Refuses treeOf steps prepared.state ∧ ¬ Installs treeOf steps prepared.state ∧ ∃ failure,
      conclude treeOf steps prepared out held repo = (.error failure, held, repo)) := by
  rw [conclude, hhead]
  cases hnew : headCommit steps.headAfter steps.commit.head with
  | error failure =>
    right; right
    refine ⟨fun hrefuses => ?_, fun hinstalls => ?_, failure, rfl⟩
    · cases hnew.symm.trans hrefuses.2.2.1
    · obtain ⟨_, _, ⟨oid, hoid, _⟩, _⟩ := hinstalls
      cases hnew.symm.trans hoid
  | ok newHead =>
    dsimp only
    by_cases hsame : newHead.map Proposed.commit = some (readProposed treeOf steps prepared.state)
    · -- HEAD names the commit that was written down, so only the index decides
      rw [if_neg (not_not.mpr hsame)]
      obtain ⟨oid, rfl, hoid⟩ := Option.map_eq_some_iff.mp hsame
      have hwritten : ¬ Refuses treeOf steps prepared.state := by
        intro hrefuses
        exact Proposed.noConfusion (hoid.trans hrefuses.2.2.2)
      cases hinstall : install steps with
      | error failure =>
        right; right
        refine ⟨hwritten, fun hinstalls => ?_, _, rfl⟩
        cases hinstall.symm.trans hinstalls.2.2.2
      | ok =>
        right; left
        exact ⟨⟨haim, ⟨out, hout⟩, ⟨oid, hnew, hoid.symm⟩, hinstall⟩, _, rfl⟩
    · rw [if_pos hsame]
      have hinstalls : ¬ Installs treeOf steps prepared.state := by
        intro hinstalls
        obtain ⟨_, _, ⟨oid, hoid, hcommit⟩, _⟩ := hinstalls
        obtain rfl := Except.ok.inj (hnew.symm.trans hoid)
        exact hsame (congrArg some hcommit.symm)
      by_cases hkept : readProposed treeOf steps prepared.state ≠ .absent ∨ newHead ≠ prepared.state.oldHead ∨
          out.success = true
      · rw [if_pos hkept]
        right; right
        refine ⟨fun hrefuses => ?_, hinstalls, _, rfl⟩
        obtain ⟨_, ⟨other, hother, hfail⟩, hold, habsent⟩ := hrefuses
        obtain rfl := Except.ok.inj (hout.symm.trans hother)
        obtain hkept | hkept | hkept := hkept
        · exact hkept habsent
        · exact hkept (Except.ok.inj (hnew.symm.trans hold))
        · exact Bool.noConfusion (hkept.symm.trans hfail)
      · rw [if_neg hkept]
        left
        rw [not_or, not_or, not_not, not_not, Bool.not_eq_true] at hkept
        obtain ⟨habsent, rfl, hfail⟩ := hkept
        obtain ⟨failure, hreport⟩ := report_eq_error hfail
        rw [hreport]
        exact ⟨⟨haim, ⟨out, hout, hfail⟩, hnew, habsent⟩, failure, rfl⟩

/-- A prepared commit ends refused, installed, or with its files kept. -/
theorem commitLocked_ends (treeOf : Oid → Oid) (held : Held) (repo : Repository)
    (hmake : make steps source index repo.head = .ok prepared) :
    (Refuses treeOf steps prepared.state ∧ ∃ failure, commitLocked treeOf steps source index held repo =
      (.error failure, { held with scratch := some (scratchPath steps index), retain := false },
        { repo with head := steps.commit.head, scratch := scratchPath steps index :: repo.scratch })) ∨
    (Installs treeOf steps prepared.state ∧ ∃ message, commitLocked treeOf steps source index held repo =
      (.ok message, { held with scratch := some (scratchPath steps index), ownsLock := false, retain := false },
        { head := steps.commit.head
          scratch := scratchPath steps index :: repo.scratch
          index := some prepared.replacement
          lock := if steps.relocked then .other else .free })) ∨
    (¬ Refuses treeOf steps prepared.state ∧ ¬ Installs treeOf steps prepared.state ∧
      ∃ failure head, commitLocked treeOf steps source index held repo =
        (.error failure, { held with scratch := some (scratchPath steps index), retain := true },
          { repo with head := head, scratch := scratchPath steps index :: repo.scratch })) := by
  obtain ⟨_, hchecks, hprepare⟩ := bind_eq_ok.mp hmake
  rw [commitLocked, hchecks]
  dsimp only
  rw [hprepare]
  dsimp only
  cases haim : steps.aimHooks with
  | error failure =>
    right; right
    refine ⟨fun hrefuses => ?_, fun hinstalls => ?_, failure, repo.head, rfl⟩
    · cases haim.symm.trans hrefuses.1
    · cases haim.symm.trans hinstalls.1
  | ok =>
    cases hout : steps.commit.output with
    | error failure =>
      right; right
      refine ⟨fun hrefuses => ?_, fun hinstalls => ?_, failure, steps.commit.head, rfl⟩
      · obtain ⟨out, hok, _⟩ := hrefuses.2.1
        cases hout.symm.trans hok
      · obtain ⟨out, hok⟩ := hinstalls.2.1
        cases hout.symm.trans hok
    | ok out =>
      obtain hrefused | hinstalled | ⟨hrefuses, hinstalls, failure, hkept⟩ :=
        conclude_ends treeOf prepared { held with scratch := some (scratchPath steps index), retain := true }
          { repo with head := steps.commit.head, scratch := scratchPath steps index :: repo.scratch }
          haim hout rfl
      · exact .inl hrefused
      · exact .inr (.inl hinstalled)
      · exact .inr (.inr ⟨hrefuses, hinstalls, failure, steps.commit.head, hkept⟩)

/-- The three endings exclude one another. -/
theorem endings_exclude (treeOf : Oid → Oid) (parents : Oid → List Oid) (steps : Steps) (source : Source)
    (repo : Repository) (ending : Except Refusal String × Repository) :
    ¬ (Untouched repo ending ∧ Committed treeOf parents steps source repo ending) ∧
      ¬ (Untouched repo ending ∧ Retained steps repo ending) ∧
      ¬ (Committed treeOf parents steps source repo ending ∧ Retained steps repo ending) := by
  refine ⟨fun both => ?_, fun both => ?_, fun both => ?_⟩
  · obtain ⟨⟨⟨cause, hcause⟩, _⟩, ⟨message, hmessage⟩, _⟩ := both
    cases hcause.symm.trans hmessage
  · obtain ⟨⟨⟨cause, hcause⟩, _⟩, _, _, _, _, hnamed, _⟩ := both
    cases hcause.symm.trans hnamed
  · obtain ⟨⟨⟨message, hmessage⟩, _⟩, _, _, _, _, hnamed, _⟩ := both
    cases hmessage.symm.trans hnamed

/-- A commit that was written down records the selected tree, and is on top of the commit HEAD named exactly when that
one was known. -/
theorem parents_iff (hdocs : Documented parents steps repo.head) (hmake : make steps source index repo.head = .ok prepared)
    {oid : Oid} (hwritten : readProposed treeOf steps prepared.state = .commit oid) :
    treeOf oid = prepared.state.selectedTree ∧
      (parents oid = repo.head.commit.toList ↔ steps.headBefore = .answers ∨ repo.head.commit = none) := by
  obtain ⟨_, _, hprepare⟩ := bind_eq_ok.mp hmake
  obtain ⟨hold, htarget, _⟩ := prepare_eq_ok hprepare
  have hproposed : proposedAfter treeOf prepared.state steps.commit.calls = .commit oid := by
    rw [readProposed] at hwritten
    split at hwritten
    · exact hwritten
    · cases hwritten
  obtain ⟨hupdate, htree⟩ := verified_proposedAfter treeOf prepared.state steps.commit.calls oid hproposed
  have hparents := hdocs.parents_eq _ _ _ htarget hupdate
  apply And.intro htree
  cases hquery : steps.headBefore with
  | answers =>
    rw [hquery] at hold
    rw [← Except.ok.inj hold] at hparents
    apply iff_of_true _ (.inl rfl)
    cases hcommit : repo.head.commit with
    | none =>
      rw [hcommit] at hparents
      rw [hparents]
      exact if_pos rfl
    | some commit =>
      rw [hcommit] at hparents
      rw [hparents]
      exact if_neg (hdocs.ne_nullId commit oid hcommit)
  | fails reason =>
    rw [hquery] at hold
    rw [← Except.ok.inj hold] at hparents
    rw [hparents, Option.getD_none, if_pos rfl, eq_comm, Option.toList_eq_nil_iff]
    exact ⟨.inr, fun known => known.resolve_left Query.noConfusion⟩
  | breaks reason =>
    rw [hquery] at hold
    cases hold

/-- An ending that names nothing to recover is one of the three exactly when the repository is as it was. -/
theorem dropped_iff {failure : Failure} {after : Repository} :
    Ends treeOf parents steps source repo (.error ⟨none, failure⟩, after) ↔ after = repo := by
  constructor
  · rintro (huntouched | ⟨⟨message, hmessage⟩, _⟩ | ⟨_, _, _, _, hnamed, _⟩)
    · exact huntouched.2
    · cases hmessage
    · cases hnamed
  · intro hafter
    exact .inl ⟨⟨failure, rfl⟩, hafter⟩

/-- A commit that stopped before git was asked for it ends as it should exactly when the removals succeed. -/
theorem stopped_iff {failure : Failure} (hfree : repo.lock = .free)
    (hmake : make steps source index repo.head = .error failure) :
    Ends treeOf parents steps source repo (underLock treeOf steps source index repo) ↔
      steps.removesLock = true ∧ (checks steps index = .ok () → steps.removesScratch = true) := by
  cases hchecks : checks steps index with
  | error reason =>
    have hending : underLock treeOf steps source index repo =
        (.error ⟨none, reason⟩, { repo with lock := if steps.removesLock then .free else .held }) := by
      rw [underLock, commitLocked_checks hchecks, settle_dropped rfl, Held.drop]
      simp only [Bool.true_and]
      rfl
    rw [hending, dropped_iff]
    obtain ⟨head, content, lock, directories⟩ := repo
    obtain rfl : lock = .free := hfree
    cases steps.removesLock with
    | true => exact iff_of_true rfl ⟨rfl, fun hok => (by cases hok)⟩
    | false =>
      apply iff_of_false
      · exact fun hsame => Lock.noConfusion (congrArg Repository.lock hsame)
      · exact fun removed => Bool.noConfusion removed.1
  | ok =>
    have hprepare : prepare steps source (scratchPath steps index) repo.head = .error failure := by
      rw [make, hchecks] at hmake
      exact hmake
    have hending : underLock treeOf steps source index repo = (.error ⟨none, failure⟩,
        { repo with
          head := repo.head
          lock := if steps.removesLock then .free else .held
          scratch := if steps.removesScratch then repo.scratch else scratchPath steps index :: repo.scratch }) := by
      rw [underLock, commitLocked_prepare { repo with lock := .held } hchecks hprepare, settle_dropped rfl]
      exact congrArg (Prod.mk _) drop_eq
    rw [hending, dropped_iff, removed_iff hfree]
    exact ⟨fun h => ⟨h.2.1, fun _ => h.2.2⟩, fun h => ⟨rfl, h.1, h.2 rfl⟩⟩

/-- A commit that git refused ends as it should exactly when HEAD is on its ref and the removals succeed. -/
theorem refused_iff {failure : Failure} (hfree : repo.lock = .free)
    (hrefused : commitLocked treeOf steps source index ⟨index ++ ".lock", true, none, false⟩
        { repo with lock := .held } =
      (.error failure, ⟨index ++ ".lock", true, some (scratchPath steps index), false⟩,
        { repo with head := steps.commit.head, lock := .held, scratch := scratchPath steps index :: repo.scratch })) :
    Ends treeOf parents steps source repo (underLock treeOf steps source index repo) ↔
      steps.commit.head = repo.head ∧ steps.removesLock = true ∧ steps.removesScratch = true := by
  rw [underLock, hrefused, settle_dropped rfl, dropped_iff, drop_eq, removed_iff hfree]

/-- A commit whose files are kept ends retained. -/
theorem retained_kept {failure : Failure} {head : Head} {hooks : String} (hpaths : steps.gitPaths = .ok (index, hooks))
    (hkept : commitLocked treeOf steps source index ⟨index ++ ".lock", true, none, false⟩
        { repo with lock := .held } =
      (.error failure, ⟨index ++ ".lock", true, some (scratchPath steps index), true⟩,
        { repo with head := head, lock := .held, scratch := scratchPath steps index :: repo.scratch })) :
    Retained steps repo (underLock treeOf steps source index repo) := by
  rw [underLock, hkept, settle_kept rfl]
  exact ⟨index, hooks, failure, hpaths, rfl, rfl, List.mem_cons_self, rfl⟩

/-- A commit whose index is moved into place ends committed exactly when the commit HEAD named was known. -/
theorem installed_iff (hdocs : Documented parents steps repo.head) {hooks message : String}
    (hpaths : steps.gitPaths = .ok (index, hooks)) (hmake : make steps source index repo.head = .ok prepared)
    (hinstalls : Installs treeOf steps prepared.state)
    (hinstalled : commitLocked treeOf steps source index ⟨index ++ ".lock", true, none, false⟩
        { repo with lock := .held } =
      (.ok message, ⟨index ++ ".lock", false, some (scratchPath steps index), false⟩,
        { head := steps.commit.head
          scratch := scratchPath steps index :: repo.scratch
          index := some prepared.replacement
          lock := if steps.relocked then .other else .free })) :
    Ends treeOf parents steps source repo (underLock treeOf steps source index repo) ↔
      steps.headBefore = .answers ∨ repo.head.commit = none := by
  obtain ⟨_, _, ⟨oid, hhead, hwritten⟩, _⟩ := hinstalls
  obtain ⟨htree, hparents⟩ := parents_iff hdocs hmake hwritten
  have hnames : steps.commit.head.commit = some oid := by
    cases hquery : steps.headAfter with
    | answers =>
      rw [hquery] at hhead
      exact Except.ok.inj hhead
    | fails reason =>
      rw [hquery] at hhead
      cases hhead
    | breaks reason =>
      rw [hquery] at hhead
      cases hhead
  rw [underLock, hinstalled, ← hparents]
  constructor
  · rintro (⟨⟨cause, hcause⟩, _⟩ | ⟨_, _, _, other, _, _, _, hother, hon, _⟩ | ⟨_, _, _, _, hnamed, _⟩)
    · cases hcause
    · obtain rfl := Option.some.inj (hnames.symm.trans hother)
      exact hon
    · cases hnamed
  · intro hon
    obtain ⟨_, _, hprepare⟩ := bind_eq_ok.mp hmake
    right; left
    refine ⟨⟨message, rfl⟩, index, hooks, oid, prepared, hpaths, hmake, hnames, hon, ?_, rfl, rfl⟩
    rw [htree]
    exact (prepare_eq_ok hprepare).2.2

/-- What a commit needs that stopped before git was asked for it. -/
theorem sound_stopped {failure : Failure} (hmake : make steps source index repo.head = .error failure) :
    Sound treeOf steps source repo index ↔
      steps.removesLock = true ∧ (checks steps index = .ok () → steps.removesScratch = true) := by
  have hnot : ∀ prepared, make steps source index repo.head ≠ .ok prepared := by
    intro prepared hok
    cases hmake.symm.trans hok
  constructor
  · intro h
    exact h.stopped failure hmake
  · intro h
    exact ⟨fun _ _ => h, fun _ hok => absurd hok (hnot _), fun _ hok => absurd hok (hnot _)⟩

/-- What a commit needs that was prepared. -/
theorem sound_prepared (hmake : make steps source index repo.head = .ok prepared) :
    Sound treeOf steps source repo index ↔
      (Refuses treeOf steps prepared.state →
        steps.commit.head = repo.head ∧ steps.removesLock = true ∧ steps.removesScratch = true) ∧
      (Installs treeOf steps prepared.state → steps.headBefore = .answers ∨ repo.head.commit = none) := by
  constructor
  · intro h
    exact ⟨h.refused prepared hmake, h.made prepared hmake⟩
  · intro h
    apply Sound.mk
    · intro failure herror
      cases hmake.symm.trans herror
    · intro other hother
      obtain rfl := Except.ok.inj (hmake.symm.trans hother)
      exact h.1
    · intro other hother
      obtain rfl := Except.ok.inj (hmake.symm.trans hother)
      exact h.2

/-- Git does not both refuse a commit and make it. -/
theorem Refuses.not_installs {state : HookState} (h : Refuses treeOf steps state) : ¬ Installs treeOf steps state := by
  intro hinstalls
  obtain ⟨_, _, ⟨oid, _, hwritten⟩, _⟩ := hinstalls
  exact Proposed.noConfusion (h.2.2.2.symm.trans hwritten)

/-- A commit that took the lock ends in one of the three ways exactly when it is sound. -/
theorem underLock_iff (hdocs : Documented parents steps repo.head) {hooks : String}
    (hpaths : steps.gitPaths = .ok (index, hooks)) (hfree : repo.lock = .free) :
    Ends treeOf parents steps source repo (underLock treeOf steps source index repo) ↔
      Sound treeOf steps source repo index := by
  cases hmake : make steps source index repo.head with
  | error failure => rw [stopped_iff hfree hmake, sound_stopped hmake]
  | ok prepared =>
    rw [sound_prepared hmake]
    obtain ⟨hrefuses, failure, hending⟩ | ⟨hinstalls, message, hending⟩ | ⟨hrefuses, hinstalls, failure, head, hending⟩ :=
      commitLocked_ends treeOf ⟨index ++ ".lock", true, none, false⟩ { repo with lock := .held } hmake
    · rw [refused_iff hfree hending]
      exact ⟨fun h => ⟨fun _ => h, fun hinstalls => absurd hinstalls hrefuses.not_installs⟩, fun h => h.1 hrefuses⟩
    · rw [installed_iff hdocs hpaths hmake hinstalls hending]
      exact ⟨fun h => ⟨fun hrefuses => absurd hinstalls hrefuses.not_installs, fun _ => h⟩, fun h => h.2 hinstalls⟩
    · apply iff_of_true (.inr (.inr (retained_kept hpaths hending)))
      exact ⟨fun h => absurd h hrefuses, fun h => absurd h hinstalls⟩

/-- A commit that does not take the lock leaves the repository as it was. -/
theorem untouched_unlocked (h : ∀ index, ¬ TakesLock steps repo index) :
    Untouched repo (commitGuarded treeOf steps source repo) := by
  rw [commitGuarded]
  cases htop : steps.topLevel with
  | error failure => exact ⟨⟨_, rfl⟩, rfl⟩
  | ok top =>
    dsimp only
    cases hpaths : steps.gitPaths with
    | error failure => exact ⟨⟨_, rfl⟩, rfl⟩
    | ok paths =>
      dsimp only
      by_cases hlock : repo.lock = .free
      · rw [if_neg (not_not.mpr hlock)]
        cases htake : steps.takeLock with
        | error failure => exact ⟨⟨_, rfl⟩, rfl⟩
        | ok => exact absurd ⟨⟨top, htop⟩, ⟨paths.2, hpaths⟩, hlock, htake⟩ (h paths.1)
      · rw [if_pos hlock]
        exact ⟨⟨_, rfl⟩, rfl⟩

/-- A commit that takes the lock ends as it does under it. -/
theorem commitGuarded_locked (h : TakesLock steps repo index) :
    commitGuarded treeOf steps source repo = underLock treeOf steps source index repo := by
  obtain ⟨⟨top, htop⟩, ⟨hooks, hpaths⟩, hfree, htake⟩ := h
  rw [commitGuarded, htop]
  dsimp only
  rw [hpaths]
  dsimp only
  rw [if_neg (not_not.mpr hfree), htake]
  rfl

end Endings

section Sample

/-- A wrapper's run over the transaction that moves the branch from one commit to the next. -/
def sampleCall : HookCall where
  hook := "reference-transaction"
  args := ["prepared"]
  reads := .ok ()
  ownHook := .ok 0
  payload := ["a0 b1 refs/heads/main"]
  head := ⟨"refs/heads/main", some "a0"⟩
  symbolicRef := .answers
  tree := fun _ => .answers
  write := fun _ => .synced
  revParseHead := .ok "a0"

/-- A replay of staged changes that are all gone. -/
def sampleReplay : Replay where
  changedSelected := .ok ["a.txt"]
  changedPrior := .ok []
  attributes := .ok []
  mergeDefault := .ok ""
  customDriver := fun _ => .ok false
  wrapTree := fun tree => .ok tree
  mergeTree := .ok (some 0, ⟨true, "exit status: 0", "t1", ""⟩)
  readTree := .ok [2]

/-- The steps of a commit of a branch that all succeed around a given call of git. -/
def sampleSteps (commit : CommitRun) : Steps where
  topLevel := .ok "/r"
  gitPaths := .ok ("/r/.git/index", "/r/.git/hooks")
  takeLock := .ok ()
  operations := .ok []
  unmerged := .ok false
  stamp := "7-1"
  createScratch := .ok ()
  createNoHooks := .ok ()
  headBefore := .answers
  symbolicRef := .answers
  copyOriginal := .ok ()
  copyPrior := .ok ()
  writePriorTree := .ok "t0"
  readHeadTree := .ok ()
  writeBaseTree := .ok "t0"
  select := .ok ()
  writeSelectedTree := .ok "t1"
  copyReplacement := .ok ()
  restore := .ok [2]
  replay := sampleReplay
  writeWrappers := .ok ()
  aimHooks := .ok ()
  commit := commit
  readProposed := true
  headAfter := .answers
  copyToLock := .ok ()
  syncLock := .ok ()
  renameLock := .ok ()
  relocked := true
  removesLock := true
  removesScratch := true

/-- A repository on a branch. -/
def sampleRepository : Repository := ⟨⟨"refs/heads/main", some "a0"⟩, some [1], .free, []⟩

/-- The trees of the sample's commits. -/
def sampleTree (oid : Oid) : Oid := if oid = "b1" then "t1" else "t0"

/-- The parents of the sample's commits. -/
def sampleParents (oid : Oid) : List Oid := if oid = "b1" then ["a0"] else []

end Sample

/-- A guarded commit is all or nothing exactly when it is sound once it took the lock. -/
theorem allOrNothing_iff (treeOf : Oid → Oid) (parents : Oid → List Oid) (steps : Steps) (source : Source)
    (repo : Repository) (hdocs : Documented parents steps repo.head) :
    AllOrNothing treeOf parents steps source repo ↔
      ∀ index, TakesLock steps repo index → Sound treeOf steps source repo index := by
  have hends : Ends treeOf parents steps source repo (commitGuarded treeOf steps source repo) ↔
      ∀ index, TakesLock steps repo index → Sound treeOf steps source repo index := by
    by_cases htakes : ∃ index, TakesLock steps repo index
    · obtain ⟨index, htakes⟩ := htakes
      obtain ⟨_, ⟨hooks, hpaths⟩, hfree, _⟩ := id htakes
      rw [commitGuarded_locked htakes, underLock_iff hdocs hpaths hfree]
      constructor
      · intro hsound other hother
        obtain ⟨_, ⟨_, hsame⟩, _⟩ := hother
        obtain ⟨rfl, _⟩ := Prod.mk.inj (Except.ok.inj (hpaths.symm.trans hsame))
        exact hsound
      · intro hsound
        exact hsound index htakes
    · rw [not_exists] at htakes
      exact iff_of_true (.inl (untouched_unlocked htakes)) fun index htake => absurd htake (htakes index)
  have hlock : repo.lock = .other → (commitGuarded treeOf steps source repo).2.lock = .other := by
    intro hother
    have htakes : ∀ index, ¬ TakesLock steps repo index := by
      intro index htakes
      exact Lock.noConfusion (hother.symm.trans htakes.2.2.1)
    rw [(untouched_unlocked htakes).2]
    exact hother
  rw [← hends]
  obtain ⟨hcommitted, hretained, hboth⟩ := endings_exclude treeOf parents steps source repo
    (commitGuarded treeOf steps source repo)
  exact ⟨fun h => h.1, fun h => ⟨h, hcommitted, hretained, hboth, hlock⟩⟩

/-- A commit whose steps all succeed is all or nothing. -/
theorem allOrNothing_sample : AllOrNothing sampleTree sampleParents
    (sampleSteps ⟨[sampleCall], ⟨"refs/heads/main", some "b1"⟩, .ok ⟨true, "exit status: 0", "[main b1] x", ""⟩⟩)
    (.paths ["a.txt"]) sampleRepository := by
  have hdocs : Documented sampleParents (sampleSteps ⟨[sampleCall], ⟨"refs/heads/main", some "b1"⟩,
      .ok ⟨true, "exit status: 0", "[main b1] x", ""⟩⟩) sampleRepository.head := by
    apply Documented.mk
    · intro target old new _ hupdate
      obtain ⟨call, hcall, line, hline, name, hfound, _⟩ := hupdate
      obtain rfl := List.mem_singleton.mp hcall
      obtain rfl := List.mem_singleton.mp hline
      have hread : updateOf "a0 b1 refs/heads/main" = some ("a0", "b1", "refs/heads/main") := by decide
      obtain ⟨rfl, rfl, rfl⟩ : "a0" = old ∧ "b1" = new ∧ "refs/heads/main" = name := by
        simpa using hread.symm.trans hfound
      decide
    · intro oid new hcommit
      obtain rfl := Option.some.inj hcommit
      intro hnull
      have hchars : ['a', '0'] = List.replicate new.utf8ByteSize '0' :=
        (congrArg String.toList hnull).trans String.toList_ofList
      have hmem : 'a' ∈ List.replicate new.utf8ByteSize '0' := hchars ▸ List.mem_cons_self
      exact absurd (List.eq_of_mem_replicate hmem) (by decide)
  apply (allOrNothing_iff _ _ _ _ _ hdocs).mpr
  intro index _
  apply Sound.mk
  · exact fun _ _ => ⟨rfl, fun _ => rfl⟩
  · intro prepared _ hrefuses
    obtain ⟨_, ⟨out, hout, hfail⟩, _⟩ := hrefuses
    obtain rfl := Except.ok.inj hout
    cases hfail
  · exact fun _ _ _ => .inl rfl

/-- A hook that fails once it made HEAD name another branch at the same commit: the error says HEAD is unchanged. -/
theorem hook_switches_branch : ¬ AllOrNothing sampleTree sampleParents
    (sampleSteps ⟨[], ⟨"refs/heads/other", some "a0"⟩, .ok ⟨false, "exit status: 1", "", ""⟩⟩)
    (.paths ["a.txt"]) sampleRepository := by
  intro h
  have hending : commitGuarded sampleTree
      (sampleSteps ⟨[], ⟨"refs/heads/other", some "a0"⟩, .ok ⟨false, "exit status: 1", "", ""⟩⟩)
      (.paths ["a.txt"]) sampleRepository =
        (.error ⟨none, ["git commit failed (exit status: 1); HEAD is unchanged:\n"]⟩,
          { sampleRepository with head := ⟨"refs/heads/other", some "a0"⟩ }) := by
    decide
  have hends := h.1
  rw [hending, dropped_iff] at hends
  exact absurd hends (by decide)

end Devkit.Git
