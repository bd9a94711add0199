import Devkit.Hook.Enforced

/-!
# An allowed command holds its locks

The write stage of the shell hook evaluates a command's analysis and hands the claims to the gate. When it
finds nothing to block, every path and bound written is reserved, and every check came back clean.
-/

namespace Devkit.Hook

open Devkit.Common
open Devkit.Library
open Devkit.Locks

/-- Nothing is asked for. -/
def Claims.isEmpty (claims : Claims) : Bool :=
  claims.paths.isEmpty && claims.trees.isEmpty && claims.scopes.isEmpty

/-- How often the registry is asked. -/
def Claims.size (claims : Claims) : ℕ := claims.scopes.length + claims.paths.length + claims.trees.length

/-- Evaluate a command's analysis and enforce its claims. A call that is denied already claims nothing, and
neither does one without a session. -/
def writeStage (w : Checkouts) (clock : ℕ → Moment) (analysis : Analysis) (policy : HarnessPolicy)
    (blocked : Bool) (holder : Except String String) (d : Data) (cwd : String) : Data × WriteVerdict :=
  let evaluation := evaluate analysis policy
  let verdict := evaluation.verdict
  if blocked || !verdict.blocks.isEmpty || evaluation.claims.isEmpty then (d, verdict)
  else
    match holder with
    | .error missing =>
      (d, { verdict with blocks := verdict.blocks ++ [findingPrefix ++ " " ++ missing ++ " (fail-closed)"] })
    | .ok holder =>
      let (d, found) := WriteGate.decide w clock holder policy.unresolvedWrites d evaluation.claims cwd
      (d, ⟨verdict.blocks ++ found.blocks, verdict.warnings ++ found.warnings⟩)

/-- A clean covering check says no live row of another line is at a directory or above it. -/
theorem checkCovering_eq_nil_iff {m : Moment} {d : Data} {root : Root} {dir holder : String} :
    d.checkCovering m root [dir] holder = [] ↔ ∀ k e, d.Row k e → Live m e → e.root = root →
      (e.path = "." ∨ Ancestor e.path dir) → OneLine e.holder holder := by
  simp only [Data.checkCovering, List.flatMap_singleton, List.filterMap_eq_nil_iff, mem_rows]
  constructor
  · intro h k e hk hlive hroot habove
    have he := h e ⟨k, hk⟩
    by_contra hline
    have hline' : onOneAncestryLine e.holder holder = false :=
      Bool.eq_false_iff.mpr fun h => hline (onOneAncestryLine_iff.mp h)
    rw [Live] at hlive
    simp [hroot, hline', hlive, coversChildren_iff.mpr habove] at he
  · rintro h e ⟨k, hk⟩
    refine if_neg fun hcond => ?_
    simp only [Bool.and_eq_true, beq_iff_eq, Bool.not_eq_true'] at hcond
    obtain ⟨⟨⟨hroot, hline⟩, hlive⟩, habove⟩ := hcond
    have hon := onOneAncestryLine_iff.mpr (h k e hk hlive hroot (coversChildren_iff.mp habove))
    simp [hon] at hline

section Clear

variable (w : Checkouts) (holder : String) (d : Data) (m : Moment)

/-- Every live row on these paths of the checkout is on the caller's line. -/
def RowsClear (root : Root) (on : String → Prop) : Prop :=
  ∀ k e, d.Row k e → Live m e → e.root = root → on e.path → OneLine e.holder holder

/-- The directory a check asks about has a key, and no row of another line is in the way: for a tree one that
overlaps it, for a fresh name or a covered path one at it or above it. -/
def ScopeCheck.Clear : ScopeCheck → Prop
  | .tree dir wholeCheckout => ∃ root rel, w.ScopedAt dir wholeCheckout root rel ∧
      RowsClear holder d m root fun path => Overlap path rel
  | .fresh path | .covering path => ∃ root rel, w.ScopedAt path false root rel ∧
      RowsClear holder d m root fun above => above = "." ∨ Ancestor above rel

variable {w}

/-- A check that finds no conflict is clear. -/
theorem clear_of_askScope (hw : w.Absolute) {check : ScopeCheck} (h : askScope w holder m d check = .ok []) :
    check.Clear w holder d m := by
  cases check with
  | tree dir wholeCheckout =>
    obtain ⟨⟨root, rel⟩, hkey, hcheck⟩ := bind_eq_ok.mp h
    exact ⟨root, rel, hw.scopedAt_iff.mp hkey,
      Data.check_eq_nil_iff.mp (Except.ok.inj hcheck) rel List.mem_cons_self⟩
  | fresh path | covering path =>
    obtain ⟨⟨root, rel⟩, hkey, hcheck⟩ := bind_eq_ok.mp h
    exact ⟨root, rel, hw.scopedAt_iff.mp hkey, checkCovering_eq_nil_iff.mp (Except.ok.inj hcheck)⟩

end Clear

section Gate

variable {w : Checkouts} {clock : ℕ → Moment} {holder : String} {unresolved : PolicyAction}

/-- What a gate that blocks nothing has done. -/
structure Enforced (w : Checkouts) (clock : ℕ → Moment) (holder : String) (claims : Claims) (d d' : Data) :
    Prop where
  scopes : ∀ check ∈ claims.scopes, ∃ n < claims.size, check.Clear w holder d (clock n)
  paths : ∀ path ∈ claims.paths, ∃ root rel, w.ctx path = .ok (root, rel) ∧
    Secured (clock 0) (clock claims.size) d d' holder root rel
  trees : ∀ dir ∈ claims.trees, ∃ root rel, w.scopeKey dir false = .ok (root, rel) ∧ rel ≠ "." ∧
    Secured (clock 0) (clock claims.size) d d' holder root rel

/-- The paths together are claimed. -/
theorem claimed_paths (hclock : Monotone clock) {paths : List String} {s s' : Enforcing}
    (h : paths.foldlM (claimPath w clock holder) s = .ok s') : Claimed clock paths.length s s' :=
  foldlM_counted Claimed.refl (fun _ _ _ _ _ h h' => h.trans hclock h') (fun _ _ _ h => (claimPath_ok hclock h).1) h

/-- The directories together are claimed. -/
theorem claimed_trees (hclock : Monotone clock) {dirs : List String} {s s' : Enforcing}
    (h : dirs.foldlM (claimDir w clock holder unresolved) s = .ok s') : Claimed clock dirs.length s s' :=
  foldlM_counted Claimed.refl (fun _ _ _ _ _ h h' => h.trans hclock h') (fun _ _ _ h => (claimDir_ok hclock h).1) h

/-- A gate without a block found every check clear and was granted every path and directory. -/
theorem enforce_allowed (hw : w.Absolute) (hclock : Monotone clock) {d d' : Data} (hd : Keyed d) {claims : Claims}
    {verdict : WriteVerdict} (h : enforce w clock holder .block d claims = .ok (d', verdict))
    (hnone : verdict.blocks = []) : Enforced w clock holder claims d d' := by
  obtain ⟨checked, hchecks, hrest⟩ := bind_eq_ok.mp h
  have hchecked := checked_foldlM hchecks
  split at hrest
  · rename_i hclean
    have hclean := List.isEmpty_iff.mp hclean
    obtain ⟨claimed, hpaths, hrest⟩ := bind_eq_ok.mp hrest
    obtain ⟨done, htrees, hrest⟩ := bind_eq_ok.mp hrest
    have hallPaths := claimed_paths hclock hpaths
    have hallTrees := claimed_trees hclock htrees
    have hend : done.asked ≤ claims.size := by
      have hchecks : checked.asked = 0 + claims.scopes.length := hchecked.asked
      have hfirst := hallPaths.asked_bound
      have hsecond := hallTrees.asked_bound
      simp only [Claims.size]
      omega
    have hkeyed : Keyed checked.data := by
      rw [hchecked.data]
      exact hd
    split at hrest
    · rename_i hgranted
      have hgranted := List.isEmpty_iff.mp hgranted
      obtain ⟨rfl, rfl⟩ := Prod.mk.inj (Except.ok.inj hrest)
      refine ⟨fun check hcheck => ?_, fun path hpath => ?_, fun dir hdir => ?_⟩
      · obtain ⟨i, hi⟩ := List.mem_iff_getElem?.mp hcheck
        obtain ⟨conflicts, hask, hkept⟩ := asked_of_checked hchecks hi
        rw [hclean] at hkept
        rw [List.eq_nil_of_subset_nil hkept, Nat.zero_add] at hask
        have hlt := (List.getElem?_eq_some_iff.mp hi).1
        exact ⟨i, Nat.lt_of_lt_of_le hlt (by simp only [Claims.size]; omega), clear_of_askScope holder d _ hw hask⟩
      · obtain ⟨i, hi⟩ := List.mem_iff_getElem?.mp hpath
        obtain ⟨before, after, hbefore, hat, hafter⟩ := foldlM_split hi hpaths
        obtain ⟨-, root, rel, hkey, hdecided⟩ := claimPath_ok hclock hat
        refine ⟨root, rel, hkey, ?_⟩
        have hsecured := hdecided.secured hclock hkeyed (claimed_paths hclock hbefore)
          ((claimed_paths hclock hafter).trans hclock hallTrees) hgranted hend
        rw [hchecked.data] at hsecured
        exact hsecured
      · obtain ⟨i, hi⟩ := List.mem_iff_getElem?.mp hdir
        obtain ⟨before, after, hbefore, hat, hafter⟩ := foldlM_split hi htrees
        have hlater := claimed_trees hclock hafter
        obtain ⟨-, hdone⟩ := claimDir_ok hclock hat
        cases hdone with
        | inl hgrant =>
          obtain ⟨root, rel, hkey, hbelow, hdecided⟩ := hgrant
          refine ⟨root, rel, hkey, hbelow, ?_⟩
          have hsecured := hdecided.secured hclock hkeyed (hallPaths.trans hclock (claimed_trees hclock hbefore))
            hlater hgranted hend
          rw [hchecked.data] at hsecured
          exact hsecured
        | inr hblock =>
          exact absurd (List.eq_nil_of_subset_nil (hnone ▸ hlater.blocks)) (hblock rfl)
    · obtain ⟨rfl, rfl⟩ := Prod.mk.inj (Except.ok.inj hrest)
      exact absurd hnone (List.append_ne_nil_of_right_ne_nil _ (List.cons_ne_nil _ _))
  · obtain ⟨rfl, rfl⟩ := Prod.mk.inj (Except.ok.inj hrest)
    cases hnone

/-- A gate whose checks find a conflict stops with the registry as it is. -/
theorem enforce_of_conflict {d : Data} {claims : Claims} {i : ℕ} {check : ScopeCheck} {conflicts : List Conflict}
    (hget : claims.scopes[i]? = some check) (hask : askScope w holder (clock i) d check = .ok conflicts)
    (hfound : conflicts ≠ []) : (∃ verdict, enforce w clock holder unresolved d claims = .ok (d, verdict)) ∨
      ∃ reason, enforce w clock holder unresolved d claims = .error (d, reason) := by
  unfold enforce
  cases hchecks : claims.scopes.foldlM (checkOne w clock holder) ⟨d, 0, [], ⟨[], []⟩⟩ with
  | error failure =>
    obtain ⟨kept, reason⟩ := failure
    obtain rfl := checks_error hchecks
    exact Or.inr ⟨reason, rfl⟩
  | ok checked =>
    obtain ⟨kept, hkept, hsub⟩ := asked_of_checked hchecks hget
    rw [Nat.zero_add, hask] at hkept
    obtain rfl := Except.ok.inj hkept
    have hconflicts : ¬ checked.conflicts.isEmpty = true := fun hnil =>
      hfound (List.eq_nil_of_subset_nil (List.isEmpty_iff.mp hnil ▸ hsub))
    have hdata : checked.data = d := (checked_foldlM hchecks).data
    refine Or.inl ⟨⟨[conflictMessage checked.conflicts], []⟩, ?_⟩
    change (if checked.conflicts.isEmpty = true then _ else _) = _
    rw [if_neg hconflicts, hdata]

/-- A gate whose checks find a conflict leaves the registry as it is. -/
theorem decide_of_conflict {d : Data} {claims : Claims} {cwd : String} {i : ℕ} {check : ScopeCheck}
    {conflicts : List Conflict} (hget : (claims.resolvedAgainst cwd).scopes[i]? = some check)
    (hask : askScope w holder (clock i) d check = .ok conflicts) (hfound : conflicts ≠ []) :
    (WriteGate.decide w clock holder unresolved d claims cwd).1 = d := by
  unfold WriteGate.decide
  rcases enforce_of_conflict hget hask hfound with ⟨verdict, h⟩ | ⟨reason, h⟩ <;> rw [h]

end Gate

/-- What an allowed command is promised. -/
structure HoldsLocks (w : Checkouts) (clock : ℕ → Moment) (holder cwd : String) (analysis : Analysis) (asked : ℕ)
    (d d' : Data) : Prop where
  resolved : ∀ effect ∈ analysis.fileEffects, effect.target ≠ .unresolved
  paths : ∀ effect ∈ analysis.fileEffects, effect.op ≠ .permissions → ∀ path, effect.target = .path path →
    w.StaysInside (resolveAgainst cwd path) → ∃ root rel, w.WrittenAt (resolveAgainst cwd path) root rel ∧
      Secured (clock 0) (clock asked) d d' holder root rel
  bounds : ∀ effect ∈ analysis.fileEffects, effect.op ≠ .permissions → ∀ dir, effect.target = .within dir →
    ∀ root rel, w.ScopedAt (resolveAgainst cwd dir) false root rel →
      (∀ other ∈ analysis.fileEffects, other.op ≠ .permissions → ∀ outer, other.target = .within outer →
        under dir outer = true → ∃ above, w.ScopedAt (resolveAgainst cwd outer) false root above ∧
          (above = "." ∨ Ancestor above rel)) →
      Secured (clock 0) (clock asked) d d' holder root rel
  trees : ∀ tree ∈ analysis.treeEffects,
    ∃ n < asked, (tree.check.resolvedAgainst cwd).Clear w holder d (clock n)
  permissions : ∀ effect ∈ analysis.fileEffects, effect.op = .permissions →
    (∀ path, effect.target = .path path →
      ∃ n < asked, (ScopeCheck.covering (resolveAgainst cwd path)).Clear w holder d (clock n)) ∧
    ∀ dir, effect.target = .within dir →
      ∃ n < asked, (ScopeCheck.tree (resolveAgainst cwd dir) false).Clear w holder d (clock n)
  fresh : ∀ effect ∈ analysis.fileEffects, effect.op ≠ .permissions → ∀ place dir,
    effect.target = .ephemeral place → place.named = some dir →
      ∃ n < asked, (ScopeCheck.fresh (resolveAgainst cwd dir)).Clear w holder d (clock n)

/-- The registry is asked about the resolved claims as often as about the claims. -/
theorem size_resolvedAgainst (claims : Claims) (cwd : String) : (claims.resolvedAgainst cwd).size = claims.size := by
  simp [Claims.size, Claims.resolvedAgainst]

/-- Where every effect is asked for and everything asked is enforced, the command holds its locks. -/
theorem Enforced.holdsLocks {w : Checkouts} (hw : w.Absolute) {clock : ℕ → Moment} {holder cwd : String}
    {analysis : Analysis} {claims : Claims} {d d' : Data}
    (h : Enforced w clock holder (claims.resolvedAgainst cwd) d d') (hasked : AllAsked analysis claims) (hresolved : ∀ effect ∈ analysis.fileEffects, effect.target ≠ .unresolved) :
    HoldsLocks w clock holder cwd analysis claims.size d d' := by
  have hsize := size_resolvedAgainst claims cwd
  have hclear : ∀ check ∈ claims.scopes, ∃ n < claims.size, (check.resolvedAgainst cwd).Clear w holder d (clock n) :=
    fun check hmem => hsize ▸ h.scopes _ (List.mem_map_of_mem hmem)
  refine ⟨hresolved, ?_, ?_, fun tree hmem => hclear _ (hasked.trees tree hmem), ?_, ?_⟩
  · intro effect hmem hop path htarget hstays
    have hfile := hasked.files effect hmem
    rw [FileEffect.Asked, htarget] at hfile
    obtain ⟨root, rel, hkey, hsecured⟩ := h.paths _ (List.mem_map_of_mem (hfile.2 hop))
    rw [hsize] at hsecured
    exact ⟨root, rel, hw.writtenAt hstays hkey, hsecured⟩
  · intro effect hmem hop dir htarget root rel hkey hnested
    have hfile := hasked.files effect hmem
    rw [FileEffect.Asked, htarget] at hfile
    obtain ⟨tree, htree, hunder⟩ := hfile.2 hop
    obtain ⟨other, hother, hopOther, htargetOther⟩ := hasked.bounds tree htree
    obtain ⟨above, hkeyAbove, habove⟩ := hnested other hother hopOther tree htargetOther hunder
    obtain ⟨root', rel', hkey', hbelow, hsecured⟩ := h.trees _ (List.mem_map_of_mem htree)
    obtain ⟨rfl, rfl⟩ := Prod.mk.inj (Except.ok.inj ((hw.scopedAt_iff.mpr hkeyAbove).symm.trans hkey'))
    rw [hsize] at hsecured
    exact hsecured.below hbelow habove
  · intro effect hmem hop
    have hfile := hasked.files effect hmem
    refine ⟨fun path htarget => ?_, fun dir htarget => ?_⟩
    · rw [FileEffect.Asked, htarget] at hfile
      exact hclear _ (hfile.1 hop)
    · rw [FileEffect.Asked, htarget] at hfile
      exact hclear _ (hfile.1 hop)
  · intro effect hmem hop place dir htarget hnamed
    have hfile := hasked.files effect hmem
    rw [FileEffect.Asked, htarget] at hfile
    exact hclear _ (hfile hop dir hnamed)

/-- A stage that blocks nothing is the gate's answer to claims the evaluation had no finding against. -/
theorem writeStage_allowed {w : Checkouts} {clock : ℕ → Moment} {analysis : Analysis} {policy : HarnessPolicy}
    {holder cwd : String} {d : Data}
    (h : (writeStage w clock analysis policy false (.ok holder) d cwd).2.blocks = []) :
    (evaluate analysis policy).verdict.blocks = [] ∧ ∃ verdict, verdict.blocks = [] ∧
      enforce w clock holder policy.unresolvedWrites d ((evaluate analysis policy).claims.resolvedAgainst cwd) =
        .ok ((writeStage w clock analysis policy false (.ok holder) d cwd).1, verdict) := by
  unfold writeStage at h ⊢
  dsimp only at h ⊢
  split at h
  · rename_i hearly
    have hblocks : (evaluate analysis policy).verdict.blocks = [] := h
    rw [if_pos hearly]
    simp only [hblocks, List.isEmpty_nil, Bool.not_true, Bool.or_self, Bool.false_or] at hearly
    refine ⟨hblocks, ⟨[], []⟩, rfl, ?_⟩
    simp only [Claims.isEmpty, Bool.and_eq_true, List.isEmpty_iff] at hearly
    obtain ⟨⟨hpaths, htrees⟩, hscopes⟩ := hearly
    simp only [Claims.resolvedAgainst, hpaths, htrees, hscopes, List.map_nil]
    rfl
  · rename_i hearly
    rw [if_neg hearly]
    obtain ⟨hblocks, hfound⟩ := List.append_eq_nil_iff.mp h
    refine ⟨hblocks, ?_⟩
    unfold WriteGate.decide at hfound ⊢
    split at hfound
    · rename_i answer hanswer
      rw [hanswer]
      exact ⟨answer.2, hfound, rfl⟩
    · cases hfound

section Example

/-- The components of a checkout root at /repo. -/
def repoDir : List Component := [.rootDir, .normal (bytes "repo")]

/-- The components of a checkout nested below it, at /repo/lib/sub. -/
def nestedDir : List Component := repoDir ++ [.normal (bytes "lib"), .normal (bytes "sub")]

/-- The nested checkout's root. -/
def nestedRoot : Root := ⟨"/repo/lib/sub", by decide⟩

/-- Every directory exists as spelled, with no links; those below the nested root belong to it, all others to /repo. -/
def twoCheckouts : Checkouts where
  isDir _ := true
  canonicalize path := some (.rootDir :: (walk [] (movesOf path)).map .normal)
  findRoot dir := if nestedDir.isPrefixOf dir then (nestedDir, nestedRoot) else (repoDir, sampleRoot)
  isCheckout _ := true
  currentDir := repoDir

/-- Its answers are from the root directory. -/
theorem twoCheckouts_absolute : twoCheckouts.Absolute where
  currentDir := rooted_names [bytes "repo"]
  findRoot dir _ := by
    rw [twoCheckouts]
    dsimp only
    split
    · exact rooted_names [bytes "repo", bytes "lib", bytes "sub"]
    · exact rooted_names [bytes "repo"]
  canonicalize path real h := ⟨_, (Option.some.inj h).symm⟩

/-- A policy that blocks what it cannot determine. -/
def strict : HarnessPolicy := ⟨.block, .block, .block⟩

/-- A clock that gains ten seconds between two operations. -/
def slowClock (n : ℕ) : Moment := allAlive (100 + 10 * n)

/-- The slow clock never goes back. -/
theorem slowClock_monotone : Monotone slowClock := fun _ _ h => allAlive_le (by omega)

/-- A write to a file, a write below a directory and a directory made under a random name. -/
def sampleAnalysis : Analysis :=
  ⟨[⟨.create, .path "README.md"⟩, ⟨.overwrite, .within "src"⟩, ⟨.create, .ephemeral (.inside "out")⟩],
    [], [], []⟩

/-- A session has claimed the sources of the checkout. -/
def parentSteps : List Step := [⟨allAlive 90, .acquire sampleRoot "s" ["src"] none none 60⟩]

/-- A permission change on the sources. -/
def chmodSample : Analysis := ⟨[⟨.permissions, .path "src"⟩], [], [], []⟩

/-- Another session holds a file below the sources. -/
def strangerSteps : List Step := [⟨allAlive 90, .acquire sampleRoot "s" ["src/lib.rs"] none none 60⟩]

/-- Two files written, one of them below the sources. -/
def twoFilesSample : Analysis := ⟨[⟨.create, .path "src/a.rs"⟩, ⟨.create, .path "README.md"⟩], [], [], []⟩

/-- The session's claim on the sources runs out soon. -/
def shortSteps : List Step := [⟨allAlive 98, .acquire sampleRoot "s" ["src"] none none 5⟩]

/-- Two bounds, the inner one in the nested checkout. -/
def nestedSample : Analysis := ⟨[⟨.create, .within "lib"⟩, ⟨.create, .within "lib/sub/src"⟩], [], [], []⟩

/-- No row of the registry covers the key. -/
def Uncovered (d : Data) (root : Root) (rel holder : String) : Prop :=
  ∀ k e, d.Row k e → ¬ Covers root rel holder e

/-- A registry covers no key that none of its rows covers. -/
theorem uncovered_of_rows {d : Data} {root : Root} {rel holder : String}
    (h : ∀ e ∈ rows d.locks, ¬ (e.root = root ∧ coversChildren e.path rel = true)) : Uncovered d root rel holder :=
  fun k e hrow hcovers => h e (mem_rows.mpr ⟨k, hrow⟩) ⟨hcovers.root_eq, coversChildren_iff.mpr hcovers.above⟩

end Example

end Devkit.Hook
