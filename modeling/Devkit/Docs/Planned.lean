import Devkit.Docs.Upgrade
import Mathlib.Data.List.Nodup

/-!
# The moves an upgrade plans

The survey of a cache finds the libraries that are still nested and those that are not. The plan names a directory
for each that is nested: one that is not there yet, and that no other name on the plan or in the cache folds to. Where
it can name one for every nested library it plans all the moves, and otherwise none.
-/

namespace Devkit.Docs

open Devkit.Library Devkit.Library.Routine

section Control

variable {chars stem : List Char} {name dirname : String}

/-- Where no '~' is written, nothing was rewritten. -/
theorem eq_of_map_encode (hstem : '~' ∉ stem) (h : (chars.map fun c => if c = '/' then '~' else c) = stem) :
    chars = stem := by
  subst h
  conv_lhs => rw [← List.map_id chars]
  refine List.map_congr_left fun c hc => ?_
  have hmem := List.mem_map_of_mem (f := fun c => if c = '/' then '~' else c) hc
  by_cases hslash : c = '/'
  · exact absurd (by simpa [hslash] using hmem) hstem
  · simp [hslash]

/-- The characters of a directory's name. -/
theorem toList_encode : (encode name).toList = name.toList.map fun c => if c = '/' then '~' else c :=
  String.toList_ofList

/-- The characters of a folded name. -/
theorem toList_foldKey : (foldKey name).toList = name.toList.map Char.toLower := String.toList_ofList

/-- A directory is the registry's only where its name is reserved. -/
theorem isControl_foldKey (h : isControl (encode name) = true) : isControl (foldKey name) = true := by
  rw [isControl, Bool.or_eq_true, beq_iff_eq, List.isPrefixOf_iff_prefix] at h ⊢
  rcases h with hname | hbegin
  · have hchars : name.toList = "registry".toList := by
      refine eq_of_map_encode (by decide) ?_
      rw [← hname, toList_encode]
    rw [foldKey, hchars]
    exact Or.inl (by decide)
  · rw [toList_encode] at hbegin
    obtain ⟨first, hfirst, hmap⟩ := List.prefix_map_iff.mp hbegin
    have hsame : first = "registry.".toList := eq_of_map_encode (by decide) hmap.symm
    rw [toList_foldKey]
    refine Or.inr ?_
    have hfolded : "registry.".toList.map Char.toLower = "registry.".toList := by decide
    rw [← hfolded, ← hsame]
    exact hfirst.map Char.toLower

/-- The directory of a library is not the registry's. -/
theorem isControl_of_libDir (h : libDir name = .ok dirname) : isControl dirname = false := by
  obtain ⟨hvalid, rfl⟩ := libDir_eq_ok.mp h
  refine Bool.eq_false_iff.mpr fun hcontrol => ?_
  have hreserved := isControl_foldKey hcontrol
  simp only [validateLib, hreserved] at hvalid
  split at hvalid
  · cases hvalid
  · split at hvalid
    · cases hvalid
    · cases htraversal : rejectTraversal name with
      | error problem =>
        rw [htraversal] at hvalid
        cases hvalid
      | ok =>
        rw [htraversal] at hvalid
        cases hvalid

end Control

section Survey

variable {cache : CacheDir} {scope member dirname : String}

/-- The nested libraries that a survey finds. -/
theorem mem_sources : (scope, member) ∈ cache.survey.sources ↔
    (scope ∈ cache.entries ∧ isControl scope = false) ∧ cache.libs (.flat scope) = none ∧
      member ∈ cache.members scope ∧ (cache.libs (.nested scope member)).isSome = true := by
  simp only [Survey.sources, CacheDir.survey, CacheDir.scopeMembers, List.mem_flatMap, List.mem_filter, List.mem_map,
    List.mem_mergeSort, Bool.not_eq_true', Option.isNone_iff_eq_none, Prod.mk.injEq]
  constructor
  · rintro ⟨_, ⟨⟨dir, ⟨hdir, hnone⟩, rfl⟩, _⟩, name, hname, rfl, rfl⟩
    rw [List.mem_mergeSort, List.mem_filter] at hname
    exact ⟨hdir, hnone, hname⟩
  · rintro ⟨hdir, hnone, hmember⟩
    have hmem : member ∈ ((cache.members scope).filter fun name => (cache.libs (.nested scope name)).isSome).mergeSort
        fun a b => decide (a ≤ b) := List.mem_mergeSort.mpr (List.mem_filter.mpr hmember)
    refine ⟨_, ⟨⟨scope, ⟨hdir, hnone⟩, rfl⟩, ?_⟩, member, hmem, rfl, rfl⟩
    rw [List.isEmpty_eq_false_iff_exists_mem]
    exact ⟨member, hmem⟩

/-- The other libraries that a survey finds. -/
theorem mem_libraries : dirname ∈ cache.survey.libraries ↔
    (dirname ∈ cache.entries ∧ isControl dirname = false) ∧ (cache.libs (.flat dirname)).isSome = true := by
  simp only [CacheDir.survey, List.mem_filter, List.mem_mergeSort, Bool.not_eq_true']

/-- A survey finds each nested library once. -/
theorem nodup_sources (hentries : cache.entries.Nodup) (hmembers : ∀ dir, (cache.members dir).Nodup) :
    cache.survey.sources.Nodup := by
  have hsorted {items : List String} (hitems : items.Nodup) : (items.mergeSort fun a b => decide (a ≤ b)).Nodup :=
    (List.mergeSort_perm items _).nodup_iff.mpr hitems
  rw [Survey.sources, List.nodup_flatMap]
  constructor
  · intro row hrow
    obtain ⟨hmap, _⟩ := List.mem_filter.mp hrow
    obtain ⟨dir, _, rfl⟩ := List.mem_map.mp hmap
    exact (hsorted ((hmembers dir).filter _)).map fun a b hab => (Prod.mk.inj hab).2
  · have hdirs := (hsorted (hentries.filter fun dir => !isControl dir)).filter fun dir => (cache.libs (.flat dir)).isNone
    refine ((List.pairwise_map.mpr (hdirs.imp fun hne => ?_)).filter _ : List.Pairwise _ _)
    intro source hfirst hsecond
    obtain ⟨_, _, rfl⟩ := List.mem_map.mp hfirst
    obtain ⟨_, _, heq⟩ := List.mem_map.mp hsecond
    exact hne (Prod.mk.inj heq).1.symm

end Survey

section Plan

variable {cache : CacheDir} {sources : List (String × String)} {plan : RenamePlan} {renames : List Rename}

/-- The directory of a nested library once it has moved. -/
def targetOf (source : String × String) : Except String String := libDir s!"{source.1}/{source.2}"

/-- The directories of two nested libraries fold to different names. -/
def Apart (first second : String × String) : Prop :=
  ∀ {target other}, targetOf first = .ok target → targetOf second = .ok other → foldKey target ≠ foldKey other

instance : Std.Symm Apart := ⟨fun _ _ h _ _ hfirst hsecond => (h hsecond hfirst).symm⟩

/-- Every nested library can be given a directory of its own, apart from those that are there or claimed. -/
structure Plannable (cache : CacheDir) (claimed : List (String × String)) (sources : List (String × String)) : Prop where
  named : ∀ source ∈ sources, ∃ target, targetOf source = .ok target ∧ target ∉ cache.entries ∧
    ∀ claim ∈ claimed, claim.1 ≠ foldKey target
  apart : sources.Pairwise Apart

/-- A move that is planned for each nested library. -/
def Planned (sources : List (String × String)) (renames : List Rename) : Prop :=
  renames.map (fun rename => (rename.scope, rename.member)) = sources ∧
    ∀ rename ∈ renames, targetOf (rename.scope, rename.member) = .ok rename.target

/-- A move can be planned where nothing stands against it. -/
theorem planRename_of_free {source : String × String} {target : String} (htarget : targetOf source = .ok target)
    (hfresh : target ∉ cache.entries) (hfree : ∀ claim ∈ plan.claimed, claim.1 ≠ foldKey target) :
    planRename cache plan source =
      { plan with
        renames := plan.renames ++ [⟨source.1, source.2, target⟩]
        claimed := (foldKey target, target) :: plan.claimed } := by
  have hcontains : ¬ cache.entries.contains target = true := fun h => hfresh (List.contains_iff_mem.mp h)
  have hfind : (plan.claimed.find? fun claim => claim.1 == foldKey target) = none :=
    List.find?_eq_none.mpr fun claim hclaim h => hfree claim hclaim (beq_iff_eq.mp h)
  rw [targetOf] at htarget
  simp only [planRename, htarget, if_neg hcontains, hfind]

/-- Where a plan has no problems after a move was planned, nothing stood against it. -/
theorem free_of_planRename {source : String × String} (h : (planRename cache plan source).problems = []) :
    ∃ target, targetOf source = .ok target ∧ target ∉ cache.entries ∧
      ∀ claim ∈ plan.claimed, claim.1 ≠ foldKey target := by
  rw [planRename] at h
  cases htarget : targetOf source with
  | error problem =>
    rw [targetOf] at htarget
    simp [htarget] at h
  | ok target =>
    rw [targetOf] at htarget
    simp only [htarget] at h
    split at h
    · simp at h
    · rename_i hcontains
      split at h
      · simp at h
      · rename_i hfind
        refine ⟨target, rfl, fun hmem => hcontains (List.contains_iff_mem.mpr hmem), fun claim hclaim heq => ?_⟩
        exact List.find?_eq_none.mp hfind claim hclaim (beq_iff_eq.mpr heq)

/-- Problems of a plan stay. -/
theorem problems_of_planRename {source : String × String} (h : (planRename cache plan source).problems = []) :
    plan.problems = [] := by
  obtain ⟨target, htarget, hfresh, hfree⟩ := free_of_planRename h
  rw [planRename_of_free htarget hfresh hfree] at h
  exact h

/-- A plan for libraries that can all be given directories has a move for each. -/
theorem Plannable.planned (h : Plannable cache plan.claimed sources) (hplan : plan.problems = []) :
    (sources.foldl (planRename cache) plan).problems = [] ∧
      ∃ new, (sources.foldl (planRename cache) plan).renames = plan.renames ++ new ∧ Planned sources new := by
  induction sources generalizing plan with
  | nil => exact ⟨hplan, [], (List.append_nil _).symm, rfl, fun _ hmem => absurd hmem List.not_mem_nil⟩
  | cons source rest ih =>
    obtain ⟨target, htarget, hfresh, hfree⟩ := h.named source List.mem_cons_self
    obtain ⟨hfirst, hapart⟩ := List.pairwise_cons.mp h.apart
    rw [List.foldl_cons, planRename_of_free htarget hfresh hfree]
    have hrest : Plannable cache ((foldKey target, target) :: plan.claimed) rest := by
      refine ⟨fun other hother => ?_, hapart⟩
      obtain ⟨target', htarget', hfresh', hfree'⟩ := h.named other (List.mem_cons_of_mem source hother)
      refine ⟨target', htarget', hfresh', fun claim hclaim => ?_⟩
      rcases List.mem_cons.mp hclaim with rfl | hbefore
      · exact hfirst other hother htarget htarget'
      · exact hfree' claim hbefore
    obtain ⟨hproblems, new, hnew, hsources, htargets⟩ :=
      @ih ⟨plan.renames ++ [⟨source.1, source.2, target⟩], plan.problems, _⟩ hrest hplan
    refine ⟨hproblems, ⟨source.1, source.2, target⟩ :: new, ?_, ?_, ?_⟩
    · rw [hnew, List.append_assoc, List.singleton_append]
    · rw [List.map_cons, hsources]
    · intro rename hrename
      rcases List.mem_cons.mp hrename with rfl | hmem
      · exact htarget
      · exact htargets rename hmem

/-- A plan without problems is for libraries that can all be given directories. -/
theorem plannable_of_problems (h : (sources.foldl (planRename cache) plan).problems = []) :
    plan.problems = [] ∧ Plannable cache plan.claimed sources := by
  induction sources generalizing plan with
  | nil => exact ⟨h, fun _ hmem => absurd hmem List.not_mem_nil, List.Pairwise.nil⟩
  | cons source rest ih =>
    rw [List.foldl_cons] at h
    obtain ⟨hstep, hnamed, hapart⟩ := ih h
    obtain ⟨target, htarget, hfresh, hfree⟩ := free_of_planRename hstep
    rw [planRename_of_free htarget hfresh hfree] at hnamed
    refine ⟨problems_of_planRename hstep, fun other hother => ?_, List.pairwise_cons.mpr ⟨fun other hother => ?_, hapart⟩⟩
    · rcases List.mem_cons.mp hother with rfl | hmem
      · exact ⟨target, htarget, hfresh, hfree⟩
      · obtain ⟨target', htarget', hfresh', hfree'⟩ := hnamed other hmem
        exact ⟨target', htarget', hfresh', fun claim hclaim => hfree' claim (List.mem_cons_of_mem _ hclaim)⟩
    · intro first second hfirst hsecond
      obtain ⟨target', htarget', _, hfree'⟩ := hnamed other hother
      obtain rfl := Except.ok.inj (htarget.symm.trans hfirst)
      obtain rfl := Except.ok.inj (htarget'.symm.trans hsecond)
      exact hfree' _ List.mem_cons_self

/-- A plan without moves, with the names that the cache's directories have where case is folded. -/
def CacheDir.noMoves (cache : CacheDir) : RenamePlan :=
  ⟨[], [], (cache.entries.map fun dir => (foldKey dir, dir)).reverse⟩

/-- What the moves of a cache come to. -/
theorem planRenames_survey : planRenames cache cache.survey =
    let plan := cache.survey.sources.foldl (planRename cache) cache.noMoves
    if plan.problems.isEmpty then .ok plan.renames else .error (cannotMigrate plan.problems) := rfl

/-- All moves are planned where every nested library can be given a directory. -/
theorem planRenames_eq_ok (h : Plannable cache cache.noMoves.claimed cache.survey.sources) :
    ∃ renames, planRenames cache cache.survey = .ok renames ∧ Planned cache.survey.sources renames := by
  obtain ⟨hproblems, new, hnew, hplanned⟩ := h.planned rfl
  refine ⟨new, ?_, hplanned⟩
  simp only [planRenames_survey, hproblems, hnew]
  rfl

/-- Where all moves are planned, every nested library can be given a directory. -/
theorem plannable_of_planRenames (h : planRenames cache cache.survey = .ok renames) :
    Plannable cache cache.noMoves.claimed cache.survey.sources := by
  rw [planRenames_survey] at h
  dsimp only at h
  split at h
  · rename_i hempty
    exact (plannable_of_problems (List.isEmpty_iff.mp hempty)).2
  · cases h

end Plan

end Devkit.Docs
