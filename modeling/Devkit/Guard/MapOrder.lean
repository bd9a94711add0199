import Devkit.Guard.Decide

/-!
# The verdict and the order of the maps

What the project says of a command does not depend on the order its tasks and apps iterate in, but for one search. Where
the whole catalog is searched for the app of a dev server, the first app that the hint fits is named. So the verdict is
the same in any order exactly where no two apps fit in the same way.
-/

namespace Devkit.Guard

open Devkit.Library

variable (lib : Libraries) {p : Project} {tasks : HashEntries String Task} {catalog : HashEntries String App}

section Lookups

namespace Configured

variable {cfg : Configured} (hcatalog : cfg.catalog.Same catalog) (htasks : cfg.tasks.Same tasks)

include hcatalog in
/-- What a command task reads is found by lookups. -/
theorem checkCommand_reordered (lib : Templates) (task : Task) :
    checkCommand { cfg with tasks, catalog } lib task = cfg.checkCommand lib task := by
  unfold checkCommand
  rw [hcatalog.get?_eq]

include htasks in
/-- Who has to supply a name is found by lookups. -/
theorem isRequired_reordered (task : Option String) (name : String) (caller : Caller) :
    isRequired { cfg with tasks, catalog } task name caller = cfg.isRequired task name caller := by
  unfold isRequired applicable
  rw [htasks.get?_eq]
  rfl

include hcatalog htasks

/-- The arguments of a task are found by lookups. -/
theorem taskArgs_reordered (lib : Templates) (name : String) (caller : Caller) :
    taskArgs { cfg with tasks, catalog } lib name caller = cfg.taskArgs lib name caller := by
  have hstep : checkStep { cfg with tasks, catalog } lib = cfg.checkStep lib := by
    funext step
    cases step with
    | task name => simp only [checkStep, checkCommand_reordered hcatalog, htasks.get?_eq]
    | up app => simp only [checkStep, hcatalog.get?_eq]
  have hcheck (task : Task) : check { cfg with tasks, catalog } lib task = cfg.check lib task := by
    simp only [check, checkSequence, checkCommand_reordered hcatalog, hstep]
  have hrows (names : List String) : argRows { cfg with tasks, catalog } (some name) names caller =
      cfg.argRows (some name) names caller := by
    simp only [argRows, requiredOf, isRequired_reordered htasks]
    rfl
  simp only [taskArgs, hcheck, hrows, htasks.get?_eq]

end Configured

end Lookups

section Ranked

variable (n : Known) (hcatalog : p.catalog.Same catalog) (htasks : p.tasks.Same tasks)

/-- Different tasks are ranked apart. -/
theorem taskHit_inj {minSig : ℕ} {hit other : TaskHit} (hhit : hit ∈ p.tasks.rows.filterMap (taskHit lib n p minSig))
    (hother : other ∈ p.tasks.rows.filterMap (taskHit lib n p minSig)) (hkey : hit.key = other.key) : hit = other := by
  have hname {entry : String × Task} {hit : TaskHit} (h : taskHit lib n p minSig entry = some hit) :
    hit.name = entry.1 := by
    obtain ⟨cfg, _, h⟩ := Option.bind_eq_some_iff.mp h
    obtain ⟨sig, _, h⟩ := Option.bind_eq_some_iff.mp h
    split at h
    · cases h
    · split at h
      · cases h
      · split at h
        · obtain rfl := Option.some.inj h
          rfl
        · cases h
  obtain ⟨entry, hentry, hfound⟩ := List.mem_filterMap.mp hhit
  obtain ⟨entry', hentry', hfound'⟩ := List.mem_filterMap.mp hother
  have hnames : hit.name = other.name := by
    have hlast := congrArg (fun key => (ofLex (ofLex key).2).2) hkey
    exact hlast
  rw [hname hfound, hname hfound'] at hnames
  obtain rfl := List.inj_on_of_nodup_map p.tasks.nodup hentry hentry' hnames
  exact Option.some.inj (hfound.symm.trans hfound')

include hcatalog htasks in
/-- The task a command retypes is the same in any order. -/
theorem bestTask_reordered (minSig : ℕ) : bestTask lib n { p with tasks, catalog } minSig =
    bestTask lib n p minSig := by
  have hhits : (tasks.rows.filterMap (taskHit lib n p minSig)).mergeSort (fun a b => decide (a.key ≤ b.key)) =
      (p.tasks.rows.filterMap (taskHit lib n p minSig)).mergeSort fun a b => decide (a.key ≤ b.key) :=
    (mergeSort_eq_of_perm TaskHit.key (List.Perm.filterMap _ htasks) fun a ha b hb =>
      taskHit_inj lib n ha hb).symm
  have hsame : taskHit lib n { p with tasks, catalog } minSig = taskHit lib n p minSig := rfl
  unfold bestTask
  rw [hsame, hhits, hcatalog.get?_eq]

include hcatalog in
/-- The apps whose launch a command matches are the same in any order. -/
theorem matchingApps_reordered : matchingApps lib n { p with tasks, catalog } = matchingApps lib n p := by
  have hhits := mergeSort_eq_of_perm (fun hit : ℕ × String => (toLex (OrderDual.toDual hit.1, hit.2) : ℕᵒᵈ ×ₗ String))
    (hcatalog.values.filterMap (appHit lib n)) fun a _ b _ hkey => hkey
  unfold matchingApps
  rw [← hhits]

include hcatalog in
/-- The apps narrowed to are the same in any order. -/
theorem narrowedApps_reordered (hits : List String) :
    narrowedApps lib n hits { p with tasks, catalog } = narrowedApps lib n hits p := by
  unfold narrowedApps
  rw [hcatalog.get?_eq]

include hcatalog htasks in
/-- Whether the project could claim a program is the same in any order. -/
theorem projectCouldClaim_reordered (program : Option String) :
    projectCouldClaim lib program { p with tasks, catalog } = projectCouldClaim lib program p := by
  unfold projectCouldClaim
  rw [htasks.isEmpty_eq, hcatalog.isEmpty_eq]
  split
  · rfl
  · rw [htasks.values.any_eq, hcatalog.values.any_eq]

end Ranked

section Search

variable {n : Known}

/-- Without the fuzzy matcher, a search names the first app that the needle is the name or path of, else the first that
it is under. -/
theorem searchedApp_eq (hfuzzy : p.appMatch.fuzzy = false) :
    searchedApp lib n p = (hint n.argv p.cwdRel).bind fun text =>
      ((p.catalog.values.find? (isApp (trimSlashes text))).map App.name).or
        ((p.catalog.values.find? (isUnder (trimSlashes text))).map App.name) := by
  unfold searchedApp resolve
  cases hvalues : p.catalog.values with
  | nil => cases hint n.argv p.cwdRel <;> rfl
  | cons app rest =>
    cases hint n.argv p.cwdRel with
    | none => cases rest <;> rfl
    | some text =>
      cases hnamed : (app :: rest).find? (isApp (trimSlashes text)) with
      | some app => cases rest <;> simp only [Option.bind_eq_bind, Option.bind_some, hnamed] <;> rfl
      | none =>
        cases hunder : (app :: rest).find? (isUnder (trimSlashes text)) with
        | some app => cases rest <;> simp only [Option.bind_eq_bind, Option.bind_some, hnamed, hunder] <;> rfl
        | none => cases rest <;> simp only [Option.bind_eq_bind, Option.bind_some, hnamed, hunder, hfuzzy] <;> rfl

/-- All apps that a needle fits in the same way have one name: those it is the name or path of, else those it is
under. -/
structure OneApp (needle : String) (apps : List App) : Prop where
  named : ∀ app ∈ apps, ∀ other ∈ apps, isApp needle app = true → isApp needle other = true → app.name = other.name
  under : (∀ app ∈ apps, isApp needle app = false) → ∀ app ∈ apps, ∀ other ∈ apps, isUnder needle app = true →
    isUnder needle other = true → app.name = other.name

/-- Where one app fits, the search names it in any order. -/
theorem searchedApp_reordered (hfuzzy : p.appMatch.fuzzy = false) (hcatalog : p.catalog.Same catalog)
    (hone : ∀ text, hint n.argv p.cwdRel = some text → OneApp (trimSlashes text) p.catalog.values) :
    searchedApp lib n { p with tasks, catalog } = searchedApp lib n p := by
  rw [searchedApp_eq lib hfuzzy, searchedApp_eq lib (p := { p with tasks, catalog }) hfuzzy]
  change (hint n.argv p.cwdRel).bind _ = _
  cases hhint : hint n.argv p.cwdRel with
  | none => rfl
  | some text =>
    obtain ⟨hnamed, hunder⟩ := hone text hhint
    have happ := find?_eq_of_perm hcatalog.values hnamed
    rw [Option.bind_some, Option.bind_some, ← happ]
    cases hfound : p.catalog.values.find? (isApp (trimSlashes text)) with
    | some app => rfl
    | none =>
      have hnone : ∀ app ∈ p.catalog.values, isApp (trimSlashes text) app = false := fun app happ =>
        Bool.eq_false_iff.mpr (List.find?_eq_none.mp hfound app happ)
      rw [← find?_eq_of_perm hcatalog.values (hunder hnone)]

/-- An app that fits is named in some order. -/
theorem exists_searchedApp (hfuzzy : p.appMatch.fuzzy = false) {text : String}
    (hhint : hint n.argv p.cwdRel = some text)
    {app : App} (happ : app ∈ p.catalog.values) (hfits : isApp (trimSlashes text) app = true ∨
      (∀ app ∈ p.catalog.values, isApp (trimSlashes text) app = false) ∧ isUnder (trimSlashes text) app = true) :
    ∃ catalog, p.catalog.Same catalog ∧ searchedApp lib n { p with catalog } = some app.name := by
  obtain ⟨catalog, hcatalog, rest, hvalues⟩ := HashEntries.exists_first happ
  refine ⟨catalog, hcatalog, ?_⟩
  rw [searchedApp_eq lib (p := { p with catalog }) hfuzzy]
  change (hint n.argv p.cwdRel).bind _ = _
  rw [hhint, Option.bind_some, hvalues]
  rcases hfits with hnamed | ⟨hnone, hunder⟩
  · rw [List.find?_cons_of_pos hnamed]
    rfl
  · have hfound : (app :: rest).find? (isApp (trimSlashes text)) = none := by
      rw [List.find?_eq_none, ← hvalues]
      intro other hother
      rw [hnone other (hcatalog.values.mem_iff.mpr hother)]
      exact Bool.false_ne_true
    rw [hfound, List.find?_cons_of_pos hunder]
    rfl

end Search

section Verdicts

variable (own : OwnBinary) (rules : List (String × CommandRule))

/-- The whole catalog is searched for the app of an invocation: a dev server that no task and no launch claims. -/
structure Searched (p : Project) (inv : Invocation) (n : Known) : Prop where
  foreign : runsOwn inv own = false
  known : known inv = some n
  program : isKnownProgram (basename (n.argv.headD "")) = true
  server : isDevServer n.argv = true
  noTask : ∀ entry ∈ p.tasks.rows, taskHit lib n p 1 entry = none
  noLaunch : ∀ app ∈ p.catalog.values, appHit lib n app = none

/-- Where the whole catalog is searched, one app fits what names it. -/
def Settled (p : Project) (inv : Invocation) : Prop :=
  ∀ n, Searched lib own p inv n → ∀ text, hint n.argv p.cwdRel = some text → OneApp (trimSlashes text) p.catalog.values

/-- The verdict on a command is the same in whatever orders the tasks and apps iterate. -/
def OrderFree (p : Project) (analysis : List Invocation) : Prop :=
  ∀ tasks catalog, p.tasks.Same tasks → p.catalog.Same catalog →
    Verdict.decide lib analysis rules (some { p with tasks, catalog }) own =
      Verdict.decide lib analysis rules (some p) own

/-- No task is the best where none is a hit. -/
theorem bestTask_eq_none {n : Known} {minSig : ℕ} :
    bestTask lib n p minSig = none ↔ ∀ entry ∈ p.tasks.rows, taskHit lib n p minSig entry = none := by
  rw [← List.filterMap_eq_nil_iff]
  unfold bestTask
  dsimp only
  split
  · rename_i hsorted
    exact iff_of_true rfl (mergeSort_eq_nil_iff.mp hsorted)
  · rename_i best rest hsorted
    refine iff_of_false (fun h => ?_) fun h => List.cons_ne_nil _ _ (hsorted.symm.trans (mergeSort_eq_nil_iff.mpr h))
    split at h <;> cases h

/-- No launch is matched where none is a hit. -/
theorem matchingApps_eq_nil {n : Known} :
    matchingApps lib n p = [] ↔ ∀ app ∈ p.catalog.values, appHit lib n app = none := by
  rw [← List.filterMap_eq_nil_iff]
  unfold matchingApps
  dsimp only
  split
  · rename_i hsorted
    exact iff_of_true rfl (mergeSort_eq_nil_iff.mp hsorted)
  · rename_i best rest hsorted
    refine iff_of_false (fun h => ?_) fun h => List.cons_ne_nil _ _ (hsorted.symm.trans (mergeSort_eq_nil_iff.mpr h))
    rw [hsorted, List.takeWhile_cons, beq_self_eq_true] at h
    cases h

/-- What the project says of an invocation is the same in any order where its search is settled. -/
theorem projectVerdict_reordered (hfuzzy : p.appMatch.fuzzy = false) (htasks : p.tasks.Same tasks)
    (hcatalog : p.catalog.Same catalog) {inv : Invocation} (hforeign : runsOwn inv own = false)
    (hsettled : Settled lib own p inv) (verdict : Verdict) :
    projectVerdict lib { p with tasks, catalog } verdict inv = projectVerdict lib p verdict inv := by
  unfold projectVerdict
  cases hknown : known inv with
  | none => simp only [projectCouldClaim_reordered lib hcatalog htasks]
  | some n =>
    have hhit : projectHit lib inv.typed n (basename (n.argv.headD "")) { p with tasks, catalog } =
        projectHit lib inv.typed n (basename (n.argv.headD "")) p := by
      unfold projectHit
      rw [bestTask_reordered lib n hcatalog htasks, matchingApps_reordered lib n hcatalog]
      cases htask : bestTask lib n p (minSignature (basename (n.argv.headD "")) n.argv) with
      | some name =>
        refine congrArg some ?_
        unfold taskMessage
        rw [Configured.taskArgs_reordered hcatalog htasks]
      | none =>
        dsimp only
        rw [narrowedApps_reordered lib n hcatalog]
        by_cases hprogram : isKnownProgram (basename (n.argv.headD "")) = true
        · by_cases hserver : isDevServer n.argv = true
          · by_cases hlaunch : matchingApps lib n p = []
            · have hmin : minSignature (basename (n.argv.headD "")) n.argv = 1 := by
                rw [minSignature, hprogram, hserver]
                rfl
              rw [hmin] at htask
              have hsearched : Searched lib own p inv n :=
                ⟨hforeign, hknown, hprogram, hserver, (bestTask_eq_none lib).mp htask,
                  (matchingApps_eq_nil lib).mp hlaunch⟩
              rw [searchedApp_reordered lib hfuzzy hcatalog (hsettled n hsearched)]
            · simp only [hprogram, hserver, List.isEmpty_eq_false_iff.mpr hlaunch]
              rfl
          · simp only [hprogram, Bool.eq_false_iff.mpr hserver]
            rfl
        · simp only [Bool.eq_false_iff.mpr hprogram]
          rfl
    simp only [hhit]

/-- The verdict is the same in any order where every search is settled. -/
theorem orderFree_of_settled (hfuzzy : p.appMatch.fuzzy = false) {analysis : List Invocation}
    (hsettled : ∀ inv ∈ analysis, Settled lib own p inv) : OrderFree lib own rules p analysis := by
  intro tasks catalog htasks hcatalog
  refine List.foldl_ext _ _ _ fun verdict inv hinv => ?_
  unfold Verdict.check
  cases hown : runsOwn inv own with
  | true => rfl
  | false => exact projectVerdict_reordered lib own hfuzzy htasks hcatalog hown (hsettled inv hinv) _

/-- What the rules block on names a rule. -/
theorem rule_of_mem_rulesVerdict {ownBinary : Bool} {inv : Invocation} {finding : Finding}
    (h : finding ∈ (rulesVerdict rules ownBinary ⟨[], []⟩ inv).blocks) : finding.rule.isSome = true := by
  have hpush {findings : List Finding} {added : Finding} (hfindings : ∀ finding ∈ findings, finding.rule.isSome = true)
      (hadded : added.rule.isSome = true) : ∀ finding ∈ pushOnce findings added, finding.rule.isSome = true := by
    unfold pushOnce
    split
    · exact hfindings
    · exact List.forall_mem_append.mpr ⟨hfindings, List.forall_mem_singleton.mpr hadded⟩
  have hrun : ∀ (entries : List (String × CommandRule)) (state : Verdict × Bool),
      (∀ finding ∈ state.1.blocks, finding.rule.isSome = true) →
        ∀ finding ∈ (entries.foldl (ruleStep inv ownBinary) state).1.blocks, finding.rule.isSome = true := by
    intro entries
    induction entries with
    | nil => exact fun state hstate => hstate
    | cons entry rest ih =>
      intro state hstate
      refine ih _ ?_
      unfold ruleStep
      split
      · split
        · exact hpush hstate rfl
        · exact hstate
      · exact hstate
      · exact hstate
  unfold rulesVerdict at h
  dsimp only at h
  split at h <;> exact hrun _ _ (fun _ hnone => absurd hnone List.not_mem_nil) finding h

/-- A message about an app of the catalog tells which app it is. -/
theorem catalogMessage_inj {typed : List String} {app other : String}
    (h : catalogMessage typed app = catalogMessage typed other) :
    app = other := by
  unfold catalogMessage at h
  rwa [String.append_left_inj, String.append_left_inj, String.append_right_inj] at h

/-- Where the verdict on an invocation is the same in any order, so is the app a search names. -/
theorem searchedApp_of_orderFree {inv : Invocation} {n : Known} (hfree : OrderFree lib own rules p [inv])
    (hsearched : Searched lib own p inv n) (hcatalog : p.catalog.Same catalog) {other : HashEntries String App}
    (hother : p.catalog.Same other) {app app' : String} (happ : searchedApp lib n { p with catalog } = some app)
    (happ' : searchedApp lib n { p with catalog := other } = some app') : app = app' := by
  have hblocks {catalog : HashEntries String App} (hcatalog : p.catalog.Same catalog) {app : String}
      (happ : searchedApp lib n { p with catalog } = some app) :
      (Verdict.decide lib [inv] rules (some { p with catalog }) own).blocks =
        (rulesVerdict rules false ⟨[], []⟩ inv).blocks ++ [⟨none, .error, catalogMessage inv.typed app⟩] := by
    have hhit : projectHit lib inv.typed n (basename (n.argv.headD "")) { p with catalog } =
        some (catalogMessage inv.typed app) := by
      have hmin : minSignature (basename (n.argv.headD "")) n.argv = 1 := by
        rw [minSignature, hsearched.program, hsearched.server]
        rfl
      have htask : bestTask lib n { p with catalog } 1 = none := (bestTask_eq_none lib).mpr hsearched.noTask
      have hlaunch : matchingApps lib n { p with catalog } = [] := by
        rw [matchingApps_reordered lib n (p := p) hcatalog]
        exact (matchingApps_eq_nil lib).mpr hsearched.noLaunch
      unfold projectHit
      rw [hmin, htask, hlaunch, happ]
      simp only [hsearched.program, hsearched.server]
      rfl
    have hnew : (⟨none, .error, catalogMessage inv.typed app⟩ : Finding) ∉
      (rulesVerdict rules false ⟨[], []⟩ inv).blocks :=
      fun hmem => Bool.noConfusion (rule_of_mem_rulesVerdict rules hmem)
    change (Verdict.check lib rules (some { p with catalog }) own ⟨[], []⟩ inv).blocks = _
    unfold Verdict.check projectVerdict
    rw [hsearched.foreign, hsearched.known]
    simp only [hhit]
    exact if_neg hnew
  have hsame := (hfree p.tasks catalog (List.Perm.refl _) hcatalog).trans
    (hfree p.tasks other (List.Perm.refl _) hother).symm
  have hsame := congrArg Verdict.blocks hsame
  rw [hblocks hcatalog happ, hblocks hother happ'] at hsame
  have hmessages := List.singleton_inj.mp (List.append_cancel_left hsame)
  exact catalogMessage_inj (congrArg Finding.message hmessages)

/-- Where the verdict on an invocation is the same in any order, its search is settled. -/
theorem settled_of_orderFree (hfuzzy : p.appMatch.fuzzy = false) {inv : Invocation}
    (hfree : OrderFree lib own rules p [inv]) : Settled lib own p inv := by
  intro n hsearched text hhint
  refine ⟨fun app happ other hother hnamed hnamed' => ?_, fun hnone app happ other hother hunder hunder' => ?_⟩
  · obtain ⟨catalog, hcatalog, hfound⟩ := exists_searchedApp lib hfuzzy hhint happ (Or.inl hnamed)
    obtain ⟨catalog', hcatalog', hfound'⟩ := exists_searchedApp lib hfuzzy hhint hother (Or.inl hnamed')
    exact searchedApp_of_orderFree lib own rules hfree hsearched hcatalog hcatalog' hfound hfound'
  · obtain ⟨catalog, hcatalog, hfound⟩ := exists_searchedApp lib hfuzzy hhint happ (Or.inr ⟨hnone, hunder⟩)
    obtain ⟨catalog', hcatalog', hfound'⟩ := exists_searchedApp lib hfuzzy hhint hother (Or.inr ⟨hnone, hunder'⟩)
    exact searchedApp_of_orderFree lib own rules hfree hsearched hcatalog hcatalog' hfound hfound'

end Verdicts

/-- Without the fuzzy matcher, the verdicts on a command and on any part of it are the same in whatever orders the tasks
and apps iterate exactly where every search of the whole catalog finds one app that fits. -/
theorem orderFree_iff_settled (lib : Libraries) (own : OwnBinary) (rules : List (String × CommandRule)) (p : Project)
    (hfuzzy : p.appMatch.fuzzy = false) (analysis : List Invocation) :
    (∀ part, part.Sublist analysis → OrderFree lib own rules p part) ↔ ∀ inv ∈ analysis, Settled lib own p inv := by
  constructor
  · intro hfree inv hinv
    exact settled_of_orderFree lib own rules hfuzzy (hfree [inv] (List.singleton_sublist.mpr hinv))
  · intro hsettled part hpart
    exact orderFree_of_settled lib own rules hfuzzy fun inv hinv => hsettled inv (hpart.subset hinv)

section Example

/-- Libraries for projects without templates and launches. -/
def plainLibraries : Libraries := ⟨⟨fun _ => some [], fun _ _ => none⟩, fun _ _ _ => [], fun _ => []⟩

/-- No program is devkit's own. -/
def noOwnBinary : OwnBinary := ⟨fun _ _ => false, fun _ _ _ => false⟩

/-- An app, and another in a directory of it, where a command runs in some directory. -/
def nestedProject (cwd : String) : Project :=
  ⟨⟨⟨[], List.nodup_nil⟩, ⟨[("web", ⟨"web", "apps/web", []⟩),
    ("admin", ⟨"admin", "apps/web/admin", []⟩)], by decide⟩, []⟩,
    some cwd, ⟨false, 1, 60⟩⟩

/-- The command `vite`. -/
def viteCommand : Invocation := ⟨.known "vite".toList, [], [], [], ["vite"], none, .inherited⟩

/-- In a directory of the outer app alone the verdict on the command is the same in any order. -/
theorem orderFree_iff_settled_sample :
    OrderFree plainLibraries noOwnBinary [] (nestedProject "apps/web/src") [viteCommand] := by
  refine (orderFree_iff_settled plainLibraries noOwnBinary [] (nestedProject "apps/web/src") rfl [viteCommand]).mpr ?_
    [viteCommand] (List.Sublist.refl _)
  refine List.forall_mem_singleton.mpr fun n hsearched text hhint => ?_
  obtain rfl : (⟨["vite"], none⟩ : Known) = n := Option.some.inj hsearched.known
  obtain rfl : "apps/web/src" = text := Option.some.inj hhint
  exact ⟨by decide +kernel, by decide +kernel⟩

/-- In a directory of the inner app either app is named, the one that comes first. -/
theorem orderFree_nested :
    ¬ OrderFree plainLibraries noOwnBinary [] (nestedProject "apps/web/admin/src") [viteCommand] := by
  intro hfree
  have hsame := hfree (nestedProject "").tasks
    ⟨[("admin", ⟨"admin", "apps/web/admin", []⟩), ("web", ⟨"web", "apps/web", []⟩)], by decide⟩ (List.Perm.refl _)
    (List.Perm.swap _ _ _)
  revert hsame
  decide +kernel

end Example

end Devkit.Guard
