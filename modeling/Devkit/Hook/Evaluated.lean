import Devkit.Hook.Writes

/-!
# Every effect is asked for

The evaluation only ever adds to what it asks for: a path or a check once asked for stays, and a directory
gives way only to one above it. So at the end every effect of the analysis is asked for, and an effect of
unknown target is a finding of the policy.
-/

namespace Devkit.Hook

open Devkit.Common
open Devkit.Library

/-- A directory is spelled at or below another one exactly on one line of segments. -/
theorem under_iff {inner outer : String} : under inner outer = true ↔ Ancestor outer inner := by
  rw [under, ← eq_or_continues_iff]
  by_cases heq : inner = outer
  · subst heq
    simp
  · simp [heq, Ne.symm heq]

/-- The later claims ask for what the earlier ones ask for; a directory may stand for one below it. -/
structure Claims.Within (claims later : Claims) : Prop where
  paths : ∀ path ∈ claims.paths, path ∈ later.paths
  scopes : ∀ check ∈ claims.scopes, check ∈ later.scopes
  trees : ∀ dir ∈ claims.trees, ∃ tree ∈ later.trees, under dir tree = true

namespace Claims.Within

/-- Claims ask for what they ask for. -/
theorem refl (claims : Claims) : claims.Within claims :=
  ⟨fun _ h => h, fun _ h => h, fun dir h => ⟨dir, h, under_iff.mpr (AtOrAbove.refl '/' _)⟩⟩

/-- Asking for more twice is asking for more. -/
theorem trans {claims middle later : Claims} (h : claims.Within middle) (hlater : middle.Within later) :
    claims.Within later := by
  refine ⟨fun path hpath => hlater.paths path (h.paths path hpath),
    fun check hcheck => hlater.scopes check (h.scopes check hcheck), fun dir hdir => ?_⟩
  obtain ⟨tree, htree, hunder⟩ := h.trees dir hdir
  obtain ⟨top, htop, habove⟩ := hlater.trees tree htree
  exact ⟨top, htop, under_iff.mpr (AtOrAbove.trans (under_iff.mp habove) (under_iff.mp hunder))⟩

end Claims.Within

section Asking

variable (claims : Claims)

/-- A path asked for is among the paths. -/
theorem mem_path (path : String) : path ∈ (claims.path path).paths := by
  rw [Claims.path]
  split
  · rename_i hmem
    exact List.contains_iff_mem.mp hmem
  · exact List.mem_append_right _ List.mem_cons_self

/-- Asking for a path drops nothing. -/
theorem within_path (path : String) : claims.Within (claims.path path) := by
  rw [Claims.path]
  split
  · exact .refl claims
  · exact ⟨fun _ h => List.mem_append_left _ h, fun _ h => h, (Claims.Within.refl claims).trees⟩

/-- A check asked for is among the checks. -/
theorem mem_scope (check : ScopeCheck) : check ∈ (claims.scope check).scopes := by
  rw [Claims.scope]
  split
  · rename_i hmem
    exact List.contains_iff_mem.mp hmem
  · exact List.mem_append_right _ List.mem_cons_self

/-- Asking for a check drops nothing. -/
theorem within_scope (check : ScopeCheck) : claims.Within (claims.scope check) := by
  rw [Claims.scope]
  split
  · exact .refl claims
  · exact ⟨fun _ h => h, fun _ h => List.mem_append_left _ h, (Claims.Within.refl claims).trees⟩

/-- Asking for a path asks for no directory. -/
@[simp] theorem trees_path (path : String) : (claims.path path).trees = claims.trees := by
  rw [Claims.path]
  split <;> rfl

/-- Asking for a check asks for no directory. -/
@[simp] theorem trees_scope (check : ScopeCheck) : (claims.scope check).trees = claims.trees := by
  rw [Claims.scope]
  split <;> rfl

/-- A directory asked for is spelled under one of the directories. -/
theorem mem_tree (dir : String) : ∃ tree ∈ (claims.tree dir).trees, under dir tree = true := by
  rw [Claims.tree]
  split
  · rename_i hany
    exact List.any_eq_true.mp hany
  · exact ⟨dir, List.mem_append_right _ List.mem_cons_self, under_iff.mpr (AtOrAbove.refl '/' _)⟩

/-- Asking for a directory drops none that it does not stand for. -/
theorem within_tree (dir : String) : claims.Within (claims.tree dir) := by
  rw [Claims.tree]
  split
  · exact .refl claims
  · refine ⟨fun _ h => h, fun _ h => h, fun tree htree => ?_⟩
    by_cases hunder : under tree dir = true
    · exact ⟨dir, List.mem_append_right _ List.mem_cons_self, hunder⟩
    · refine ⟨tree, List.mem_append_left _ (List.mem_filter.mpr ⟨htree, by simpa using hunder⟩), ?_⟩
      exact under_iff.mpr (AtOrAbove.refl '/' _)

/-- The directories after asking for one are it and those before. -/
theorem of_mem_tree {dir tree : String} (h : tree ∈ (claims.tree dir).trees) : tree = dir ∨ tree ∈ claims.trees := by
  rw [Claims.tree] at h
  split at h
  · exact Or.inr h
  · rcases List.mem_append.mp h with hold | hnew
    · exact Or.inr (List.mem_filter.mp hold).1
    · exact Or.inl (List.mem_singleton.mp hnew)

end Asking

/-- The claims ask for the effect, as far as it needs asking for. -/
def FileEffect.Asked (claims : Claims) (effect : FileEffect) : Prop :=
  match effect.target with
  | .unresolved => True
  | .path path => (effect.op = .permissions → .covering path ∈ claims.scopes) ∧
      (effect.op ≠ .permissions → path ∈ claims.paths)
  | .within dir => (effect.op = .permissions → .tree dir false ∈ claims.scopes) ∧
      (effect.op ≠ .permissions → ∃ tree ∈ claims.trees, under dir tree = true)
  | .ephemeral place => effect.op ≠ .permissions → ∀ dir, place.named = some dir → .fresh dir ∈ claims.scopes

/-- Claims that ask for more ask for the effect. -/
theorem FileEffect.Asked.mono {claims later : Claims} (h : claims.Within later) {effect : FileEffect}
    (hasked : effect.Asked claims) : effect.Asked later := by
  obtain ⟨op, target⟩ := effect
  cases target with
  | unresolved => trivial
  | path path =>
    exact ⟨fun hop => h.scopes _ (hasked.1 hop), fun hop => h.paths path (hasked.2 hop)⟩
  | within dir =>
    refine ⟨fun hop => h.scopes _ (hasked.1 hop), fun hop => ?_⟩
    obtain ⟨tree, htree, hunder⟩ := hasked.2 hop
    obtain ⟨top, htop, habove⟩ := h.trees tree htree
    exact ⟨top, htop, under_iff.mpr (AtOrAbove.trans (under_iff.mp habove) (under_iff.mp hunder))⟩
  | ephemeral place => exact fun hop dir hdir => h.scopes _ (hasked hop dir hdir)

/-- The check a tree effect asks for. -/
def TreeEffect.check (tree : TreeEffect) : ScopeCheck :=
  match tree.reach with
  | .all => .tree tree.scope tree.wholeCheckout
  | .freshSubtree => .fresh tree.scope

/-- What one part of the evaluation does: it asks for more, and keeps the findings. -/
structure Evaluation.Grows (e later : Evaluation) : Prop where
  claims : e.claims.Within later.claims
  blocks : e.verdict.blocks <+: later.verdict.blocks

namespace Evaluation

/-- Recording a finding keeps the others. -/
theorem prefix_finding (verdict : WriteVerdict) (action : PolicyAction) (message : String) :
    verdict.blocks <+: (verdict.finding action message).blocks := by
  cases action with
  | block => exact List.prefix_append _ _
  | warn | allow => exact List.prefix_refl _

/-- Growing twice is growing. -/
theorem Grows.trans {e middle later : Evaluation} (h : e.Grows middle) (hlater : middle.Grows later) :
    e.Grows later :=
  ⟨h.claims.trans hlater.claims, h.blocks.trans hlater.blocks⟩

/-- Recording a finding grows. -/
theorem grows_finding (e : Evaluation) (action : PolicyAction) (message : String) :
    e.Grows (e.finding action message) :=
  ⟨.refl e.claims, prefix_finding e.verdict action message⟩

/-- An evaluation grows into itself. -/
theorem Grows.refl (e : Evaluation) : e.Grows e := ⟨.refl e.claims, List.prefix_refl _⟩

/-- Asking for more keeps the findings. -/
theorem grows_claims {e : Evaluation} {claims : Claims} (h : e.claims.Within claims) :
    e.Grows { e with claims } :=
  ⟨h, List.prefix_refl _⟩

section Effect

variable (policy : HarnessPolicy) (e : Evaluation) (op : FileOp)

/-- What a write to one path asks for. -/
theorem fileEffect_path (path : String) : e.fileEffect policy ⟨op, .path path⟩ =
    { e with claims := if op = .permissions then e.claims.scope (.covering path) else e.claims.path path } := by
  change (if op = .permissions then _ else _) = _
  split <;> rfl

/-- What a bounded write asks for. -/
theorem fileEffect_within (dir : String) : e.fileEffect policy ⟨op, .within dir⟩ =
    { e with claims := if op = .permissions then e.claims.scope (.tree dir false) else e.claims.tree dir } := by
  change (if op = .permissions then _ else _) = _
  split <;> rfl

/-- What a fresh name asks for. -/
theorem fileEffect_ephemeral (place : TempLocation) : e.fileEffect policy ⟨op, .ephemeral place⟩ =
    { e with claims := if op = .permissions then e.claims else
        match place with
        | .systemTemp => e.claims
        | .inside dir => e.claims.scope (.fresh dir) } := by
  change (if op = .permissions then _ else _) = _
  cases place <;> split <;> rfl

end Effect

/-- A file effect is asked for, and nothing asked for before is dropped. -/
theorem fileEffect_asked (policy : HarnessPolicy) (e : Evaluation) (effect : FileEffect) :
    e.Grows (e.fileEffect policy effect) ∧ effect.Asked (e.fileEffect policy effect).claims := by
  obtain ⟨op, target⟩ := effect
  cases target with
  | unresolved => exact ⟨grows_finding e _ _, trivial⟩
  | path path =>
    rw [fileEffect_path]
    by_cases hop : op = .permissions
    · rw [if_pos hop]
      exact ⟨grows_claims (within_scope _ _), fun _ => mem_scope _ _, fun hne => absurd hop hne⟩
    · rw [if_neg hop]
      exact ⟨grows_claims (within_path _ _), fun heq => absurd heq hop, fun _ => mem_path _ _⟩
  | within dir =>
    rw [fileEffect_within]
    by_cases hop : op = .permissions
    · rw [if_pos hop]
      exact ⟨grows_claims (within_scope _ _), fun _ => mem_scope _ _, fun hne => absurd hop hne⟩
    · rw [if_neg hop]
      exact ⟨grows_claims (within_tree _ _), fun heq => absurd heq hop, fun _ => mem_tree _ _⟩
  | ephemeral place =>
    rw [fileEffect_ephemeral]
    by_cases hop : op = .permissions
    · rw [if_pos hop]
      exact ⟨.refl e, fun hne => absurd hop hne⟩
    · rw [if_neg hop]
      cases place with
      | systemTemp => exact ⟨.refl e, fun _ dir hdir => by cases hdir⟩
      | inside dir =>
        refine ⟨grows_claims (within_scope _ _), fun _ other hother => ?_⟩
        obtain rfl := Option.some.inj hother
        exact mem_scope _ _

/-- An effect of unknown target is a block where the policy blocks. -/
theorem fileEffect_unresolved {policy : HarnessPolicy} (hpolicy : policy.unresolvedWrites = .block)
    (e : Evaluation) {effect : FileEffect} (htarget : effect.target = .unresolved) :
    (e.fileEffect policy effect).verdict.blocks ≠ [] := by
  rw [fileEffect, htarget, finding, hpolicy]
  exact List.append_ne_nil_of_right_ne_nil _ (List.cons_ne_nil _ _)

/-- The directories asked for whole are those before and the effect's own. -/
theorem of_mem_trees_fileEffect {policy : HarnessPolicy} {e : Evaluation} {effect : FileEffect} {tree : String}
    (h : tree ∈ (e.fileEffect policy effect).claims.trees) :
    effect.op ≠ .permissions ∧ effect.target = .within tree ∨ tree ∈ e.claims.trees := by
  obtain ⟨op, target⟩ := effect
  cases target with
  | unresolved => exact Or.inr h
  | path path =>
    rw [fileEffect_path] at h
    by_cases hop : op = .permissions
    · rw [if_pos hop, trees_scope] at h
      exact Or.inr h
    · rw [if_neg hop, trees_path] at h
      exact Or.inr h
  | within dir =>
    rw [fileEffect_within] at h
    by_cases hop : op = .permissions
    · rw [if_pos hop, trees_scope] at h
      exact Or.inr h
    · rw [if_neg hop] at h
      refine (of_mem_tree _ h).imp (fun heq => ⟨hop, ?_⟩) id
      rw [heq]
  | ephemeral place =>
    rw [fileEffect_ephemeral] at h
    by_cases hop : op = .permissions
    · rw [if_pos hop] at h
      exact Or.inr h
    · rw [if_neg hop] at h
      cases place with
      | systemTemp => exact Or.inr h
      | inside dir =>
        rw [trees_scope] at h
        exact Or.inr h

/-- What is asked for once the file effects are done. -/
structure FilesAsked (effects : List FileEffect) (e later : Evaluation) : Prop where
  grows : e.Grows later
  asked : ∀ effect ∈ effects, effect.Asked later.claims
  trees : ∀ tree ∈ later.claims.trees,
    (∃ effect ∈ effects, effect.op ≠ .permissions ∧ effect.target = .within tree) ∨ tree ∈ e.claims.trees

/-- The file effects are asked for, one after the other. -/
theorem filesAsked_foldl (policy : HarnessPolicy) (effects : List FileEffect) (e : Evaluation) :
    FilesAsked effects e (effects.foldl (fileEffect policy) e) := by
  induction effects generalizing e with
  | nil => exact ⟨.refl e, fun _ h => absurd h List.not_mem_nil, fun _ h => Or.inr h⟩
  | cons effect rest ih =>
    obtain ⟨hgrows, hasked⟩ := fileEffect_asked policy e effect
    have hrest := ih (e.fileEffect policy effect)
    rw [List.foldl_cons]
    refine ⟨hgrows.trans hrest.grows, fun other hother => ?_, fun tree htree => ?_⟩
    · cases List.mem_cons.mp hother with
      | inl heq => exact heq ▸ hasked.mono hrest.grows.claims
      | inr hmem => exact hrest.asked other hmem
    · cases hrest.trees tree htree with
      | inl hlater =>
        obtain ⟨other, hmem, hop⟩ := hlater
        exact Or.inl ⟨other, List.mem_cons_of_mem _ hmem, hop⟩
      | inr hbefore =>
        exact (of_mem_trees_fileEffect hbefore).imp (fun hop => ⟨effect, List.mem_cons_self, hop⟩) id

/-- Where the policy blocks and no block was found, no effect has an unknown target. -/
theorem resolved_of_blocks_nil {policy : HarnessPolicy} (hpolicy : policy.unresolvedWrites = .block)
    {effects : List FileEffect} {e : Evaluation}
    (hblocks : (effects.foldl (fileEffect policy) e).verdict.blocks = []) :
    ∀ effect ∈ effects, effect.target ≠ .unresolved := by
  induction effects generalizing e with
  | nil => exact fun _ h => absurd h List.not_mem_nil
  | cons effect rest ih =>
    intro other hother htarget
    cases List.mem_cons.mp hother with
    | inl heq =>
      subst heq
      have hprefix := (filesAsked_foldl policy rest (e.fileEffect policy other)).grows.blocks
      rw [← List.foldl_cons, hblocks] at hprefix
      exact fileEffect_unresolved hpolicy e htarget (List.prefix_nil.mp hprefix)
    | inr hmem => exact ih hblocks other hmem htarget

/-- The tree effects are asked for, one after the other. -/
theorem treesAsked_foldl (trees : List TreeEffect) (e : Evaluation) :
    e.Grows (trees.foldl treeEffect e) ∧ (trees.foldl treeEffect e).claims.trees = e.claims.trees ∧
      ∀ tree ∈ trees, tree.check ∈ (trees.foldl treeEffect e).claims.scopes := by
  induction trees generalizing e with
  | nil => exact ⟨.refl e, rfl, fun _ h => absurd h List.not_mem_nil⟩
  | cons tree rest ih =>
    have hfirst : e.Grows (e.treeEffect tree) := grows_claims (within_scope _ _)
    obtain ⟨hgrows, htrees, hasked⟩ := ih (e.treeEffect tree)
    rw [List.foldl_cons]
    refine ⟨hfirst.trans hgrows, htrees.trans (trees_scope _ _), fun other hother => ?_⟩
    cases List.mem_cons.mp hother with
    | inl heq => exact hgrows.claims.scopes _ (heq ▸ mem_scope e.claims tree.check)
    | inr hmem => exact hasked other hmem

/-- Findings change no claims. -/
theorem findings_foldl {A : Type} (find : Evaluation → A → Evaluation)
    (hfind : ∀ e a, (find e a).claims = e.claims ∧ e.verdict.blocks <+: (find e a).verdict.blocks)
    (found : List A) (e : Evaluation) : (found.foldl find e).claims = e.claims ∧
      e.verdict.blocks <+: (found.foldl find e).verdict.blocks := by
  induction found generalizing e with
  | nil => exact ⟨rfl, List.prefix_refl _⟩
  | cons a rest ih =>
    obtain ⟨hclaims, hblocks⟩ := ih (find e a)
    exact ⟨hclaims.trans (hfind e a).1, (hfind e a).2.trans hblocks⟩

/-- The findings recorded last change no claims. -/
theorem evaluate_tail (policy : HarnessPolicy) (uncertainties : List Uncertainty) (scripts : List Value)
    (e : Evaluation) :
    (scripts.foldl (scriptFile policy) (uncertainties.foldl (uncertainty policy) e)).claims = e.claims ∧
      e.verdict.blocks <+: (scripts.foldl (scriptFile policy)
        (uncertainties.foldl (uncertainty policy) e)).verdict.blocks := by
  have huncertain := findings_foldl (uncertainty policy) (fun e u => by
    unfold uncertainty
    split <;> exact ⟨rfl, prefix_finding _ _ _⟩) uncertainties e
  have hscripts := findings_foldl (scriptFile policy) (fun _ _ => ⟨rfl, prefix_finding _ _ _⟩) scripts
    (uncertainties.foldl (uncertainty policy) e)
  exact ⟨hscripts.1.trans huncertain.1, huncertain.2.trans hscripts.2⟩

end Evaluation

/-- What an analysis asks of the gate: every effect, and no directory but those of its bounded writes. -/
structure AllAsked (analysis : Analysis) (claims : Claims) : Prop where
  files : ∀ effect ∈ analysis.fileEffects, effect.Asked claims
  trees : ∀ tree ∈ analysis.treeEffects, tree.check ∈ claims.scopes
  bounds : ∀ tree ∈ claims.trees,
    ∃ effect ∈ analysis.fileEffects, effect.op ≠ .permissions ∧ effect.target = .within tree

/-- The evaluation asks for every effect, and finds those of unknown target. -/
theorem evaluate_asks (analysis : Analysis) (policy : HarnessPolicy) :
    AllAsked analysis (evaluate analysis policy).claims ∧
      (policy.unresolvedWrites = .block → (evaluate analysis policy).verdict.blocks = [] →
        ∀ effect ∈ analysis.fileEffects, effect.target ≠ .unresolved) := by
  set start : Evaluation := ⟨⟨[], []⟩, Claims.empty⟩ with hstart
  have hfiles := Evaluation.filesAsked_foldl policy analysis.fileEffects start
  set files := analysis.fileEffects.foldl (Evaluation.fileEffect policy) start with hfilesEq
  obtain ⟨hgrows, htrees, hasked⟩ := Evaluation.treesAsked_foldl analysis.treeEffects files
  set trees := analysis.treeEffects.foldl Evaluation.treeEffect files
  obtain ⟨hclaims, hblocks⟩ := Evaluation.evaluate_tail policy analysis.uncertainties analysis.scriptFiles trees
  have hevaluate : evaluate analysis policy = analysis.scriptFiles.foldl (Evaluation.scriptFile policy)
      (analysis.uncertainties.foldl (Evaluation.uncertainty policy) trees) := rfl
  rw [hevaluate, hclaims]
  refine ⟨⟨fun effect hmem => (hfiles.asked effect hmem).mono hgrows.claims, hasked, fun tree htree => ?_⟩,
    fun hpolicy hnone => ?_⟩
  · rw [htrees] at htree
    exact (hfiles.trees tree htree).resolve_right List.not_mem_nil
  · have hprefix := hgrows.blocks.trans hblocks
    rw [hnone] at hprefix
    exact Evaluation.resolved_of_blocks_nil hpolicy (List.prefix_nil.mp hprefix)

end Devkit.Hook
