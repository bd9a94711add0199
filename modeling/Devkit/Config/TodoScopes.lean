import Devkit.Config.Template
import Devkit.Library.Unvisited

/-!
# The scope tree and its roles

Scopes are named templates under one root, and a role writes to a scope. A configuration is taken only when every
template parses, every parent exists and no way up comes back to where it was.
-/

namespace Devkit.Config

open Devkit.Library
open Std

/-- A named todo node template in the scope tree. -/
structure ScopeConfig where
  node : String
  parent : Option String
deriving DecidableEq

/-- A caller's workflow role. -/
structure RoleConfig where
  scope : String
  parent : Option String
  agentTypes : List String
deriving DecidableEq

/-- The scopes and roles of the todo section. -/
structure TodoConfig where
  scopes : ExtTreeMap String ScopeConfig
  roles : ExtTreeMap String RoleConfig

/-- Why the scopes and roles are refused. -/
inductive TodoError
  | node (scope : String) (reason : TemplateError)
  | missingScopeParent (scope parent : String)
  | rootPlaceholders (scope : String)
  | scopeCycle (scope current : String)
  | notOneTree
  | missingScope (role scope : String)
  | missingRoleParent (role parent : String)
  | roleCycle (role current : String)
  | claimedTwice (agentType other role : String)
deriving DecidableEq

namespace TodoConfig

variable (config : TodoConfig)

/-- The parent of a scope, if there is the scope and it has one. -/
def parentScope (name : String) : Option String := config.scopes[name]?.bind ScopeConfig.parent

/-- The parent of a role, if there is the role and it has one. -/
def parentRole (name : String) : Option String := config.roles[name]?.bind RoleConfig.parent

/-- Only a scope has a parent scope. -/
theorem mem_scopes_of_parentScope (name parent : String) (h : config.parentScope name = some parent) :
    name ∈ config.scopes.keys := by
  obtain ⟨scope, hscope, -⟩ := Option.bind_eq_some_iff.mp h
  rw [ExtTreeMap.mem_keys, ExtTreeMap.mem_iff_isSome_getElem?, hscope]
  rfl

/-- Only a role has a parent role. -/
theorem mem_roles_of_parentRole (name parent : String) (h : config.parentRole name = some parent) :
    name ∈ config.roles.keys := by
  obtain ⟨role, hrole, -⟩ := Option.bind_eq_some_iff.mp h
  rw [ExtTreeMap.mem_keys, ExtTreeMap.mem_iff_isSome_getElem?, hrole]
  rfl

/-- The scope that a way up through the parents of a scope comes back to. -/
def scopeCycle (name : String) : Option String :=
  revisited config.parentScope config.scopes.keys config.mem_scopes_of_parentScope [] (some name)

/-- The role that a way up through the parents of a role comes back to. -/
def roleCycle (name : String) : Option String :=
  revisited config.parentRole config.roles.keys config.mem_roles_of_parentRole [] (some name)

/-- The roots after one scope, whose parent exists or whose node is fixed. -/
def checkParent (roots : List String) (name : String) (scope : ScopeConfig) (template : Template) :
    Except TodoError (List String) :=
  match scope.parent with
  | some parent => if parent ∉ config.scopes then .error (.missingScopeParent name parent) else .ok roots
  | none =>
    if (names template.segments.flatten).isEmpty then .ok (roots ++ [name]) else .error (.rootPlaceholders name)

/-- One scope, after the roots already found. -/
def checkScope (roots : List String) (row : String × ScopeConfig) : Except TodoError (List String) := do
  let (name, scope) := row
  let template ← (Template.parse scope.node).mapError (.node name)
  let roots ← config.checkParent roots name scope template
  match config.scopeCycle name with
  | some current => .error (.scopeCycle name current)
  | none => .ok roots

/-- One agent type of a role, after the types already claimed. -/
def claimType (name : String) (types : ExtTreeMap String String) (agentType : String) :
    Except TodoError (ExtTreeMap String String) :=
  match types[agentType]? with
  | some other =>
    if other ≠ name then .error (.claimedTwice agentType other name) else .ok (types.insert agentType name)
  | none => .ok (types.insert agentType name)

/-- One role, after the agent types already claimed. -/
def checkRole (types : ExtTreeMap String String) (row : String × RoleConfig) :
    Except TodoError (ExtTreeMap String String) := do
  let (name, role) := row
  if role.scope ∉ config.scopes then throw (.missingScope name role.scope)
  match role.parent with
  | some parent => if parent ∉ config.roles then throw (.missingRoleParent name parent)
  | none => pure ()
  match config.roleCycle name with
  | some current => throw (.roleCycle name current)
  | none => role.agentTypes.foldlM (claimType name) types

/-- Whether the scopes form one tree, the roles write to scopes of it, and no agent type has two roles. -/
def validate : Except TodoError Unit := do
  let roots ← config.scopes.toList.foldlM config.checkScope []
  if roots.length ≠ 1 then throw .notOneTree
  let _ ← config.roles.toList.foldlM config.checkRole ∅
  pure ()

end TodoConfig

/-- What validation makes sure of about one scope. -/
structure ValidScope (config : TodoConfig) (name : String) (scope : ScopeConfig) : Prop where
  parses : ∃ template, Template.parse scope.node = .ok template ∧
    (scope.parent = none → names template.segments.flatten = [])
  parent : ∀ parent, scope.parent = some parent → parent ∈ config.scopes
  uncycled : config.scopeCycle name = none

namespace TodoConfig

variable {config : TodoConfig}

/-- A scope that passes its check is valid. -/
theorem validScope_of_checkScope {roots roots' : List String} {name : String} {scope : ScopeConfig}
    (h : config.checkScope roots (name, scope) = .ok roots') : ValidScope config name scope := by
  obtain ⟨template, htemplate, h⟩ := bind_eq_ok.mp h
  obtain ⟨found, hfound, h⟩ := bind_eq_ok.mp h
  have hparse : Template.parse scope.node = .ok template := mapError_eq_ok.mp htemplate
  have huncycled : config.scopeCycle name = none := by
    cases hcycle : config.scopeCycle name with
    | none => rfl
    | some current =>
      rw [hcycle] at h
      cases h
  cases hparent : scope.parent with
  | none =>
    simp only [checkParent, hparent] at hfound
    split at hfound
    · rename_i hempty
      exact ⟨⟨template, hparse, fun _ => List.isEmpty_iff.mp hempty⟩, by simp [hparent], huncycled⟩
    · contradiction
  | some parent =>
    simp only [checkParent, hparent] at hfound
    split at hfound
    · contradiction
    · rename_i hmem
      refine ⟨⟨template, hparse, by simp [hparent]⟩, fun other hother => ?_, huncycled⟩
      obtain rfl := Option.some.inj (hparent.symm.trans hother)
      exact not_not.mp hmem

/-- Every scope of a validated configuration is valid. -/
theorem validScope_of_validate (h : config.validate = .ok ()) {name : String} {scope : ScopeConfig}
    (hscope : config.scopes[name]? = some scope) : ValidScope config name scope := by
  obtain ⟨roots, hroots, -⟩ := bind_eq_ok.mp h
  obtain ⟨i, hi⟩ := List.getElem?_of_mem (ExtTreeMap.mem_toList_iff_getElem?_eq_some.mpr hscope)
  obtain ⟨before, after, -, hstep, -⟩ := foldlM_split hi hroots
  exact validScope_of_checkScope hstep

/-- A role of a validated configuration writes to a scope of it. -/
theorem scope_of_validate (h : config.validate = .ok ()) {name : String} {role : RoleConfig}
    (hrole : config.roles[name]? = some role) : role.scope ∈ config.scopes := by
  obtain ⟨roots, -, h⟩ := bind_eq_ok.mp h
  split at h
  · contradiction
  · obtain ⟨types, htypes, -⟩ := bind_eq_ok.mp h
    obtain ⟨i, hi⟩ := List.getElem?_of_mem (ExtTreeMap.mem_toList_iff_getElem?_eq_some.mpr hrole)
    obtain ⟨before, after, -, hstep, -⟩ := foldlM_split hi htypes
    by_contra hmem
    simp only [checkRole, hmem, not_false_eq_true, if_true] at hstep
    cases hstep

end TodoConfig

end Devkit.Config
