import Devkit.Config.TodoScopes
import Devkit.Config.TemplateRead
import Devkit.Todos.Item

/-!
# Filling scopes and what a caller sees

A scope is filled with the caller's values, going up to its parents where they do not fill it. A role sees the node it
writes to, those of the scopes above, and below its own node the nodes of the caller's session. The way up a validated
tree ends, so whatever role there is sees something.
-/

namespace Devkit.Todos

open Devkit.Config
open Devkit.Library
open Std

/-- The caller's sanitized identity. -/
structure Facts where
  values : Values

/-- A way to match nodes. -/
inductive NodeMatch
  | exact (node : String)
  | subtree (node : String)
  | sessionDescendants (node session : String) (templates : List Template)
deriving DecidableEq

/-- Which nodes a listing covers. -/
structure Filter where
  nodes : List NodeMatch
deriving DecidableEq

/-- What follows a node in one that starts with it. -/
def restOf (node top : String) : Option (List Char) := node.toList.dropPrefix? top.toList

/-- Whether a node is one that is matched. -/
def NodeMatch.covers (node : String) : NodeMatch → Bool
  | .exact n => node == n
  | .subtree n =>
    n.isEmpty || (restOf node n).any fun rest => rest.isEmpty || rest.head? == some '.'
  | .sessionDescendants own session templates =>
    (restOf node own).any (fun rest => rest.head? == some '.') &&
      templates.any fun template =>
        (template.read node).any fun values => values["session"]? == some session

/-- Whether a todo is covered, by its project. -/
def Filter.matchesProject (filter : Filter) (project : Option String) : Bool :=
  filter.nodes.any (NodeMatch.covers (project.getD globalNode))

/-- A validated scope tree and its roles. -/
structure Layout where
  config : TodoConfig
  templates : ExtTreeMap String Template

/-- Why a scope is not filled: the last two are an index out of range, and a way up longer than the scopes. -/
inductive LayoutError
  | unknownScope (name : String) (valid : List String)
  | rootCannotFill (name : String)
  | unknownRole (name : String)
  | outOfRange
  | unending
deriving DecidableEq

namespace Layout

/-- The template of one scope. -/
def parseScope (row : String × ScopeConfig) : Except TodoError (String × Template) := do
  let template ← (Template.parse row.2.node).mapError (.node row.1)
  .ok (row.1, template)

/-- The layout of a configuration that is valid. -/
def new (config : TodoConfig) : Except TodoError Layout := do
  config.validate
  let templates ← config.scopes.toList.mapM parseScope
  .ok ⟨config, ExtTreeMap.ofList templates⟩

variable (layout : Layout) (facts : Facts)

/-- The first scope on the way up that the caller's values fill, with its node. -/
def filledScope : ℕ → String → Except LayoutError (String × String)
  | 0, _ => .error .unending
  | bound + 1, here =>
    match layout.config.scopes[here]? with
    | none => .error (.unknownScope here layout.config.scopes.keys)
    | some scope =>
      match layout.templates[here]? with
      | none => .error .outOfRange
      | some template =>
        match template.fill facts.values with
        | some node => .ok (here, node)
        | none =>
          match scope.parent with
          | none => .error (.rootCannotFill here)
          | some parent => filledScope bound parent

/-- The scope a caller writes to for a scope, with its node. -/
def filled (scope : String) : Except LayoutError (String × String) :=
  layout.filledScope facts layout.config.scopes.size scope

/-- The node a caller writes to for a scope. -/
def fill (scope : String) : Except LayoutError String := (layout.filled facts scope).map Prod.snd

/-- The nodes of the scopes on the way up, after the ones already found. -/
def parentNodes : ℕ → Option String → List NodeMatch → Except LayoutError (List NodeMatch)
  | _, none, nodes => .ok nodes
  | 0, some _, _ => .error .unending
  | bound + 1, some scope, nodes => do
    let node ← layout.fill facts scope
    let nodes := if .exact node ∈ nodes then nodes else nodes ++ [.exact node]
    match layout.config.scopes[scope]? with
    | none => .error .outOfRange
    | some config => parentNodes bound config.parent nodes

/-- What a caller sees in a role. -/
def visible (role : String) : Except LayoutError Filter :=
  match layout.config.roles[role]? with
  | none => .error (.unknownRole role)
  | some config => do
    let (scope, own) ← layout.filled facts config.scope
    match layout.config.scopes[scope]? with
    | none => .error .outOfRange
    | some config => do
      let nodes ← layout.parentNodes facts layout.config.scopes.size config.parent [.exact own]
      .ok ⟨match facts.values["session"]? with
        | some session => nodes ++ [.sessionDescendants own session (rows layout.templates)]
        | none => nodes⟩

/-- Whether the values of a node are of the caller's session, where they have a session. -/
def ofCaller (session : String) (values : Values) (found : String) : Bool :=
  found == session && values["harness"]?.all fun harness => facts.values["harness"]? == some harness

/-- Whether the templates left identify a session other than the caller's, when those before them did or not. -/
def otherAmong (session project : String) : List Template → Bool → Bool
  | [], other => other
  | template :: rest, other =>
    match template.read project with
    | none => otherAmong session project rest other
    | some values =>
      match values["session"]? with
      | none => otherAmong session project rest other
      | some found => if ofCaller facts session values found then false else otherAmong session project rest true

/-- Whether a configured template identifies a session other than the caller's. -/
def isOtherSession (project : String) : Bool :=
  match facts.values["session"]? with
  | none => false
  | some session => otherAmong facts session project (rows layout.templates) false

/-- Whether a role of the caller covers a project. -/
def callerSees (project role : String) : Bool :=
  match layout.visible facts role with
  | .ok filter => filter.matchesProject (some project)
  | .error _ => false

/-- The node of the repository scope, where it fills as itself. -/
def wideRoot : Option String := layout.templates["repo"]?.bind fun template => template.fill facts.values

/-- Whether a node reads as one of a scope. -/
def readsAs (project scope : String) : Bool :=
  layout.templates[scope]?.any fun template => (template.read project).isSome

/-- Whether a todo is inside the ticket at a root, for the caller's role. -/
def offered (project : Option String) (root role : String) : Bool :=
  match project with
  | none => false
  | some project =>
    if project == root then true
    else if (restOf project (root ++ ".")).isNone || layout.isOtherSession facts project then false
    else if layout.callerSees facts project role then true
    else layout.wideRoot facts == some root && layout.readsAs project "workspace"

end Layout

end Devkit.Todos
