import Devkit.Hook.Gate

/-!
# What a command's analysis asks of the gate

A command's analysis lists the files it writes, the trees it rewrites and what could not be determined.
The evaluation turns it into claims and into the findings of the policy that no claim stands for.
-/

namespace Devkit.Hook

/-- What a command does to a file. -/
inductive FileOp
  | create
  | overwrite
  | append
  | delete
  | rename
  | copy
  | permissions
deriving DecidableEq

/-- Where a fresh entry was created under a random name. -/
inductive TempLocation
  | systemTemp
  | inside (dir : String)
deriving DecidableEq

/-- The directory the caller named, when it named one. -/
def TempLocation.named : TempLocation → Option String
  | .systemTemp => none
  | .inside dir => some dir

/-- What an effect writes: a path, something unknown, a fresh name, or some paths under a directory. -/
inductive Target
  | path (path : String)
  | unresolved
  | ephemeral (place : TempLocation)
  | within (dir : String)
deriving DecidableEq

/-- One effect on a file. -/
structure FileEffect where
  op : FileOp
  target : Target
deriving DecidableEq

/-- Which paths under a tree writer's scope it can reach. -/
inductive TreeReach
  | all
  | freshSubtree
deriving DecidableEq

/-- One effect on a tree. -/
structure TreeEffect where
  scope : String
  reach : TreeReach
  wholeCheckout : Bool
deriving DecidableEq

/-- A value of a command, as far as it is known. -/
inductive Value
  | known (text : String)
  | unknown
  | ephemeral (place : TempLocation)
  | within (dir : String)
  | prefixed (text : String)
deriving DecidableEq

/-- Why an effect may be missing from the analysis. -/
inductive UncertaintyKind
  | unresolvedWrite
  | unsupportedLanguage (language : String)
  | parseError
  | limitExhausted
  | unresolvedInvocation
deriving DecidableEq

/-- Something the analysis could not determine. -/
structure Uncertainty where
  kind : UncertaintyKind
  detail : String
deriving DecidableEq

/-- The parts of an analysis the evaluation reads; of each stored script, the script's value. -/
structure Analysis where
  fileEffects : List FileEffect
  treeEffects : List TreeEffect
  scriptFiles : List Value
  uncertainties : List Uncertainty
deriving DecidableEq

/-- The policy keys the evaluation reads. -/
structure HarnessPolicy where
  unresolvedWrites : PolicyAction
  unsupportedLanguage : PolicyAction
  scriptFiles : PolicyAction
deriving DecidableEq

/-- The findings of the policy and the claims for the gate. -/
structure Evaluation where
  verdict : WriteVerdict
  claims : Claims
deriving DecidableEq

/-- What a file operation is called. -/
def opName : FileOp → String
  | .create => "create"
  | .overwrite => "write"
  | .append => "append"
  | .delete => "delete"
  | .rename => "rename"
  | .copy => "copy"
  | .permissions => "permission change"

namespace Evaluation

/-- Record a finding. -/
def finding (e : Evaluation) (action : PolicyAction) (message : String) : Evaluation :=
  { e with verdict := e.verdict.finding action message }

/-- Ask for one file effect. A permission change leaves the contents alone, so its path is only checked
against claims already made; a fresh name needs no claim, but the directory it was made in is checked. -/
def fileEffect (policy : HarnessPolicy) (e : Evaluation) (effect : FileEffect) : Evaluation :=
  match effect.target with
  | .unresolved => e.finding policy.unresolvedWrites (findingPrefix ++ " a " ++ opName effect.op ++
      " target could not be determined. " ++ unresolvedFix policy.unresolvedWrites)
  | .path path =>
    if effect.op = .permissions then { e with claims := e.claims.scope (.covering path) }
    else { e with claims := e.claims.path path }
  | .within dir =>
    if effect.op = .permissions then { e with claims := e.claims.scope (.tree dir false) }
    else { e with claims := e.claims.tree dir }
  | .ephemeral place =>
    if effect.op = .permissions then e
    else
      match place.named with
      | some dir => { e with claims := e.claims.scope (.fresh dir) }
      | none => e

/-- Ask for one tree effect. -/
def treeEffect (e : Evaluation) (tree : TreeEffect) : Evaluation :=
  { e with claims := e.claims.scope (match tree.reach with
      | .all => .tree tree.scope tree.wholeCheckout
      | .freshSubtree => .fresh tree.scope) }

/-- Record what could not be determined. -/
def uncertainty (policy : HarnessPolicy) (e : Evaluation) (u : Uncertainty) : Evaluation :=
  match u.kind with
  | .unresolvedWrite | .parseError | .limitExhausted | .unresolvedInvocation =>
    e.finding policy.unresolvedWrites
      (findingPrefix ++ " " ++ u.detail ++ ". " ++ unresolvedFix policy.unresolvedWrites)
  | .unsupportedLanguage language =>
    e.finding policy.unsupportedLanguage (findingPrefix ++ " " ++ u.detail ++ ". devkit cannot see what " ++
      language ++ " source writes; make the edit in bash, PowerShell, Python, JavaScript or TypeScript, or " ++
      "with a structured edit tool.")

/-- Record a stored script. -/
def scriptFile (policy : HarnessPolicy) (e : Evaluation) (script : Value) : Evaluation :=
  let name := match script with
    | .known text => "`" ++ text ++ "`"
    | _ => "a script"
  e.finding policy.scriptFiles (findingPrefix ++ " " ++ name ++ " is a stored script, and devkit does not " ++
    "read what it writes. Make the edit inline or with a structured edit tool.")

end Evaluation

/-- Turn an analysis into claims and findings. -/
def evaluate (analysis : Analysis) (policy : HarnessPolicy) : Evaluation :=
  let e := analysis.fileEffects.foldl (Evaluation.fileEffect policy) ⟨⟨[], []⟩, Claims.empty⟩
  let e := analysis.treeEffects.foldl Evaluation.treeEffect e
  let e := analysis.uncertainties.foldl (Evaluation.uncertainty policy) e
  analysis.scriptFiles.foldl (Evaluation.scriptFile policy) e

end Devkit.Hook
