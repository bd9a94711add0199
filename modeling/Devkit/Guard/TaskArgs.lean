import Devkit.Guard.Commands
import Devkit.Library.HashEntries
import Mathlib.Data.List.TakeWhile
import Std.Data.ExtTreeMap
import Std.Data.ExtTreeSet

/-!
# The arguments a task takes

What a task's templates read beyond what the render context supplies, and which of it a caller has to supply. Tasks
and apps are only looked up by name.
-/

namespace Devkit.Guard

open Devkit.Library

/-- Whether an argument is required, and of whom. -/
inductive Required
  | never
  | humans
  | agents
  | always
deriving DecidableEq

/-- A variable of the templates: a value, or a table. -/
inductive VariableDecl
  | value (text : String)
  | table (fallback : Option String) (required : Option Required) (description : Option String)

namespace VariableDecl

/-- The value when none is given. -/
def defaultValue : VariableDecl → Option String
  | .value text => some text
  | .table fallback _ _ => fallback

/-- The marking. -/
def required : VariableDecl → Required
  | .value _ => .never
  | .table _ required _ => required.getD .never

/-- What to pass. -/
def description : VariableDecl → Option String
  | .value _ => none
  | .table _ _ description => description

end VariableDecl

/-- One entry of a task's command: a template for one argument, or one to be split. -/
inductive RunArg
  | scalar (text : String)
  | split (text on : String)

/-- The template of an entry. -/
def RunArg.template : RunArg → String
  | .scalar text | .split text _ => text

/-- A step of a sequence: a task, or an app to bring up. -/
inductive Step
  | task (name : String)
  | up (app : String)

/-- A task as the guard reads it. -/
structure Task where
  app : Option String
  run : List RunArg
  steps : List Step
  env : List (String × String)
  requireLive : List String
  guard : Option Bool
  requiredArgs : List (String × Required)

/-- The tasks, apps and template variables of a project. -/
structure Configured where
  tasks : HashEntries String Task
  catalog : HashEntries String App
  vars : List (String × VariableDecl)

/-- The template library: the names a template reads, none if it does not compile, and the ports that templates refer
to as they are rendered over some variables. -/
structure Templates where
  undeclared : String → Option (List String)
  referencedPorts : List String → Std.ExtTreeMap String String → Option (List String × Bool)

/-- The names some templates read. -/
def Templates.reads (lib : Templates) (templates : List String) : Option (List String) :=
  (templates.mapM lib.undeclared).map fun names => (Std.ExtTreeSet.ofList names.flatten compare).toList

/-- The templates of a task. -/
def Task.templates (task : Task) : List String := task.run.map RunArg.template ++ task.env.map Prod.snd

/-- An argument of a task. -/
structure TaskArg where
  name : String
  required : Bool
  requiredOf : Required
  fallback : Option String
  description : Option String

/-- The name as a listing prints it. -/
def TaskArg.label (arg : TaskArg) : String := if arg.required then arg.name else "[" ++ arg.name ++ "]"

/-- A description as a line after a message. -/
def descriptionLine (label description : String) : String := "\n  " ++ label ++ ": " ++ description

/-- Whether a marking binds a caller. -/
def binds (required : Required) (caller : Caller) : Bool :=
  match required with
  | .never => false
  | .always => true
  | .agents => caller = .agent
  | .humans => caller = .human

namespace Configured

variable (cfg : Configured)

/-- A variable by its name. -/
def varDecl (name : String) : Option VariableDecl := cfg.vars.lookup name

/-- The values variables have without arguments. -/
def defaults : Std.ExtTreeMap String String :=
  .ofList (cfg.vars.filterMap fun entry => entry.2.defaultValue.map fun value => (entry.1, value)) compare

/-- The markings that apply to a name: the task's own, else those of its steps, else the variable's. -/
def applicable (task : Option String) (name : String) : List Required :=
  let declared := ((cfg.varDecl name).map VariableDecl.required).toList
  match task.bind cfg.tasks.get? with
  | none => declared
  | some task =>
    match task.requiredArgs.lookup name with
    | some required => [required]
    | none =>
      let fromSteps := (task.steps.filterMap fun step =>
        match step with
        | .task name => cfg.tasks.get? name
        | .up _ => none).filterMap fun sub => sub.requiredArgs.lookup name
      if fromSteps.isEmpty then declared else fromSteps

/-- Whether a name has a default. -/
def hasDefault (name : String) : Bool := ((cfg.varDecl name).bind VariableDecl.defaultValue).isSome

/-- Whether a caller has to supply a name. -/
def isRequired (task : Option String) (name : String) (caller : Caller) : Bool :=
  !cfg.hasDefault name || (cfg.applicable task name).any fun required => binds required caller

/-- Who has to supply a name. -/
def requiredOf (task : Option String) (name : String) : Required :=
  match cfg.isRequired task name .agent, cfg.isRequired task name .human with
  | true, true => .always
  | true, false => .agents
  | false, true => .humans
  | false, false => .never

/-- Names as arguments of a task, each with whether this caller has to supply it. -/
def argRows (task : Option String) (names : List String) (caller : Caller) : List TaskArg :=
  names.map fun arg =>
    { name := arg, required := cfg.isRequired task arg caller, requiredOf := cfg.requiredOf task arg,
      fallback := (cfg.varDecl arg).bind VariableDecl.defaultValue,
      description := (cfg.varDecl arg).bind VariableDecl.description }

/-- Names the port registry supplies. -/
def portNames : List String := ["port", "ports"]

/-- Names filled in from the worktree. -/
def issueFields : List String := ["ticket", "issue", "slug", "branch"]

/-- Names read that the render context does not supply. -/
def argsAmong (reads : List String) : List String :=
  reads.filter fun name => !portNames.contains name && !issueFields.contains name

variable (lib : Templates)

/-- What a command task reads; none where it is refused. -/
def checkCommand (task : Task) : Option (List String) :=
  let wellFormed := task.run.head?.any (fun entry => match entry with
      | .scalar _ => true
      | .split _ _ => false) &&
    task.run.all (fun entry => match entry with
      | .scalar _ => true
      | .split _ on => on != "") &&
    task.app.all (fun app => (cfg.catalog.get? app).isSome) &&
    task.requireLive.all fun app => (cfg.catalog.get? app).isSome
  if wellFormed then lib.reads task.templates else none

/-- What is read, where every argument the task marks is among it. -/
def checkMarked (task : Task) (reads : List String) : Option (List String) :=
  if task.requiredArgs.all fun entry => (argsAmong reads).contains entry.1 then some reads else none

/-- What a step of a sequence reads; none where it names no command task and no app. -/
def checkStep : Step → Option (List String)
  | .task name => do
    let sub ← cfg.tasks.get? name
    if sub.run.isEmpty || !sub.steps.isEmpty then none
    else
      let reads ← cfg.checkCommand lib sub
      checkMarked sub reads
  | .up app => if (cfg.catalog.get? app).isSome then some [] else none

/-- What a sequence reads: what its steps read; none where it is refused. -/
def checkSequence (task : Task) : Option (List String) :=
  if task.app.isSome || !task.env.isEmpty || !task.requireLive.isEmpty then none
  else
    (task.steps.mapM (cfg.checkStep lib)).map fun reads => (Std.ExtTreeSet.ofList reads.flatten compare).toList

/-- What a task reads; none where it is refused, for which the guard does not ask the reason. -/
def check (task : Task) : Option (List String) := do
  let reads ←
    match task.run.isEmpty, task.steps.isEmpty with
    | false, false | true, true => none
    | false, true => cfg.checkCommand lib task
    | true, false => cfg.checkSequence lib task
  checkMarked task reads

/-- The arguments a task takes; none for an unknown task or one that is refused. -/
def taskArgs (name : String) (caller : Caller) : Option (List TaskArg) := do
  let task ← cfg.tasks.get? name
  let reads ← cfg.check lib task
  some (cfg.argRows (some name) (argsAmong reads) caller)

end Configured

end Devkit.Guard
