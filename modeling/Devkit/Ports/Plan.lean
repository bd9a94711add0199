import Devkit.Library.OrderedTable
import Mathlib.Data.String.Basic

/-!
# Execution plans and their lines

What a run of a task executes: the callers its args are accepted from, and per step a command with its
environment or the servers it brings up. A plan is compared as lines, each a text with the rendered
environment value behind it.
-/

namespace Devkit.Ports

open Devkit.Library

/-- One environment variable: the template the config gave it, when one did, and the value it rendered to. -/
structure PlannedEnv where
  template : Option String
  value : String
deriving DecidableEq

/-- The environment of a command: rows with their names ascending. -/
structure Environment where
  rows : List (String × PlannedEnv)
  ascending : Ascending rows
deriving DecidableEq

/-- A server an `up` step launches. -/
structure PlannedLaunch where
  app : String
  port : UInt16
  argv : List String
  cwd : String
  env : Environment
  url : String
deriving DecidableEq

/-- A step: a command, or the servers an app brings up. -/
inductive PlannedStep
  | run (task : String) (app : Option String) (argv : List String) (cwd : String) (env : Environment)
      (requireLive : List String)
  | up (app : String) (launches : List PlannedLaunch)
deriving DecidableEq

/-- What a run of a task executes, and whether a human and an agent may start it. -/
structure ExecutionPlan where
  acceptsHuman : Bool
  acceptsAgent : Bool
  steps : List PlannedStep
deriving DecidableEq

/-- A line of a plan; a rendered value is compared and never printed. -/
structure PlanLine where
  text : List Char
  secret : Option String
deriving DecidableEq

section Json

/-- A lower-case hexadecimal digit. -/
def jsonDigit (n : ℕ) : Char := if n < 10 then Char.ofNat ('0'.toNat + n) else Char.ofNat ('a'.toNat + (n - 10))

/-- A character of a JSON string. -/
def jsonChar (c : Char) : List Char :=
  if c = '"' then ['\\', '"']
  else if c = '\\' then ['\\', '\\']
  else if c.toNat = 0x08 then ['\\', 'b']
  else if c.toNat = 0x09 then ['\\', 't']
  else if c.toNat = 0x0a then ['\\', 'n']
  else if c.toNat = 0x0c then ['\\', 'f']
  else if c.toNat = 0x0d then ['\\', 'r']
  else if c.toNat < 0x20 then ['\\', 'u', '0', '0', jsonDigit (c.toNat / 16), jsonDigit (c.toNat % 16)]
  else [c]

/-- A text as a JSON string. -/
def jsonString (text : String) : List Char := '"' :: (text.toList.flatMap jsonChar ++ ['"'])

/-- Texts as a JSON array. -/
def quoted (argv : List String) : List Char := '[' :: ([','].intercalate (argv.map jsonString) ++ [']'])

end Json

section Lines

/-- A line with nothing behind it. -/
def plain (text : List Char) : PlanLine := ⟨text, none⟩

/-- The text of an environment variable. -/
def envText (key : String) (template : Option String) : List Char :=
  "env ".toList ++ key.toList ++
    match template with
    | some t => " = ".toList ++ jsonString t
    | none => []

/-- The lines of an environment. -/
def envLines (indent : List Char) (env : Environment) : List PlanLine :=
  env.rows.map fun row => ⟨indent ++ envText row.1 row.2.template, some row.2.value⟩

/-- The line of the callers the args are accepted from. -/
def acceptsLine (human agent : Bool) : PlanLine :=
  plain ("args accepted from: ".toList ++
    match human, agent with
    | false, false => "nobody".toList
    | true, false => "human".toList
    | false, true => "agent".toList
    | true, true => "human, agent".toList)

/-- The lines of a server an `up` step launches. -/
def launchLines (launch : PlannedLaunch) : List PlanLine :=
  [plain ("  launch ".toList ++ launch.app.toList ++ " on port ".toList ++ Nat.toDigits 10 launch.port.toNat),
    plain ("    argv: ".toList ++ quoted launch.argv), plain ("    cwd: ".toList ++ launch.cwd.toList)] ++
    envLines "    ".toList launch.env ++ [plain ("    url: ".toList ++ launch.url.toList)]

/-- The lines of a step. -/
def stepLines (n : ℕ) : PlannedStep → List PlanLine
  | .run task app argv cwd env requireLive =>
    plain ("step ".toList ++ Nat.toDigits 10 n ++ ": task ".toList ++ task.toList) ::
      (match app with
        | some app => [plain ("  app: ".toList ++ app.toList)]
        | none => []) ++
      [plain ("  argv: ".toList ++ quoted argv), plain ("  cwd: ".toList ++ cwd.toList)] ++
      envLines "  ".toList env ++
      if requireLive.isEmpty then []
      else [plain ("  require_live: ".toList ++ (", ".toList).intercalate (requireLive.map String.toList))]
  | .up app launches =>
    plain ("step ".toList ++ Nat.toDigits 10 n ++ ": up ".toList ++ app.toList) :: launches.flatMap launchLines

/-- The lines of the steps from one on. -/
def stepsLines (n : ℕ) : List PlannedStep → List PlanLine
  | [] => []
  | step :: rest => stepLines n step ++ stepsLines (n + 1) rest

/-- The lines of a plan. -/
def ExecutionPlan.lines (plan : ExecutionPlan) : List PlanLine :=
  acceptsLine plan.acceptsHuman plan.acceptsAgent :: stepsLines 1 plan.steps

end Lines

end Devkit.Ports
