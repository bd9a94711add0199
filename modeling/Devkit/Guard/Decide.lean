import Devkit.Guard.Args
import Devkit.Guard.TaskArgs
import Mathlib.Data.Prod.Lex
import Mathlib.Data.String.Basic

/-!
# The guard's verdict

Every invocation of a command is checked against the rules, then against the tasks and apps of the project. Tasks and
apps are kept in hash maps. Tasks that match are ranked, as are apps by their launches; where neither claims a dev
server, the whole catalog is searched for the app.
-/

namespace Devkit.Guard

open Devkit.Library

/-- Where a program is looked up. -/
inductive SearchPath
  | inherited
  | set (path : Value)

/-- An invocation the analysis found. -/
structure Invocation where
  program : Value
  args : List Value
  semanticArgs : List Value
  wrappers : List (List Value)
  typed : List String
  cwd : Option String
  searchPath : SearchPath

/-- A word that is known. -/
def Value.text : Value → Option String
  | .known text => some (String.ofList text)
  | _ => none

section Doppler

/-- What a Doppler wrapper selects. -/
structure Doppler where
  config : Option String
  project : Option String
deriving DecidableEq

/-- The configuration and project that the words of a wrapper select; a flag's value is skipped as a word. -/
def dopplerFlags : List Value → Bool → Doppler → Doppler
  | [], _, seen => seen
  | _ :: rest, true, seen => dopplerFlags rest false seen
  | word :: rest, false, seen =>
    match word.text with
    | none => dopplerFlags rest false seen
    | some text =>
      if text = "--" then seen
      else
        let key := ((splitOnce text).map Prod.fst).getD text
        let inline := (splitOnce text).map Prod.snd
        let value := inline.or ((rest.head?.bind Value.text).filter (· != "--"))
        if key = "-c" ∨ key = "--config" then dopplerFlags rest inline.isNone { seen with config := value }
        else if key = "-p" ∨ key = "--project" then dopplerFlags rest inline.isNone { seen with project := value }
        else dopplerFlags rest false seen

/-- The Doppler wrapper the analysis removed to reach an invocation. -/
def dopplerOf (inv : Invocation) : Option Doppler :=
  (inv.wrappers.find? fun words => (words.head?.bind Value.text).map basename == some "doppler").map fun words =>
    dopplerFlags words false ⟨none, none⟩

end Doppler

/-- An invocation of which every word is known. -/
structure Known where
  argv : List String
  doppler : Option Doppler

/-- The words of an invocation, when every one is known. -/
def known (inv : Invocation) : Option Known := do
  let program ← inv.program.text
  let args ← inv.args.mapM Value.text
  some ⟨program :: args, dopplerOf inv⟩

section Rules

/-- How a finding is classified. -/
inductive Severity
  | info
  | warning
  | error
deriving DecidableEq

/-- What a rule does with a command it matches. -/
inductive RuleAction
  | block
  | warn
deriving DecidableEq

/-- A rule of the project about commands. -/
structure CommandRule where
  programs : List String
  args : List String
  reason : String
  enabled : Bool
  action : RuleAction
  severity : Severity

/-- How a program with arguments answers a rule. -/
def programMatch (program : Value) (args : List Value) (rule : CommandRule) : Match :=
  match program.text with
  | none => .possible
  | some program => if rule.programs.any (runs program) then argsMatch (rule.args.map String.toList) args else .no

/-- How an invocation or a wrapper around it answers a rule; devkit's own binary is not checked itself. -/
def ruleMatch (inv : Invocation) (rule : CommandRule) (ownBinary : Bool) : Match :=
  let wrapped := inv.wrappers.filterMap fun words => match words with
    | program :: args => some (programMatch program args rule)
    | [] => none
  let inner := if ownBinary then []
    else [(programMatch inv.program inv.semanticArgs rule).max (programMatch inv.program inv.args rule)]
  strongest (wrapped ++ inner)

/-- One thing the guard found. -/
structure Finding where
  rule : Option String
  severity : Severity
  message : String
deriving DecidableEq

/-- What the guard blocks and what it warns of. -/
structure Verdict where
  blocks : List Finding
  warnings : List Finding
deriving DecidableEq

/-- A finding is listed once. -/
def pushOnce (findings : List Finding) (finding : Finding) : List Finding :=
  if finding ∈ findings then findings else findings ++ [finding]

/-- Block on a finding. -/
def Verdict.block (verdict : Verdict) (finding : Finding) : Verdict :=
  { verdict with blocks := pushOnce verdict.blocks finding }

/-- Warn of a finding. -/
def Verdict.warn (verdict : Verdict) (finding : Finding) : Verdict :=
  { verdict with warnings := pushOnce verdict.warnings finding }

/-- One rule applied to an invocation; what cannot be told is noted. -/
def ruleStep (inv : Invocation) (ownBinary : Bool) (state : Verdict × Bool) (entry : String × CommandRule) :
    Verdict × Bool :=
  match ruleMatch inv entry.2 ownBinary with
  | .yes =>
    match entry.2.action with
    | .block => (state.1.block ⟨some entry.1, entry.2.severity, entry.2.reason⟩, state.2)
    | .warn => (state.1.warn ⟨some entry.1, entry.2.severity, entry.2.reason⟩, state.2)
  | .possible => (state.1, true)
  | .no => state

/-- The rules in force applied to an invocation, in the order of their names. -/
def rulesVerdict (rules : List (String × CommandRule)) (ownBinary : Bool) (verdict : Verdict) (inv : Invocation) :
    Verdict :=
  let state := (rules.filter fun entry => entry.2.enabled && !entry.2.programs.isEmpty).foldl (ruleStep inv ownBinary)
    (verdict, false)
  if state.2 then
    state.1.warn ⟨none, .warning, "`" ++ " ".intercalate inv.typed ++ "` could not be fully resolved, so devkit could " ++
      "not tell whether a `[harness.commands]` rule applies; it was allowed."⟩
  else state.1

end Rules

/-- A project: its tasks, apps and variables, where in it the command runs, and how it tunes the matcher. -/
structure Project extends Configured where
  cwdRel : Option String
  appMatch : AppMatch

/-- What the guard calls: the template library, the fuzzy matcher, and the analysis of a configured command. -/
structure Libraries where
  templates : Templates
  matchList : ℕ → String → List String → List (ℕ × ℕ)
  analyzeArgv : List String → List Invocation

section ProjectCheck

variable (lib : Libraries)

/-- A configured command, unwrapped as a typed one is. -/
def configured (argv : List String) : Option Known := (lib.analyzeArgv argv).head?.bind known

/-- An entry that renders to an unknown number of words. -/
def RunArg.isSplit : RunArg → Bool
  | .scalar _ => false
  | .split _ _ => true

/-- A task's command, unwrapped as a typed one is; none where a plain entry follows a split or fewer than two lead
one. -/
def configuredTask (args : List RunArg) : Option Known :=
  match args.findIdx? RunArg.isSplit with
  | none => configured lib (args.map RunArg.template)
  | some first =>
    if first < 2 || !(args.drop first).all RunArg.isSplit then none
    else configured lib ((args.take first).map RunArg.template ++ [opaqueWord])

/-- Whether a task's templates refer to a port as they are rendered over some variables; other names render empty. -/
def referencesPort (task : Task) (vars : Std.ExtTreeMap String String) : Bool :=
  let names := ((lib.templates.reads task.templates).getD []).filter fun name => !Configured.portNames.contains name
  let vars := names.foldl (fun vars name => vars.insertIfNew name "") vars
  (lib.templates.referencedPorts task.templates vars).any fun refs => refs.2 || !refs.1.isEmpty

/-- Whether running the task starts another process than the typed command. -/
def redirectWorthIt (task : Task) (vars : Std.ExtTreeMap String String) (typed config : Option Doppler) : Bool :=
  task.guard.getD (task.app.isSome || !task.env.isEmpty || typed != config || referencesPort lib task vars)

/-- A task whose signature a typed command matches. -/
structure TaskHit where
  sigLen : ℕ
  omitted : ℕ
  name : String
  app : Option String

/-- Tasks are ranked by the longest signature, then by the fewest words left out, then by name. -/
def TaskHit.key (hit : TaskHit) : ℕᵒᵈ ×ₗ ℕ ×ₗ String :=
  toLex (OrderDual.toDual hit.sigLen, toLex (hit.omitted, hit.name))

/-- A task as a hit, when the typed command retypes it and running it makes a difference. -/
def taskHit (n : Known) (p : Project) (minSig : ℕ) (entry : String × Task) : Option TaskHit := do
  let cfg ← configuredTask lib entry.2.run
  let sig ← signature cfg.argv
  if entry.2.guard.isNone && sig.length < minSig then none
  else if !sigMatches sig n.argv || !sigWithin cfg.argv sig n.argv then none
  else if redirectWorthIt lib entry.2 p.defaults n.doppler cfg.doppler then
    some ⟨sig.length, sigOmitted cfg.argv sig n.argv, entry.1, entry.2.app⟩
  else none

/-- Apps, each name once. -/
def distinctApps (apps : List App) : List App :=
  apps.foldl (fun distinct app =>
    if distinct.any fun other => other.name == app.name then distinct else distinct ++ [app]) []

/-- The task a command retypes: of those ranked first, one of the app the hint names, else the first by name. -/
def bestTask (n : Known) (p : Project) (minSig : ℕ) : Option String :=
  let hits := (p.tasks.rows.filterMap (taskHit lib n p minSig)).mergeSort fun a b => decide (a.key ≤ b.key)
  match hits with
  | [] => none
  | best :: _ =>
    let tied := hits.takeWhile fun hit => hit.sigLen == best.sigLen && hit.omitted == best.omitted
    let candidates := distinctApps (tied.filterMap fun hit => hit.app.bind p.catalog.get?)
    let hinted := (resolve lib.matchList (hint n.argv p.cwdRel) candidates p.appMatch .catalog).bind fun app =>
      tied.find? fun hit => hit.app == some app
    match hinted with
    | some hit => some hit.name
    | none => some best.name

/-- An app as a hit, when the typed command matches its launch: the length of the signature and the name. -/
def appHit (n : Known) (app : App) : Option (ℕ × String) := do
  let launch ← configured lib app.launch
  let sig ← signature launch.argv
  if sigMatches sig n.argv then some (sig.length, app.name) else none

/-- Every app with the longest launch signature that the command matches, by name. -/
def matchingApps (n : Known) (p : Project) : List String :=
  let hits := (p.catalog.values.filterMap (appHit lib n)).mergeSort fun a b =>
    decide ((toLex (OrderDual.toDual a.1, a.2) : ℕᵒᵈ ×ₗ String) ≤ toLex (OrderDual.toDual b.1, b.2))
  match hits with
  | [] => []
  | best :: _ => (hits.takeWhile fun hit => hit.1 == best.1).map Prod.snd

/-- The apps whose launch was matched, narrowed to the one the hint names. -/
def narrowedApps (n : Known) (hits : List String) (p : Project) : List String :=
  match resolve lib.matchList (hint n.argv p.cwdRel) (hits.filterMap p.catalog.get?) p.appMatch .narrowed with
  | some app => [app]
  | none => hits

/-- The app that a search of the whole catalog names. -/
def searchedApp (n : Known) (p : Project) : Option String :=
  resolve lib.matchList (hint n.argv p.cwdRel) p.catalog.values p.appMatch .catalog

/-- What is said of a command that retypes a task. -/
def taskMessage (p : Project) (typed : List String) (name : String) : String :=
  let args := (p.taskArgs lib.templates name .agent).getD []
  let usage := String.join ((args.filter TaskArg.required).map fun arg =>
    " --arg " ++ arg.name ++ "=<" ++ arg.name ++ ">")
  let described := String.join (args.filterMap fun arg => arg.description.map (descriptionLine arg.label))
  "`" ++ " ".intercalate typed ++ "` is the `" ++ name ++ "` task. Run `devrun task " ++ name ++ usage ++
    "` so it gets its app directory, layered env and allocated ports." ++ described

/-- What is said of a command that matches the launch of apps. -/
def upMessage (typed apps : List String) : String :=
  "`" ++ " ".intercalate typed ++ "` is how devkit launches this app. Run " ++
    " or ".intercalate (apps.map fun app => "`devrun up " ++ app ++ "`") ++
    " instead, so the port is allocated from the registry and `devrun down`/`logs`/`status` can see the server."

/-- What is said of a dev server of a named app. -/
def catalogMessage (typed : List String) (app : String) : String :=
  "`" ++ " ".intercalate typed ++ "` starts a dev server. `devrun up " ++ app ++ "` is the registered way to start " ++
    "this app's server, so the port is allocated from the registry and `devrun down`/`logs`/`status` can see it."

/-- What is said of a dev server of no app. -/
def serverMessage (typed : List String) : String :=
  "`" ++ " ".intercalate typed ++ "` starts a dev server. Start it with `devrun up <app>` so its port is registered " ++
    "and `devrun down`/`logs`/`status` can see it. `devkit config apps` lists the apps."

/-- The shortest signature that may claim a command. -/
def minSignature (prog : String) (argv : List String) : ℕ := if isKnownProgram prog && !isDevServer argv then 2 else 1

/-- What the project says of a command: a task it retypes, the launch of an app, or a dev server. -/
def projectHit (typed : List String) (n : Known) (prog : String) (p : Project) : Option String :=
  match bestTask lib n p (minSignature prog n.argv) with
  | some name => some (taskMessage lib p typed name)
  | none =>
    let hits := matchingApps lib n p
    if isKnownProgram prog then
      if !isDevServer n.argv then none
      else if !hits.isEmpty then some (upMessage typed (narrowedApps lib n hits p))
      else
        match searchedApp lib n p with
        | some app => some (catalogMessage typed app)
        | none => some (serverMessage typed)
    else if hits.isEmpty then none
    else some (upMessage typed (narrowedApps lib n hits p))

/-- Whether the project could claim a program once its arguments are known. -/
def projectCouldClaim (program : Option String) (p : Project) : Bool :=
  match program.map basename with
  | none => !p.tasks.isEmpty || !p.catalog.isEmpty
  | some program =>
    isKnownProgram program ||
      p.tasks.values.any (fun task => (configuredTask lib task.run).any fun run =>
        basename (run.argv.headD "") == program) ||
      p.catalog.values.any fun app => (configured lib app.launch).any fun run => basename (run.argv.headD "") == program

/-- The project's check of an invocation. -/
def projectVerdict (p : Project) (verdict : Verdict) (inv : Invocation) : Verdict :=
  match known inv with
  | some n =>
    match projectHit lib inv.typed n (basename (n.argv.headD "")) p with
    | some message => verdict.block ⟨none, .error, message⟩
    | none => verdict
  | none =>
    if projectCouldClaim lib inv.program.text p then
      verdict.warn ⟨none, .info, "`" ++ " ".intercalate inv.typed ++ "` could not be fully resolved, so devkit did not " ++
        "check it against the project's tasks and apps."⟩
    else verdict

end ProjectCheck

/-- How devkit's own binary is told: by a program word where it is run, and on a search path that is set. -/
structure OwnBinary where
  runs : String → Option String → Bool
  runsOn : String → String → Option String → Bool

/-- Whether an invocation runs devkit's own binary. -/
def runsOwn (inv : Invocation) (own : OwnBinary) : Bool :=
  inv.program.text.any fun prog =>
    match inv.searchPath with
    | .inherited => own.runs prog inv.cwd
    | .set path => path.text.any fun path => own.runsOn path prog inv.cwd

/-- One invocation checked: the rules, then the project where the program is not devkit's own. -/
def Verdict.check (lib : Libraries) (rules : List (String × CommandRule)) (project : Option Project) (own : OwnBinary)
    (verdict : Verdict) (inv : Invocation) : Verdict :=
  let ruled := rulesVerdict rules (runsOwn inv own) verdict inv
  match project with
  | some p => if runsOwn inv own then ruled else projectVerdict lib p ruled inv
  | none => ruled

/-- The verdict on the invocations of a command. -/
def Verdict.decide (lib : Libraries) (analysis : List Invocation) (rules : List (String × CommandRule))
    (project : Option Project) (own : OwnBinary) : Verdict :=
  analysis.foldl (Verdict.check lib rules project own) ⟨[], []⟩

end Devkit.Guard
