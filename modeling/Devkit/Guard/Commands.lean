import Devkit.Guard.Caller
import Mathlib.Data.List.Infix

/-!
# Commands the guard knows

What a program word runs, the fixed start of a configured command that a typed one can be expected to repeat, and
which commands of which programs start a dev server.

The catalog of commands knows that one starts a server, not whose server it is. What names the app is a path of the
workspace in the command, a directory flag, or the directory the command runs in.
-/

namespace Devkit.Guard

/-- The last component of a program word, without `.exe`. -/
def basename (prog : String) : String :=
  let base := prog.toList.rtakeWhile fun c => c != '/' && c != '\\'
  if 4 ≤ base.length ∧ toAsciiLowercase (base.drop (base.length - 4)) = ".exe".toList then
    String.ofList (base.take (base.length - 4))
  else String.ofList base

/-- Whether a program word runs the program of a name. -/
def runs (prog name : String) : Bool :=
  toAsciiLowercase (basename prog).toList == toAsciiLowercase (basename name).toList

/-- A word that is an option. -/
def isOption (word : String) : Bool := word.toList.head? == some '-'

section Signature

/-- Programs whose every invocation looks alike from the outside. -/
def generic : List String :=
  ["python", "python3", "node", "bun", "deno", "docker", "cargo", "go", "uv", "sh", "bash", "curl"]

/-- Config text whose rendered width is not known. -/
def opaqueWord : String := "\x7b\x7b opaque \x7d\x7d"

/-- A word with a template that a typed command cannot be expected to repeat. -/
def isTemplate (word : String) : Bool :=
  decide ("\x7b\x7b".toList <:+: word.toList) || decide ("\x7b%".toList <:+: word.toList) ||
    decide ("ports[".toList <:+: word.toList)

/-- Words before the first `--`, and those after it when there is one. -/
def splitTrailing (words : List String) : List String × Option (List String) :=
  let options := words.takeWhile (· != "--")
  (options, match words.drop options.length with
    | _ :: trailing => some trailing
    | [] => none)

/-- The words of a configured command that a typed one can be expected to repeat. -/
def signature (config : List String) : Option (List String) :=
  let sig := config.takeWhile fun word => !(isTemplate word || isOption word)
  if sig.isEmpty then none
  else if (splitTrailing (config.drop sig.length)).1.any fun word => !isOption word && !isTemplate word then none
  else if sig.length = 1 ∧ sig.any (fun word => generic.contains (basename word)) then none
  else some sig

/-- Whether a typed command starts with a signature. -/
def sigMatches : List String → List String → Bool
  | first :: rest, prog :: args => basename prog == basename first && rest.isPrefixOf args
  | _, _ => false

/-- Whether a typed command that matches a signature asks for nothing the configured one does not do. -/
def sigWithin (config sig typed : List String) : Bool :=
  let tail := config.drop sig.length
  if tail.isEmpty || tail.any isTemplate then true
  else
    let (options, trailing) := splitTrailing tail
    let (typedOptions, typedTrailing) := splitTrailing (typed.drop sig.length)
    typedOptions.all options.contains && typedTrailing.all fun words => trailing == some words

/-- How many words of the configured command the typed one leaves out. -/
def sigOmitted (config sig typed : List String) : ℕ :=
  ((config.drop sig.length).filter fun word => !(typed.drop sig.length).contains word).length

end Signature

section Servers

/-- Programs whose server is the `dev` subcommand. -/
def devSubcommand : List String := ["next", "nitro", "wrangler", "mintlify"]

/-- Words with which vite builds rather than serves. -/
def viteNonServer : List String := ["build", "preview", "optimize"]

/-- Flags with which a program prints and exits. -/
def infoFlags : List String := ["--version", "--help"]

/-- The short spellings of those flags. -/
def shortInfoFlags : List String := ["-v", "-h"]

/-- Whether the guard has an opinion about a program. -/
def isKnownProgram (prog : String) : Bool :=
  (devSubcommand ++ ["uvicorn", "flask", "vite"]).contains (basename prog)

/-- Whether a command starts a dev server. -/
def isDevServer : List String → Bool
  | [] => false
  | prog :: args =>
    let prog := basename prog
    if args.any fun arg => infoFlags.contains arg || (prog != "flask" && shortInfoFlags.contains arg) then false
    else if devSubcommand.contains prog then args.find? (fun arg => !isOption arg) == some "dev"
    else if prog = "uvicorn" then true
    else if prog = "flask" then args.contains "run"
    else if prog = "vite" then !args.any viteNonServer.contains
    else false

end Servers

/-- An app as the guard reads it. -/
structure App where
  name : String
  path : String
  launch : List String
deriving DecidableEq

/-- How a project tunes the fuzzy matcher. -/
structure AppMatch where
  fuzzy : Bool
  maxTypos : ℕ
  minScore : ℕ

/-- Flags whose value names a member of the workspace. -/
def dirFlags : List String := ["--filter", "-F", "--dir", "-C", "--cwd"]

/-- The name after the first `apps` or `packages` among the parts of a path. -/
def memberAmong : List (List Char) → Option String
  | part :: name :: rest =>
    if (part = "apps".toList ∨ part = "packages".toList) ∧ name ≠ [] then some (String.ofList name)
    else memberAmong (name :: rest)
  | _ => none

/-- The name in an `apps/<name>` or `packages/<name>` path. -/
def workspaceMember (word : String) : Option String :=
  memberAmong ((word.toList.map fun c => if c = '\\' then '/' else c).splitOn '/')

/-- A word before and after its first `=`. -/
def splitOnce (word : String) : Option (String × String) :=
  match word.toList.dropWhile (· != '=') with
  | _ :: value => some (String.ofList (word.toList.takeWhile (· != '=')), String.ofList value)
  | [] => none

/-- The value of the first directory flag. -/
def dirFlagValue : List String → Option String
  | [] => none
  | word :: rest =>
    match (splitOnce word).filter fun split => dirFlags.contains split.1 with
    | some split => some split.2
    | none => if dirFlags.contains word then rest.head? else dirFlagValue rest

/-- What may name the app: a path of the workspace, a directory flag's value, or where the command runs. -/
def hint (argv : List String) (cwdRel : Option String) : Option String :=
  ((argv.findSome? workspaceMember).or (dirFlagValue argv)).or cwdRel

/-- A text without slashes around it. -/
def trimSlashes (text : String) : String := String.ofList ((text.toList.dropWhile (· == '/')).rdropWhile (· == '/'))

/-- Where the candidates come from: a launch that matched, or every app of the project. -/
inductive Scope
  | narrowed
  | catalog
deriving DecidableEq

/-- The needle is the app's name or its path. -/
def isApp (needle : String) (app : App) : Bool := app.name == needle || trimSlashes app.path == needle

/-- The needle is a path under the app's path. -/
def isUnder (needle : String) (app : App) : Bool :=
  trimSlashes app.path != "" && (trimSlashes app.path ++ "/").toList.isPrefixOf needle.toList

/-- The app the fuzzy matcher names: its best match, if that is good enough. -/
def rescued (matchList : ℕ → String → List String → List (ℕ × ℕ)) (cfg : AppMatch) (needle : String)
    (candidates : List App) : Option String :=
  ((matchList cfg.maxTypos needle (candidates.map App.name)).head?.filter fun found => cfg.minScore ≤ found.2).bind
    fun found => (candidates.map App.name)[found.1]?

/-- Which candidate the hint names. -/
def resolve (matchList : ℕ → String → List String → List (ℕ × ℕ)) (hint : Option String) (candidates : List App)
    (cfg : AppMatch) (scope : Scope) : Option String :=
  match candidates, scope with
  | [], _ => none
  | [only], .narrowed => some only.name
  | _, _ => do
    let needle := trimSlashes (← hint)
    match candidates.find? (isApp needle) with
    | some app => some app.name
    | none =>
      match candidates.find? (isUnder needle) with
      | some app => some app.name
      | none => if cfg.fuzzy then rescued matchList cfg needle candidates else none

end Devkit.Guard
