import Devkit.Common.Path
import Devkit.Config.Parse

/-!
# The variable a child process gets

The merged options are written as one `KEY=VALUE` line for each leaf, keys quoted where needed and
strings escaped so that a line holds no line break. Path keys leave with variables and `~` expanded and,
outside the checkout's own files, anchored to where this process runs.
-/

namespace Devkit.Config

open Devkit.Common
open Devkit.Library
open Devkit.Library.Toml

variable {S : Type}

/-- What the process sees around it: its environment variables, and the text of a path, lossy where it is none. -/
structure Surroundings where
  var : String → Option OsStr
  lossy : OsStr → String

section Paths

variable (around : Surroundings)

/-- Expand `${VAR}` references; `$$` is a literal `$`. In a reference, its name so far is kept. -/
def expandFrom (key raw : String) : Option (List Char) → List Char → Except OptionError (List Char)
  | none, '$' :: '$' :: rest => (expandFrom key raw none rest).map ('$' :: ·)
  | none, '$' :: '{' :: rest => expandFrom key raw (some []) rest
  | none, c :: rest => (expandFrom key raw none rest).map (c :: ·)
  | none, [] => .ok []
  | some name, '}' :: rest =>
    match (around.var (String.ofList name)).bind toStr with
    | some value => (expandFrom key raw none rest).map (value.toList ++ ·)
    | none => .error (.unset key (String.ofList name))
  | some name, c :: rest => expandFrom key raw (some (name ++ [c])) rest
  | some _, [] => .error (.unterminated key raw)

/-- A text with its variables expanded. -/
def expandVars (raw key : String) : Except OptionError String :=
  (expandFrom around key raw none raw.toList).map String.ofList

/-- The home directory. -/
def homeDir : Option OsStr :=
  ((around.var "HOME").filter fun dir => !dir.isEmpty).or ((around.var "USERPROFILE").filter fun dir => !dir.isEmpty)

/-- The path starts at the root directory. -/
def isAbsolute (path : OsStr) : Bool := path.head? == some separator

/-- A path taken from a directory. -/
def join (dir path : OsStr) : OsStr :=
  if isAbsolute path || dir.isEmpty then path
  else if dir.getLast? = some separator then dir ++ path
  else dir ++ separator :: path

/-- The path of a component. -/
def Component.path : Component → OsStr
  | .rootDir => [separator]
  | .curDir => [dot]
  | .parentDir => [dot, dot]
  | .normal name => name

/-- The path of components. -/
def pathOf (components : List Component) : OsStr := components.foldl (fun dir c => join dir (Component.path c)) []

/-- A leading `~/` is the home directory. -/
def expandTilde (text : String) : OsStr :=
  match text.toList, homeDir around with
  | '~' :: '/' :: rest, some home => join home (bytes (String.ofList rest))
  | _, _ => bytes text

/-- What a path key names: a location of the machine, or a file of the repository. -/
inductive PathKind
  | host
  | repoRelative
deriving DecidableEq

/-- The path keys of the defaults section. -/
def defaultsPaths : List (List String × PathKind) :=
  [(["defaults", "worktree_root"], .host), (["defaults", "baseline_dir"], .host),
    (["defaults", "doppler_yaml"], .repoRelative)]

/-- The key of the log directory. -/
def logDir : List String := ["harness", "log", "dir"]

variable (start : OsStr) (checkoutRoot : Option OsStr)

/-- A path key of an option, which has no directory of its own: a relative path is taken from the start. -/
def resolvePathKey (raw key : String) (kind : PathKind) : Except OptionError String := do
  let expanded ← expandVars around raw key
  if expanded.isEmpty then .ok ""
  else
    let path := expandTilde around expanded
    let anchor := match kind with
      | .host => none
      | .repoRelative => checkoutRoot
    .ok (around.lossy (pathOf (normalizeLexically (if isAbsolute path then path else join (anchor.getD start) path))))

/-- A path of the machine, taken from the anchor. -/
def resolveHostPath (raw key : String) (anchor : Option OsStr) : Except OptionError OsStr := do
  let expanded ← expandVars around raw key
  if expanded.isEmpty then .ok []
  else
    let path := expandTilde around expanded
    .ok (pathOf (normalizeLexically (match isAbsolute path, anchor with
      | false, some dir => join dir path
      | _, _ => path)))

/-- The path a key leaves with: a repository file stays relative inside a checkout. -/
def leavingPath (key : List String) (kind : PathKind) (raw : String) : Except OptionError String :=
  match kind, checkoutRoot with
  | .repoRelative, some _ => do
    let expanded ← expandVars around raw (joined key)
    .ok (around.lossy (expandTilde around expanded))
  | _, _ => resolvePathKey around start checkoutRoot raw (joined key) kind

/-- The log directory as it leaves. -/
def leavingLogDir (raw : String) : Except OptionError String := do
  let path ← resolveHostPath around raw (joined logDir) (some start)
  .ok (around.lossy path)

end Paths

/-- A path spelled so that expansion gives it back. -/
def escapeVars (path : String) : String :=
  String.ofList (path.toList.flatMap fun c => if c = '$' then ['$', '$'] else [c])

/-- A table with the string at a path of keys replaced by the path it leaves as. -/
def resolveAt (resolve : String → Except OptionError String) : List String → Table S → Except OptionError (Table S)
  | [], table => .ok table
  | key :: path, table =>
    match rowOf key table, path with
    | some (.string raw), [] => (resolve raw).map fun path => putRow key (.string (escapeVars path)) table
    | some (.table inner), path => (resolveAt resolve path inner).map fun inner => putRow key (.table inner) table
    | _, _ => .ok table

/-- A character is a control character. -/
def isControl (c : Char) : Bool := c.toNat < 0x20 || (0x7f ≤ c.toNat && c.toNat < 0xa0)

/-- An upper-case hexadecimal digit. -/
def hexDigit (n : ℕ) : Char := if n < 10 then Char.ofNat ('0'.toNat + n) else Char.ofNat ('A'.toNat + (n - 10))

/-- A character of a basic string. Control characters are below `\uFFFF`, so four digits spell them. -/
def escapeChar (c : Char) : List Char :=
  if c = '"' then ['\\', '"']
  else if c = '\\' then ['\\', '\\']
  else if isControl c then
    ['\\', 'u', hexDigit (c.toNat / 4096), hexDigit (c.toNat / 256 % 16), hexDigit (c.toNat / 16 % 16),
      hexDigit (c.toNat % 16)]
  else [c]

/-- A text as a basic string. -/
def basicString (text : String) : List Char := '"' :: text.toList.flatMap escapeChar ++ ['"']

/-- A key as one segment of a dotted key: bare where it can be. -/
def tomlKey (key : String) : List Char :=
  if !key.isEmpty && key.toList.all isBareKeyChar then key.toList else basicString key

section Lines

variable (display : S → List Char)

mutual

/-- A value on one line. -/
def inline : Value S → List Char
  | .string text => basicString text
  | .array items => '[' :: (", ".toList).intercalate (inlineItems items) ++ [']']
  | .table entries => "\x7b ".toList ++ (", ".toList).intercalate (inlineEntries entries) ++ " \x7d".toList
  | .scalar value => display value

/-- The items of an array. -/
def inlineItems : List (Value S) → List (List Char)
  | [] => []
  | value :: rest => inline value :: inlineItems rest

/-- The entries of an inline table. -/
def inlineEntries : Table S → List (List Char)
  | [] => []
  | (key, value) :: rest => (tomlKey key ++ " = ".toList ++ inline value) :: inlineEntries rest

end

mutual

/-- The lines of a value under a dotted key. -/
def leafLine (path : List Char) : Value S → List (List Char)
  | .table [] => [path ++ '=' :: inline display (.table [])]
  | .table (row :: rest) => leafLines (path ++ ['.']) (row :: rest)
  | value => [path ++ '=' :: inline display value]

/-- One line for each leaf of a table: each value that is no table, and each empty table. -/
def leafLines (before : List Char) : Table S → List (List Char)
  | [] => []
  | (key, value) :: rest => leafLine (before ++ tomlKey key) value ++ leafLines before rest

end

end Lines

/-- The merged options with each path as it leaves. -/
def leaving (around : Surroundings) (start : OsStr) (checkoutRoot : Option OsStr) (merged : Table S) :
    Except OptionError (Table S) := do
  let table ← defaultsPaths.foldlM
    (fun table row => resolveAt (leavingPath around start checkoutRoot row.1 row.2) row.1 table) merged
  resolveAt (leavingLogDir around start) logDir table

/-- The variable that gives a child process these options, where they set anything. -/
def Options.toVariable (display : S → List Char) (around : Surroundings) (start : OsStr) (checkoutRoot : Option OsStr)
    (options : Options S) : Except OptionError (Option String) :=
  match options.merged with
  | none => .ok none
  | some merged => do
    let table ← leaving around start checkoutRoot merged
    .ok (some (String.ofList (['\n'].intercalate (leafLines display [] table))))

end Devkit.Config
