import Devkit.Config.Checks
import Devkit.Todos.Item
import Mathlib.Data.List.DropRight

/-!
# Options from the command line and the environment

An option is `KEY=VALUE`, split at the first `=` outside quotes. The key is a dotted TOML key and the
value a TOML value; both are read by the TOML library, which is a parameter. Each key is checked
against the schema, later options replace earlier ones, and the command line's table is merged over
the environment's.
-/

namespace Devkit.Config

open Devkit.Library
open Devkit.Library.Toml
open Devkit.Todos (isWhitespace)

variable {S : Type}

/-- What the options need of their libraries: TOML documents, the schemas and the readers of values. -/
structure Libraries (S : Type) where
  fromStr : List Char → Option (Table S)
  schemas : Schemas
  readers : Readers S

/-- Why an option is refused, or a path does not resolve. -/
inductive OptionError
  | noAssignment (label option : String)
  | notKey (label option key : String)
  | notValue (label key value : String)
  | manyValues (label key value : String)
  | fileOnly (label key table reason : String)
  | unknown (label key name : String)
  | harness (label key : String)
  | unterminated (key path : String)
  | unset (key name : String)
deriving DecidableEq

/-- The text of a refusal. -/
def OptionError.message : OptionError → String
  | noAssignment label option => label ++ " " ++ option ++ ": expected KEY=VALUE"
  | notKey label option key => label ++ " " ++ option ++ ": `" ++ key ++ "` is not a TOML key"
  | notValue label key value => label ++ " " ++ key ++ ": `" ++ value ++
      "` is not a TOML value; a string needs quotes, as in " ++ key ++ "='\"" ++ value ++ "\"'"
  | manyValues label key value => label ++ " " ++ key ++ ": `" ++ value ++ "` is more than one TOML value"
  | fileOnly label key table reason => label ++ " " ++ key ++ ": `" ++ key ++ "` is a `[" ++ table ++
      "]` key, and `[" ++ table ++ "]` keys cannot be set with " ++ label ++ ": " ++ reason
  | unknown label key name => label ++ " " ++ key ++ ": devkit.toml has no key `" ++ name ++
      "`; `devkit schema` lists the keys"
  | harness label key => label ++ " " ++ key
  | unterminated key path => "`" ++ key ++ "`: unterminated `$\x7b` in " ++ path
  | unset key name => "`" ++ key ++ "`: `$\x7b" ++ name ++ "\x7d` is not set in the environment"

/-- Tables of the schema that are read from the config files alone, with the reason. -/
def fileOnlyTables : List (String × String) :=
  [("config", "it decides which config files exist, before any value merges"),
    ("docs", "`docm` reads it from the config files")]

/-- The scanner's place in a key: the quote it is in, and whether the character before was a backslash. -/
structure Quoting where
  quote : Option Char
  escaped : Bool

/-- The scanner's place after a character; none at an `=` outside quotes. -/
def Quoting.next (q : Quoting) (c : Char) : Option Quoting :=
  match q.quote with
  | some '"' =>
    if q.escaped then some { q with escaped := false }
    else if c = '\\' then some { q with escaped := true }
    else if c = '"' then some { q with quote := none }
    else some q
  | some quote => if c = quote then some { q with quote := none } else some q
  | none =>
    if c = '"' ∨ c = '\'' then some { q with quote := some c }
    else if c = '=' then none
    else some q

/-- What stands before and after the first `=` outside quotes. -/
def splitFrom (q : Quoting) : List Char → Option (List Char × List Char)
  | [] => none
  | c :: rest =>
    match q.next c with
    | none => some ([], rest)
    | some q => (splitFrom q rest).map fun found => (c :: found.1, found.2)

/-- An option split at its first `=` outside a quoted key segment. -/
def splitAssignment (arg : List Char) : Option (List Char × List Char) := splitFrom ⟨none, false⟩ arg

/-- A text without whitespace at its ends. -/
def trim (text : List Char) : List Char := (text.dropWhile isWhitespace).rdropWhile isWhitespace

/-- The keys down the one path of a table. -/
def onePath : Value S → Option (List String)
  | .table [(key, value)] => (onePath value).map (key :: ·)
  | .table _ => none
  | _ => some []

/-- The segments of a dotted TOML key. -/
def keySegments (lib : Libraries S) (key : List Char) : Option (List String) := do
  let table ← lib.fromStr (key ++ " = 0".toList)
  onePath (.table table)

section Parse

variable (lib : Libraries S) (label : String)

/-- One option, as the key's segments and the value. -/
def parseOne (arg : List Char) : Except OptionError (List String × Value S) :=
  match splitAssignment arg with
  | none => .error (.noAssignment label (String.ofList arg))
  | some (key, value) =>
    let key := trim key
    match keySegments lib key with
    | none => .error (.notKey label (String.ofList arg) (String.ofList key))
    | some path =>
      match lib.fromStr ("v = ".toList ++ value) with
      | none => .error (.notValue label (String.ofList key) (String.ofList value))
      | some [("v", value)] => .ok (path, value)
      | some _ => .error (.manyValues label (String.ofList key) (String.ofList value))

/-- Set a path in a table, replacing what a segment held that is no table. -/
def insertAt : List String → Value S → Table S → Table S
  | [], _, table => table
  | [last], value, table => putRow last value table
  | key :: path, value, table =>
    let inner : Table S := match rowOf key table with
      | some (.table inner) => inner
      | _ => []
    putRow key (.table (insertAt path value inner)) table

/-- A key as it is typed, without its quotes. -/
def joined (path : List String) : String := ".".intercalate path

/-- The path of a key that the schema does not know, if there is one. -/
def unknownIn (path : List String) (value : Value S) : Option (List String) :=
  match path with
  | "harness" :: rest =>
    (unknownKey lib.schemas lib.schemas.harness (nested rest value) lib.schemas.harness).map ("harness" :: ·)
  | path => unknownKey lib.schemas lib.schemas.config (nested path value) lib.schemas.config

/-- An option's key and value are checked against the schema. -/
def checkKey (path : List String) (value : Value S) : Except OptionError Unit :=
  match fileOnlyTables.find? fun row => path.head? == some row.1 with
  | some (table, reason) => .error (.fileOnly label (joined path) table reason)
  | none =>
    match unknownIn lib path value with
    | some unknown =>
      .error (.unknown label (joined path) (joined (if unknown.length ≤ path.length then path else unknown)))
    | none => .ok ()

/-- Parse and set each option in turn. -/
def setAll (args : List (List Char)) (state : Table S × List (List String)) :
    Except OptionError (Table S × List (List String)) :=
  args.foldlM (fun state arg => do
    let (path, value) ← parseOne lib label arg
    checkKey lib label path value
    .ok (insertAt path value state.1,
      if path.head? = some "harness" then state.2 ++ [path] else state.2)) state

/-- The value at a path below `harness`, where it still is there, is read as the harness section is. -/
def checkHarnessValue (table : Table S) (path : List String) : Except OptionError Unit :=
  match (Value.table table).at path with
  | some value =>
    if readsHarness lib.readers path value then .ok () else .error (.harness label (joined path))
  | none => .ok ()

/-- One set of options. -/
def parseSet (args : List (List Char)) : Except OptionError (Table S) := do
  let (table, harnessKeys) ← setAll lib label args ([], [])
  harnessKeys.forM (checkHarnessValue lib label table)
  .ok table

end Parse

/-- The two sets of options of a command. -/
structure Options (S : Type) where
  environment : Table S
  commandLine : Table S

/-- The lines of a text, each without its line ending, which the last one may not have. -/
def lines (text : List Char) : List (List Char) :=
  let pieces := text.splitOn '\n'
  let last := pieces.getLastD []
  pieces.dropLast.map (fun line => if line.getLast? = some '\r' then line.dropLast else line) ++
    if last = [] then [] else [last]

namespace Options

variable (lib : Libraries S)

/-- The options of the environment variable's lines, under those of the command line. -/
def new (variable_ : Option String) (commandLine : List String) : Except OptionError (Options S) := do
  let set := (lines (variable_.getD "").toList).filter fun line => !(trim line).isEmpty
  let environment ← parseSet lib "$DEVKIT_OPTIONS" set
  let commandLine ← parseSet lib "--option" (commandLine.map String.toList)
  .ok ⟨environment, commandLine⟩

/-- Neither set sets anything. -/
def isEmpty (options : Options S) : Bool := options.environment.isEmpty && options.commandLine.isEmpty

end Options

mutual

/-- A value over the one there: tables are merged, another value replaces. -/
def mergeValue : Value S → Option (Value S) → Value S
  | .table overlay, some (.table entries) => .table (deepMerge overlay entries)
  | value, _ => value

/-- The entries of an overlay merged into a table. -/
def deepMerge : Table S → Table S → Table S
  | [], table => table
  | (key, value) :: rest, table => deepMerge rest (putRow key (mergeValue value (rowOf key table)) table)

end

/-- The layers that set something, lowest precedence first. -/
def Options.layers (options : Options S) : List (Table S) :=
  [options.environment, options.commandLine].filter fun table => !table.isEmpty

/-- The layers merged into one table. -/
def mergeLayers (layers : List (Table S)) : Table S := layers.foldl (fun merged layer => deepMerge layer merged) []

/-- Both sets merged into one table, where they set anything. -/
def Options.merged (options : Options S) : Option (Table S) :=
  if options.isEmpty then none else some (mergeLayers options.layers)

end Devkit.Config
