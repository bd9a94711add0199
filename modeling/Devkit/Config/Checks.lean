import Devkit.Library.Toml

/-!
# Which option values are accepted

An option's keys are looked up in the JSON schema of the config, and a value below `harness` is read,
alone, as the harness section is. The schema and the readers of single values are generated; they are
parameters, and so is how many references deep the schema is followed.
-/

namespace Devkit.Config

open Devkit.Library
open Devkit.Library.Toml

variable {S : Type}

/-- A JSON value. -/
inductive Json
  | null
  | bool (value : Bool)
  | number (text : String)
  | string (text : String)
  | array (items : List Json)
  | object (entries : List (String × Json))

/-- The value of a member, of an object that has it. -/
def Json.get (key : String) : Json → Option Json
  | .object entries => rowOf key entries
  | _ => none

/-- The schema admits a kind of value. -/
def admits (kind : String) (node : Json) : Bool :=
  match node.get "type" with
  | none => match node with
    | .object _ | .bool true => true
    | _ => false
  | some (.string name) => name == kind
  | some (.array names) => names.any fun name => match name with
    | .string name => name == kind
    | _ => false
  | some _ => false

/-- The schemas of an array's items at a node. -/
def itemSchemas (node : Json) : List Json :=
  match node.get "items" with
  | some (.array tuple) => tuple
  | some items => [items]
  | none => if admits "array" node then [.bool true] else []

/-- The schemas of a key's value at a node. -/
def fieldSchemas (key : String) (node : Json) : List Json :=
  match (node.get "properties").bind (Json.get key), node.get "additionalProperties" with
  | some field, _ => [field]
  | none, some (.bool false) => []
  | none, some (.bool true) => [.bool true]
  | none, some values => [values]
  | none, none => if (node.get "properties").isNone && admits "object" node then [.bool true] else []

/-- The schemas of the config and of its harness section, how a pointer is looked up in one, and how many
steps a reference is followed. -/
structure Schemas where
  config : Json
  harness : Json
  pointer : Json → String → Option Json
  depth : ℕ

section Schemas

variable (schemas : Schemas) (root : Json)

/-- The pointer of a local reference. -/
def localPointer (reference : String) : Option String :=
  match reference.toList with
  | '#' :: rest => some (String.ofList rest)
  | _ => none

/-- A node with local references followed. -/
def resolveRef : ℕ → Json → Json
  | 0, node => node
  | depth + 1, node =>
    match node.get "$ref" with
    | some (.string reference) =>
      match (localPointer reference).bind (schemas.pointer root) with
      | some target => resolveRef depth target
      | none => node
    | _ => node

/-- What is picked at a node and in each branch below it, with references followed. -/
def schemasOf (pick : Json → List Json) : ℕ → Json → List Json
  | 0, _ => []
  | depth + 1, node =>
    let node := resolveRef schemas root (depth + 1) node
    let branches := ["anyOf", "oneOf", "allOf"].flatMap fun key =>
      match node.get key with
      | some (.array items) => items
      | _ => []
    if branches.isEmpty then pick node else branches.flatMap (schemasOf pick depth)

/-- None when one of the schemas admits every key, otherwise the first unknown key's path from the segment. -/
def firstUnknown (unknown : Json → Option (List String)) (segment : String) (candidates : List Json) :
    Option (List String) :=
  if candidates.any fun schema => (unknown schema).isNone then none
  else some (segment :: ((candidates.filterMap unknown).find? fun path => !path.isEmpty).getD [])

mutual

/-- The first key in a value that the schema at a node does not admit, as its path below the node. -/
def unknownKey : Value S → Json → Option (List String)
  | .table entries, node => unknownEntry entries node
  | .array items, node =>
    let found := schemasOf schemas root itemSchemas schemas.depth node
    if found.isEmpty then none else unknownItem 0 items found
  | .string _, _ | .scalar _, _ => none

/-- The first unknown key among the entries of a table. -/
def unknownEntry : List (String × Value S) → Json → Option (List String)
  | [], _ => none
  | (key, value) :: rest, node =>
    (firstUnknown (unknownKey value) key (schemasOf schemas root (fieldSchemas key) schemas.depth node)).or
      (unknownEntry rest node)

/-- The first unknown key among the items of an array. -/
def unknownItem : ℕ → List (Value S) → List Json → Option (List String)
  | _, [], _ => none
  | i, value :: rest, found =>
    (firstUnknown (unknownKey value) i.repr found).or (unknownItem (i + 1) rest found)

end

end Schemas

/-- How a value is read: by a reader of single values, as a map of values read alike, or as a record of
named fields, each required or not. A value that is no table is read as a map or a record by another way. -/
inductive Shape (S : Type)
  | plain (reads : Value S → Bool)
  | map (entry : Shape S) (other : Value S → Bool)
  | record (fields : List (String × Bool × Shape S)) (other : Value S → Bool)

mutual

/-- The value is read by the shape. -/
def Shape.reads : Shape S → Value S → Bool
  | .plain reads, value => reads value
  | .map entry _, .table entries => entries.all fun row => entry.reads row.2
  | .map _ other, value => other value
  | .record fields _, .table entries => readsFields fields entries
  | .record _ other, value => other value

/-- Each field is read from the table, or missing and not required. -/
def readsFields : List (String × Bool × Shape S) → Table S → Bool
  | [], _ => true
  | (name, required, shape) :: rest, entries =>
    (match rowOf name entries with
      | some value => shape.reads value
      | none => !required) && readsFields rest entries

end

/-- The readers of the harness section's single values, and of a record or map from a value that is no table. -/
structure Readers (S : Type) where
  boolean : Value S → Bool
  strings : Value S → Bool
  word : Value S → Bool
  shell : Value S → Bool
  policyAction : Value S → Bool
  ruleAction : Value S → Bool
  severity : Value S → Bool
  tracker : Value S → Bool
  inputKeys : Value S → Bool
  fidelity : Value S → Bool
  promptFidelity : Value S → Bool
  days : Value S → Bool
  bytes : Value S → Bool
  other : String → Value S → Bool

section Harness

variable (readers : Readers S)

/-- A string, or a path, which is one. -/
def readsString : Value S → Bool
  | .string _ => true
  | _ => false

/-- A field that may be missing. -/
def optional (name : String) (reads : Value S → Bool) : String × Bool × Shape S := (name, false, .plain reads)

/-- A command rule. -/
def commandRule : Shape S :=
  .record
    [optional "programs" readers.strings, optional "args" readers.strings, optional "reason" readsString,
      optional "enabled" readers.boolean, optional "action" readers.ruleAction, optional "severity" readers.severity]
    (readers.other "CommandRule")

/-- A rule for a tool whose text must be rendered. -/
def renderedToolRule : Shape S :=
  .record
    [optional "servers" readers.strings, optional "tools" readers.strings, optional "absent" readers.strings,
      ("equals", false, .map (.plain readsString) (readers.other "equals")), ("title", true, .plain readsString),
      ("body", true, .plain readsString), optional "body_patch" readers.strings, optional "enabled" readers.boolean,
      optional "tracker" readers.tracker, ("fields", false, .map (.plain readers.inputKeys) (readers.other "fields"))]
    (readers.other "RenderedToolRule")

/-- How commands are matched to apps. -/
def appMatch : Shape S :=
  .record [optional "fuzzy" readers.boolean, optional "max_typos" readers.word, optional "min_score" readers.word]
    (readers.other "AppMatch")

/-- What is logged. -/
def logSection : Shape S :=
  .record
    [optional "enabled" readers.boolean, optional "command" readers.fidelity, optional "prompt" readers.promptFidelity,
      optional "auto_prune" readers.boolean, optional "dir" readsString, optional "max_age_days" readers.days,
      optional "max_bytes" readers.bytes]
    (readers.other "LogSection")

/-- The harness section. -/
def harnessSection : Shape S :=
  .record
    [optional "enforce_writes" readers.boolean, optional "enforce_commands" readers.boolean,
      optional "shell" readers.shell, optional "unresolved_writes" readers.policyAction,
      optional "unsupported_language" readers.policyAction, optional "script_files" readers.policyAction,
      ("commands", false, .map (commandRule readers) (readers.other "commands")),
      ("issue_tools", false, .map (renderedToolRule readers) (readers.other "issue_tools")),
      ("pr_tools", false, .map (renderedToolRule readers) (readers.other "pr_tools")),
      ("app_match", false, appMatch readers), ("log", false, logSection readers)]
    (readers.other "HarnessSection")

end Harness

/-- A key set unless it is there. -/
def orInsert (key : String) (value : Value S) (entries : Table S) : Table S :=
  match rowOf key entries with
  | some _ => entries
  | none => putRow key value entries

/-- A rendered-tool entry with a title and a body. -/
def fillTool : Value S → Value S
  | .table entries => .table (orInsert "body" (.string "") (orInsert "title" (.string "") entries))
  | value => value

/-- Rendered-tool entries with titles and bodies. -/
def fillTools : Value S → Value S
  | .table entries => .table (entries.map fun row => (row.1, fillTool row.2))
  | value => value

/-- A harness value with the titles and bodies that an option leaves to a file. -/
def fillHarness : Value S → Value S
  | .table entries => .table (entries.map fun row =>
      if row.1 ∈ ["issue_tools", "pr_tools"] then (row.1, fillTools row.2) else row)
  | value => value

/-- The value below the first key of a path is read, alone, as the harness section. -/
def readsHarness (readers : Readers S) (path : List String) (value : Value S) : Bool :=
  (harnessSection readers).reads (fillHarness (nested path.tail value))

end Devkit.Config
