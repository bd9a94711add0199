import Devkit.Common.Segments
import Devkit.Hook.Writes
import Devkit.Ticket.Status
import Mathlib.Algebra.GroupWithZero.Nat
import Mathlib.Data.List.DropRight

/-!
# The words of a command

A word of an analyzed command has a value that is known, or known in part. A known path is resolved against the
directory a command runs in, by the rules of the machine it runs on.
-/

namespace Devkit.Command

open Devkit.Common (stripPrefix)
open Devkit.Hook (Target Value)
open Devkit.Ticket (splitOnce)

/-- The rules of the machine a command runs on. -/
inductive PathStyle
  | unix
  | windows
deriving DecidableEq

/-- The text of a word that is known whole. -/
def known : Value → Option String
  | .known text => some text
  | .unknown | .ephemeral _ | .within _ | .prefixed _ => none

/-- The `PATH` a program is looked up on. -/
inductive SearchPath
  | inherited
  | set (path : Value)
deriving DecidableEq

/-- One word of a command: its value, its text as typed, and where it stands. -/
structure Word where
  value : Value
  typed : String
  span : ℕ × ℕ
deriving DecidableEq

/-- A directory change that a wrapper makes. -/
inductive CwdChange
  | inherit
  | to (dir : String)
  | unknown
deriving DecidableEq

/-- The directory after a change. -/
def CwdChange.apply (change : CwdChange) (inherited : Option String) : Option String :=
  match change with
  | .inherit => inherited
  | .to dir => some dir
  | .unknown => none

/-- The text starts with another. -/
def startsWith (text start : String) : Bool := start.toList.isPrefixOf text.toList

/-- A text without another at its end, when it ends with it. -/
def stripSuffix (text suffix : String) : Option String :=
  if suffix.toList.isSuffixOf text.toList then
    some (String.ofList (text.toList.take (text.toList.length - suffix.toList.length)))
  else none

/-- The last component of a program's path. -/
def basename (prog : String) : String := String.ofList (prog.toList.rtakeWhile fun c => c != '/' && c != '\\')

/-- The program a word names. -/
def programName (word : Word) : Option String :=
  (known word.value).map fun text => (stripSuffix (basename text) ".exe").getD (basename text)

/-- Whether an environment variable is `PATH`. -/
def isPathName (name : String) : PathStyle → Bool
  | .unix => name == "PATH"
  | .windows => name.toList.map Char.toUpper == "PATH".toList

/-- The value a word assigns to `PATH`. -/
def pathAssignment (word : Word) (style : PathStyle) : Option Value :=
  match word.value with
  | .known text =>
    (splitOnce '=' text).bind fun sides => if isPathName sides.1 style then some (.known sides.2) else none
  | .prefixed text => (splitOnce '=' text).bind fun sides => if isPathName sides.1 style then some .unknown else none
  | .unknown | .ephemeral _ | .within _ => none

/-- Whether a text starts `NAME=`. -/
def namesVariable (text : String) : Bool :=
  (splitOnce '=' text).any fun sides =>
    !sides.1.toList.isEmpty && sides.1.toList.all (fun c => c.isAlphanum || c == '_') &&
      !sides.1.toList.head?.any Char.isDigit

/-- Whether a word is a shell assignment. -/
def isAssignment (word : Word) : Bool :=
  match word.value with
  | .known text | .prefixed text => namesVariable text
  | .unknown | .ephemeral _ | .within _ => false

/-- Whether a path names the same place from every directory. -/
def isAbsolute (path : List Char) : PathStyle → Bool
  | .unix => path.head? == some '/'
  | .windows =>
    match path with
    | drive :: ':' :: sep :: _ => drive == '/' || drive == '\\' || (drive.isAlpha && (sep == '/' || sep == '\\'))
    | first :: _ => first == '/' || first == '\\'
    | [] => false

/-- The Windows spelling of a path that names a drive as a directory. -/
def fromMsys : List Char → Option (List Char)
  | '/' :: drive :: '/' :: rest => if drive.isAlpha then some (drive.toUpper :: ':' :: '/' :: rest) else none
  | _ => none

/-- A relative path put after a directory. -/
def join (base rel : String) (style : PathStyle) : String :=
  let rel := (stripPrefix rel "./").getD rel
  if rel = "." ∨ rel = "" then base
  else
    let kept := match style with
      | .unix => base.toList.rdropWhile (· == '/')
      | .windows => base.toList.rdropWhile fun c => c == '/' || c == '\\'
    String.ofList (kept ++ '/' :: rel.toList)

/-- The path that a known text names from a directory. -/
def resolveKnown (path : String) (cwd : Option String) (style : PathStyle) : Target :=
  if path.toList.isEmpty || path.toList.any fun c => c == '*' || c == '?' || c == '[' then .unresolved
  else
    match style, fromMsys path.toList with
    | .windows, some drive => .path (String.ofList drive)
    | _, _ =>
      if isAbsolute path.toList style then .path path
      else
        match cwd with
        | some dir => .path (join dir path style)
        | none => .unresolved

/-- The path that a value names from a directory. -/
def resolve (value : Value) (cwd : Option String) (style : PathStyle) : Target :=
  match value with
  | .known path => resolveKnown path cwd style
  | .unknown | .prefixed _ => .unresolved
  | .ephemeral place => .ephemeral place
  | .within dir =>
    match resolveKnown dir cwd style with
    | .path dir => .within dir
    | .unresolved | .ephemeral _ | .within _ => .unresolved

/-- The directory change of a wrapper that runs its program in a directory. -/
def changeTo (value : Value) (current : Option String) (style : PathStyle) : CwdChange :=
  match resolve value current style with
  | .path dir => .to dir
  | .unresolved | .ephemeral _ | .within _ => .unknown

/-- A word the analysis puts in. -/
def literal (text : String) : Word := ⟨.known text, text, (0, 0)⟩

/-- How much text of a word is known. -/
def knownLength (word : Word) : ℕ := (known word.value).elim 0 fun text => text.toList.length

/-- How much text of some words is known. -/
def knownText (words : List Word) : ℕ := (words.map knownLength).sum

@[simp] theorem knownText_cons (word : Word) (words : List Word) :
    knownText (word :: words) = knownLength word + knownText words := rfl

@[simp] theorem knownText_append (words more : List Word) : knownText (words ++ more) = knownText words + knownText more := by
  rw [knownText, List.map_append, List.sum_append]
  rfl

end Devkit.Command
