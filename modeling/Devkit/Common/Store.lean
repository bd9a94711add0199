import Devkit.Common.Path
import Devkit.Library.OrderedMap
import Devkit.Todos.Item

/-!
# The shared document store

A document is kept in one file, read and written back under a lock. What reads as text and parses is the
document, what does not parse is salvaged if it can be, and text that can be neither is moved to a backup.
The new document is written to a file of its own, which is renamed over the old one. Which of these calls
to the system succeed is not the store's to say, so each run is given their outcomes; what the JSON
library does is a parameter of the document.
-/

namespace Devkit.Common

open Devkit.Library
open Devkit.Todos (isWhitespace)
open Std

/-- A kind of document: its first value, the version it is stamped with, and how it is read, salvaged and printed. -/
structure Document (D : Type) where
  default : D
  stampVersion : D → D
  salvage : String → Option D
  fromStr : String → Option D
  toVecPretty : D → Option OsStr

/-- The data file and those written beside it, by their contents where they exist. -/
structure Files where
  data : Option OsStr
  tmp : Option OsStr
  bak : Option OsStr
deriving DecidableEq

/-- Which calls succeed: taking the lock, reading the data file, moving it aside, writing the new file, which may leave
part of it when it fails, and renaming that over the data file. -/
structure Calls where
  locks : Bool
  reads : Bool
  backsUp : Bool
  writes : Bool
  written : Option OsStr
  replaces : Bool

/-- Why an update of the store fails. -/
inductive StoreError (E : Type)
  | lock
  | action (reason : E)
  | serialize
  | write
  | replace
deriving DecidableEq

/-- Whether a text is empty once trimmed. -/
def trimIsEmpty (text : String) : Bool := text.toList.all isWhitespace

section SalvageMap

variable {J K V : Type} [Ord K] [TransOrd K] [LawfulEqOrd K]

/-- One member of the salvaged object, kept where its key and its value still parse. -/
def salvageEntry (parseKey : String → Option K) (fromValue : J → Option V) (out : ExtTreeMap K V)
    (member : String × J) : ExtTreeMap K V :=
  match parseKey member.1, fromValue member.2 with
  | some key, some entry => out.insert key entry
  | _, _ => out

/-- The members of a field that still parse, where the text is an object with an object there. -/
def salvageMap (members : String → String → Option (List (String × J))) (parseKey : String → Option K)
    (fromValue : J → Option V) (raw field : String) : Option (ExtTreeMap K V) :=
  (members raw field).map fun rows => rows.foldl (salvageEntry parseKey fromValue) ∅

/-- A salvaged map has the keys of the members whose key and value parse. -/
theorem mem_salvageMap [DecidableEq K] {members : String → String → Option (List (String × J))}
    {parseKey : String → Option K} {fromValue : J → Option V} {raw field : String} {rows : List (String × J)}
    (hrows : members raw field = some rows) : ∃ out, salvageMap members parseKey fromValue raw field = some out ∧
      ∀ key, key ∈ out ↔ ∃ member ∈ rows, parseKey member.1 = some key ∧ (fromValue member.2).isSome := by
  have hfold : ∀ (rows : List (String × J)) (out : ExtTreeMap K V) (key : K),
      key ∈ rows.foldl (salvageEntry parseKey fromValue) out ↔
        key ∈ out ∨ ∃ member ∈ rows, parseKey member.1 = some key ∧ (fromValue member.2).isSome := by
    intro rows
    induction rows with
    | nil => simp
    | cons member rest ih =>
      intro out key
      rw [List.foldl_cons, ih]
      have hstep : key ∈ salvageEntry parseKey fromValue out member ↔
          key ∈ out ∨ parseKey member.1 = some key ∧ (fromValue member.2).isSome := by
        unfold salvageEntry
        cases hkey : parseKey member.1 with
        | none => simp
        | some found =>
          cases hvalue : fromValue member.2 with
          | none => simp
          | some entry => simp [ExtTreeMap.mem_insert, or_comm]
      rw [hstep, or_assoc]
      simp only [List.mem_cons, or_and_right, exists_or, exists_eq_left]
  refine ⟨_, by rw [salvageMap, hrows]; rfl, fun key => ?_⟩
  rw [hfold]
  simp

end SalvageMap

namespace Document

variable {D E T : Type} (doc : Document D) (calls : Calls)

/-- Load the document, salvaging it where it no longer parses and moving it aside where that fails too. -/
def read (files : Files) : Files × D :=
  match if calls.reads then files.data.bind toStr else none with
  | none => (files, doc.default)
  | some text =>
    if trimIsEmpty text then (files, doc.default)
    else
      match doc.fromStr text with
      | some d => (files, d)
      | none =>
        match doc.salvage text with
        | some d => (files, d)
        -- The rename's failure is ignored.
        | none => (if calls.backsUp then { files with data := none, bak := files.data } else files, doc.default)

/-- Write the document to a file beside the data file, and rename that over it. -/
def write (files : Files) (data : D) : Files × Except (StoreError E) Unit :=
  match doc.toVecPretty data with
  | none => (files, .error .serialize)
  | some bytes =>
    if !calls.writes then ({ files with tmp := calls.written }, .error .write)
    else if !calls.replaces then ({ files with tmp := some bytes }, .error .replace)
    else ({ files with data := some bytes, tmp := none }, .ok ())

/-- Load the document, run an action on it, and write the result, all under the lock. -/
def withLockVia (load : Files → Files × Except (StoreError E) D) (f : D → Except E (T × D)) (files : Files) :
    Files × Except (StoreError E) T :=
  if !calls.locks then (files, .error .lock)
  else
    match load files with
    | (files, .error reason) => (files, .error reason)
    | (files, .ok data) =>
      match f data with
      | .error reason => (files, .error (.action reason))
      | .ok (out, data) =>
        match doc.write calls files (doc.stampVersion data) with
        | (files, .error reason) => (files, .error reason)
        | (files, .ok ()) => (files, .ok out)

/-- An update of the document under the lock. -/
def withLock (f : D → Except E (T × D)) (files : Files) : Files × Except (StoreError E) T :=
  doc.withLockVia calls (fun files => ((doc.read calls files).1, .ok (doc.read calls files).2)) f files

end Document

end Devkit.Common
