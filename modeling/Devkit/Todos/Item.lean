import Devkit.Library.Words
import Devkit.Todos.Transition

/-!
# Todos, edits and their errors

The record a store keeps for each todo, what a caller asks of it, and what it reports back.
Orders are machine integers; times are the RFC 3339 texts the store writes.
-/

namespace Devkit.Todos

open Devkit.Library

/-- The gap left between sibling orders. -/
def orderGap : Int64 := 1024

/-- The node of a todo that names none. -/
def globalNode : String := "global"

/-- The tracker ticket a todo stands for. -/
structure TicketRef where
  tracker : String
  key : String
  syncedStatus : Option String
deriving DecidableEq

/-- Both name the same ticket. -/
def TicketRef.sameTicket (ticket other : TicketRef) : Bool :=
  ticket.tracker == other.tracker && ticket.key == other.key

/-- One todo as a store keeps it. -/
structure Todo where
  id : String
  description : String
  status : Status
  parent : Option String
  order : Option Int64
  project : Option String
  entry : Option String
  modified : Option String
  blockedBy : List String
  ticket : Option TicketRef
deriving DecidableEq

/-- The node the todo belongs to, the global list when it names none. -/
def Todo.node (todo : Todo) : String := todo.project.getD globalNode

/-- A todo to add. -/
structure NewTodo where
  project : Option String
  description : String
  parent : Option String
  order : Option Int64
  ticket : Option TicketRef
deriving DecidableEq

/-- One change to the store. -/
inductive Edit
  | setStatus (id : String) (target : StatusKind) (actor : Holder)
  | describe (id description : String)
  | move (id : String) (parent : Option String) (order : Option Int64)
  | reorder (id : String) (order : Int64)
  | relocate (id : String) (project : Option String)
  | takeOver (id : String) (source actor : Holder)
  | releaseAll (holder : Holder)
  | purge (id : String)
  | prune (ids : List String)
  | block (id : String) (blockers : List String)
  | unblock (id : String) (blockers : List String)
  | recordSync (id syncedStatus : String)
deriving DecidableEq

/-- One reading of the clock: the instant and its RFC 3339 text. -/
structure Instant where
  nanos : ℤ
  text : String
deriving DecidableEq

/-- One todo's status as an edit changed it; no new status when the record was removed. -/
structure StatusChange where
  todo : String
  node : String
  source : Status
  target : Option Status
  time : Instant
deriving DecidableEq

/-- `todo` moving to `target`, now. -/
def StatusChange.of (now : Instant) (todo : Todo) (target : Option Status) : StatusChange :=
  ⟨todo.id, todo.node, todo.status, target, now⟩

/-- Why a store refused an edit. -/
inductive StoreError
  | noTodo (id : String)
  | claimed (claim : Claimed)
  | noTicket (id : String)
deriving DecidableEq

/-- Control characters and the bidirectional formatting characters. -/
def needsEscape (c : Char) : Bool :=
  c.toNat < 0x20 || (0x7f ≤ c.toNat && c.toNat < 0xa0) || c.toNat == 0x61c || c.toNat == 0x200e ||
    c.toNat == 0x200f || (0x202a ≤ c.toNat && c.toNat ≤ 0x202e) ||
    (0x2066 ≤ c.toNat && c.toNat ≤ 0x2069)

/-- Text safe to print to a terminal. -/
def printable (text : String) : String :=
  String.join (text.toList.map fun c =>
    if needsEscape c then "\\u\x7b" ++ String.ofList (Nat.toDigits 16 c.toNat) ++ "\x7d"
    else String.singleton c)

/-- The text of a refusal. -/
def StoreError.message : StoreError → String
  | .noTodo id => "no todo " ++ id
  | .claimed claim => "todo is in progress by " ++ printable claim.holder.text
  | .noTicket id => "todo " ++ id ++ " has no ticket"

/-- The characters of the Unicode property White_Space. -/
def isWhitespace (c : Char) : Bool :=
  (0x9 ≤ c.toNat && c.toNat ≤ 0xd) || c.toNat == 0x20 || c.toNat == 0x85 || c.toNat == 0xa0 ||
    c.toNat == 0x1680 || (0x2000 ≤ c.toNat && c.toNat ≤ 0x200a) || c.toNat == 0x2028 ||
    c.toNat == 0x2029 || c.toNat == 0x202f || c.toNat == 0x205f || c.toNat == 0x3000

/-- The words of a text: its runs of characters other than whitespace. -/
def splitWhitespace (text : List Char) : List (List Char) := words isWhitespace text

/-- The text on one line, every whitespace run collapsed to a single space. -/
def oneLine (text : String) : String :=
  " ".intercalate ((splitWhitespace text.toList).map String.ofList)

/-- Joining with single spaces, character by character. -/
theorem toList_intercalate (texts : List String) :
    (" ".intercalate texts).toList = [' '].intercalate (texts.map String.toList) := by
  induction texts with
  | nil => rfl
  | cons text rest ih =>
    cases rest with
    | nil => simp
    | cons next rest =>
      rw [String.intercalate_cons_cons, List.map_cons, List.map_cons, List.intercalate_cons_cons,
        ← List.map_cons, ← ih]
      simp

/-- A text on one line stays as it is. -/
theorem oneLine_oneLine (text : String) : oneLine (oneLine text) = oneLine text := by
  have hwords : splitWhitespace (oneLine text).toList = splitWhitespace text.toList := by
    rw [oneLine, toList_intercalate, List.map_map]
    have hchars : (String.toList ∘ String.ofList) = id := by
      funext chars
      exact String.toList_ofList
    rw [hchars, List.map_id]
    exact words_intercalate (by decide) fun word hword => mem_words hword
  rw [oneLine, hwords]
  rfl

end Devkit.Todos
