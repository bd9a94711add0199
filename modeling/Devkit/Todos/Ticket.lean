import Devkit.Todos.Builtin
import Mathlib.Data.List.DropRight

/-!
# Tickets and the status map

A ticket as a sync reads it from a tracker, the map from status names to todo statuses, and the
faults that stop a sync before anything is planned. The lower-case and debug forms of a text
follow the Unicode tables, which are a parameter.
-/

namespace Devkit.Todos

open Devkit.Library
open Std

/-- The text forms that follow the Unicode tables: lower case, and quoted with escapes. -/
structure Unicode where
  lower : String → String
  debug : String → String

/-- Why an issue was closed. -/
inductive CloseReason
  | completed
  | notPlanned
  | duplicate
deriving DecidableEq

/-- Where a ticket stands on its tracker. -/
inductive TicketStatus
  | named (name : String)
  | closed (reason : CloseReason)
deriving DecidableEq

/-- One ticket as a sync reads it. -/
structure SyncedTicket where
  key : String
  title : String
  status : TicketStatus
  blockedBy : List String
  parent : Option String
deriving DecidableEq

/-- The todo status a tracker status maps to. -/
inductive MappedStatus
  | pending
  | inProgress
  | completed
  | cancelled
deriving DecidableEq

/-- Whose ticket a rule matches. -/
inductive Assignee
  | me
  | nobody
  | user (name : String)
deriving DecidableEq

/-- The role the account has in a ticket's project. -/
inductive ProjectRole
  | lead
  | member
deriving DecidableEq

/-- One rule that selects tickets: every condition it sets must hold. -/
structure MatchRule where
  assignee : Option Assignee
  projectRole : Option ProjectRole
  labels : List String
deriving DecidableEq

/-- The part of the sync configuration a sync reads: the rules that select tickets, and each status
name with what it maps to. -/
structure TicketSyncConfig where
  rules : List MatchRule
  statuses : ExtTreeMap String MappedStatus

/-- A text without the whitespace around it. -/
def trim (text : String) : String :=
  String.ofList ((text.toList.dropWhile isWhitespace).rdropWhile isWhitespace)

/-- A text with its ASCII letters in lower case. -/
def asciiLower (text : String) : String := text.map Char.toLower

/-- Two status names are the same, ignoring case and the whitespace around them. -/
def sameStatus (text : Unicode) (a b : String) : Bool := text.lower (trim a) == text.lower (trim b)

namespace TicketSyncConfig

/-- What the first entry that matches a status name maps it to, ignoring ASCII case. -/
def lookup (config : TicketSyncConfig) (name : String) : Option MappedStatus :=
  (config.statuses.toList.find? fun entry => asciiLower (trim entry.1) == asciiLower (trim name)).map
    Prod.snd

/-- The status names mapped to completed or cancelled. -/
def closedNames (config : TicketSyncConfig) : List String :=
  (config.statuses.toList.filter fun entry => entry.2 == .completed || entry.2 == .cancelled).map
    Prod.fst

end TicketSyncConfig

/-- The form of a key a ticket todo's text starts with. -/
def keyPrefix (tracker key : String) : String :=
  if tracker = "github" then "#" ++ String.ofList (key.toList.rtakeWhile (· != '#')) else key

/-- The text a ticket's todo carries. -/
def todoText (tracker key title : String) : String := oneLine (keyPrefix tracker key ++ " " ++ title)

/-- The name a ticket todo records as its ticket's last synced status. -/
def statusName : TicketStatus → String
  | .named name => name
  | .closed .completed => "closed:completed"
  | .closed .notPlanned => "closed:not_planned"
  | .closed .duplicate => "closed:duplicate"

/-- The todo status of a mapped one. -/
def mappedKind : MappedStatus → StatusKind
  | .pending => .pending
  | .inProgress => .inProgress
  | .completed => .completed
  | .cancelled => .cancelled

/-- The todo status a ticket's status maps to, none for a name the map lacks. -/
def target (status : TicketStatus) (config : TicketSyncConfig) : Option StatusKind :=
  match status with
  | .named name => (config.lookup name).map mappedKind
  | .closed .completed => some .completed
  | .closed .notPlanned | .closed .duplicate => some .cancelled

/-- Note the ticket under its status name when the map lacks the name. -/
def noteUnmapped (config : TicketSyncConfig) (names : ExtTreeMap String (List String))
    (ticket : SyncedTicket) : ExtTreeMap String (List String) :=
  match ticket.status with
  | .named name =>
    if (config.lookup name).isNone then
      names.insert (trim name) (names.getD (trim name) [] ++ [ticket.key])
    else names
  | .closed _ => names

/-- The names of fetched statuses the map lacks, each with the keys of its tickets. -/
def unmapped (fetched : List SyncedTicket) (config : TicketSyncConfig) : ExtTreeMap String (List String) :=
  fetched.foldl (noteUnmapped config) ∅

/-- The names of the map by their lower-case form. -/
def spellings (text : Unicode) (config : TicketSyncConfig) : ExtTreeMap String (List String) :=
  config.statuses.keys.foldl (fun forms name =>
    forms.insert (text.lower (trim name)) (forms.getD (text.lower (trim name)) [] ++ [name])) ∅

/-- Every fault: a fetched status the map lacks, one status named twice, a name the tracker lacks. -/
def faults (text : Unicode) (fetched : List SyncedTicket) (knownNames : List String)
    (config : TicketSyncConfig) : List String :=
  ((unmapped fetched config).toList.map fun row =>
    "[ticket.sync.statuses] does not map the status " ++ text.debug row.1 ++ " (tickets " ++
      ", ".intercalate row.2 ++ ")") ++
  (((rows (spellings text config)).filter fun names => 1 < names.length).map fun names =>
    "[ticket.sync.statuses] maps " ++ ", ".intercalate (names.map text.debug) ++
      " as separate names, but status names match ignoring case and surrounding whitespace") ++
  ((config.statuses.keys.filter fun name => !knownNames.any (sameStatus text · name)).map fun name =>
    "[ticket.sync.statuses] maps " ++ text.debug name ++ ", which the tracker has no status for; it has " ++
      ", ".intercalate (knownNames.map text.debug))

/-- Fails, naming every fault. -/
def validate (text : Unicode) (fetched : List SyncedTicket) (knownNames : List String)
    (config : TicketSyncConfig) : Except String Unit :=
  match faults text fetched knownNames config with
  | [] => .ok ()
  | texts => .error ("; ".intercalate texts)

/-- Validation succeeds exactly when there is no fault. -/
theorem validate_eq_ok {text : Unicode} {fetched : List SyncedTicket} {knownNames : List String}
    {config : TicketSyncConfig} :
    validate text fetched knownNames config = .ok () ↔ faults text fetched knownNames config = [] := by
  unfold validate
  split
  · rename_i hnone
    simp [hnone]
  · rename_i hfaults
    exact iff_of_false (by simp) hfaults

/-- A name once noted stays noted. -/
theorem mem_foldl_noteUnmapped {config : TicketSyncConfig} {fetched : List SyncedTicket}
    {names : ExtTreeMap String (List String)} {name : String} (hname : name ∈ names) :
    name ∈ fetched.foldl (noteUnmapped config) names := by
  induction fetched generalizing names with
  | nil => exact hname
  | cons ticket rest ih =>
    refine ih ?_
    unfold noteUnmapped
    split
    · split
      · exact ExtTreeMap.mem_insert.mpr (Or.inr hname)
      · exact hname
    · exact hname

/-- A status without a target is noted. -/
theorem mem_unmapped {config : TicketSyncConfig} {fetched : List SyncedTicket} {ticket : SyncedTicket}
    (hticket : ticket ∈ fetched) (htarget : target ticket.status config = none) :
    ∃ name, name ∈ unmapped fetched config := by
  obtain ⟨before, after, rfl⟩ := List.append_of_mem hticket
  cases hstatus : ticket.status with
  | closed reason => cases reason <;> simp [hstatus, target] at htarget
  | named name =>
    rw [hstatus, target, Option.map_eq_none_iff] at htarget
    refine ⟨trim name, ?_⟩
    rw [unmapped, List.foldl_append, List.foldl_cons]
    refine mem_foldl_noteUnmapped ?_
    simp [noteUnmapped, hstatus, htarget]

/-- Validated tickets are all in a status with a target. -/
theorem target_isSome {text : Unicode} {fetched : List SyncedTicket} {knownNames : List String}
    {config : TicketSyncConfig} (hvalid : validate text fetched knownNames config = .ok ())
    {ticket : SyncedTicket} (hticket : ticket ∈ fetched) : (target ticket.status config).isSome = true := by
  by_contra hnone
  obtain ⟨name, hname⟩ := mem_unmapped hticket (Option.not_isSome_iff_eq_none.mp hnone)
  have hempty : (unmapped fetched config).toList = [] := by
    have hfaults := validate_eq_ok.mp hvalid
    simp only [faults, List.append_eq_nil_iff, List.map_eq_nil_iff] at hfaults
    exact hfaults.1.1
  rw [ExtTreeMap.mem_iff_isSome_getElem?] at hname
  obtain ⟨keys, hkeys⟩ := Option.isSome_iff_exists.mp hname
  have hrow := ExtTreeMap.mem_toList_iff_getElem?_eq_some.mpr hkeys
  rw [hempty] at hrow
  contradiction

section Example

/-- Texts of ASCII letters, and quotes around them. -/
def asciiText : Unicode := ⟨asciiLower, fun text => "\"" ++ text ++ "\""⟩

/-- A rule for every open ticket, and a status map of two names. -/
def twoNames : TicketSyncConfig :=
  ⟨[⟨none, none, []⟩], ExtTreeMap.ofList [("Doing", MappedStatus.inProgress), ("Todo", MappedStatus.pending)]⟩

end Example

end Devkit.Todos
