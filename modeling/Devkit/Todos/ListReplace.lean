import Devkit.Todos.Builtin
import Devkit.Todos.ListDiff

/-!
# Mirroring a plan tool's list

After a plan tool ran, its list is mirrored into the store: new steps become todos, the others
change or are cancelled, and the map of native entries remembers which todo each step became. A step
that names an open ticket's todo maps to it instead of adding one. Each store write reads the clock.
-/

namespace Devkit.Todos.Native

open Std

/-- The harnesses whose sessions name a todo node. -/
inductive Harness
  | claude
  | codex
  | grok
deriving DecidableEq

/-- The text a harness's keys begin with. -/
def Harness.key : Harness → String
  | .claude => "claude"
  | .codex => "codex"
  | .grok => "grok"

/-- One step of a list-replace tool's last list and the todo it became. The status is the one the
tool last sent, none in a list recorded before steps kept it. -/
structure MirroredStep where
  text : String
  todo : String
  status : Option StatusKind
deriving DecidableEq

/-- The key of a holder's list. -/
def holderKey (harness : Harness) (holder : Holder) : String :=
  harness.key ++ String.singleton (Char.ofNat 0x1f) ++ holder.text

/-- The todos by native id, and the last list of each holder. -/
structure NativeMap where
  ids : ExtTreeMap String String
  snapshots : ExtTreeMap String (List MirroredStep)

namespace NativeMap

/-- Drop every native id and every step that points at one of the todos. -/
def forgetAll (map : NativeMap) (todos : List String) : NativeMap :=
  ⟨map.ids.filter fun _ id => !todos.contains id,
    map.snapshots.map fun _ steps => steps.filter fun step => !todos.contains step.todo⟩

/-- The last list of a holder. -/
def snapshot (map : NativeMap) (harness : Harness) (holder : Holder) : List MirroredStep :=
  map.snapshots[holderKey harness holder]?.getD []

/-- The map with a holder's list replaced. -/
def setSnapshot (map : NativeMap) (harness : Harness) (holder : Holder) (steps : List MirroredStep) :
    NativeMap :=
  { map with snapshots := map.snapshots.insert (holderKey harness holder) steps }

end NativeMap

/-- What mirroring a native call needs beside the store: who acted, the node its session writes to, the
repository node, and, where the store has a checkout, whether a ticket key is one of its own issues. -/
structure Capture where
  harness : Harness
  actor : Holder
  node : String
  repo : Option String
  origin : Option (String → Bool)

/-- The texts are equal but for the case of ASCII letters. -/
def eqIgnoreAsciiCase (text other : List Char) : Bool := text.map Char.toLower == other.map Char.toLower

/-- The text after the last number sign, if there is one. -/
def afterLastHash (text : List Char) : Option (List Char) :=
  if '#' ∈ text then some (text.reverse.takeWhile fun c => c != '#').reverse else none

/-- A ticket key names an issue: itself, or its number after the repository. -/
def namesIssue (key issue : List Char) : Bool :=
  eqIgnoreAsciiCase key issue || (afterLastHash key).any fun number => number == issue

/-- The text without whitespace at its ends. -/
def trim (text : List Char) : List Char :=
  ((text.dropWhile isWhitespace).reverse.dropWhile isWhitespace).reverse

/-- A step's text names a ticket key: the key itself, or its number after a number sign where the
key is local. -/
def namesKey (isLocal : String → Bool) (text : List Char) (key : String) : Bool :=
  match text with
  | '#' :: number => namesIssue key.toList number && isLocal key
  | _ => eqIgnoreAsciiCase key.toList text

/-- The todo is open and stands for a ticket. -/
def openTicket (todo : Todo) : Bool := todo.status.kind.isOpen && todo.ticket.isSome

/-- The open ticket todo a text names, by its key or by the todo's own description. -/
def namedTicket (todos : List Todo) (text : String) (isLocal : String → Bool) : Option Todo :=
  let text := trim (oneLine text).toList
  let tickets := todos.filter openTicket
  (tickets.find? fun todo => todo.ticket.any fun ticket => namesKey isLocal text ticket.key).or
    (tickets.find? fun todo => todo.description.toList == text)

namespace Capture

/-- The todos on the repository node. -/
def repoTodos (c : Capture) (doc : Doc) : List Todo :=
  match c.repo with
  | some repo => doc.listExact repo
  | none => []

/-- The id of the open ticket todo a text names. -/
def ticketNamed (c : Capture) (repoTodos : List Todo) (text : String) : Option String :=
  c.origin.bind fun isLocal => (namedTicket repoTodos text isLocal).map Todo.id

end Capture

/-- One item of the list a tool sent: its text and its status, where they are strings. -/
structure Item where
  text : Option String
  status : Option String
deriving DecidableEq

/-- The status a tool's word stands for. -/
def nativeStatus (status : String) : Option StatusKind :=
  if status = "pending" then some .pending
  else if status = "in_progress" then some .inProgress
  else if status = "completed" then some .completed
  else if status = "deleted" ∨ status = "cancelled" then some .cancelled
  else none

/-- The steps of a list: its items with a text and a known status. -/
def stepsOf (list : List Item) : List Step :=
  list.filterMap fun item => do
    let text ← item.text
    let status ← nativeStatus (← item.status)
    some ⟨oneLine text, status⟩

/-- The store and the map of native entries. -/
structure Mirroring where
  doc : Doc
  native : NativeMap

/-- The remembered steps whose todo is still there. A ticket todo's status is the one the tool last
sent, since it also moves with its tracker. -/
def previousOf (todos : List Todo) (snapshot : List MirroredStep) : List Mirrored :=
  snapshot.filterMap fun step => do
    let current ← todos.find? fun todo => todo.id == step.todo
    let status := match step.status with
      | some sent => if current.ticket.isSome then sent else current.status.kind
      | none => current.status.kind
    some ⟨step.text, step.todo, status⟩

/-- An open step whose todo is on another node moves to the one the session writes to; a ticket's todo
stays on its repository. -/
def relocates (c : Capture) (todos : List Todo) (previous : List Mirrored) : List Edit :=
  (previous.filter fun prev => (prev.status == .pending || prev.status == .inProgress) &&
    todos.any fun todo => todo.id == prev.todo && todo.ticket.isNone && todo.project != some c.node).map
      fun prev => .relocate prev.todo (some c.node)

/-- A call under way: the store, how many writes it took, the todo of each step, the first refusal, the
steps whose cancel was refused, and the repository's todos once they were read. -/
structure Replacing where
  doc : Doc
  writes : ℕ
  ids : List (Option String)
  failed : Option StoreError
  uncancelled : List MirroredStep
  repoTodos : Option (List Todo)

/-- Write an edit whose refusal ends the call. -/
def writeOrStop (clock : ℕ → Instant) (edit : Edit) (state : Doc × ℕ) : Except (Doc × StoreError) (Doc × ℕ) :=
  match state.1.apply (clock state.2) edit with
  | .ok (doc, _) => .ok (doc, state.2 + 1)
  | .error refusal => .error (state.1, refusal)

namespace Replacing

/-- Write an edit and go on; the first refusal is kept. -/
def write (clock : ℕ → Instant) (state : Replacing) (edit : Edit) : Replacing × Bool :=
  match state.doc.apply (clock state.writes) edit with
  | .ok (doc, _) => ({ state with doc, writes := state.writes + 1 }, true)
  | .error refusal =>
    ({ state with writes := state.writes + 1, failed := state.failed.or (some refusal) }, false)

/-- The todo of the new step at an index: the ticket's it names, or one added for it. A refusal ends
the call. -/
def todoFor (c : Capture) (clock : ℕ → Instant) (state : Replacing) (ticket : Option String) (text : String)
    (index : ℕ) : Except (Doc × StoreError) (Replacing × String) :=
  match ticket with
  | some id => .ok (state, id)
  | none =>
    match state.doc.add (clock state.writes)
        { project := some c.node, description := text, parent := none, order := some (placeOrder index),
          ticket := none } with
    | .ok (doc, id) => .ok ({ state with doc, writes := state.writes + 1 }, id)
    | .error refusal => .error (state.doc, refusal)

/-- Map the new step at an index to its todo, and give that the step's status. -/
def add (c : Capture) (clock : ℕ → Instant) (next : List Step) (state : Replacing) (index : ℕ) :
    Except (Doc × StoreError) Replacing :=
  match next[index]? with
  | none => .ok state
  | some step => do
    let repoTodos := state.repoTodos.getD (c.repoTodos state.doc)
    let ticket := c.ticketNamed repoTodos step.text
    let state := { state with repoTodos := some repoTodos }
    let (state, id) ← state.todoFor c clock ticket step.text index
    let state :=
      if step.status ≠ .pending ∧ ¬ (ticket.isSome ∧ step.status = .cancelled) then
        (state.write clock (.setStatus id step.status c.actor)).1
      else state
    .ok { state with ids := state.ids.set index (some id) }

/-- Write one change. A change of a ticket's todo is only a status the tool itself moved. -/
def change (c : Capture) (clock : ℕ → Instant) (isTicket : String → Bool) (previous : List Mirrored)
    (next : List Step) (state : Replacing) : Change → Except (Doc × StoreError) Replacing
  | .add index => state.add c clock next index
  | .status todo target =>
    if target = .cancelled ∧ isTicket todo then .ok state
    else .ok (state.write clock (.setStatus todo target c.actor)).1
  | .cancel todo =>
    if isTicket todo then .ok state
    else
      let (state, cancelled) := state.write clock (.setStatus todo .cancelled c.actor)
      match cancelled, previous.find? fun prev => prev.todo == todo with
      | false, some prev =>
        .ok { state with uncancelled := state.uncancelled ++ [⟨prev.text, todo, some prev.status⟩] }
      | _, _ => .ok state
  | .reorder todo order =>
    if isTicket todo then .ok state else .ok (state.write clock (.reorder todo order)).1

end Replacing

/-- The steps a call leaves remembered: those of the list, and the ones it could not cancel. -/
def remembered (next : List Step) (ids : List (Option String)) (uncancelled : List MirroredStep) :
    List MirroredStep :=
  ((next.zip ids).filterMap fun (step, id) => id.map fun id => ⟨step.text, id, some step.status⟩) ++ uncancelled

namespace Mirroring

/-- The todos of a holder's remembered steps. -/
def todosOf (s : Mirroring) (harness : Harness) (holder : Holder) : List Todo :=
  (s.native.snapshot harness holder).filterMap fun step => s.doc.get step.todo

/-- The holder's previous list, as the diff reads it. -/
def previous (s : Mirroring) (harness : Harness) (holder : Holder) : List Mirrored :=
  previousOf (s.todosOf harness holder) (s.native.snapshot harness holder)

/-- The todo, if any, each step of a list continues. -/
def continued (s : Mirroring) (harness : Harness) (holder : Holder) (next : List Step) : List (Option String) :=
  let previous := s.previous harness holder
  (pair previous next).map fun p => do
    let prev ← previous[← p]?
    some prev.todo

/-- Mirror a resent list. A refusal that ends the call leaves the remembered list as it was. -/
def listReplace (c : Capture) (clock : ℕ → Instant) (s : Mirroring) (list : List Item) :
    Mirroring × Except StoreError Unit :=
  let next := stepsOf list
  let todos := s.todosOf c.harness c.actor
  let previous := s.previous c.harness c.actor
  let isTicket := fun id => todos.any fun todo => todo.id == id && todo.ticket.isSome
  let replaced := do
    let (doc, writes) ← (relocates c todos previous).foldlM
      (fun state edit => writeOrStop clock edit state) (s.doc, 0)
    (diff previous next).foldlM (Replacing.change c clock isTicket previous next)
      ⟨doc, writes, s.continued c.harness c.actor next, none, [], none⟩
  match replaced with
  | .error (doc, refusal) => ({ s with doc }, .error refusal)
  | .ok state =>
    (⟨state.doc, s.native.setSnapshot c.harness c.actor (remembered next state.ids state.uncancelled)⟩,
      match state.failed with
      | none => .ok ()
      | some refusal => .error refusal)

end Mirroring

end Devkit.Todos.Native
