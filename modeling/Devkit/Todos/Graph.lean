import Devkit.Library.Loops
import Devkit.Library.Search
import Devkit.Todos.Prune
import Mathlib.Data.PNat.Defs

/-!
# The blocking graph

The graph of listed todos, and the plan of its open ones: batches of todos that wait on nothing left,
within a cap, best rank first. Ids are distinct, as a store lists them, so that a table by id is a
function of the todo. Where the source pops the end of a vector, the list here has that end first.
-/

namespace Devkit.Todos

open Devkit.Library
open Std

/-- The blocking graph over listed todos. -/
structure Graph where
  todos : List Todo

/-- A member's rank: the longest remaining chain of dependents, then how many members wait on it,
then its order, then its id. -/
structure Rank where
  chain : ℕ
  dependents : ℕ
  order : Int64
  id : String
deriving DecidableEq

/-- A smaller rank is scheduled first. -/
def Rank.cmp (a b : Rank) : Ordering :=
  (compare a.chain b.chain).swap.then <| (compare a.dependents b.dependents).swap.then <|
    (compare a.order b.order).then (compare a.id b.id)

/-- The open todos of a plan in batches, the longest chain among them, and the cycle left out. -/
structure Plan where
  batches : List (List Todo)
  critical : List Todo
  cycle : List Todo
deriving DecidableEq

/-- How far a topological order has come: what is left of each indegree, the members with none left,
and the order so far. -/
structure Topo where
  indegree : ExtTreeMap String ℕ
  ready : List String
  order : List Todo

/-- How far the batches have come: what is left of each indegree, the batch of each placed todo, and
the batches so far. -/
structure Schedule where
  indegree : ExtTreeMap String ℕ
  placed : ExtTreeMap String ℕ
  batches : List (List Todo)

/-- The last of the greatest elements. -/
def maxBy {A : Type} (cmp : A → A → Ordering) : List A → Option A
  | [] => none
  | a :: rest => some (rest.foldl (fun best next => if cmp best next = .gt then best else next) a)

section Order

variable (members : List Todo) (dependentsOf : String → List String)

/-- Count one more edge into a dependent. -/
def bump (indegree : ExtTreeMap String ℕ) (dependent : String) : ExtTreeMap String ℕ :=
  match indegree[dependent]? with
  | none => indegree
  | some count => indegree.insert dependent (count + 1)

/-- Count one edge less into a dependent, noting it when none is left. -/
def free (state : ExtTreeMap String ℕ × List String) (dependent : String) :
    ExtTreeMap String ℕ × List String :=
  match state.1[dependent]? with
  | none => state
  | some count =>
    (state.1.insert dependent (count - 1), if count - 1 = 0 then state.2 ++ [dependent] else state.2)

/-- The edges into each member, and the members without any. -/
def topoStart : Topo :=
  let indegree := members.foldl (fun indegree todo => (dependentsOf todo.id).foldl bump indegree)
    (ExtTreeMap.ofList (members.map fun todo => (todo.id, 0)))
  let ready := (indegree.toList.filter fun row => row.2 == 0).map Prod.fst
  ⟨indegree, (ready.insertionSort (· ≤ ·)).reverse, []⟩

/-- Take the next member without edges left, and free its dependents. -/
def topoStep (s : Topo) : Option Topo :=
  match s.ready with
  | [] => none
  | id :: rest =>
    match (byId members)[id]? with
    | none => some { s with ready := rest }
    | some todo =>
      let (indegree, freed) := (dependentsOf id).foldl free (s.indegree, [])
      some ⟨indegree, (freed.insertionSort (· ≤ ·)).reverse ++ rest, s.order ++ [todo]⟩

/-- Where the topological order ends: every member is taken at most once. -/
def topoEnd : Topo := steps (topoStep members dependentsOf) members.length (topoStart members dependentsOf)

/-- Members in an order where every blocker precedes its dependents; a cycle is left out. -/
def topo : List Todo := (topoEnd members dependentsOf).order

/-- The longest chain of dependents from each member on. -/
def chains : ExtTreeMap String ℕ :=
  (topo members dependentsOf).reverse.foldl (fun chain todo =>
    let below := (((dependentsOf todo.id).filterMap fun id => chain[id]?).max?).getD 0
    chain.insert todo.id (below + 1)) ∅

/-- Each member's rank. -/
def ranksOf : ExtTreeMap String Rank :=
  let chain := chains members dependentsOf
  ExtTreeMap.ofList (members.map fun todo =>
    (todo.id, Rank.mk (chain[todo.id]?.getD 1) (dependentsOf todo.id).length
      (todo.order.getD Int64.maxValue) todo.id))

/-- The ranks of two chains, the first that differ deciding. -/
def compareRanks : List Rank → List Rank → Ordering
  | [], [] => .eq
  | [], _ :: _ => .lt
  | _ :: _, [] => .gt
  | a :: as, b :: bs => (a.cmp b).then (compareRanks as bs)

/-- A longer chain is better, and of two as long the one whose ranks come first. -/
def better (ranks : ExtTreeMap String Rank) (a b : List String) : Ordering :=
  (compare a.length b.length).then
    (compareRanks (b.filterMap fun id => ranks[id]?) (a.filterMap fun id => ranks[id]?))

/-- The best chain from each member on. -/
def bestFrom : ExtTreeMap String (List String) :=
  let ranks := ranksOf members dependentsOf
  (topo members dependentsOf).reverse.foldl (fun best todo =>
    let next := maxBy (better ranks) ((dependentsOf todo.id).filterMap fun id => best[id]?)
    best.insert todo.id (todo.id :: next.getD [])) ∅

/-- The longest chain of members, and of the longest the one with the first ranks. -/
def criticalPath : List Todo :=
  let best := maxBy (better (ranksOf members dependentsOf)) (rows (bestFrom members dependentsOf))
  (best.getD []).filterMap fun id => (byId members)[id]?

end Order

namespace Graph

variable (g : Graph)

/-- The todo an id names. -/
def get (id : String) : Option Todo := (byId g.todos)[id]?

/-- Blockers in the graph that are still open, in id order. -/
def openBlockers (todo : Todo) : List Todo :=
  ((todo.blockedBy.filterMap g.get).filter fun blocker => blocker.status.kind.isOpen).insertionSort
    fun a b => a.id ≤ b.id

/-- What a member waits on. A started todo runs already, and waits on nothing. -/
def waits (todo : Todo) : List Todo :=
  if todo.status.kind = .inProgress then [] else g.openBlockers todo

variable (offered : Todo → Bool)

/-- The open todos on offer. -/
def members : List Todo := g.todos.filter fun todo => todo.status.kind.isOpen && offered todo

/-- The id is a member's. -/
def isMember (id : String) : Bool := (g.members offered).any fun todo => todo.id == id

/-- The todo waits on an open blocker that is no member. -/
def waitsOutside (todo : Todo) : Bool := (g.waits todo).any fun blocker => !g.isMember offered blocker.id

/-- Note a member that waits on one found to wait outside. -/
def outsideVisit (state : List String × Bool) (todo : Todo) : List String × Bool :=
  if state.1.contains todo.id then state
  else if (g.waits todo).any fun blocker => state.1.contains blocker.id then (state.1 ++ [todo.id], true)
  else state

/-- One pass over the members, and whether it found more. -/
def outsidePass (outside : List String) : List String × Bool :=
  (g.members offered).foldl g.outsideVisit (outside, false)

/-- Another pass, after one that grew. -/
def outsideStep (outside : List String) : Option (List String) :=
  match g.outsidePass offered outside with
  | (grown, true) => some grown
  | (_, false) => none

/-- The members a member waits on, by id. -/
def waitsOn (todo : Todo) : List String :=
  ((g.waits todo).filter fun blocker => g.isMember offered blocker.id).map Todo.id

/-- The members that wait on an id. -/
def dependentsOf (id : String) : List String :=
  (g.members offered).flatMap fun todo => ((g.waitsOn offered todo).filter (· == id)).map fun _ => todo.id

/-- The members an id is blocked by, started or not. -/
def memberBlockers (id : String) : List String :=
  match g.get id with
  | none => []
  | some todo => ((g.openBlockers todo).filter fun blocker => g.isMember offered blocker.id).map Todo.id

/-- The id is on a cycle of stored edges between members. -/
def onMemberCycle (id : String) : Bool :=
  (search (g.todos.map Todo.id) (g.memberBlockers offered) (fun _ _ => ()) id [] [(id, ())]).isSome

/-- The members on a cycle, in id order. -/
def cycled : List Todo :=
  ((g.members offered).filter fun todo => g.onMemberCycle offered todo.id).insertionSort fun a b => a.id ≤ b.id

/-- How many members each member off every cycle waits on. -/
def indegree : ExtTreeMap String ℕ :=
  ExtTreeMap.ofList <|
    ((g.members offered).filter fun todo => !(g.cycled offered).any fun other => other.id == todo.id).map
      fun todo => (todo.id, (g.waitsOn offered todo).length)

/-- The members with no batch yet. -/
def unplaced (s : Schedule) : List Todo :=
  (g.members offered).filter fun todo => !s.placed.contains todo.id

/-- A member comes before another when its rank does. -/
def before (ranks : ExtTreeMap String Rank) (a b : Todo) : Bool :=
  match ranks[a.id]?, ranks[b.id]? with
  | some rank, some other => (rank.cmp other).isLE
  | _, _ => true

variable (cap : Option ℕ+) (outside : List String)

/-- The members that wait on nothing left, best rank first. -/
def ready (s : Schedule) : List Todo :=
  ((g.unplaced offered s).filter fun todo =>
    !outside.contains todo.id && s.indegree[todo.id]?.getD 1 == 0).insertionSort
      fun a b => before (ranksOf (g.unplaced offered s) (g.dependentsOf offered)) a b = true

/-- The next batch: all that is started, and of the rest what the cap leaves room for. -/
def nextBatch (s : Schedule) : List Todo :=
  let (started, rest) := (g.ready offered outside s).partition fun todo => todo.status.kind = .inProgress
  match cap with
  | none => started ++ rest
  | some cap => started ++ rest.take (cap - started.length)

/-- Count one blocker less. -/
def release (indegree : ExtTreeMap String ℕ) (dependent : String) : ExtTreeMap String ℕ :=
  match indegree[dependent]? with
  | none => indegree
  | some count => indegree.insert dependent (count - 1)

/-- Place a batch. -/
def place (s : Schedule) (batch : List Todo) : Schedule where
  indegree := batch.foldl (fun indegree todo => (g.dependentsOf offered todo.id).foldl release indegree) s.indegree
  placed := batch.foldl (fun placed todo => placed.insert todo.id s.batches.length) s.placed
  batches := s.batches ++ [batch]

/-- Place the next batch, unless none is left. -/
def scheduleStep (s : Schedule) : Option Schedule :=
  if (g.ready offered outside s).isEmpty then none
  else if (g.nextBatch offered cap outside s).isEmpty then none
  else some (g.place offered s (g.nextBatch offered cap outside s))

end Graph

end Devkit.Todos
