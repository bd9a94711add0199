import Devkit.Todos.GraphCorrect
import Devkit.Todos.PlanLevels
import Devkit.Todos.RankOrder
import Devkit.Todos.TopoOrder
import Mathlib.Order.Bounds.Basic

/-!
# The critical path is a longest chain

The best chain from each placed todo is built on the best of those from whoever waits for it, from
the last of the topological order up to the first. The critical path is the best of these: a longest
chain of placed todos, and of the longest the one of the first ranks, whatever order the best chains
are met in. It is as long as the batches are many when no cap holds anybody back.
-/

namespace Devkit.Todos

open Devkit.Library
open Std

section Members

variable {members : List Todo} {dependentsOf : String → List String}

/-- The ids of the order that ranks members, from the last up to the first. -/
def lastUp (members : List Todo) (dependentsOf : String → List String) : List String :=
  (topo members dependentsOf).reverse.map Todo.id

/-- The members of the best of some chains. -/
def bestOf (members : List Todo) (dependentsOf : String → List String) (paths : List (List String)) : List Todo :=
  ((maxBy (better (ranksOf members dependentsOf)) paths).getD []).filterMap fun id => (byId members)[id]?

/-- The best chains are those of the library, from the last member up to the first. -/
theorem bestFrom_eq : bestFrom members dependentsOf =
    bestPaths dependentsOf (maxBy (better (ranksOf members dependentsOf))) (lastUp members dependentsOf) := by
  rw [bestPaths, tabulate, lastUp, List.foldl_map]
  rfl

/-- A chain in the ranks is as long as the best one. -/
theorem chains_eq (id : String) : (chains members dependentsOf)[id]? =
    ((bestFrom members dependentsOf)[id]?).map List.length := by
  have hchains : chains members dependentsOf =
      tabulate dependentsOf (fun _ below => below.max?.getD 0 + 1) (lastUp members dependentsOf) := by
    rw [tabulate, lastUp, List.foldl_map]
    rfl
  rw [hchains, bestFrom_eq]
  refine getElem?_tabulate_map List.length (fun id paths => ?_) _ id
  cases hbest : maxBy (better (ranksOf members dependentsOf)) paths with
  | none =>
    rw [maxBy_eq_none hbest]
    rfl
  | some best =>
    obtain ⟨hmem, hgreatest⟩ := maxBy_spec hbest
    have hmax : (paths.map List.length).max? = some best.length := by
      refine List.max?_eq_some_iff.mpr ⟨List.mem_map_of_mem hmem, fun length hlength => ?_⟩
      obtain ⟨path, hpath, rfl⟩ := List.mem_map.mp hlength
      exact length_le_of_better _ (hgreatest path hpath)
    rw [hmax]
    rfl

/-- The members first taken are the same in whatever order the indegrees are met. -/
theorem ready_topoStart_perm {counts : List (String × ℕ)}
    (hcounts : counts.Perm (topoStart members dependentsOf).indegree.toList) :
    (((counts.filter fun row => row.2 == 0).map Prod.fst).insertionSort (· ≤ ·)).reverse =
      (topoStart members dependentsOf).ready := by
  have hperm := ((hcounts.filter fun row => row.2 == 0).map Prod.fst)
  refine congrArg List.reverse (List.Perm.eq_of_pairwise' (List.pairwise_insertionSort _ _)
    (List.pairwise_insertionSort _ _) ?_)
  exact (List.perm_insertionSort _ _).trans (hperm.trans (List.perm_insertionSort _ _).symm)

section Distinct

variable (hdistinct : (members.map Todo.id).Nodup)
include hdistinct

/-- A member's rank. -/
theorem getElem?_ranksOf {todo : Todo} (htodo : todo ∈ members) : (ranksOf members dependentsOf)[todo.id]? =
    some ⟨(chains members dependentsOf)[todo.id]?.getD 1, (dependentsOf todo.id).length,
      todo.order.getD Int64.maxValue, todo.id⟩ := by
  refine (getElem?_ofList_eq_some ?_).mpr (List.mem_map_of_mem htodo)
  rw [List.pairwise_map]
  exact List.pairwise_map.mp hdistinct

omit hdistinct in
/-- A rank names its member. -/
theorem id_of_ranksOf (id : String) (rank : Rank) (h : (ranksOf members dependentsOf)[id]? = some rank) :
    rank.id = id := by
  obtain ⟨todo, _, heq⟩ := List.mem_map.mp (mem_of_getElem?_ofList h)
  obtain ⟨rfl, rfl⟩ := Prod.mk.inj heq
  rfl

/-- Ids of members are those of the members they name. -/
theorem map_filterMap_byId {ids : List String} (hids : ∀ id ∈ ids, id ∈ members.map Todo.id) :
    (ids.filterMap fun id => (byId members)[id]?).map Todo.id = ids := by
  induction ids with
  | nil => rfl
  | cons id rest ih =>
    obtain ⟨todo, htodo, rfl⟩ := List.mem_map.mp (hids id List.mem_cons_self)
    have hfound : (byId members)[todo.id]? = some todo := (byId_eq_some hdistinct).mpr ⟨htodo, rfl⟩
    rw [List.filterMap_cons_some hfound, List.map_cons, ih fun id hid => hids id (List.mem_cons_of_mem _ hid)]

/-- Members are those their ids name. -/
theorem filterMap_byId_map {path : List Todo} (hpath : ∀ todo ∈ path, todo ∈ members) :
    (path.map Todo.id).filterMap (fun id => (byId members)[id]?) = path := by
  induction path with
  | nil => rfl
  | cons todo rest ih =>
    have hfound : (byId members)[todo.id]? = some todo :=
      (byId_eq_some hdistinct).mpr ⟨hpath todo List.mem_cons_self, rfl⟩
    rw [List.map_cons, List.filterMap_cons_some hfound,
      ih fun other hother => hpath other (List.mem_cons_of_mem _ hother)]

/-- Nobody depends on itself. -/
theorem self_lastUp : ∀ id ∈ lastUp members dependentsOf, id ∉ dependentsOf id := by
  intro id hid
  rw [lastUp, List.map_reverse, List.mem_reverse] at hid
  exact self_topo hdistinct hid

/-- The ids of a path name the members of a path. -/
theorem todos_of_isPath {ids : List String} (h : IsPath dependentsOf (lastUp members dependentsOf) ids) :
    (ids.filterMap fun id => (byId members)[id]?).map Todo.id = ids ∧
      ∀ todo ∈ ids.filterMap fun id => (byId members)[id]?, todo ∈ members := by
  refine ⟨map_filterMap_byId hdistinct fun id hid => ?_, fun todo htodo => ?_⟩
  · have hknown := h.known id hid
    rw [lastUp, List.map_reverse, List.mem_reverse] at hknown
    exact known_topo hdistinct hknown
  · obtain ⟨id, _, hfound⟩ := List.mem_filterMap.mp htodo
    exact ((byId_eq_some hdistinct).mp hfound).1

/-- The best chain from an id of the order is a path from there. -/
theorem isPath_bestFrom {id : String} {path : List String} (h : (bestFrom members dependentsOf)[id]? = some path) :
    path.head? = some id ∧ IsPath dependentsOf (lastUp members dependentsOf) path := by
  rw [bestFrom_eq] at h
  exact isPath_bestPaths (picksGreatest_maxBy _) (pairwise_topo_reverse hdistinct) (self_lastUp hdistinct) h

/-- No path is better than the best chain from where it starts. -/
theorem isLE_bestFrom {id : String} {rest : List String}
    (hpath : IsPath dependentsOf (lastUp members dependentsOf) (id :: rest)) :
    ∃ best, (bestFrom members dependentsOf)[id]? = some best ∧
      (better (ranksOf members dependentsOf) (id :: rest) best).isLE := by
  rw [bestFrom_eq]
  exact le_bestPaths (picksGreatest_maxBy _) (pairwise_topo_reverse hdistinct) (self_lastUp hdistinct)
    (pathOrder_better _) hpath

/-- The best of the best chains, in whatever order, is a path, and none is better. -/
theorem greatest_bestFrom {paths : List (List String)} (hpaths : paths.Perm (rows (bestFrom members dependentsOf))) :
    IsPath dependentsOf (lastUp members dependentsOf)
        ((maxBy (better (ranksOf members dependentsOf)) paths).getD []) ∧
      ∀ path, IsPath dependentsOf (lastUp members dependentsOf) path →
        (better (ranksOf members dependentsOf) path
          ((maxBy (better (ranksOf members dependentsOf)) paths).getD [])).isLE := by
  have hfound : ∀ path, IsPath dependentsOf (lastUp members dependentsOf) path → path ≠ [] →
      ∃ best ∈ paths, (better (ranksOf members dependentsOf) path best).isLE := by
    intro path hpath hne
    cases path with
    | nil => exact absurd rfl hne
    | cons id rest =>
      obtain ⟨best, hbest, hle⟩ := isLE_bestFrom hdistinct hpath
      exact ⟨best, hpaths.mem_iff.mpr (mem_rows.mpr ⟨id, hbest⟩), hle⟩
  cases hpicked : maxBy (better (ranksOf members dependentsOf)) paths with
  | none =>
    refine ⟨⟨fun id hid => absurd hid List.not_mem_nil, .nil⟩, fun path hpath => ?_⟩
    by_cases hne : path = []
    · rw [hne]
      exact ReflCmp.isLE_rfl
    · obtain ⟨best, hbest, _⟩ := hfound path hpath hne
      rw [maxBy_eq_none hpicked] at hbest
      exact absurd hbest List.not_mem_nil
  | some picked =>
    obtain ⟨hmem, hgreatest⟩ := maxBy_spec hpicked
    obtain ⟨id, hid⟩ := mem_rows.mp (hpaths.mem_iff.mp hmem)
    refine ⟨(isPath_bestFrom hdistinct hid).2, fun path hpath => ?_⟩
    by_cases hne : path = []
    · rw [hne]
      exact (pathOrder_better _).nil_le picked
    · obtain ⟨best, hbest, hle⟩ := hfound path hpath hne
      exact TransCmp.isLE_trans hle (hgreatest best hbest)

/-- Two paths as good as each other are the same. -/
theorem eq_of_isPath {path other : List String} (hpath : IsPath dependentsOf (lastUp members dependentsOf) path)
    (hother : IsPath dependentsOf (lastUp members dependentsOf) other)
    (h : better (ranksOf members dependentsOf) path other = .eq) : path = other := by
  have hranked : ∀ {path : List String}, IsPath dependentsOf (lastUp members dependentsOf) path → ∀ id ∈ path,
      ∃ rank, (ranksOf members dependentsOf)[id]? = some rank := by
    intro path hpath id hid
    have hmember := hpath.known id hid
    rw [lastUp, List.map_reverse, List.mem_reverse] at hmember
    obtain ⟨todo, htodo, rfl⟩ := List.mem_map.mp (known_topo hdistinct hmember)
    exact ⟨_, getElem?_ranksOf hdistinct htodo⟩
  exact eq_of_better _ id_of_ranksOf (hranked hpath) (hranked hother) h

/-- The best of the best chains is the same in whatever order they are met. -/
theorem bestOf_perm {paths : List (List String)} (hpaths : paths.Perm (rows (bestFrom members dependentsOf))) :
    bestOf members dependentsOf paths = criticalPath members dependentsOf := by
  obtain ⟨hone, honeGreatest⟩ := greatest_bestFrom hdistinct hpaths
  obtain ⟨htwo, htwoGreatest⟩ :=
    greatest_bestFrom hdistinct (List.Perm.refl (rows (bestFrom members dependentsOf)))
  have heq : better (ranksOf members dependentsOf) _ _ = .eq :=
    OrientedCmp.isLE_antisymm (htwoGreatest _ hone) (honeGreatest _ htwo)
  rw [bestOf, criticalPath, eq_of_isPath hdistinct hone htwo heq]

section Acyclic

variable (hacyclic : WellFounded fun a b : Todo => a ∈ members ∧ b ∈ members ∧ b.id ∈ dependentsOf a.id)
include hacyclic

/-- Members, each among the dependents of the one before it, are a path. -/
theorem isPath_map {path : List Todo} (hpath : ∀ todo ∈ path, todo ∈ members) :
    IsPath dependentsOf (lastUp members dependentsOf) (path.map Todo.id) ↔
      path.IsChain fun todo next => next.id ∈ dependentsOf todo.id := by
  constructor
  · exact fun h => (List.isChain_map Todo.id).mp h.linked
  · intro hlinked
    refine ⟨fun id hid => ?_, (List.isChain_map Todo.id).mpr hlinked⟩
    obtain ⟨todo, htodo, rfl⟩ := List.mem_map.mp hid
    rw [lastUp, List.map_reverse, List.mem_reverse]
    exact mem_topo hdistinct hacyclic (hpath todo htodo)

/-- The critical path is made of members, each among the dependents of the one before it, and none
such is better. -/
theorem criticalPath_spec : (∀ todo ∈ criticalPath members dependentsOf, todo ∈ members) ∧
    ((criticalPath members dependentsOf).IsChain fun todo next => next.id ∈ dependentsOf todo.id) ∧
    ∀ path : List Todo, (∀ todo ∈ path, todo ∈ members) →
      (path.IsChain fun todo next => next.id ∈ dependentsOf todo.id) →
        (better (ranksOf members dependentsOf) (path.map Todo.id)
          ((criticalPath members dependentsOf).map Todo.id)).isLE := by
  obtain ⟨hpath, hgreatest⟩ := greatest_bestFrom hdistinct (List.Perm.refl (rows (bestFrom members dependentsOf)))
  obtain ⟨hids, hmembers⟩ := todos_of_isPath hdistinct hpath
  rw [← hids] at hpath hgreatest
  exact ⟨hmembers, (isPath_map hdistinct hacyclic hmembers).mp hpath,
    fun path hmem hlinked => hgreatest _ ((isPath_map hdistinct hacyclic hmem).mpr hlinked)⟩

/-- A member's rank has the length of the longest chain of dependents from there on. -/
theorem isGreatest_chain {todo : Todo} (htodo : todo ∈ members) :
    IsGreatest {n | ∃ rest : List Todo, (∀ next ∈ rest, next ∈ members) ∧
      ((todo :: rest).IsChain fun todo next => next.id ∈ dependentsOf todo.id) ∧ n = (todo :: rest).length}
      ((chains members dependentsOf)[todo.id]?.getD 1) := by
  have hall : ∀ {rest : List Todo}, (∀ next ∈ rest, next ∈ members) →
      ((todo :: rest).IsChain fun todo next => next.id ∈ dependentsOf todo.id) →
        ∃ best, (bestFrom members dependentsOf)[todo.id]? = some best ∧
          (todo :: rest).length ≤ best.length := by
    intro rest hrest hlinked
    have hpath := (isPath_map hdistinct hacyclic (List.forall_mem_cons.mpr ⟨htodo, hrest⟩)).mpr hlinked
    obtain ⟨best, hbest, hle⟩ := isLE_bestFrom hdistinct hpath
    refine ⟨best, hbest, ?_⟩
    have hlength := length_le_of_better _ hle
    simpa using hlength
  obtain ⟨best, hbest, _⟩ := hall (List.forall_mem_nil _) (.singleton todo)
  have hchain : (chains members dependentsOf)[todo.id]?.getD 1 = best.length := by
    rw [chains_eq, hbest]
    rfl
  rw [hchain]
  refine ⟨?_, fun n hn => ?_⟩
  · obtain ⟨hhead, hpath⟩ := isPath_bestFrom hdistinct hbest
    obtain ⟨hids, hmembers⟩ := todos_of_isPath hdistinct hpath
    generalize best.filterMap (fun id => (byId members)[id]?) = todos at hids hmembers
    subst hids
    cases todos with
    | nil => contradiction
    | cons first rest =>
      obtain rfl : first = todo := List.inj_on_of_nodup_map hdistinct (hmembers first List.mem_cons_self) htodo
        (Option.some.inj hhead)
      exact ⟨rest, fun next hnext => hmembers next (List.mem_cons_of_mem _ hnext),
        (isPath_map hdistinct hacyclic hmembers).mp hpath, by simp⟩
  · obtain ⟨rest, hrest, hlinked, rfl⟩ := hn
    obtain ⟨other, hother, hlength⟩ := hall hrest hlinked
    obtain rfl := Option.some.inj (hbest.symm.trans hother)
    exact hlength

end Acyclic

end Distinct

end Members

namespace Graph

variable (g : Graph) (offered : Todo → Bool) (cap : Option ℕ+)

/-- The members that are placed. -/
def acyclic : List Todo := (g.members offered).filter fun todo => (g.schedule offered cap).placed.contains todo.id

/-- The ranks of the placed members. -/
def ranks : ExtTreeMap String Rank := ranksOf (g.acyclic offered cap) (g.dependentsOf offered)

/-- The ranks along a path. -/
def ranksAlong (path : List Todo) : List Rank := path.filterMap fun todo => (g.ranks offered cap)[todo.id]?

/-- What the critical path of a plan promises. -/
structure LongestChain : Prop where
  chain : g.Chain offered cap (g.plan offered cap).critical
  longest : ∀ {path : List Todo}, g.Chain offered cap path → path.length ≤ (g.plan offered cap).critical.length
  least : ∀ {path : List Todo}, g.Chain offered cap path →
    path.length = (g.plan offered cap).critical.length → path ≠ (g.plan offered cap).critical →
      compareRanks (g.ranksAlong offered cap (g.plan offered cap).critical) (g.ranksAlong offered cap path) = .lt
  ranked : ∀ {todo : Todo}, g.Placed offered cap todo → ∃ rank, (g.ranks offered cap)[todo.id]? = some rank ∧
    IsGreatest {n | ∃ rest, g.Chain offered cap (todo :: rest) ∧ n = (todo :: rest).length} rank.chain ∧
      rank.dependents = (g.dependentsOf offered todo.id).length ∧
      rank.order = todo.order.getD Int64.maxValue ∧ rank.id = todo.id
  anyStart : ∀ {counts : List (String × ℕ)},
    counts.Perm (topoStart (g.acyclic offered cap) (g.dependentsOf offered)).indegree.toList →
      (((counts.filter fun row => row.2 == 0).map Prod.fst).insertionSort (· ≤ ·)).reverse =
        (topoStart (g.acyclic offered cap) (g.dependentsOf offered)).ready
  anyOrder : ∀ {paths : List (List String)},
    paths.Perm (rows (bestFrom (g.acyclic offered cap) (g.dependentsOf offered))) →
      bestOf (g.acyclic offered cap) (g.dependentsOf offered) paths = (g.plan offered cap).critical
  batches : cap = none → (g.plan offered cap).critical.length = (g.plan offered cap).batches.length
  capped : (g.plan offered cap).critical.length ≤ (g.plan offered cap).batches.length

variable {g offered cap}

section Distinct

variable (hdistinct : (g.todos.map Todo.id).Nodup)
include hdistinct

/-- The placed members are those in batches. -/
theorem mem_acyclic {todo : Todo} : todo ∈ g.acyclic offered cap ↔ g.Placed offered cap todo := by
  have h : g.Scheduled offered cap (g.schedule offered cap) := scheduled_schedule hdistinct
  rw [acyclic, List.mem_filter, mem_members, ExtTreeMap.contains_iff_mem]
  constructor
  · rintro ⟨hmember, hplaced⟩
    exact h.mem_batch hdistinct hmember.1 hplaced
  · rintro ⟨batch, hbatch, htodo⟩
    exact ⟨(h.members hbatch htodo).1, (h.placed _).mpr ⟨batch, hbatch, List.mem_map_of_mem htodo⟩⟩

/-- The ids of placed members are distinct. -/
theorem nodup_acyclic : ((g.acyclic offered cap).map Todo.id).Nodup :=
  (nodup_members hdistinct).sublist (List.filter_sublist.map Todo.id)

/-- A member is a dependent of another when it waits for it. -/
theorem mem_dependentsOf {todo blocker : Todo} (htodo : g.Member offered todo) (hblocker : g.Member offered blocker) :
    todo.id ∈ g.dependentsOf offered blocker.id ↔ g.Waits todo blocker := by
  rw [← List.count_pos_iff, count_dependentsOf hdistinct htodo, List.count_pos_iff, mem_waitsOn hdistinct htodo]
  constructor
  · rintro ⟨other, hwaits, hid⟩
    obtain rfl := eq_of_id_eq hdistinct hwaits.2.1.1 hblocker.1 hid
    exact hwaits.2.2
  · exact fun hwaits => ⟨blocker, ⟨htodo, hblocker, hwaits⟩, rfl⟩

/-- Placed members depend on each other in no cycle. -/
theorem wellFounded_acyclic : WellFounded fun a b : Todo =>
    a ∈ g.acyclic offered cap ∧ b ∈ g.acyclic offered cap ∧ b.id ∈ g.dependentsOf offered a.id := by
  have hwf : WellFounded fun blocker todo => g.WaitsFor offered todo blocker ∧ g.Clear offered todo :=
    wellFounded_clear
  refine Subrelation.wf (fun {blocker todo} h => ?_) hwf
  obtain ⟨hblocker, htodo, hdependent⟩ := h
  rw [mem_acyclic hdistinct] at hblocker htodo
  have hmember := htodo.member hdistinct
  have hwaits := (mem_dependentsOf hdistinct hmember (hblocker.member hdistinct)).mp hdependent
  obtain ⟨batch, hbatch, hin⟩ := htodo
  have hplaced := ((scheduled_schedule hdistinct).placed _).mpr ⟨batch, hbatch, List.mem_map_of_mem hin⟩
  exact ⟨⟨hmember, hblocker.member hdistinct, hwaits⟩, (placed_iff hdistinct hmember).mp hplaced⟩

/-- A chain is made of placed members, each among the dependents of the one before it. -/
theorem chain_iff {path : List Todo} : g.Chain offered cap path ↔
    (∀ todo ∈ path, todo ∈ g.acyclic offered cap) ∧
      path.IsChain fun todo next => next.id ∈ g.dependentsOf offered todo.id := by
  have hlinks : (∀ todo ∈ path, g.Placed offered cap todo) →
      ((path.IsChain fun blocker todo => g.Waits todo blocker) ↔
        path.IsChain fun todo next => next.id ∈ g.dependentsOf offered todo.id) := by
    intro hplaced
    refine List.IsChain.iff_of_mem_imp fun blocker todo hblocker htodo => ?_
    exact (mem_dependentsOf hdistinct ((hplaced todo htodo).member hdistinct)
      ((hplaced blocker hblocker).member hdistinct)).symm
  simp only [mem_acyclic hdistinct]
  constructor
  · exact fun h => ⟨h.placed, (hlinks h.placed).mp h.linked⟩
  · exact fun h => ⟨h.1, (hlinks h.1).mpr h.2⟩

/-- The critical path is a chain of placed todos. -/
theorem chain_critical : g.Chain offered cap (g.plan offered cap).critical := by
  obtain ⟨hplaced, hlinked, _⟩ := criticalPath_spec (nodup_acyclic hdistinct) (wellFounded_acyclic hdistinct)
  exact (chain_iff hdistinct).mpr ⟨hplaced, hlinked⟩

omit hdistinct in
/-- **The critical path is a longest chain.** For todos of distinct ids, any offer and any cap, it is a
chain of placed todos each waiting for the one before it, no such chain is longer, of those as long
its ranks come first, whatever order the tables are met in, and it is as long as the batches are many
without a cap, and no longer with one. -/
theorem critical_longest (g : Graph) (offered : Todo → Bool) (cap : Option ℕ+)
    (hdistinct : (g.todos.map Todo.id).Nodup) : g.LongestChain offered cap := by
  have hnodup : ((g.acyclic offered cap).map Todo.id).Nodup := nodup_acyclic hdistinct
  have hacyclic : WellFounded fun a b : Todo =>
      a ∈ g.acyclic offered cap ∧ b ∈ g.acyclic offered cap ∧ b.id ∈ g.dependentsOf offered a.id :=
    wellFounded_acyclic hdistinct
  obtain ⟨hplaced, hlinked, hbest⟩ := criticalPath_spec hnodup hacyclic
  have hchain : g.Chain offered cap (g.plan offered cap).critical := chain_critical hdistinct
  have hbetter : ∀ {path : List Todo}, g.Chain offered cap path → (better (g.ranks offered cap) (path.map Todo.id)
      ((g.plan offered cap).critical.map Todo.id)).isLE := by
    intro path hpath
    obtain ⟨hmem, hlink⟩ := (chain_iff hdistinct).mp hpath
    exact hbest path hmem hlink
  have hlongest : ∀ {path : List Todo}, g.Chain offered cap path →
      path.length ≤ (g.plan offered cap).critical.length := by
    intro path hpath
    have hlength := length_le_of_better _ (hbetter hpath)
    simpa using hlength
  refine ⟨hchain, hlongest, fun {path} hpath hlength hne => ?_, fun {todo} htodo => ?_,
    ready_topoStart_perm, bestOf_perm hnodup, fun hnone => ?_, hchain.length_le hdistinct⟩
  · obtain ⟨hmem, hlink⟩ := (chain_iff hdistinct).mp hpath
    have hdiffer : better (g.ranks offered cap) (path.map Todo.id)
        ((g.plan offered cap).critical.map Todo.id) ≠ .eq := by
      intro heq
      have hids := eq_of_isPath hnodup ((isPath_map hnodup hacyclic hmem).mpr hlink)
        ((isPath_map hnodup hacyclic hplaced).mpr hlinked) heq
      refine hne ?_
      rw [← filterMap_byId_map hnodup hmem, hids, filterMap_byId_map hnodup hplaced]
      rfl
    have hless := Ordering.isLE_iff_eq_lt_or_eq_eq.mp (hbetter hpath)
    have hlt := hless.resolve_right hdiffer
    rw [better_of_length_eq _ (by simp [hlength]), List.filterMap_map, List.filterMap_map] at hlt
    exact hlt
  · have hmem := (mem_acyclic hdistinct).mpr htodo
    refine ⟨_, getElem?_ranksOf hnodup hmem, ?_, rfl, rfl, rfl⟩
    have hgreatest := isGreatest_chain hnodup hacyclic hmem
    have hchains : ∀ rest : List Todo, g.Chain offered cap (todo :: rest) ↔
        (∀ next ∈ rest, next ∈ g.acyclic offered cap) ∧
          ((todo :: rest).IsChain fun todo next => next.id ∈ g.dependentsOf offered todo.id) := by
      intro rest
      rw [chain_iff hdistinct, List.forall_mem_cons]
      simp only [hmem, true_and]
    simp only [hchains, and_assoc]
    exact hgreatest
  · subst hnone
    obtain ⟨path, hpath, hlength⟩ : ∃ path, g.Chain offered none path ∧
        path.length = (g.plan offered none).batches.length := exists_chain_of_batches hdistinct
    exact Nat.le_antisymm (hchain.length_le hdistinct) (hlength ▸ hlongest hpath)

end Distinct

section Example

/-- The critical path of the sample, one todo at a time. -/
theorem critical_longest_sample : sampleGraph.LongestChain (fun _ => true) (some 1) :=
  critical_longest sampleGraph (fun _ => true) (some 1) (by decide +kernel)

/-- A pending todo, and a started one stored as blocked by it. -/
def startedGraph : Graph :=
  ⟨[blockedTodo "1" .pending [], blockedTodo "2" (.inProgress ⟨"S"⟩) ["1"]]⟩

/-- Neither of the two waits: the first has no blocker, and the second is started. -/
theorem not_waits_startedGraph {todo blocker : Todo} (htodo : todo ∈ startedGraph.todos) :
    ¬ startedGraph.Waits todo blocker := by
  intro hwaits
  rcases List.mem_pair.mp htodo with rfl | rfl
  · exact absurd hwaits.2.2.2 List.not_mem_nil
  · exact hwaits.1 rfl

/-- The one stored edge goes from the second to the first. -/
theorem blockedBy_startedGraph {todo blocker : Todo}
    (h : startedGraph.BlockedBy (fun _ => true) todo blocker) : todo.id = "2" ∧ blocker.id = "1" := by
  have hblocker := h.2.2.2.2
  rcases List.mem_pair.mp h.1.1 with rfl | rfl
  · exact absurd hblocker List.not_mem_nil
  · exact ⟨rfl, List.mem_singleton.mp hblocker⟩

/-- Both are placed. -/
theorem placed_startedGraph {todo : Todo} (htodo : todo ∈ startedGraph.todos) :
    startedGraph.Placed (fun _ => true) none todo := by
  have hdistinct : (startedGraph.todos.map Todo.id).Nodup := by decide +kernel
  have hopen : ∀ todo ∈ startedGraph.todos, todo.status.kind.isOpen = true := by decide +kernel
  have hmember : startedGraph.Member (fun _ => true) todo := ⟨htodo, hopen todo htodo, rfl⟩
  refine (scheduled_schedule hdistinct).mem_batch hdistinct htodo (placed_of_clear hdistinct hmember ?_)
  intro other hreach
  obtain rfl : other = todo := by
    rcases hreach.cases_head with rfl | ⟨_, hwaits, _⟩
    · rfl
    · exact absurd hwaits.2.2 (not_waits_startedGraph htodo)
  refine ⟨fun hcycle => ?_, fun ⟨_, hwaits, _⟩ => not_waits_startedGraph htodo hwaits⟩
  obtain ⟨_, hfirst, _⟩ := Relation.TransGen.head'_iff.mp hcycle
  obtain ⟨_, _, hlast⟩ := Relation.TransGen.tail'_iff.mp hcycle
  have hsame := (blockedBy_startedGraph hfirst).1.symm.trans (blockedBy_startedGraph hlast).2
  exact absurd hsame (by decide)

/-- The stored blockers can make a longer chain of placed todos than the critical path. -/
theorem critical_skips_started : ¬ ∀ (g : Graph) (offered : Todo → Bool) (cap : Option ℕ+),
    (g.todos.map Todo.id).Nodup → ∀ path : List Todo, (∀ todo ∈ path, g.Placed offered cap todo) →
      (path.IsChain fun blocker todo => g.OpenBlocker todo blocker) →
        path.length ≤ (g.plan offered cap).critical.length := by
  intro h
  have hdistinct : (startedGraph.todos.map Todo.id).Nodup := by decide +kernel
  have hblocked : startedGraph.todos.IsChain fun blocker todo => startedGraph.OpenBlocker todo blocker :=
    List.isChain_pair.mpr ⟨List.mem_cons_self, rfl, List.mem_cons_self⟩
  have hle := h startedGraph (fun _ => true) none hdistinct startedGraph.todos
    (fun _ htodo => placed_startedGraph htodo) hblocked
  have hchain : startedGraph.Chain (fun _ => true) none (startedGraph.plan (fun _ => true) none).critical :=
    chain_critical hdistinct
  generalize (startedGraph.plan (fun _ => true) none).critical = critical at hle hchain
  rcases critical with _ | ⟨first, _ | ⟨next, rest⟩⟩
  · exact absurd hle (by decide)
  · rw [List.length_singleton] at hle
    exact absurd hle (by decide)
  · have hnext := hchain.placed next (List.mem_cons_of_mem _ List.mem_cons_self)
    exact not_waits_startedGraph (hnext.member hdistinct).1 (List.isChain_cons_cons.mp hchain.linked).1

end Example

end Graph

end Devkit.Todos
