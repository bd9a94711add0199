import Devkit.Library.Outcomes
import Devkit.Ports.Registry

/-!
# Rows of the port registry

What a lookup finds after each operation, stated once for the proofs that follow.
-/

namespace Devkit.Ports

open Devkit.Library
open Std

namespace Data

/-- The registry holds this row at this port. -/
def Row (d : Data) (port : UInt16) (e : Entry) : Prop := d.entries[port]? = some e

instance (d : Data) (port : UInt16) (e : Entry) : Decidable (d.Row port e) :=
  inferInstanceAs (Decidable (d.entries[port]? = some e))

/-- The port has no row. -/
def Free (d : Data) (port : UInt16) : Prop := d.entries[port]? = none

/-- A port holds one row. -/
theorem Row.unique {d : Data} {port : UInt16} {e e' : Entry} (h : d.Row port e) (h' : d.Row port e') :
    e = e' :=
  Option.some.inj (h.symm.trans h')

/-- A port without a row is free. -/
theorem contains_eq_false_iff {d : Data} {port : UInt16} :
    d.entries.contains port = false ↔ d.Free port := by
  rw [Free, ExtTreeMap.contains_eq_isSome_getElem?, Option.isSome_eq_false_iff, Option.isNone_iff_eq_none]

/-- Rows are listed with their ports. -/
theorem mem_toList {d : Data} {port : UInt16} {e : Entry} : (port, e) ∈ d.entries.toList ↔ d.Row port e :=
  ExtTreeMap.mem_toList_iff_getElem?_eq_some

/-- A port is found dead exactly when it has a row and the row is not live. -/
theorem mem_deadPorts {world : World} {d : Data} {port : UInt16} :
    port ∈ d.deadPorts world ↔ ∃ e, d.Row port e ∧ entryAlive world port e = false := by
  simp [deadPorts, Row]

/-- Removing ports keeps the rows at the others. -/
theorem row_removePorts {d : Data} {ports : List UInt16} {port : UInt16} {e : Entry} :
    (d.removePorts ports).Row port e ↔ port ∉ ports ∧ d.Row port e :=
  getElem?_eraseAll_eq_some d.entries ports port e

/-- The port an owner is found to hold has a row of the owner. -/
theorem row_of_holds {d : Data} {owner : Owner} {port : UInt16} (h : d.holds owner = some port) :
    ∃ e, d.Row port e ∧ e.owner = owner := by
  obtain ⟨⟨port', e⟩, hfind, rfl⟩ := Option.map_eq_some_iff.mp h
  exact ⟨e, mem_toList.mp (List.mem_of_find?_eq_some hfind), by simpa using List.find?_some hfind⟩

/-- An owner found to hold nothing has no row. -/
theorem not_row_of_holds_eq_none {d : Data} {owner : Owner} (h : d.holds owner = none) {port : UInt16}
    {e : Entry} (hrow : d.Row port e) : e.owner ≠ owner := by
  have hnone := List.find?_eq_none.mp (Option.map_eq_none_iff.mp h) (port, e) (mem_toList.mpr hrow)
  simpa using hnone

/-- The port an owner is found to hold is the first with a row of the owner. -/
theorem holds_eq_some_iff {d : Data} {owner : Owner} {port : UInt16} :
    d.holds owner = some port ↔
      (∃ e, d.Row port e ∧ e.owner = owner) ∧ ∀ other e, d.Row other e → e.owner = owner → port ≤ other := by
  have hfirst : ∀ {held}, d.holds owner = some held → ∀ other e, d.Row other e → e.owner = owner → held ≤ other := by
    intro held h other e hrow howner
    obtain ⟨⟨port', e'⟩, hfind, rfl⟩ := Option.map_eq_some_iff.mp h
    obtain ⟨_, before, after, hlist, hbefore⟩ := List.find?_eq_some_iff_append.mp hfind
    have hsorted := ExtTreeMap.ordered_keys_toList (t := d.entries)
    have hmem := mem_toList.mpr hrow
    rw [hlist] at hmem hsorted
    rcases List.mem_append.mp hmem with hskipped | hlater
    · have hother := hbefore (other, e) hskipped
      simp [howner] at hother
    · rcases List.mem_cons.mp hlater with hsame | hafter
      · exact le_of_eq (congrArg Prod.fst hsame).symm
      · have hlt := List.rel_of_pairwise_cons (List.pairwise_append.mp hsorted).2.1 hafter
        exact le_of_lt (Std.compare_eq_lt.mp hlt)
  constructor
  · intro h
    exact ⟨row_of_holds h, hfirst h⟩
  · intro ⟨⟨e, hrow, howner⟩, hleast⟩
    cases hholds : d.holds owner with
    | none => exact absurd howner (not_row_of_holds_eq_none hholds hrow)
    | some held =>
      obtain ⟨e', hrow', howner'⟩ := row_of_holds hholds
      rw [le_antisymm (hfirst hholds port e hrow howner) (hleast held e' hrow' howner')]

/-- A lookup after a reservation. -/
theorem row_reserve {d : Data} {owner : Owner} {port other : UInt16} {now : ℕ} {e : Entry} :
    (d.reserve owner port now).Row other e ↔
      if port = other then e = owner.reservation now else d.Row other e := by
  rw [Row, reserve, getElem?_insert_eq]
  split
  · rw [Option.some.injEq, eq_comm]
  · rfl

/-- A lookup after a process is recorded. -/
theorem row_recordPid {world : World} {d : Data} {port other : UInt16} {owner : Owner} {pid : ℕ}
    {logfile : String} (hother : port ≠ other) {e : Entry} :
    (d.recordPid world port owner pid logfile).Row other e ↔ d.Row other e := by
  simp only [Row, recordPid]
  rw [getElem?_insert_eq, if_neg hother]

/-- The row at the port after a process is recorded belongs to the recorder. -/
theorem owner_recordPid {world : World} {d : Data} {port : UInt16} {owner : Owner} {pid : ℕ}
    {logfile : String} {e : Entry} (h : (d.recordPid world port owner pid logfile).Row port e) :
    e.owner = owner ∧ e.pid = some pid := by
  simp only [Row, recordPid] at h
  rw [getElem?_insert_eq, if_pos rfl] at h
  obtain rfl := Option.some.inj h
  exact ⟨rfl, rfl⟩

/-- Recording a process leaves a row at the port. -/
theorem exists_row_recordPid (world : World) (d : Data) (port : UInt16) (owner : Owner) (pid : ℕ)
    (logfile : String) : ∃ e, (d.recordPid world port owner pid logfile).Row port e := by
  simp only [Row, recordPid]
  rw [getElem?_insert_eq, if_pos rfl]
  exact ⟨_, rfl⟩

/-- Releasing listed ports only removes rows. -/
theorem row_of_row_releasePorts {d : Data} {ports : List UInt16} {port : UInt16} {e : Entry}
    (h : (d.releasePorts ports).1.Row port e) : d.Row port e :=
  (row_removePorts.mp h).2

/-- Releasing a holder only removes rows. -/
theorem row_of_row_release {d : Data} {holder : String} {role : Option Role} {port : UInt16} {e : Entry}
    (h : (d.release holder role).1.Row port e) : d.Row port e :=
  (row_removePorts.mp h).2

end Data

/-- A found port is not taken. -/
theorem freeFrom_free {taken : UInt16 → Bool} {above : ℕ} {port found : UInt16}
    (h : freeFrom taken above port = some found) : taken found = false := by
  induction above generalizing port with
  | zero =>
    rw [freeFrom] at h
    split at h
    · contradiction
    · rename_i hfree
      obtain rfl := Option.some.inj h
      exact Bool.not_eq_true _ ▸ hfree
  | succ above ih =>
    rw [freeFrom] at h
    split at h
    · exact ih h
    · rename_i hfree
      obtain rfl := Option.some.inj h
      exact Bool.not_eq_true _ ▸ hfree

/-- What reserving for an owner does to the registry: nothing, when the owner holds a port,
or one new row at a free port. -/
def Reserves (world : World) (owner : Owner) (d d' : Data) : Prop :=
  (∃ port, d.holds owner = some port ∧ d' = d) ∨
    ∃ port, d.holds owner = none ∧ d.Free port ∧ d' = d.reserve owner port world.now

/-- What a port granted to an owner comes to: one the owner holds already, or a free one it now has a row at. -/
def Grants (world : World) (owner : Owner) (d d' : Data) (port : UInt16) : Prop :=
  (d.holds owner = some port ∧ d' = d) ∨
    (d.holds owner = none ∧ d.Free port ∧ d' = d.reserve owner port world.now)

/-- Allocating one port grants it. -/
theorem allocOne_grants {world : World} {d d' : Data} {owner : Owner} {base port : UInt16}
    (halloc : d.allocOne world owner base = some (d', port)) : Grants world owner d d' port := by
  unfold Data.allocOne at halloc
  cases hholds : d.holds owner with
  | some held =>
    rw [hholds] at halloc
    obtain ⟨rfl, rfl⟩ := Prod.mk.inj (Option.some.inj halloc)
    exact Or.inl ⟨hholds, rfl⟩
  | none =>
    rw [hholds] at halloc
    obtain ⟨found, hfound, heq⟩ := Option.map_eq_some_iff.mp halloc
    obtain ⟨rfl, rfl⟩ := Prod.mk.inj heq
    have hfree := freeFrom_free hfound
    rw [Bool.or_eq_false_iff] at hfree
    exact Or.inr ⟨hholds, Data.contains_eq_false_iff.mp hfree.1, rfl⟩

/-- Committing one choice grants one port, and lists it last. -/
theorem commitOne_grants {world : World} {holder : String} {role : Role} {reqs : List Request}
    {state state' : Data × List (String × UInt16)} {choice : String × UInt16}
    (hcommit : commitOne world holder role reqs state choice = some state') :
    ∃ port, state'.2 = state.2 ++ [(choice.1, port)] ∧
      Grants world ⟨holder, choice.1, role⟩ state.1 state'.1 port := by
  obtain ⟨d, out⟩ := state
  obtain ⟨app, port⟩ := choice
  simp only [commitOne] at hcommit
  cases hholds : d.holds ⟨holder, app, role⟩ with
  | some held =>
    rw [hholds] at hcommit
    obtain rfl := Option.some.inj hcommit
    exact ⟨held, rfl, Or.inl ⟨hholds, rfl⟩⟩
  | none =>
    rw [hholds] at hcommit
    dsimp only at hcommit
    split at hcommit
    · obtain ⟨⟨d', found⟩, halloc, rfl⟩ := Option.map_eq_some_iff.mp hcommit
      exact ⟨found, rfl, allocOne_grants halloc⟩
    · rename_i hfree
      obtain rfl := Option.some.inj hcommit
      exact ⟨port, rfl, Or.inr ⟨hholds, Data.contains_eq_false_iff.mp (Bool.not_eq_true _ ▸ hfree), rfl⟩⟩

/-- A port granted is one reserved. -/
theorem Grants.reserves {world : World} {owner : Owner} {d d' : Data} {port : UInt16}
    (h : Grants world owner d d' port) : Reserves world owner d d' := by
  cases h with
  | inl hheld => exact Or.inl ⟨port, hheld⟩
  | inr hfree => exact Or.inr ⟨port, hfree⟩

/-- Committing one choice reserves for its owner. -/
theorem commitOne_reserves {world : World} {holder : String} {role : Role} {reqs : List Request}
    {state state' : Data × List (String × UInt16)} {choice : String × UInt16}
    (h : commitOne world holder role reqs state choice = some state') :
    Reserves world ⟨holder, choice.1, role⟩ state.1 state'.1 := by
  obtain ⟨port, _, hgrants⟩ := commitOne_grants h
  exact hgrants.reserves

/-- A property every reservation keeps is kept by a whole commit. -/
theorem commitAlloc_invariant {world : World} {holder : String} {role : Role} (inv : Data → Prop)
    (hstep : ∀ d d' owner, inv d → Reserves world owner d d' → inv d') {d : Data}
    {reqs : List Request} {chosen : List (String × UInt16)} {result : Data × List (String × UInt16)}
    (h : commitAlloc world d holder role reqs chosen = some result) (hd : inv d) : inv result.1 :=
  foldlM_of_step (fun _ state => inv state.1) hd
    (fun _ _ _ _ hstate hcommit => hstep _ _ _ hstate (commitOne_reserves hcommit)) h

end Devkit.Ports
