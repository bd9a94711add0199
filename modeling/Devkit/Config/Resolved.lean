import Devkit.Config.Origins

/-!
# The table that leaves

Resolving a path key changes the string at the key and no other leaf. The table that leaves is the merged
one with each path key's string standing as its path, escaped, and expansion gives the path back.
-/

namespace Devkit.Config

open Devkit.Common
open Devkit.Library
open Devkit.Library.Toml

variable {S : Type}

/-- An escaped text expands to itself, whatever the environment. -/
theorem expandVars_escapeVars (around : Surroundings) (path key : String) :
    expandVars around (escapeVars path) key = .ok path := by
  have hfrom : ∀ (raw : String) (text : List Char),
      expandFrom around key raw none (text.flatMap fun c => if c = '$' then ['$', '$'] else [c]) = .ok text := by
    intro raw text
    induction text with
    | nil => rw [List.flatMap_nil, expandFrom]
    | cons c rest ih =>
      rw [List.flatMap_cons]
      split
      · rename_i hc
        rw [hc, List.cons_append, List.cons_append, List.nil_append, expandFrom, ih]
        rfl
      · rename_i hc
        rw [List.cons_append, List.nil_append, expandFrom, ih]
        · rfl
        · rintro _ rfl
          exact absurd rfl hc
        · rintro _ rfl
          exact absurd rfl hc
  rw [expandVars, escapeVars, String.toList_ofList, hfrom]
  exact congrArg Except.ok String.ofList_toList

section Stage

variable (resolve : String → Except OptionError String)

/-- Where a path is resolved: nothing is there to resolve, or a string at the last key, or further in a table. -/
theorem resolveAt_cons {key : String} {path : List String} {table after : Table S}
    (h : resolveAt resolve (key :: path) table = .ok after) :
    (after = table ∧ ∀ raw, (Value.table table).at (key :: path) ≠ some (.string raw)) ∨
    (∃ raw out, path = [] ∧ rowOf key table = some (.string raw) ∧ resolve raw = .ok out ∧
      after = putRow key (.string (escapeVars out)) table) ∨
    ∃ inner out, rowOf key table = some (.table inner) ∧ resolveAt resolve path inner = .ok out ∧
      after = putRow key (.table out) table := by
  unfold resolveAt at h
  split at h
  · rename_i raw hrow
    cases hout : resolve raw with
    | error reason =>
      rw [hout] at h
      cases h
    | ok out =>
      rw [hout] at h
      exact Or.inr (Or.inl ⟨raw, out, rfl, hrow, hout, (Except.ok.inj h).symm⟩)
  · rename_i path _ _ inner hrow
    cases hout : resolveAt resolve path inner with
    | error reason =>
      rw [hout] at h
      cases h
    | ok out =>
      rw [hout] at h
      exact Or.inr (Or.inr ⟨inner, out, hrow, hout, (Except.ok.inj h).symm⟩)
  · rename_i path _ _ htable hstring
    refine Or.inl ⟨(Except.ok.inj h).symm, fun raw hat => ?_⟩
    obtain ⟨inner, hrow, hinner⟩ := at_cons.mp hat
    cases path with
    | nil => exact hstring raw (hrow.trans hinner) rfl
    | cons next path =>
      cases inner with
      | table entries => exact htable entries hrow
      | string | scalar | array => cases hinner

/-- A table after a path is resolved in it: other leaves are kept, and a string at the path is resolved. -/
structure ResolvedAt (path : List String) (before after : Table S) : Prop where
  kept : ∀ at_ held, at_ ≠ [] → IsLeaf held → (at_ ≠ path ∨ ∀ raw, held ≠ .string raw) →
    ((Value.table after).at at_ = some held ↔ (Value.table before).at at_ = some held)
  resolved : ∀ raw, (Value.table before).at path = some (.string raw) →
    ∃ out, resolve raw = .ok out ∧ (Value.table after).at path = some (.string (escapeVars out))
  absent : (∀ raw, (Value.table before).at path ≠ some (.string raw)) →
    ∀ text, (Value.table after).at path ≠ some (.string text)
  ordered : (Value.table before).Ordered → (Value.table after).Ordered
  some_ : before ≠ [] → after ≠ []

/-- A lookup past a key that was written. -/
theorem at_putRow_of_ne {key other : String} (hne : key ≠ other) (value : Value S) (table : Table S)
    (path : List String) :
    (Value.table (putRow key value table)).at (other :: path) = (Value.table table).at (other :: path) := by
  rw [Value.at, Value.at, rowOf_putRow, if_neg hne]

/-- A lookup of a key that was written. -/
theorem at_putRow_self (key : String) (value : Value S) (table : Table S) (path : List String) :
    (Value.table (putRow key value table)).at (key :: path) = value.at path := by
  rw [Value.at, rowOf_putRow, if_pos rfl, Option.bind_some]

/-- A lookup of a row's key. -/
theorem at_of_rowOf {key : String} {table : Table S} {value : Value S} (hrow : rowOf key table = some value)
    (path : List String) : (Value.table table).at (key :: path) = value.at path := by
  rw [Value.at, hrow, Option.bind_some]

/-- A path is resolved in a table, its string alone. -/
theorem resolveAt_spec {path : List String} (hpath : path ≠ []) {before after : Table S}
    (h : resolveAt resolve path before = .ok after) : ResolvedAt resolve path before after := by
  induction path generalizing before after with
  | nil => exact absurd rfl hpath
  | cons key path ih =>
    rcases resolveAt_cons resolve h with ⟨rfl, hnone⟩ | ⟨raw, out, rfl, hrow, hout, rfl⟩ | ⟨inner, out, hrow, hout, rfl⟩
    · exact ⟨fun _ _ _ _ _ => Iff.rfl, fun raw hat => absurd hat (hnone raw), fun _ => hnone, id, id⟩
    · refine ⟨fun at_ held hat_ hheld hother => ?_, fun raw' hat => ?_, fun habsent => ?_, fun hordered => ?_,
        fun _ => putRow_ne_nil _ _ _⟩
      · obtain ⟨name, below, rfl⟩ := List.exists_cons_of_ne_nil hat_
        by_cases hkey : key = name
        · subst hkey
          rw [at_putRow_self, at_of_rowOf hrow]
          cases below with
          | nil =>
            have hheld := hother.resolve_left (not_not_intro rfl)
            refine iff_of_false (fun heq => ?_) fun heq => ?_
            · exact hheld _ (Option.some.inj heq).symm
            · exact hheld _ (Option.some.inj heq).symm
          | cons next below => exact iff_of_false nofun nofun
        · rw [at_putRow_of_ne hkey]
      · rw [at_of_rowOf hrow] at hat
        obtain rfl := Value.string.inj (Option.some.inj hat)
        exact ⟨out, hout, at_putRow_self _ _ _ _⟩
      · exact absurd (at_of_rowOf hrow []) (habsent raw)
      · exact ordered_putRow hordered key True.intro
    · cases path with
      | nil =>
        obtain rfl := Except.ok.inj hout
        have hsame : ∀ at_, at_ ≠ [] →
            (Value.table (putRow key (.table inner) before)).at at_ = (Value.table before).at at_ := by
          intro at_ hat_
          obtain ⟨name, below, rfl⟩ := List.exists_cons_of_ne_nil hat_
          by_cases hkey : key = name
          · subst hkey
            rw [at_putRow_self, at_of_rowOf hrow]
          · rw [at_putRow_of_ne hkey]
        refine ⟨fun at_ held hat_ _ _ => by rw [hsame at_ hat_], fun raw hat => ?_, fun habsent text => ?_,
          fun hordered => ordered_putRow hordered key (ordered_rowOf hordered hrow), fun _ => putRow_ne_nil _ _ _⟩
        · rw [at_of_rowOf hrow] at hat
          cases hat
        · rw [hsame _ hpath]
          exact habsent text
      | cons next path =>
        have hinner := ih (List.cons_ne_nil next path) hout
        refine ⟨fun at_ held hat_ hheld hother => ?_, fun raw hat => ?_, fun habsent text => ?_,
          fun hordered => ordered_putRow hordered key (hinner.ordered (ordered_rowOf hordered hrow)),
          fun _ => putRow_ne_nil _ _ _⟩
        · obtain ⟨name, below, rfl⟩ := List.exists_cons_of_ne_nil hat_
          by_cases hkey : key = name
          · subst hkey
            rw [at_putRow_self, at_of_rowOf hrow]
            cases below with
            | nil =>
              -- The table at the key is empty before where it is empty after.
              by_cases hempty : inner = []
              · subst hempty
                rcases resolveAt_cons resolve hout with ⟨rfl, _⟩ | ⟨_, _, _, hnone, _⟩ | ⟨_, _, hnone, _⟩
                · rfl
                · cases hnone
                · cases hnone
              · have hafter := hinner.some_ hempty
                refine iff_of_false (fun heq => ?_) fun heq => ?_
                · obtain rfl := Option.some.inj heq
                  exact hafter hheld.table_eq_nil
                · obtain rfl := Option.some.inj heq
                  exact hempty hheld.table_eq_nil
            | cons second below =>
              refine hinner.kept _ held (List.cons_ne_nil second below) hheld (hother.imp (fun hne heq => hne ?_) id)
              rw [heq]
          · rw [at_putRow_of_ne hkey]
        · rw [at_of_rowOf hrow] at hat
          obtain ⟨path', hresolve, hat'⟩ := hinner.resolved raw hat
          exact ⟨path', hresolve, by rw [at_putRow_self, hat']⟩
        · rw [at_putRow_self]
          exact hinner.absent (fun raw hat => habsent raw (by rw [at_of_rowOf hrow, hat])) text

end Stage

section Stages

/-- The path keys with how each leaves. -/
def leavingKeys (around : Surroundings) (start : OsStr) (checkoutRoot : Option OsStr) :
    List (List String × (String → Except OptionError String)) :=
  defaultsPaths.map (fun row => (row.1, leavingPath around start checkoutRoot row.1 row.2)) ++
    [(logDir, leavingLogDir around start)]

/-- A table stands for another: each key's string stands as the path it resolves to, spelled so that any
process expands it to that path, and other leaves stand as they are. -/
structure Stands (keys : List (List String × (String → Except OptionError String))) (before after : Table S) :
    Prop where
  kept : ∀ path held, path ≠ [] → IsLeaf held → (path ∉ keys.map Prod.fst ∨ ∀ raw, held ≠ .string raw) →
    ((Value.table after).at path = some held ↔ (Value.table before).at path = some held)
  resolved : ∀ row ∈ keys, ∀ raw, (Value.table before).at row.1 = some (.string raw) →
    ∃ out spelled, row.2 raw = .ok out ∧ (Value.table after).at row.1 = some (.string spelled) ∧
      ∀ around key, expandVars around spelled key = .ok out
  absent : ∀ row ∈ keys, (∀ raw, (Value.table before).at row.1 ≠ some (.string raw)) →
    ∀ text, (Value.table after).at row.1 ≠ some (.string text)

/-- Paths resolved in turn, under keys of their own, stand for what they resolve to. -/
theorem foldlM_resolveAt {keys : List (List String × (String → Except OptionError String))}
    (hkeys : ∀ row ∈ keys, row.1 ≠ []) (hdistinct : (keys.map Prod.fst).Nodup) {before after : Table S}
    (h : keys.foldlM (fun table row => resolveAt row.2 row.1 table) before = .ok after) :
    Stands keys before after ∧ ((Value.table before).Ordered → (Value.table after).Ordered) ∧
      (before ≠ [] → after ≠ []) := by
  induction keys generalizing before with
  | nil =>
    obtain rfl := Except.ok.inj h
    exact ⟨⟨fun _ _ _ _ _ => Iff.rfl, nofun, nofun⟩, id, id⟩
  | cons row rest ih =>
    obtain ⟨hrow, hrest⟩ := List.forall_mem_cons.mp hkeys
    rw [List.map_cons, List.nodup_cons] at hdistinct
    rw [List.foldlM_cons] at h
    cases hfirst : resolveAt row.2 row.1 before with
    | error reason =>
      rw [hfirst] at h
      cases h
    | ok middle =>
      rw [hfirst] at h
      have hstage := resolveAt_spec row.2 hrow hfirst
      obtain ⟨hstands, hordered, hsome⟩ := ih hrest hdistinct.2 h
      have hne : ∀ other ∈ rest, other.1 ≠ row.1 := fun other hother heq =>
        hdistinct.1 (heq ▸ List.mem_map_of_mem hother)
      -- A string at another key is the same before and after the first key is resolved.
      have hsame : ∀ other ∈ rest, ∀ raw, (Value.table middle).at other.1 = some (.string raw) ↔
          (Value.table before).at other.1 = some (.string raw) := fun other hother raw =>
        hstage.kept other.1 _ (hrest other hother) True.intro (Or.inl (hne other hother))
      have hlast : ∀ text, (Value.table after).at row.1 = some (.string text) ↔
          (Value.table middle).at row.1 = some (.string text) := fun text =>
        hstands.kept row.1 _ hrow True.intro (Or.inl hdistinct.1)
      refine ⟨⟨fun path held hpath hheld hother => ?_, fun other hother raw hat => ?_,
        fun other hother habsent text => ?_⟩,
        fun hbefore => hordered (hstage.ordered hbefore), fun hbefore => hsome (hstage.some_ hbefore)⟩
      · rw [List.map_cons, List.mem_cons, not_or] at hother
        rw [hstands.kept path held hpath hheld (hother.imp And.right id),
          hstage.kept path held hpath hheld (hother.imp And.left id)]
      · cases List.mem_cons.mp hother with
        | inl heq =>
          subst heq
          obtain ⟨out, hout, hat⟩ := hstage.resolved raw hat
          exact ⟨out, _, hout, (hlast _).mpr hat, fun around key => expandVars_escapeVars around out key⟩
        | inr hmem => exact hstands.resolved other hmem raw ((hsame other hmem raw).mpr hat)
      · cases List.mem_cons.mp hother with
        | inl heq =>
          subst heq
          exact fun hat => hstage.absent habsent text ((hlast text).mp hat)
        | inr hmem =>
          exact hstands.absent other hmem (fun raw hat => habsent raw ((hsame other hmem raw).mp hat)) text

/-- The table that leaves stands for the merged one. -/
theorem leaving_spec {around : Surroundings} {start : OsStr} {checkoutRoot : Option OsStr} {merged table : Table S}
    (h : leaving around start checkoutRoot merged = .ok table) :
    Stands (leavingKeys around start checkoutRoot) merged table ∧
      ((Value.table merged).Ordered → (Value.table table).Ordered) ∧ (merged ≠ [] → table ≠ []) := by
  refine foldlM_resolveAt ?_ ?_ ?_
  · simp [leavingKeys, defaultsPaths, logDir]
  · simp only [leavingKeys, defaultsPaths, logDir, List.map_cons, List.map_nil, List.cons_append, List.nil_append]
    decide +kernel
  · rw [leavingKeys, List.foldlM_append, List.foldlM_map]
    rw [leaving] at h
    cases hfold : defaultsPaths.foldlM
        (fun table row => resolveAt (leavingPath around start checkoutRoot row.1 row.2) row.1 table) merged with
    | error reason =>
      rw [hfold] at h
      cases h
    | ok middle =>
      rw [hfold] at h
      change (resolveAt (leavingLogDir around start) logDir middle >>= pure) = _
      rw [bind_pure]
      exact h

end Stages

end Devkit.Config
