import Devkit.Config.Accepted

/-!
# Where the leaves of the options come from

Setting a path leaves no leaf but those of the value set and those from before, and merging none but
those of the two tables. Each leaf of accepted options was therefore set below a key that was checked,
and is accepted under its own path.
-/

namespace Devkit.Config

open Devkit.Library
open Devkit.Library.Toml

variable {S : Type}

section Tables

/-- A table that was written to has a row. -/
theorem putRow_ne_nil (key : String) (value : Value S) (table : Table S) : putRow key value table ≠ [] := by
  cases table with
  | nil => exact List.cons_ne_nil _ _
  | cons row rest =>
    rw [putRow]
    split
    · exact List.cons_ne_nil _ _
    · split <;> exact List.cons_ne_nil _ _

/-- A leaf table is empty. -/
theorem IsLeaf.table_eq_nil {table : Table S} (h : IsLeaf (Value.table table)) : table = [] := by
  cases table with
  | nil => rfl
  | cons row rest => exact absurd h id

end Tables

section Insert

/-- The table a key holds, empty where it holds none. -/
def innerTable (key : String) (table : Table S) : Table S :=
  match rowOf key table with
  | some (.table inner) => inner
  | _ => []

/-- A path is set in the table its first key holds. -/
theorem insertAt_cons (key next : String) (path : List String) (value : Value S) (table : Table S) :
    insertAt (key :: next :: path) value table =
      putRow key (.table (insertAt (next :: path) value (innerTable key table))) table := by
  rw [insertAt]
  · rfl
  · intro hnil
    cases hnil

/-- A leaf below a key is one of the table it holds. -/
theorem at_innerTable {key : String} {table : Table S} {path : List String} (hpath : path ≠ []) {held : Value S}
    (hat : (Value.table (innerTable key table)).at path = some held) :
      (Value.table table).at (key :: path) = some held := by
  obtain ⟨next, path, rfl⟩ := List.exists_cons_of_ne_nil hpath
  rw [innerTable] at hat
  split at hat
  · rename_i inner hrow
    exact at_cons.mpr ⟨_, hrow, hat⟩
  · cases hat

/-- Setting a path keeps a table ordered. -/
theorem ordered_insertAt (path : List String) {value : Value S} (hvalue : value.Ordered) {table : Table S}
    (h : (Value.table table).Ordered) : (Value.table (insertAt path value table)).Ordered := by
  induction path generalizing table with
  | nil => exact h
  | cons key path ih =>
    cases path with
    | nil => exact ordered_putRow h key hvalue
    | cons next path =>
      have hinner : (Value.table (innerTable key table)).Ordered := by
        rw [innerTable]
        split
        · rename_i inner hrow
          exact ordered_rowOf h hrow
        · exact ordered_nil
      rw [insertAt_cons]
      exact ordered_putRow h key (ih hinner)

/-- A leaf after a path is set is a leaf of the value there or one from before. -/
theorem at_insertAt {path : List String} (hpath : path ≠ []) {value : Value S} {table : Table S} {at_ : List String}
    (hat_ : at_ ≠ []) {held : Value S} (hat : (Value.table (insertAt path value table)).at at_ = some held)
    (hheld : IsLeaf held) :
    (∃ below, at_ = path ++ below ∧ value.at below = some held) ∨ (Value.table table).at at_ = some held := by
  induction path generalizing table at_ with
  | nil => exact absurd rfl hpath
  | cons key path ih =>
    obtain ⟨first, rest, rfl⟩ := List.exists_cons_of_ne_nil hat_
    cases path with
    | nil =>
      obtain ⟨inner, hrow, hinner⟩ := at_cons.mp hat
      rw [insertAt, rowOf_putRow] at hrow
      split at hrow
      · rename_i hkey
        obtain rfl := Option.some.inj hrow
        exact Or.inl ⟨rest, by rw [hkey]; rfl, hinner⟩
      · exact Or.inr (at_cons.mpr ⟨inner, hrow, hinner⟩)
    | cons next path =>
      rw [insertAt_cons] at hat
      obtain ⟨inner, hrow, hinner⟩ := at_cons.mp hat
      rw [rowOf_putRow] at hrow
      split at hrow
      · rename_i hkey
        obtain rfl := Option.some.inj hrow
        cases rest with
        | nil =>
          obtain rfl := Option.some.inj hinner
          cases path with
          | nil => exact absurd hheld.table_eq_nil (putRow_ne_nil _ _ _)
          | cons after path =>
            rw [insertAt_cons] at hheld
            exact absurd hheld.table_eq_nil (putRow_ne_nil _ _ _)
        | cons second rest =>
          cases ih (List.cons_ne_nil next path) (List.cons_ne_nil second rest) hinner with
          | inl hset =>
            obtain ⟨below, heq, hbelow⟩ := hset
            exact Or.inl ⟨below, by rw [heq, hkey]; rfl, hbelow⟩
          | inr hbefore => exact Or.inr (hkey ▸ at_innerTable (List.cons_ne_nil second rest) hbefore)
      · exact Or.inr (at_cons.mpr ⟨inner, hrow, hinner⟩)

end Insert

section Sets

/-- The leaves of a table are accepted, each under its path. -/
structure AcceptedLeaves (lib : Libraries S) (table : Table S) : Prop where
  ordered : (Value.table table).Ordered
  accepted : ∀ path held, path ≠ [] → (Value.table table).at path = some held → IsLeaf held → Accepted lib path held

/-- Each leaf of a table is one of a value set under a key that was checked; harness keys are kept. -/
structure SetUnderKeys (lib : Libraries S) (state : Table S × List (List String)) : Prop where
  ordered : (Value.table state.1).Ordered
  set : ∀ path held, path ≠ [] → (Value.table state.1).at path = some held → IsLeaf held →
    ∃ key below value, path = key ++ below ∧ key ≠ [] ∧ value.at below = some held ∧
      checkKey lib "" key value = .ok () ∧ (key.head? = some "harness" → key ∈ state.2)

variable {lib : Libraries S}

/-- An option has a key, and its value is ordered. -/
theorem parseOne_ok (hordered : ∀ text entries, lib.fromStr text = some entries → (Value.table entries).Ordered)
    {label : String} {arg : List Char} {path : List String} {value : Value S}
    (h : parseOne lib label arg = .ok (path, value)) : path ≠ [] ∧ value.Ordered := by
  rw [parseOne] at h
  cases hsplit : splitAssignment arg with
  | none => simp only [hsplit, reduceCtorEq] at h
  | some found =>
    obtain ⟨key, text⟩ := found
    cases hkey : keySegments lib (trim key) with
    | none => simp only [hsplit, hkey, reduceCtorEq] at h
    | some segments =>
      simp only [hsplit, hkey] at h
      split at h
      · cases h
      · rename_i held hheld
        obtain ⟨rfl, rfl⟩ := Prod.mk.inj (Except.ok.inj h)
        obtain ⟨entries, _, hone⟩ := Option.bind_eq_some_iff.mp hkey
        refine ⟨?_, (hordered _ _ hheld).2.1⟩
        rintro rfl
        cases entries with
        | nil => cases hone
        | cons row rest =>
          cases rest with
          | nil =>
            obtain ⟨_, _, hcons⟩ := Option.map_eq_some_iff.mp hone
            cases hcons
          | cons => cases hone
      · cases h

/-- One option sets leaves under its key. -/
theorem SetUnderKeys.insertAt {state : Table S × List (List String)} (h : SetUnderKeys lib state) {key : List String}
    (hkey : key ≠ []) {value : Value S} (hvalue : value.Ordered) (hcheck : checkKey lib "" key value = .ok ()) :
    SetUnderKeys lib (Config.insertAt key value state.1,
      if key.head? = some "harness" then state.2 ++ [key] else state.2) := by
  refine ⟨ordered_insertAt key hvalue h.ordered, fun path held hpath hat hheld => ?_⟩
  cases at_insertAt hkey hpath hat hheld with
  | inl hset =>
    obtain ⟨below, rfl, hbelow⟩ := hset
    refine ⟨key, below, value, rfl, hkey, hbelow, hcheck, fun hharness => ?_⟩
    rw [if_pos hharness]
    exact List.mem_append_right _ List.mem_cons_self
  | inr hbefore =>
    obtain ⟨other, below, otherValue, heq, hother, hbelow, hchecked, hkept⟩ := h.set path held hpath hbefore hheld
    refine ⟨other, below, otherValue, heq, hother, hbelow, hchecked, fun hharness => ?_⟩
    split
    · exact List.mem_append_left _ (hkept hharness)
    · exact hkept hharness

/-- Setting options in turn sets leaves under their keys. -/
theorem SetUnderKeys.setAll (hordered : ∀ text entries, lib.fromStr text = some entries → (Value.table entries).Ordered)
    {label : String} {args : List (List Char)} {state after : Table S × List (List String)}
    (h : SetUnderKeys lib state) (hset : Config.setAll lib label args state = .ok after) : SetUnderKeys lib after := by
  induction args generalizing state with
  | nil => exact Except.ok.inj hset ▸ h
  | cons arg rest ih =>
    rw [Config.setAll, List.foldlM_cons] at hset
    cases hparse : parseOne lib label arg with
    | error reason =>
      rw [hparse] at hset
      cases hset
    | ok found =>
      obtain ⟨key, value⟩ := found
      obtain ⟨hkey, hvalue⟩ := parseOne_ok hordered hparse
      rw [hparse] at hset
      cases hcheck : checkKey lib label key value with
      | error reason =>
        change (checkKey lib label key value >>= _) >>= _ = _ at hset
        rw [hcheck] at hset
        cases hset
      | ok done =>
        change (checkKey lib label key value >>= _) >>= _ = _ at hset
        rw [hcheck] at hset
        exact ih (h.insertAt hkey hvalue (checkKey_eq_ok.mpr (checkKey_eq_ok.mp hcheck))) hset

/-- A check of every harness key passes where each does. -/
theorem forM_checkHarnessValue {label : String} {table : Table S} {keys : List (List String)} :
    keys.forM (checkHarnessValue lib label table) = .ok () ↔
      ∀ key ∈ keys, ∀ value, (Value.table table).at key = some value → readsHarness lib.readers key value = true := by
  have hone : ∀ key, checkHarnessValue lib label table key = .ok () ↔
      ∀ value, (Value.table table).at key = some value → readsHarness lib.readers key value = true := by
    intro key
    rw [checkHarnessValue]
    cases (Value.table table).at key with
    | none => exact iff_of_true rfl nofun
    | some value =>
      cases hreads : readsHarness lib.readers key value with
      | true => simp [hreads]
      | false => simp [hreads]
  induction keys with
  | nil => exact iff_of_true rfl nofun
  | cons key rest ih =>
    change (checkHarnessValue lib label table key >>= fun _ => rest.forM (checkHarnessValue lib label table)) = _ ↔ _
    rw [List.forall_mem_cons]
    refine Iff.trans ?_ (and_congr (hone key) ih)
    cases checkHarnessValue lib label table key with
    | error reason => exact iff_of_false nofun fun hboth => nomatch hboth.1
    | ok done => exact ⟨fun hrest => ⟨rfl, hrest⟩, And.right⟩

/-- The leaves of a set of options are accepted. -/
theorem acceptedLeaves_of_parseSet
    (hordered : ∀ text entries, lib.fromStr text = some entries → (Value.table entries).Ordered)
    (hreaders : ∀ reads ∈ lib.readers.single, ReadsSingly reads) {label : String} {args : List (List Char)}
    {table : Table S} (h : parseSet lib label args = .ok table) : AcceptedLeaves lib table := by
  rw [parseSet] at h
  cases hset : setAll lib label args ([], []) with
  | error reason =>
    rw [hset] at h
    cases h
  | ok after =>
    obtain ⟨found, keys⟩ := after
    rw [hset] at h
    change (keys.forM (checkHarnessValue lib label found) >>= fun _ => Except.ok found) = _ at h
    cases hchecks : keys.forM (checkHarnessValue lib label found) with
    | error reason =>
      rw [hchecks] at h
      cases h
    | ok done =>
      rw [hchecks] at h
      obtain rfl := Except.ok.inj h
      have hempty : SetUnderKeys lib (([], []) : Table S × List (List String)) := by
        refine ⟨ordered_nil, fun path held hpath hat _ => ?_⟩
        obtain ⟨key, rest, rfl⟩ := List.exists_cons_of_ne_nil hpath
        cases hat
      have hunder := hempty.setAll hordered hset
      refine ⟨hunder.ordered, fun path held hpath hat hheld => ?_⟩
      obtain ⟨key, below, value, rfl, hkey, hbelow, hcheck, hkept⟩ := hunder.set path held hpath hat hheld
      obtain ⟨hfile, hknown⟩ := checkKey_eq_ok.mp hcheck
      have hhead : (key ++ below).head? = key.head? := List.head?_append_of_ne_nil _ hkey
      refine ⟨by rwa [hhead], unknownIn_append lib hkey hbelow hknown, fun hharness => ?_⟩
      -- A harness value is read as the last option left it, not as it was set.
      rw [at_append] at hat
      obtain ⟨left, hleft, hbelow⟩ := Option.bind_eq_some_iff.mp hat
      exact readsHarness_append hreaders hkey hbelow hheld
        (forM_checkHarnessValue.mp hchecks key (hkept (hhead ▸ hharness)) left hleft)

end Sets

section Merge

/-- The rows merged from no rows are those there. -/
theorem deepMerge_eq_nil {overlay table : Table S} (h : deepMerge overlay table = []) : overlay = [] ∧ table = [] := by
  induction overlay generalizing table with
  | nil => exact ⟨rfl, h⟩
  | cons row rest ih =>
    obtain ⟨key, value⟩ := row
    rw [deepMerge] at h
    exact absurd (ih h).2 (putRow_ne_nil _ _ _)

mutual

/-- A leaf of a value merged over another is a leaf of one of them. -/
theorem at_mergeValue (value : Value S) (hordered : value.Ordered) (before : Option (Value S)) {path : List String}
    {held : Value S} (hat : (mergeValue value before).at path = some held) (hheld : IsLeaf held) :
    value.at path = some held ∨ ∃ base, before = some base ∧ base.at path = some held := by
  match value, before with
  | .table overlay, some (.table entries) =>
    rw [mergeValue] at hat
    cases path with
    | nil =>
      obtain rfl := Option.some.inj hat
      obtain ⟨rfl, rfl⟩ := deepMerge_eq_nil hheld.table_eq_nil
      exact Or.inl rfl
    | cons key path =>
      exact (at_deepMerge overlay hordered entries (List.cons_ne_nil key path) hat hheld).imp id fun hbase =>
        ⟨_, rfl, hbase⟩
  | .table overlay, none | .table overlay, some (.string _) | .table overlay, some (.scalar _)
  | .table overlay, some (.array _) =>
    rw [mergeValue] at hat
    · exact Or.inl hat
    · exact nofun
  | .string text, before | .scalar value, before | .array items, before =>
    rw [mergeValue] at hat
    · exact Or.inl hat
    · exact nofun

/-- A leaf of merged tables is a leaf of one of them. -/
theorem at_deepMerge (overlay : Table S) (hordered : (Value.table overlay).Ordered) (table : Table S)
    {path : List String} (hpath : path ≠ []) {held : Value S}
    (hat : (Value.table (deepMerge overlay table)).at path = some held) (hheld : IsLeaf held) :
    (Value.table overlay).at path = some held ∨ (Value.table table).at path = some held := by
  match overlay with
  | [] => exact Or.inr hat
  | (key, value) :: rest =>
    obtain ⟨hfirst, hascending⟩ := List.pairwise_cons.mp hordered.1
    obtain ⟨name, below, rfl⟩ := List.exists_cons_of_ne_nil hpath
    rw [deepMerge] at hat
    cases at_deepMerge rest ⟨hascending, hordered.2.2⟩ _ hpath hat hheld with
    | inl hrest =>
      obtain ⟨inner, hrow, hinner⟩ := at_cons.mp hrest
      have hne : key ≠ name := ne_of_lt (hfirst _ (mem_of_rowOf hrow))
      exact Or.inl (at_cons.mpr ⟨inner, by rwa [rowOf, if_neg hne], hinner⟩)
    | inr hwritten =>
      obtain ⟨inner, hrow, hinner⟩ := at_cons.mp hwritten
      rw [rowOf_putRow] at hrow
      split at hrow
      · rename_i hkey
        obtain rfl := Option.some.inj hrow
        cases at_mergeValue value hordered.2.1 _ hinner hheld with
        | inl hvalue => exact Or.inl (at_cons.mpr ⟨value, by rw [rowOf, if_pos hkey], hvalue⟩)
        | inr hbase =>
          obtain ⟨base, hrow, hbase⟩ := hbase
          exact Or.inr (at_cons.mpr ⟨base, hkey ▸ hrow, hbase⟩)
      · exact Or.inr (at_cons.mpr ⟨inner, hrow, hinner⟩)

end

mutual

/-- An ordered value merged over an ordered one is ordered. -/
theorem ordered_mergeValue (value : Value S) (hordered : value.Ordered) (before : Option (Value S))
    (hbefore : ∀ base, before = some base → base.Ordered) : (mergeValue value before).Ordered := by
  match value, before with
  | .table overlay, some (.table entries) =>
    rw [mergeValue]
    exact ordered_deepMerge overlay hordered entries (hbefore _ rfl)
  | .table overlay, none | .table overlay, some (.string _) | .table overlay, some (.scalar _)
  | .table overlay, some (.array _) =>
    rw [mergeValue]
    · exact hordered
    · exact nofun
  | .string text, before | .scalar value, before | .array items, before =>
    rw [mergeValue]
    · exact hordered
    · exact nofun

/-- Ordered tables merge into an ordered one. -/
theorem ordered_deepMerge (overlay : Table S) (hordered : (Value.table overlay).Ordered) (table : Table S)
    (htable : (Value.table table).Ordered) : (Value.table (deepMerge overlay table)).Ordered := by
  match overlay with
  | [] => exact htable
  | (key, value) :: rest =>
    rw [deepMerge]
    refine ordered_deepMerge rest ⟨(List.pairwise_cons.mp hordered.1).2, hordered.2.2⟩ _ (ordered_putRow htable key ?_)
    exact ordered_mergeValue value hordered.2.1 _ fun base hrow => ordered_rowOf htable hrow

end

/-- A table merged over one of lower keys is listed after it. -/
theorem deepMerge_after {table overlay : Table S} (h : Ascending (table ++ overlay)) :
    deepMerge overlay table = table ++ overlay := by
  induction overlay generalizing table with
  | nil => rw [deepMerge, List.append_nil]
  | cons row rest ih =>
    obtain ⟨key, value⟩ := row
    have hlast : ∀ row ∈ table, row.1 < key := fun row hrow =>
      (List.pairwise_append.mp h).2.2 row hrow (key, value) List.mem_cons_self
    have hvalue : mergeValue value none = value := by
      cases value with
      | table | string | scalar | array =>
        rw [mergeValue]
        exact nofun
    rw [deepMerge, rowOf_eq_none fun row hrow => ne_of_lt (hlast row hrow), hvalue, putRow_of_lt value hlast,
      ih (by rwa [List.append_assoc]), List.append_assoc, List.singleton_append]

variable {lib : Libraries S}

/-- Merging accepted leaves leaves accepted leaves. -/
theorem AcceptedLeaves.deepMerge {overlay table : Table S} (hoverlay : AcceptedLeaves lib overlay)
    (htable : AcceptedLeaves lib table) : AcceptedLeaves lib (Config.deepMerge overlay table) := by
  refine ⟨ordered_deepMerge overlay hoverlay.ordered table htable.ordered, fun path held hpath hat hheld => ?_⟩
  cases at_deepMerge overlay hoverlay.ordered table hpath hat hheld with
  | inl hfound => exact hoverlay.accepted path held hpath hfound hheld
  | inr hfound => exact htable.accepted path held hpath hfound hheld

/-- The empty table has no leaf to accept. -/
theorem acceptedLeaves_nil : AcceptedLeaves lib ([] : Table S) := by
  refine ⟨ordered_nil, fun path held hpath hat _ => ?_⟩
  obtain ⟨key, rest, rfl⟩ := List.exists_cons_of_ne_nil hpath
  cases hat

/-- Layers with rows and accepted leaves merge into a table with rows and accepted leaves. -/
theorem acceptedLeaves_mergeLayers {layers : List (Table S)}
    (hlayers : ∀ layer ∈ layers, layer ≠ [] ∧ AcceptedLeaves lib layer) {table : Table S}
    (htable : AcceptedLeaves lib table) (hsome : layers ≠ [] ∨ table ≠ []) :
    layers.foldl (fun merged layer => Config.deepMerge layer merged) table ≠ [] ∧
      AcceptedLeaves lib (layers.foldl (fun merged layer => Config.deepMerge layer merged) table) := by
  induction layers generalizing table with
  | nil => exact ⟨hsome.resolve_left (not_not_intro rfl), htable⟩
  | cons layer rest ih =>
    obtain ⟨⟨hfull, hlayer⟩, hrest⟩ := List.forall_mem_cons.mp hlayers
    exact ih hrest (hlayer.deepMerge htable) (Or.inr fun heq => hfull (deepMerge_eq_nil heq).1)

/-- The merged options have a row, and their leaves are accepted. -/
theorem acceptedLeaves_merged {options : Options S} (henvironment : AcceptedLeaves lib options.environment)
    (hcommand : AcceptedLeaves lib options.commandLine) {merged : Table S} (h : options.merged = some merged) :
    merged ≠ [] ∧ AcceptedLeaves lib merged := by
  rw [Options.merged] at h
  split at h
  · cases h
  · rename_i hempty
    obtain rfl := Option.some.inj h
    rw [Options.isEmpty, Bool.and_eq_true, List.isEmpty_iff, List.isEmpty_iff, not_and_or] at hempty
    have hlayers : ∀ layer ∈ options.layers, layer ≠ [] ∧ AcceptedLeaves lib layer := by
      intro layer hlayer
      obtain ⟨hmem, hfull⟩ := List.mem_filter.mp hlayer
      refine ⟨by simpa using hfull, ?_⟩
      cases List.mem_cons.mp hmem with
      | inl heq => exact heq ▸ henvironment
      | inr hmem => exact List.mem_singleton.mp hmem ▸ hcommand
    have hsome : options.layers ≠ [] := by
      have hlayer : ∀ layer ∈ [options.environment, options.commandLine], layer ≠ [] → options.layers ≠ [] :=
        fun layer hmem hfull => List.ne_nil_of_mem (List.mem_filter.mpr ⟨hmem, by simpa using hfull⟩)
      cases hempty with
      | inl hfull => exact hlayer _ List.mem_cons_self hfull
      | inr hfull => exact hlayer _ (List.mem_cons_of_mem _ List.mem_cons_self) hfull
    exact acceptedLeaves_mergeLayers hlayers acceptedLeaves_nil (Or.inl hsome)

end Merge

end Devkit.Config
