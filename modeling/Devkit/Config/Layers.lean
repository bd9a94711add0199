import Devkit.Config.Provenance
import Mathlib.Algebra.GroupWithZero.Nat

/-!
# Provenance and the merged table

What is recorded of each value matches the merged table exactly when the layers agree on what is a table, when the
dotted paths tell their values apart, and when what is under an empty key is there before.
-/

namespace Devkit.Config

open Devkit.Library
open Devkit.Library.Toml

variable {S : Type}

/-- The dotted path of some keys. -/
def flatPath (keys : List String) : String := keys.foldl childPath ""

/-- The layer has a value that is no table under the keys. -/
def Supplies (table : Table S) (keys : List String) : Prop :=
  ∃ value, (Value.table table).at keys = some value ∧ Plain value

/-- What a layer has under the keys, if that is no table. -/
def supplied (keys : List String) (layer : String × Table S) : Option (Shadow S) :=
  match (Value.table layer.2).at keys with
  | some value => if Plain value then some ⟨layer.1, value⟩ else none
  | none => none

/-- What the layers have under the keys, from the lowest to the highest. -/
def supplies (layers : List (String × Table S)) (keys : List String) : List (Shadow S) :=
  layers.filterMap (supplied keys)

/-- Each value of the merged table has as origin the highest layer that supplies it and as shadows what the earlier
ones supply, and nothing else is named. -/
structure ProvenanceMatches (layers : List (String × Table S)) : Prop where
  origin : ∀ leaf ∈ plainLeaves (.table (mergeLayersSeen layers).1),
    (mergeLayersSeen layers).2.winner[flatPath leaf.1]? = (supplies layers leaf.1).getLast?.map Shadow.file
  shadowed : ∀ leaf ∈ plainLeaves (.table (mergeLayersSeen layers).1),
    (mergeLayersSeen layers).2.shadowed[flatPath leaf.1]?.getD [] = (supplies layers leaf.1).dropLast
  named : ∀ path, path ∈ (mergeLayersSeen layers).2.winner ∨ path ∈ (mergeLayersSeen layers).2.shadowed →
    path ∈ (flatten (.table (mergeLayersSeen layers).1) "").map Prod.fst

section Paths

/-- A path below one that is not empty is not empty. -/
theorem isEmpty_underPath (path key : String) : (underPath path key).isEmpty = false := by
  have hne : underPath path key ≠ "" := by
    intro heq
    have hlist := congrArg String.toList heq
    rw [underPath, String.toList_append, String.toList_append] at hlist
    simp at hlist
  exact Bool.eq_false_iff.mpr fun hempty => hne (String.isEmpty_iff.mp hempty)

/-- Below a path that is not empty, keys are joined to it in turn. -/
theorem foldl_childPath {above : String} (h : above.isEmpty = false) (keys : List String) :
    keys.foldl childPath above = keys.foldl underPath above := by
  induction keys generalizing above with
  | nil => rfl
  | cons key rest ih =>
    rw [List.foldl_cons, List.foldl_cons, childPath, h]
    exact ih (isEmpty_underPath above key)

/-- The path that a value is recorded under where it is merged over another. -/
def recordedAs (path : String) : Option (Value S) → List String → String
  | some (.table entries), key :: rest => recordedAs (childPath path key) (rowOf key entries) rest
  | _, keys => keys.foldl underPath path

/-- A value merged over no table is recorded under its keys joined in turn. -/
theorem recordedAs_of_plain {path : String} {before : Option (Value S)} (h : ∀ entries, before ≠ some (.table entries))
    (keys : List String) : recordedAs path before keys = keys.foldl underPath path := by
  rw [recordedAs]
  rintro entries _ _ rfl
  exact absurd rfl (h entries)

/-- A value itself is recorded under its path. -/
theorem recordedAs_nil (path : String) (before : Option (Value S)) : recordedAs path before [] = path := by
  rw [recordedAs]
  · rfl
  · exact nofun

mutual

/-- What merging a value records are the values in it. -/
theorem keys_valueRecords (src path : String) (value : Value S) (before : Option (Value S)) :
    (valueRecords src path value before).map (fun record => (record.keys, record.shadow)) =
      (plainLeaves value).map fun leaf => (leaf.1, ⟨src, leaf.2⟩) := by
  match value, before with
  | .table overlay, some (.table entries) =>
    rw [valueRecords, plainLeaves]
    exact keys_tableRecords src path overlay entries
  | .table overlay, none | .table overlay, some (.string _) | .table overlay, some (.scalar _)
  | .table overlay, some (.array _) | .string _, before | .scalar _, before | .array _, before =>
    rw [valueRecords, List.map_map]
    · rfl
    · exact nofun

/-- What merging an overlay records are the values in it. -/
theorem keys_tableRecords (src above : String) (overlay acc : Table S) :
    (tableRecords src above overlay acc).map (fun record => (record.keys, record.shadow)) =
      (plainRows overlay).map fun leaf => (leaf.1, ⟨src, leaf.2⟩) := by
  match overlay with
  | [] => rfl
  | (k, v) :: rest =>
    rw [tableRecords, plainRows, List.map_append, List.map_append, keys_tableRecords src above rest, List.map_map,
      List.map_map]
    have hvalue := congrArg (List.map fun pair : List String × Shadow S => (k :: pair.1, pair.2))
      (keys_valueRecords src (childPath above k) v (rowOf k acc))
    rw [List.map_map, List.map_map] at hvalue
    exact congrArg (· ++ _) hvalue

end

/-- A record is of a value in the overlay. -/
theorem mem_plainRows_of_record {src above : String} {overlay acc : Table S} {record : Record S}
    (h : record ∈ tableRecords src above overlay acc) :
    record.shadow.file = src ∧ (record.keys, record.shadow.value) ∈ plainRows overlay := by
  have hmem := List.mem_map_of_mem (f := fun record : Record S => (record.keys, record.shadow)) h
  rw [keys_tableRecords] at hmem
  obtain ⟨leaf, hleaf, heq⟩ := List.mem_map.mp hmem
  obtain ⟨hkeys, hshadow⟩ := Prod.mk.inj heq
  rw [← hshadow, ← hkeys]
  exact ⟨rfl, hleaf⟩

mutual

/-- Each record is made under the path its keys have where it is merged. -/
theorem path_of_mem_valueRecords (src path : String) (value : Value S) (hordered : value.Ordered)
    (before : Option (Value S)) {record : Record S} (h : record ∈ valueRecords src path value before) :
    record.path = recordedAs path before record.keys := by
  match value, before with
  | .table overlay, some (.table entries) =>
    rw [valueRecords] at h
    exact path_of_mem_tableRecords src path overlay hordered entries h
  | .table overlay, none | .table overlay, some (.string _) | .table overlay, some (.scalar _)
  | .table overlay, some (.array _) =>
    rw [valueRecords] at h
    · obtain ⟨leaf, _, rfl⟩ := List.mem_map.mp h
      refine (recordedAs_of_plain ?_ leaf.1).symm
      exact fun _ => nofun
    · exact nofun
  | .string _, before | .scalar _, before | .array _, before =>
    rw [valueRecords, plainLeaves_of_plain (by trivial)] at h
    · obtain rfl := List.mem_singleton.mp h
      exact (recordedAs_nil path before).symm
    · exact nofun

/-- Each record is made under the path its keys have where it is merged. -/
theorem path_of_mem_tableRecords (src above : String) (overlay : Table S) (hordered : (Value.table overlay).Ordered)
    (acc : Table S) {record : Record S} (h : record ∈ tableRecords src above overlay acc) :
    record.path = recordedAs above (some (.table acc)) record.keys := by
  match overlay with
  | [] => exact absurd h List.not_mem_nil
  | (k, v) :: rest =>
    obtain ⟨hfirst, hascending⟩ := List.pairwise_cons.mp hordered.1
    rw [tableRecords] at h
    rcases List.mem_append.mp h with hvalue | hrest
    · obtain ⟨inner, hinner, rfl⟩ := List.mem_map.mp hvalue
      have hpath := path_of_mem_valueRecords src (childPath above k) v hordered.2.1 (rowOf k acc) hinner
      change inner.path = recordedAs above (some (.table acc)) (k :: inner.keys)
      rw [hpath, recordedAs]
    · have hpath := path_of_mem_tableRecords src above rest ⟨hascending, hordered.2.2⟩ _ hrest
      obtain ⟨key, below, value, hrow, _, hkeys⟩ := mem_plainRows.mp (mem_plainRows_of_record hrest).2
      have hne : k ≠ key := ne_of_lt (hfirst _ hrow)
      change record.keys = key :: below at hkeys
      rw [hpath, hkeys, recordedAs, recordedAs, rowOf_putRow, if_neg hne]

end

/-- Keys joined in turn make a path longer by each. -/
theorem length_foldl_underPath (path : String) (keys : List String) :
    (keys.foldl underPath path).length = path.length + (keys.map fun key => key.length + 1).sum := by
  induction keys generalizing path with
  | nil => rfl
  | cons key rest ih =>
    rw [List.foldl_cons, ih, underPath, String.length_append, String.length_append, List.map_cons, List.sum_cons]
    have hdot : ".".length = 1 := rfl
    omega

/-- A path of the flattened table is no longer than one joined in turn. -/
theorem length_foldl_childPath_le (path : String) (keys : List String) :
    (keys.foldl childPath path).length ≤ (keys.foldl underPath path).length := by
  induction keys generalizing path with
  | nil => exact Nat.le_refl _
  | cons key rest ih =>
    refine (ih _).trans ?_
    rw [List.foldl_cons, length_foldl_underPath, length_foldl_underPath, childPath]
    split
    · rw [underPath, String.length_append, String.length_append]
      omega
    · exact Nat.le_refl _

/-- Below a path that is not empty, a value is recorded under the path it is flattened to. -/
theorem recordedAs_of_isEmpty {path : String} (h : path.isEmpty = false) (before : Option (Value S))
    (keys : List String) :
    recordedAs path before keys = keys.foldl childPath path := by
  induction keys generalizing path before with
  | nil => rw [recordedAs_nil, List.foldl_nil]
  | cons key rest ih =>
    match before with
    | some (.table entries) =>
      have hchild : (childPath path key).isEmpty = false := by
        rw [childPath, h]
        exact isEmpty_underPath path key
      rw [recordedAs, ih hchild, List.foldl_cons]
    | none | some (.string _) | some (.scalar _) | some (.array _) =>
      rw [recordedAs_of_plain, foldl_childPath h]
      exact fun _ => nofun

/-- The value before has tables under the empty keys that some keys start with. -/
def Rooted (before : Option (Value S)) (keys : List String) : Prop :=
  ∀ start, start <+: keys → start ≠ keys → (∀ key ∈ start, key = "") →
    ∃ entries, (before.bind fun value => value.at start) = some (.table entries)

/-- A value is recorded under the path it is flattened to where there are tables under the empty keys its keys
start with; elsewhere the path recorded is longer. -/
theorem recordedAs_spec (before : Option (Value S)) (keys : List String) :
    (Rooted before keys → recordedAs "" before keys = flatPath keys) ∧
      (¬ Rooted before keys → (flatPath keys).length < (recordedAs "" before keys).length) := by
  induction keys generalizing before with
  | nil =>
    have hrooted : Rooted before [] := fun start hstart hne => absurd (List.prefix_nil.mp hstart) hne
    exact ⟨fun _ => recordedAs_nil "" before, fun hnot => absurd hrooted hnot⟩
  | cons key rest ih =>
    match before with
    | some (.table entries) =>
      rw [recordedAs]
      by_cases hkey : key = ""
      · subst hkey
        have hrooted : Rooted (some (.table entries)) ("" :: rest) ↔ Rooted (rowOf "" entries) rest := by
          constructor
          · intro h start hstart hne hempty
            exact h ("" :: start) (List.cons_prefix_cons.mpr ⟨rfl, hstart⟩) (fun heq => hne (List.cons.inj heq).2)
              (List.forall_mem_cons.mpr ⟨rfl, hempty⟩)
          · intro h start hstart hne hempty
            cases start with
            | nil => exact ⟨entries, rfl⟩
            | cons first start =>
              obtain ⟨rfl, hshorter⟩ := List.cons_prefix_cons.mp hstart
              exact h start hshorter (fun heq => hne (heq ▸ rfl)) (List.forall_mem_cons.mp hempty).2
        rw [hrooted]
        exact ih (rowOf "" entries)
      · have hkeyed : key.isEmpty = false := Bool.eq_false_iff.mpr fun hempty => hkey (String.isEmpty_iff.mp hempty)
        have hrooted : Rooted (some (.table entries)) (key :: rest) := by
          intro start hstart _ hempty
          cases start with
          | nil => exact ⟨entries, rfl⟩
          | cons first start =>
            obtain ⟨rfl, _⟩ := List.cons_prefix_cons.mp hstart
            exact absurd (hempty first List.mem_cons_self) hkey
        exact ⟨fun _ => recordedAs_of_isEmpty hkeyed _ rest, fun hnot => absurd hrooted hnot⟩
    | none | some (.string _) | some (.scalar _) | some (.array _) =>
      refine ⟨fun hrooted => ?_, fun _ => ?_⟩
      · obtain ⟨entries, heq⟩ := hrooted [] List.nil_prefix (List.cons_ne_nil key rest).symm
          fun _ h => absurd h List.not_mem_nil
        cases heq
      · rw [recordedAs_of_plain]
        · refine (length_foldl_childPath_le key rest).trans_lt ?_
          rw [length_foldl_underPath, length_foldl_underPath, List.map_cons, List.sum_cons, String.length_empty]
          omega
        · exact fun _ => nofun

end Paths

end Devkit.Config
