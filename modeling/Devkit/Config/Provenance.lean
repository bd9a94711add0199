import Devkit.Config.Resolved
import Devkit.Library.OrderedMap
import Mathlib.Data.List.Induction

/-!
# Where each value comes from

Merging configuration layers records under each value's dotted path the file that set it last, and the values it
had from lower layers. What merging does to the table is told apart here from the records it makes, and the
records from the paths they are made under.
-/

namespace Devkit.Config

open Devkit.Library
open Devkit.Library.Toml
open Std

variable {S : Type}

/-- A value a higher layer overrode, with the layer's file. -/
structure Shadow (S : Type) where
  file : String
  value : Value S

/-- What each path was set to so far. -/
structure Seen (S : Type) where
  winner : ExtTreeMap String String
  value : ExtTreeMap String (Value S)
  shadowed : ExtTreeMap String (List (Shadow S))

/-- Nothing was set. -/
def Seen.empty : Seen S := ⟨∅, ∅, ∅⟩

/-- Set a path: what it was set to before is shadowed. -/
def Seen.record (seen : Seen S) (path : String) (v : Value S) (src : String) : Seen S :=
  ⟨seen.winner.insert path src, seen.value.insert path v,
    match seen.winner[path]?, seen.value[path]? with
    | some file, some value => seen.shadowed.insert path (seen.shadowed[path]?.getD [] ++ [⟨file, value⟩])
    | _, _ => seen.shadowed⟩

/-- The path of a key below another path. -/
def underPath (path key : String) : String := path ++ "." ++ key

/-- The path of a key below another path, which may be empty. -/
def childPath (above key : String) : String := if above.isEmpty then key else underPath above key

mutual

/-- Record the file for every value in a value. -/
def recordOrigin (src path : String) : Value S → Seen S → Seen S
  | .table entries, seen => recordRows src path entries seen
  | value, seen => seen.record path value src

/-- Record the file for every value in a table's rows. -/
def recordRows (src path : String) : Table S → Seen S → Seen S
  | [], seen => seen
  | (k, sub) :: rest, seen => recordRows src path rest (recordOrigin src (underPath path k) sub seen)

end

mutual

/-- Merge a value over the one there, recording what it sets. -/
def mergeSeen (src path : String) : Value S → Option (Value S) → Seen S → Value S × Seen S
  | .table overlay, some (.table entries), seen =>
    ((.table (deepMergeSeen src path overlay entries seen).1), (deepMergeSeen src path overlay entries seen).2)
  | value, _, seen => (value, recordOrigin src path value seen)

/-- Merge an overlay into a table, recording what it sets. -/
def deepMergeSeen (src above : String) : Table S → Table S → Seen S → Table S × Seen S
  | [], acc, seen => (acc, seen)
  | (k, v) :: rest, acc, seen =>
    deepMergeSeen src above rest (putRow k (mergeSeen src (childPath above k) v (rowOf k acc) seen).1 acc)
      (mergeSeen src (childPath above k) v (rowOf k acc) seen).2

end

/-- The layers merged from the lowest precedence to the highest, with what was recorded. -/
def mergeLayersSeen (layers : List (String × Table S)) : Table S × Seen S :=
  layers.foldl (fun state layer => deepMergeSeen layer.1 "" layer.2 state.1 state.2) ([], .empty)

mutual

/-- The values in a value, each under its dotted path. -/
def flatten : Value S → String → List (String × Value S)
  | .table entries, above => flattenRows entries above
  | value, above => [(above, value)]

/-- The values in a table's rows, each under its dotted path. -/
def flattenRows : Table S → String → List (String × Value S)
  | [], _ => []
  | (k, sub) :: rest, above => flatten sub (childPath above k) ++ flattenRows rest above

end

section Plain

/-- A value that is no table. -/
def Plain : Value S → Prop
  | .table _ => False
  | _ => True

/-- Whether a value is no table is decided by its form. -/
instance decidablePlain : ∀ value : Value S, Decidable (Plain value)
  | .table _ => isFalse id
  | .string _ | .scalar _ | .array _ => isTrue trivial

mutual

/-- The values in a value that are no tables, each under its path of keys. -/
def plainLeaves : Value S → List (List String × Value S)
  | .table entries => plainRows entries
  | value => [([], value)]

/-- The values in a table's rows that are no tables, each under its path of keys. -/
def plainRows : Table S → List (List String × Value S)
  | [] => []
  | (k, sub) :: rest => ((plainLeaves sub).map fun leaf => (k :: leaf.1, leaf.2)) ++ plainRows rest

end

/-- A value that is no table is all there is in it. -/
theorem plainLeaves_of_plain {value : Value S} (h : Plain value) : plainLeaves value = [([], value)] := by
  cases value with
  | table entries => exact absurd h id
  | string | scalar | array => rw [plainLeaves]; exact nofun

/-- A value in a table's rows is one of a row's value, under the row's key. -/
theorem mem_plainRows {table : Table S} {leaf : List String × Value S} : leaf ∈ plainRows table ↔
    ∃ key below value, (key, value) ∈ table ∧ (below, leaf.2) ∈ plainLeaves value ∧ leaf.1 = key :: below := by
  induction table with
  | nil => simp [plainRows]
  | cons row rest ih =>
    obtain ⟨key, value⟩ := row
    rw [plainRows, List.mem_append, ih, List.mem_map]
    constructor
    · rintro (⟨⟨below, held⟩, hleaf, rfl⟩ | ⟨other, below, held, hrow, hleaf, hpath⟩)
      · exact ⟨key, below, value, List.mem_cons_self, hleaf, rfl⟩
      · exact ⟨other, below, held, List.mem_cons_of_mem _ hrow, hleaf, hpath⟩
    · rintro ⟨other, below, held, hrow, hleaf, hpath⟩
      cases List.mem_cons.mp hrow with
      | inl heq =>
        obtain ⟨rfl, rfl⟩ := Prod.mk.inj heq
        exact Or.inl ⟨(below, leaf.2), hleaf, Prod.ext hpath.symm rfl⟩
      | inr hrow => exact Or.inr ⟨other, below, held, hrow, hleaf, hpath⟩

/-- The values in an ordered value that are no tables are those found along paths of keys. -/
theorem mem_plainLeaves {value held : Value S} (h : value.Ordered) {path : List String} :
    (path, held) ∈ plainLeaves value ↔ value.at path = some held ∧ Plain held := by
  induction path generalizing value with
  | nil =>
    match value with
    | .table entries =>
      rw [plainLeaves, mem_plainRows]
      constructor
      · rintro ⟨_, _, _, _, _, hpath⟩
        cases hpath
      · rintro ⟨hat, hheld⟩
        obtain rfl := Option.some.inj hat
        exact absurd hheld id
    | .string _ | .scalar _ | .array _ =>
      rw [plainLeaves_of_plain (by trivial), List.mem_singleton]
      constructor
      · intro heq
        obtain ⟨_, rfl⟩ := Prod.mk.inj heq
        exact ⟨rfl, trivial⟩
      · rintro ⟨hat, _⟩
        obtain rfl := Option.some.inj hat
        rfl
  | cons key path ih =>
    match value with
    | .table entries =>
      rw [plainLeaves, mem_plainRows, at_cons]
      constructor
      · rintro ⟨other, below, value, hrow, hleaf, hpath⟩
        obtain ⟨rfl, rfl⟩ := List.cons.inj hpath
        obtain ⟨hat, hheld⟩ := (ih (orderedEntries_iff.mp h.2 _ hrow)).mp hleaf
        exact ⟨⟨value, h.1.rowOf_eq_some.mpr hrow, hat⟩, hheld⟩
      · rintro ⟨⟨value, hrow, hat⟩, hheld⟩
        have hmem := mem_of_rowOf hrow
        exact ⟨key, path, value, hmem, (ih (orderedEntries_iff.mp h.2 _ hmem)).mpr ⟨hat, hheld⟩, rfl⟩
    | .string _ | .scalar _ | .array _ =>
      rw [plainLeaves_of_plain (by trivial), List.mem_singleton]
      exact iff_of_false nofun fun hat => nomatch hat.1

end Plain

section Records

/-- One record: the keys of a value, the path it is recorded under, and the file with the value. -/
structure Record (S : Type) where
  keys : List String
  path : String
  shadow : Shadow S

/-- The record of a value below a key. -/
def Record.below (key : String) (record : Record S) : Record S := { record with keys := key :: record.keys }

mutual

/-- What merging a value over the one there records. -/
def valueRecords (src path : String) : Value S → Option (Value S) → List (Record S)
  | .table overlay, some (.table entries) => tableRecords src path overlay entries
  | value, _ => (plainLeaves value).map fun leaf => ⟨leaf.1, leaf.1.foldl underPath path, ⟨src, leaf.2⟩⟩

/-- What merging an overlay into a table records. -/
def tableRecords (src above : String) : Table S → Table S → List (Record S)
  | [], _ => []
  | (k, v) :: rest, acc =>
    (valueRecords src (childPath above k) v (rowOf k acc)).map (Record.below k) ++
      tableRecords src above rest (putRow k (mergeValue v (rowOf k acc)) acc)

end

/-- What merging some layers into a table records. -/
def layerRecords : List (String × Table S) → Table S → List (Record S)
  | [], _ => []
  | (src, table) :: rest, acc => tableRecords src "" table acc ++ layerRecords rest (deepMerge table acc)

/-- Make a record. -/
def Seen.add (seen : Seen S) (record : Record S) : Seen S :=
  seen.record record.path record.shadow.value record.shadow.file

/-- Make records of values under a key, and of all under it. -/
theorem foldl_below (key : String) (records : List (Record S)) (seen : Seen S) :
    (records.map (Record.below key)).foldl Seen.add seen = records.foldl Seen.add seen := by
  rw [List.foldl_map]
  rfl

mutual

/-- The values in a value are recorded in turn. -/
theorem recordOrigin_eq (src path : String) (value : Value S) (seen : Seen S) :
    recordOrigin src path value seen = (plainLeaves value).foldl
      (fun seen leaf => seen.record (leaf.1.foldl underPath path) leaf.2 src) seen := by
  match value with
  | .table entries =>
    rw [recordOrigin, plainLeaves]
    exact recordRows_eq src path entries seen
  | .string _ | .scalar _ | .array _ =>
    rw [plainLeaves_of_plain (by trivial), recordOrigin]
    · rfl
    · exact nofun

/-- The values in rows are recorded in turn. -/
theorem recordRows_eq (src path : String) (table : Table S) (seen : Seen S) :
    recordRows src path table seen = (plainRows table).foldl
      (fun seen leaf => seen.record (leaf.1.foldl underPath path) leaf.2 src) seen := by
  match table with
  | [] => rfl
  | (k, sub) :: rest =>
    rw [recordRows, plainRows, List.foldl_append, List.foldl_map, recordOrigin_eq src _ sub,
      recordRows_eq src path rest]
    rfl

end

mutual

/-- A value is merged as without records, and what is recorded is recorded in turn. -/
theorem mergeSeen_eq (src path : String) (value : Value S) (before : Option (Value S)) (seen : Seen S) :
    mergeSeen src path value before seen =
      (mergeValue value before, (valueRecords src path value before).foldl Seen.add seen) := by
  match value, before with
  | .table overlay, some (.table entries) =>
    rw [mergeSeen, mergeValue, valueRecords, deepMergeSeen_eq src path overlay entries seen]
  | .table overlay, none | .table overlay, some (.string _) | .table overlay, some (.scalar _)
  | .table overlay, some (.array _) | .string _, before | .scalar _, before | .array _, before =>
    rw [mergeSeen, mergeValue, valueRecords, List.foldl_map, recordOrigin_eq]
    · rfl
    all_goals exact nofun

/-- An overlay is merged as without records, and what is recorded is recorded in turn. -/
theorem deepMergeSeen_eq (src above : String) (overlay acc : Table S) (seen : Seen S) :
    deepMergeSeen src above overlay acc seen =
      (deepMerge overlay acc, (tableRecords src above overlay acc).foldl Seen.add seen) := by
  match overlay with
  | [] => rfl
  | (k, v) :: rest =>
    rw [deepMergeSeen, mergeSeen_eq src _ v, deepMergeSeen_eq src above rest, deepMerge, tableRecords,
      List.foldl_append, foldl_below]

end

/-- Layers are merged as without records, and what is recorded is recorded in turn. -/
theorem mergeLayersSeen_eq (layers : List (String × Table S)) :
    mergeLayersSeen layers =
      (mergeLayers (layers.map Prod.snd), (layerRecords layers []).foldl Seen.add .empty) := by
  have hfold : ∀ (layers : List (String × Table S)) (acc : Table S) (seen : Seen S),
      layers.foldl (fun state layer => deepMergeSeen layer.1 "" layer.2 state.1 state.2) (acc, seen) =
        ((layers.map Prod.snd).foldl (fun merged layer => deepMerge layer merged) acc,
          (layerRecords layers acc).foldl Seen.add seen) := by
    intro layers
    induction layers with
    | nil => exact fun acc seen => rfl
    | cons layer rest ih =>
      intro acc seen
      rw [List.foldl_cons, deepMergeSeen_eq, ih, List.map_cons, List.foldl_cons, layerRecords, List.foldl_append]
  exact hfold layers [] .empty

mutual

/-- The flattened values are those found, each under the path of its keys. -/
theorem flatten_eq (value : Value S) (above : String) :
    flatten value above = (plainLeaves value).map fun leaf => (leaf.1.foldl childPath above, leaf.2) := by
  match value with
  | .table entries =>
    rw [flatten, plainLeaves]
    exact flattenRows_eq entries above
  | .string _ | .scalar _ | .array _ =>
    rw [plainLeaves_of_plain (by trivial), flatten]
    · rfl
    · exact nofun

/-- The flattened rows are the values found, each under the path of its keys. -/
theorem flattenRows_eq (table : Table S) (above : String) :
    flattenRows table above = (plainRows table).map fun leaf => (leaf.1.foldl childPath above, leaf.2) := by
  match table with
  | [] => rfl
  | (k, sub) :: rest =>
    rw [flattenRows, plainRows, List.map_append, List.map_map, flatten_eq sub, flattenRows_eq rest]
    rfl

end

end Records

section Seen

/-- What some records set a path to, in order. -/
def setTo (path : String) (records : List (Record S)) : List (Shadow S) :=
  (records.filter fun record => decide (record.path = path)).map Record.shadow

/-- What was seen of each path after some records. -/
structure SeenOf (seen : Seen S) (records : List (Record S)) : Prop where
  winner : ∀ path, seen.winner[path]? = (setTo path records).getLast?.map Shadow.file
  value : ∀ path, seen.value[path]? = (setTo path records).getLast?.map Shadow.value
  shadowed : ∀ path, seen.shadowed[path]?.getD [] = (setTo path records).dropLast
  named : ∀ path, path ∈ seen.shadowed → setTo path records ≠ []

/-- One more record of a path. -/
theorem setTo_concat (path : String) (records : List (Record S)) (record : Record S) :
    setTo path (records ++ [record]) =
      if record.path = path then setTo path records ++ [record.shadow] else setTo path records := by
  rw [setTo, List.filter_append, List.map_append, List.filter_singleton]
  by_cases hpath : record.path = path
  · rw [if_pos hpath, decide_eq_true hpath]
    rfl
  · rw [if_neg hpath, decide_eq_false hpath]
    exact List.append_nil _

/-- One more record is seen. -/
theorem SeenOf.concat {seen : Seen S} {records : List (Record S)} (h : SeenOf seen records) (record : Record S) :
    SeenOf (seen.add record) (records ++ [record]) := by
  have hwinner (path : String) : (seen.add record).winner[path]? =
      if record.path = path then some record.shadow.file else seen.winner[path]? := getElem?_insert_eq ..
  have hvalue (path : String) : (seen.add record).value[path]? =
      if record.path = path then some record.shadow.value else seen.value[path]? := getElem?_insert_eq ..
  -- what is shadowed is what the path was set to last
  have hshadowed (path : String) : (seen.add record).shadowed[path]?.getD [] =
      if record.path = path then setTo path records else seen.shadowed[path]?.getD [] := by
    change (match seen.winner[record.path]?, seen.value[record.path]? with
      | some file, some value =>
        seen.shadowed.insert record.path (seen.shadowed[record.path]?.getD [] ++ [(⟨file, value⟩ : Shadow S)])
      | _, _ => seen.shadowed)[path]?.getD [] = _
    rw [h.winner, h.value]
    cases hlast : (setTo record.path records).getLast? with
    | none =>
      dsimp only [Option.map]
      split
      · rename_i heq
        rw [h.shadowed, ← heq, List.getLast?_eq_none_iff.mp hlast]
        rfl
      · rfl
    | some last =>
      dsimp only [Option.map]
      rw [getElem?_insert_eq]
      split
      · rename_i heq
        rw [h.shadowed, ← heq]
        exact List.dropLast_append_getLast? last hlast
      · rfl
  refine ⟨fun path => ?_, fun path => ?_, fun path => ?_, fun path hpath => ?_⟩
  · rw [hwinner, setTo_concat, h.winner]
    by_cases heq : record.path = path
    · rw [if_pos heq, if_pos heq, List.getLast?_concat]
      rfl
    · rw [if_neg heq, if_neg heq]
  · rw [hvalue, setTo_concat, h.value]
    by_cases heq : record.path = path
    · rw [if_pos heq, if_pos heq, List.getLast?_concat]
      rfl
    · rw [if_neg heq, if_neg heq]
  · rw [hshadowed, setTo_concat, h.shadowed]
    by_cases heq : record.path = path
    · rw [if_pos heq, if_pos heq, List.dropLast_concat]
    · rw [if_neg heq, if_neg heq]
  · rw [setTo_concat]
    split
    · exact List.append_ne_nil_of_right_ne_nil _ (List.cons_ne_nil _ _)
    · rename_i hne
      refine h.named path ?_
      change path ∈ (match seen.winner[record.path]?, seen.value[record.path]? with
        | some file, some value =>
          seen.shadowed.insert record.path (seen.shadowed[record.path]?.getD [] ++ [(⟨file, value⟩ : Shadow S)])
        | _, _ => seen.shadowed) at hpath
      split at hpath
      · exact (ExtTreeMap.mem_insert.mp hpath).resolve_left fun heq => hne (LawfulEqCmp.eq_of_compare heq)
      · exact hpath

/-- What was seen after all records. -/
theorem seenOf_foldl (records : List (Record S)) : SeenOf (records.foldl Seen.add .empty) records := by
  induction records using List.reverseRecOn with
  | nil => exact ⟨fun _ => rfl, fun _ => rfl, fun _ => rfl, fun path h => absurd h ExtTreeMap.not_mem_empty⟩
  | append_singleton records record ih =>
    rw [List.foldl_append]
    exact ih.concat record

end Seen

end Devkit.Config
