import Devkit.Config.Layers
import Mathlib.Data.List.MinMax

/-!
# The records of the layers

The records under some keys are what the layers supply there. They match the merged table exactly when all keys
recorded are of values in it, no two of them are flattened to one path, and each is recorded under that path.
-/

namespace Devkit.Config

open Devkit.Library
open Devkit.Library.Toml
open Std

variable {S : Type}

section Keys

mutual

/-- A value is listed once under its keys. -/
theorem nodup_plainLeaves (value : Value S) (h : value.Ordered) : ((plainLeaves value).map Prod.fst).Nodup := by
  match value with
  | .table entries =>
    rw [plainLeaves]
    exact nodup_plainRows entries h
  | .string _ | .scalar _ | .array _ =>
    rw [plainLeaves_of_plain (by trivial)]
    exact List.nodup_singleton _

/-- A value of some rows is listed once under its keys. -/
theorem nodup_plainRows (table : Table S) (h : (Value.table table).Ordered) :
    ((plainRows table).map Prod.fst).Nodup := by
  match table with
  | [] => exact List.nodup_nil
  | (k, sub) :: rest =>
    obtain ⟨hfirst, hascending⟩ := List.pairwise_cons.mp h.1
    rw [plainRows, List.map_append, List.map_map]
    refine List.nodup_append.mpr ⟨?_, nodup_plainRows rest ⟨hascending, h.2.2⟩, fun a ha b hb heq => ?_⟩
    · have hsub := (nodup_plainLeaves sub h.2.1).map (List.cons_injective (a := k))
      rwa [List.map_map] at hsub
    · obtain ⟨leaf, _, rfl⟩ := List.mem_map.mp ha
      obtain ⟨other, hother, rfl⟩ := List.mem_map.mp hb
      obtain ⟨key, below, value, hrow, _, hkeys⟩ := mem_plainRows.mp hother
      rw [hkeys] at heq
      exact absurd (List.cons.inj heq).1 (hfirst _ hrow).ne

end

/-- Of rows with different keys a key has one or none. -/
theorem filter_key_eq {K V : Type} [DecidableEq K] {rows : List (K × V)} (h : (rows.map Prod.fst).Nodup) (key : K) :
    (∀ value, (key, value) ∈ rows → rows.filter (fun row => decide (row.1 = key)) = [(key, value)]) ∧
      ((∀ value, (key, value) ∉ rows) → rows.filter (fun row => decide (row.1 = key)) = []) := by
  induction rows with
  | nil => exact ⟨fun value hmem => absurd hmem List.not_mem_nil, fun _ => rfl⟩
  | cons row rest ih =>
    obtain ⟨hrow, hrest⟩ := List.nodup_cons.mp h
    obtain ⟨hone, hnone⟩ := ih hrest
    rw [List.filter_cons]
    by_cases hkey : row.1 = key
    · have hothers : ∀ value, (key, value) ∉ rest := fun value hmem => hrow (hkey ▸ List.mem_map_of_mem hmem)
      rw [if_pos (decide_eq_true hkey), hnone hothers]
      refine ⟨fun value hmem => ?_, fun hno => absurd List.mem_cons_self (hkey ▸ hno row.2)⟩
      rcases List.mem_cons.mp hmem with heq | hin
      · rw [heq]
      · exact absurd hin (hothers value)
    · rw [if_neg fun heq => hkey (of_decide_eq_true heq)]
      refine ⟨fun value hmem => hone value ((List.mem_cons.mp hmem).resolve_left fun heq => ?_), fun hno =>
        hnone fun value hmem => hno value (List.mem_cons_of_mem row hmem)⟩
      exact hkey (heq ▸ rfl)

/-- What a layer has under some keys is what it supplies there. -/
theorem filter_plainRows {src : String} {table : Table S} (h : (Value.table table).Ordered) (keys : List String) :
    ((plainRows table).filter fun leaf => decide (leaf.1 = keys)).map (fun leaf => (⟨src, leaf.2⟩ : Shadow S)) =
      (supplied keys (src, table)).toList := by
  have hmem (value : Value S) : (keys, value) ∈ plainRows table ↔ (Value.table table).at keys = some value ∧
    Plain value := by
    rw [← mem_plainLeaves h, plainLeaves]
  obtain ⟨hone, hnone⟩ := filter_key_eq (nodup_plainRows table h) keys
  rw [supplied]
  cases hat : (Value.table table).at keys with
  | none =>
    rw [hnone fun value hin => by rw [((hmem value).mp hin).1] at hat; cases hat]
    rfl
  | some value =>
    dsimp only
    split
    · rename_i hplain
      rw [hone value ((hmem value).mpr ⟨hat, hplain⟩)]
      rfl
    · rename_i hplain
      rw [hnone fun other hin => ?_]
      · rfl
      · obtain ⟨hother, hheld⟩ := (hmem other).mp hin
        rw [hat] at hother
        exact hplain (Option.some.inj hother ▸ hheld)

/-- The records a layer makes under some keys are what it supplies there. -/
theorem filter_tableRecords {src above : String} {table acc : Table S} (h : (Value.table table).Ordered)
    (keys : List String) :
    ((tableRecords src above table acc).filter fun record => decide (record.keys = keys)).map Record.shadow =
      (supplied keys (src, table)).toList := by
  have hpairs := congrArg (fun pairs : List (List String × Shadow S) =>
    (pairs.filter fun pair => decide (pair.1 = keys)).map Prod.snd) (keys_tableRecords src above table acc)
  rw [List.filter_map, List.map_map, List.filter_map, List.map_map] at hpairs
  rw [← filter_plainRows h keys]
  exact hpairs

/-- The records made under some keys are what the layers supply there. -/
theorem filter_layerRecords {layers : List (String × Table S)} (h : ∀ layer ∈ layers, (Value.table layer.2).Ordered)
    (acc : Table S) (keys : List String) :
    ((layerRecords layers acc).filter fun record => decide (record.keys = keys)).map Record.shadow =
      supplies layers keys := by
  induction layers generalizing acc with
  | nil => rfl
  | cons layer rest ih =>
    obtain ⟨hlayer, hrest⟩ := List.forall_mem_cons.mp h
    obtain ⟨src, table⟩ := layer
    rw [layerRecords, List.filter_append, List.map_append, filter_tableRecords hlayer, ih hrest, supplies, supplies]
    cases hsupplied : supplied keys (src, table) with
    | none => rw [List.filterMap_cons_none hsupplied]; rfl
    | some shadow => rw [List.filterMap_cons_some hsupplied]; rfl

/-- A record is made by a layer, merged into those before it. -/
theorem mem_layerRecords {layers : List (String × Table S)} {acc : Table S} {record : Record S} :
    record ∈ layerRecords layers acc ↔ ∃ before layer after, layers = before ++ layer :: after ∧
      record ∈ tableRecords layer.1 "" layer.2
        ((before.map Prod.snd).foldl (fun merged layer => deepMerge layer merged) acc) := by
  induction layers generalizing acc with
  | nil => exact iff_of_false List.not_mem_nil fun ⟨_, _, _, heq, _⟩ => by simp at heq
  | cons layer rest ih =>
    rw [layerRecords, List.mem_append, ih]
    constructor
    · rintro (hfirst | ⟨before, other, after, rfl, hrecord⟩)
      · exact ⟨[], layer, rest, rfl, hfirst⟩
      · exact ⟨layer :: before, other, after, rfl, hrecord⟩
    · rintro ⟨before, other, after, heq, hrecord⟩
      cases before with
      | nil =>
        obtain ⟨rfl, rfl⟩ := List.cons.inj heq
        exact Or.inl hrecord
      | cons first before =>
        obtain ⟨rfl, rfl⟩ := List.cons.inj heq
        exact Or.inr ⟨before, other, after, rfl, hrecord⟩

end Keys

section Recognized

/-- What is recorded is of values in the merged table, under the paths they are flattened to, which tell them
apart. -/
structure Recognized (merged : List String → Prop) (records : List (Record S)) : Prop where
  leaf : ∀ record ∈ records, merged record.keys
  apart : ∀ record ∈ records, ∀ other ∈ records, flatPath record.keys = flatPath other.keys → record.keys = other.keys
  path : ∀ record ∈ records, record.path = flatPath record.keys

/-- Where as many members meet a condition as meet a weaker one, the conditions are met by the same members. -/
theorem forall_of_length_filter_eq {A : Type} {p q : A → Bool} {members : List A}
    (himp : ∀ a ∈ members, p a = true → q a = true)
    (hlength : (members.filter p).length = (members.filter q).length) : ∀ a ∈ members, q a = true → p a = true := by
  induction members with
  | nil => exact fun a ha => absurd ha List.not_mem_nil
  | cons first rest ih =>
    obtain ⟨hfirst, hrest⟩ := List.forall_mem_cons.mp himp
    have hle : (rest.filter p).length ≤ (rest.filter q).length := by
      rw [← List.countP_eq_length_filter, ← List.countP_eq_length_filter]
      exact List.countP_mono_left hrest
    rw [List.filter_cons, List.filter_cons] at hlength
    by_cases hp : p first = true
    · rw [if_pos hp, if_pos (hfirst hp)] at hlength
      exact List.forall_mem_cons.mpr ⟨fun _ => hp, ih hrest (Nat.succ.inj hlength)⟩
    · rw [if_neg hp] at hlength
      by_cases hq : q first = true
      · rw [if_pos hq, List.length_cons] at hlength
        omega
      · rw [if_neg hq] at hlength
        exact List.forall_mem_cons.mpr ⟨fun h => absurd h hq, ih hrest hlength⟩

variable {merged : List String → Prop} {records : List (Record S)}

/-- Where each path of the merged table has as many records as its keys, its records are those of its keys once
none of the latter is made elsewhere. -/
theorem keys_of_path
    (hcount : ∀ keys, merged keys → (records.filter fun record => decide (record.path = flatPath keys)).length =
      (records.filter fun record => decide (record.keys = keys)).length)
    {keys : List String} (hmerged : merged keys)
    (hmade : ∀ record ∈ records, record.keys = keys → record.path = flatPath keys) :
    ∀ record ∈ records, record.path = flatPath keys → record.keys = keys := by
  intro record hrecord hpath
  refine of_decide_eq_true (forall_of_length_filter_eq (fun other hother hkeys => ?_) (hcount keys hmerged).symm record
    hrecord (decide_eq_true hpath))
  exact decide_eq_true (hmade other hother (of_decide_eq_true hkeys))

/-- Records are recognized where each path of the merged table has as many as its keys, no other path has any, and
a record made elsewhere than under the path of its keys is made under a longer one. -/
theorem recognized_of_lengths
    (hcount : ∀ keys, merged keys → (records.filter fun record => decide (record.path = flatPath keys)).length =
      (records.filter fun record => decide (record.keys = keys)).length)
    (hnamed : ∀ record ∈ records, ∃ keys, merged keys ∧ flatPath keys = record.path)
    (hlonger : ∀ record ∈ records, record.path = flatPath record.keys ∨
      (flatPath record.keys).length < record.path.length) : Recognized merged records := by
  have hpath : ∀ record ∈ records, record.path = flatPath record.keys := by
    by_contra hnot
    push Not at hnot
    -- the longest path recorded elsewhere has one record more than its keys
    obtain ⟨first, hfirst, helsewhere⟩ := hnot
    have hsome : records.filter (fun record => decide (record.path ≠ flatPath record.keys)) ≠ [] :=
      List.ne_nil_of_mem (List.mem_filter.mpr ⟨hfirst, decide_eq_true helsewhere⟩)
    cases hlongest : (records.filter fun record => decide (record.path ≠ flatPath record.keys)).argmax
        (fun record => record.path.length) with
    | none => exact hsome (List.argmax_eq_none.mp hlongest)
    | some longest =>
      obtain ⟨hlisted, hwrong⟩ := List.mem_filter.mp (List.argmax_mem hlongest)
      obtain ⟨keys, hmerged, hkeys⟩ := hnamed longest hlisted
      have hmade : ∀ record ∈ records, record.keys = keys → record.path = flatPath keys := by
        intro record hrecord hsame
        by_contra hother
        rw [← hsame] at hother
        have hlong := (hlonger record hrecord).resolve_left hother
        have hlisted : record ∈ records.filter fun record => decide (record.path ≠ flatPath record.keys) :=
          List.mem_filter.mpr ⟨hrecord, decide_eq_true hother⟩
        have hle : record.path.length ≤ longest.path.length :=
          List.le_of_mem_argmax (f := fun record : Record S => record.path.length) hlisted hlongest
        rw [hsame, hkeys] at hlong
        omega
      have hlongest := keys_of_path hcount hmerged hmade longest hlisted hkeys.symm
      exact of_decide_eq_true hwrong (by rw [hlongest, hkeys])
  have hkeys {keys : List String} (hmerged : merged keys) :
      ∀ record ∈ records, record.path = flatPath keys → record.keys = keys :=
    keys_of_path hcount hmerged fun record hrecord hsame => hsame ▸ hpath record hrecord
  have hleaf : ∀ record ∈ records, merged record.keys := by
    intro record hrecord
    obtain ⟨keys, hmerged, hsame⟩ := hnamed record hrecord
    rwa [hkeys hmerged record hrecord hsame.symm]
  refine ⟨hleaf, fun record hrecord other hother heq => ?_, hpath⟩
  exact (hkeys (hleaf record hrecord) other hother ((hpath other hother).trans heq.symm)).symm

end Recognized

section Merged

variable {layers : List (String × Table S)}

/-- The tables of the layers merged. -/
def mergedOf (layers : List (String × Table S)) : Table S := mergeLayers (layers.map Prod.snd)

/-- Layers are merged one after the other. -/
theorem mergedOf_concat (layers : List (String × Table S)) (layer : String × Table S) :
    mergedOf (layers ++ [layer]) = deepMerge layer.2 (mergedOf layers) := by
  rw [mergedOf, mergeLayers, List.map_append, List.foldl_append]
  rfl

/-- Ordered layers merge into an ordered table. -/
theorem ordered_mergedOf (hordered : ∀ layer ∈ layers, (Value.table layer.2).Ordered) :
    (Value.table (mergedOf layers)).Ordered := by
  induction layers using List.reverseRecOn with
  | nil => exact ordered_nil
  | append_singleton layers layer ih =>
    obtain ⟨hbefore, hlayer⟩ := List.forall_mem_append.mp hordered
    rw [mergedOf_concat]
    exact ordered_deepMerge _ (hlayer layer (List.mem_singleton_self layer)) _ (ih hbefore)

/-- A value that is no table is a leaf. -/
theorem Plain.isLeaf {value : Value S} (h : Plain value) : IsLeaf value := by
  cases value with
  | table => exact absurd h id
  | string | scalar | array => trivial

/-- What a table supplies is under some keys. -/
theorem Supplies.ne_nil {table : Table S} {keys : List String} (h : Supplies table keys) : keys ≠ [] := by
  rintro rfl
  obtain ⟨value, hat, hplain⟩ := h
  obtain rfl := Option.some.inj hat
  exact hplain

/-- What the merged table has, some layer supplies. -/
theorem exists_supplies (hordered : ∀ layer ∈ layers, (Value.table layer.2).Ordered) {keys : List String}
    (h : Supplies (mergedOf layers) keys) : ∃ layer ∈ layers, Supplies layer.2 keys := by
  induction layers using List.reverseRecOn with
  | nil =>
    obtain ⟨key, rest, rfl⟩ := List.exists_cons_of_ne_nil h.ne_nil
    obtain ⟨value, hat, _⟩ := h
    cases hat
  | append_singleton layers layer ih =>
    obtain ⟨hbefore, hlayer⟩ := List.forall_mem_append.mp hordered
    have hkeys := h.ne_nil
    obtain ⟨value, hat, hplain⟩ := h
    rw [mergedOf_concat] at hat
    cases at_deepMerge layer.2 (hlayer layer (List.mem_singleton_self layer)) _ hkeys hat hplain.isLeaf with
    | inl hnew => exact ⟨layer, List.mem_append_right _ (List.mem_singleton_self layer), value, hnew, hplain⟩
    | inr hold =>
      obtain ⟨other, hother, hsupplies⟩ := ih hbefore ⟨value, hold, hplain⟩
      exact ⟨other, List.mem_append_left _ hother, hsupplies⟩

/-- What a layer supplies is among what the layers supply. -/
theorem supplied_isSome {layer : String × Table S} {keys : List String} :
    (supplied keys layer).isSome = true ↔ Supplies layer.2 keys := by
  rw [supplied, Supplies]
  cases (Value.table layer.2).at keys with
  | none => simp
  | some value =>
    by_cases hplain : Plain value
    · simp [hplain]
    · simp [hplain]

/-- The layers supply something under some keys where one of them does. -/
theorem supplies_ne_nil {keys : List String} (h : ∃ layer ∈ layers, Supplies layer.2 keys) :
    supplies layers keys ≠ [] := by
  obtain ⟨layer, hlayer, hsupplies⟩ := h
  obtain ⟨shadow, hshadow⟩ := Option.isSome_iff_exists.mp (supplied_isSome.mpr hsupplies)
  exact List.ne_nil_of_mem (List.mem_filterMap.mpr ⟨layer, hlayer, hshadow⟩)

/-- A path is one of the flattened table's where it is that of keys with a value that is no table. -/
theorem mem_flatten {table : Table S} (h : (Value.table table).Ordered) {path : String} :
    path ∈ (flatten (.table table) "").map Prod.fst ↔ ∃ keys, Supplies table keys ∧ flatPath keys = path := by
  rw [flatten_eq, List.map_map, List.mem_map]
  constructor
  · rintro ⟨leaf, hleaf, rfl⟩
    exact ⟨leaf.1, ⟨leaf.2, (mem_plainLeaves h).mp hleaf⟩, rfl⟩
  · rintro ⟨keys, ⟨value, hvalue⟩, rfl⟩
    exact ⟨(keys, value), (mem_plainLeaves h).mpr hvalue, rfl⟩

/-- Lists that agree in their last members and in the others are as long. -/
theorem length_eq_of_dropLast {A B : Type} {f : A → B} {l other : List A}
    (hlast : l.getLast?.map f = other.getLast?.map f) (hothers : l.dropLast = other.dropLast) :
    l.length = other.length := by
  have hlength := congrArg List.length hothers
  rw [List.length_dropLast, List.length_dropLast] at hlength
  cases hl : l.getLast? with
  | none =>
    rw [hl, eq_comm, Option.map_none, Option.map_eq_none_iff, List.getLast?_eq_none_iff] at hlast
    rw [List.getLast?_eq_none_iff.mp hl, hlast]
  | some last =>
    have hne : l ≠ [] := fun heq => by rw [heq] at hl; cases hl
    have hother : other ≠ [] := fun heq => by rw [heq, hl] at hlast; cases hlast
    have hpositive := List.length_pos_of_ne_nil hne
    have hotherPositive := List.length_pos_of_ne_nil hother
    omega

/-- Provenance matches the merged table exactly where all that is recorded is recognized in it. -/
theorem provenanceMatches_iff_recognized (hordered : ∀ layer ∈ layers, (Value.table layer.2).Ordered) :
    ProvenanceMatches layers ↔ Recognized (Supplies (mergedOf layers)) (layerRecords layers []) := by
  have hseen := seenOf_foldl (layerRecords layers [])
  have hmerged := ordered_mergedOf hordered
  have hkeyed (keys : List String) := filter_layerRecords hordered [] keys
  have hset (path : String) (h : setTo path (layerRecords layers []) ≠ []) :
      ∃ record ∈ layerRecords layers [], record.path = path := by
    obtain ⟨shadow, hshadow⟩ := List.exists_mem_of_ne_nil _ h
    obtain ⟨record, hrecord, _⟩ := List.mem_map.mp hshadow
    exact ⟨record, (List.mem_filter.mp hrecord).1, of_decide_eq_true (List.mem_filter.mp hrecord).2⟩
  constructor
  · rintro ⟨horigin, hshadowed, hnamed⟩
    rw [mergeLayersSeen_eq] at horigin hshadowed hnamed
    refine recognized_of_lengths (fun keys hkeys => ?_) (fun record hrecord => ?_) fun record hrecord => ?_
    · obtain ⟨value, hvalue⟩ := hkeys
      have hleaf : (keys, value) ∈ plainLeaves (.table (mergedOf layers)) := (mem_plainLeaves hmerged).mpr hvalue
      have hlast := (hseen.winner _).symm.trans (horigin _ hleaf)
      have hlength := length_eq_of_dropLast hlast ((hseen.shadowed _).symm.trans (hshadowed _ hleaf))
      rwa [← hkeyed, setTo, List.length_map, List.length_map] at hlength
    · have hset : setTo record.path (layerRecords layers []) ≠ [] :=
        List.ne_nil_of_mem (List.mem_map_of_mem (List.mem_filter.mpr ⟨hrecord, decide_eq_true rfl⟩))
      refine (mem_flatten hmerged).mp (hnamed record.path (Or.inl ?_))
      rw [ExtTreeMap.mem_iff_isSome_getElem?, hseen.winner, List.getLast?_eq_some_getLast hset]
      rfl
    · obtain ⟨before, layer, after, rfl, hmade⟩ := mem_layerRecords.mp hrecord
      have hlayer := hordered layer (List.mem_append_right _ List.mem_cons_self)
      rw [path_of_mem_tableRecords _ _ _ hlayer _ hmade]
      by_cases hrooted : Rooted (some (.table ((before.map Prod.snd).foldl
        (fun merged layer => deepMerge layer merged) [])))
          record.keys
      · exact Or.inl ((recordedAs_spec _ _).1 hrooted)
      · exact Or.inr ((recordedAs_spec _ _).2 hrooted)
  · intro h
    have hsupplied {keys : List String} (hkeys : Supplies (mergedOf layers) keys) :
        setTo (flatPath keys) (layerRecords layers []) = supplies layers keys := by
      have hsome := supplies_ne_nil (exists_supplies hordered hkeys)
      rw [← hkeyed] at hsome ⊢
      obtain ⟨shadow, hshadow⟩ := List.exists_mem_of_ne_nil _ hsome
      obtain ⟨other, hother, _⟩ := List.mem_map.mp hshadow
      obtain ⟨hother, hsame⟩ := List.mem_filter.mp hother
      have hsame := of_decide_eq_true hsame
      rw [setTo]
      refine congrArg (List.map Record.shadow) (List.filter_congr fun record hrecord => ?_)
      rw [decide_eq_decide, h.path record hrecord]
      exact ⟨fun heq => (h.apart record hrecord other hother (hsame ▸ heq)).trans hsame, fun heq => heq ▸ rfl⟩
    have hnamed {path : String} (hpath : setTo path (layerRecords layers []) ≠ []) :
        path ∈ (flatten (.table (mergedOf layers)) "").map Prod.fst := by
      obtain ⟨record, hrecord, rfl⟩ := hset path hpath
      exact (mem_flatten hmerged).mpr ⟨record.keys, h.leaf record hrecord, (h.path record hrecord).symm⟩
    have hleaf {leaf : List String × Value S} (hmem : leaf ∈ plainLeaves (.table (mergedOf layers))) :
        Supplies (mergedOf layers) leaf.1 := ⟨leaf.2, (mem_plainLeaves hmerged).mp hmem⟩
    refine ⟨?_, ?_, ?_⟩
    · rw [mergeLayersSeen_eq]
      exact fun leaf hmem => by rw [hseen.winner, hsupplied (hleaf hmem)]
    · rw [mergeLayersSeen_eq]
      exact fun leaf hmem => by rw [hseen.shadowed, hsupplied (hleaf hmem)]
    · rw [mergeLayersSeen_eq]
      rintro path (hwinner | hshadowed)
      · refine hnamed fun hnone => ?_
        rw [ExtTreeMap.mem_iff_isSome_getElem?, hseen.winner, hnone] at hwinner
        cases hwinner
      · exact hnamed (hseen.named path hshadowed)

end Merged

end Devkit.Config
