import Devkit.Config.LayerRecords

/-!
# Layers that agree

When provenance matches is a matter of the layers alone. No value stands where another layer has values below it,
the last layer with anything at a value has a value there, different keys are flattened to different paths, and
what is under empty keys is under tables that an earlier layer has.
-/

namespace Devkit.Config

open Devkit.Library
open Devkit.Library.Toml

variable {S : Type}

/-- Some keys stop short of others. -/
def Short (start keys : List String) : Prop := start <+: keys ∧ start ≠ keys

/-- The layers agree on where values are and how they are named. -/
structure Agree (layers : List (String × Table S)) : Prop where
  apart : ∀ layer ∈ layers, ∀ other ∈ layers, ∀ keys, Supplies layer.2 keys → ∀ start, Short start keys →
    ¬ Supplies other.2 start
  last : ∀ layer ∈ layers, ∀ keys, Supplies layer.2 keys → ∃ before top after, layers = before ++ top :: after ∧
    Supplies top.2 keys ∧ ∀ later ∈ after, (Value.table later.2).at keys = none
  named : ∀ layer ∈ layers, ∀ other ∈ layers, ∀ keys keys', Supplies layer.2 keys → Supplies other.2 keys' →
    flatPath keys = flatPath keys' → keys = keys'
  rooted : ∀ before layer after, layers = before ++ layer :: after → ∀ keys, Supplies layer.2 keys →
    ∀ start, Short start keys → start ≠ [] → (∀ key ∈ start, key = "") →
      ∃ earlier ∈ before, (Value.table earlier.2).at start ≠ none

section Kinds

/-- Whether a table has a value, or a table, or nothing under some keys. -/
def kindAt (table : Table S) (keys : List String) : Option Bool :=
  ((Value.table table).at keys).map fun value => decide (Plain value)

/-- A value under some keys is of the kind of a value. -/
theorem supplies_iff_kindAt {table : Table S} {keys : List String} :
    Supplies table keys ↔ kindAt table keys = some true := by
  rw [Supplies, kindAt, Option.map_eq_some_iff]
  exact exists_congr fun value => and_congr_right fun _ => decide_eq_true_iff.symm

/-- The row of a key after a merge. -/
theorem rowOf_deepMerge {overlay : Table S} (h : Ascending overlay) (acc : Table S) (key : String) :
    rowOf key (deepMerge overlay acc) =
      match rowOf key overlay with
      | some value => some (mergeValue value (rowOf key acc))
      | none => rowOf key acc := by
  induction overlay generalizing acc with
  | nil => rfl
  | cons row rest ih =>
    obtain ⟨first, value⟩ := row
    obtain ⟨hfirst, hrest⟩ := List.pairwise_cons.mp h
    rw [deepMerge, ih hrest, rowOf_putRow, rowOf]
    by_cases hkey : first = key
    · subst hkey
      rw [rowOf_eq_none fun row hrow => (hfirst row hrow).ne', if_pos rfl, if_pos rfl]
    · rw [if_neg hkey, if_neg hkey]

/-- Under a key a table has what its row has. -/
theorem kindAt_cons (table : Table S) (key : String) (rest : List String) :
    kindAt table (key :: rest) = (rowOf key table).bind fun value => (value.at rest).map fun value =>
      decide (Plain value) := by
  rw [kindAt, Value.at]
  cases rowOf key table with
  | none => rfl
  | some value => rfl

/-- A value in a row's table is one in the table. -/
theorem Supplies.cons {table inner : Table S} {key : String} (hrow : rowOf key table = some (.table inner))
    {keys : List String} (h : Supplies inner keys) : Supplies table (key :: keys) := by
  obtain ⟨value, hat, hplain⟩ := h
  exact ⟨value, at_cons.mpr ⟨_, hrow, hat⟩, hplain⟩

/-- Below no value, a merge has what the overlay has, or else what the table has. -/
theorem kindAt_deepMerge {overlay : Table S} (hordered : (Value.table overlay).Ordered) (acc : Table S)
    {keys : List String} (hshort : ∀ start, Short start keys → ¬ Supplies overlay start ∧ ¬ Supplies acc start) :
    kindAt (deepMerge overlay acc) keys = (kindAt overlay keys).or (kindAt acc keys) := by
  induction keys generalizing overlay acc with
  | nil => rfl
  | cons key rest ih =>
    have hend {table : Table S} {value : Value S} (hrow : rowOf key table = some value) (hplain : Plain value)
        (hnot : ∀ start, Short start (key :: rest) → ¬ Supplies table start) : rest = [] := by
      by_contra hne
      refine hnot [key] ⟨List.cons_prefix_cons.mpr ⟨rfl, List.nil_prefix⟩, fun heq => ?_⟩
        ⟨value, at_cons.mpr ⟨value, hrow, rfl⟩, hplain⟩
      exact hne (List.cons.inj heq).2.symm
    rw [kindAt_cons, rowOf_deepMerge hordered.1, kindAt_cons, kindAt_cons]
    cases hover : rowOf key overlay with
    | none => rfl
    | some value =>
      dsimp only [Option.bind_some]
      cases value with
      | table inner =>
        cases hacc : rowOf key acc with
        | none =>
          rw [mergeValue, Option.bind_none, Option.or_none]
          intro other below _ hbelow
          cases hbelow
        | some held =>
          cases held with
          | table below =>
            rw [mergeValue]
            exact ih (ordered_rowOf hordered hover) below fun start hstart =>
              have hlonger : Short (key :: start) (key :: rest) :=
                ⟨List.cons_prefix_cons.mpr ⟨rfl, hstart.1⟩, fun heq => hstart.2 (List.cons.inj heq).2⟩
              ⟨fun h => (hshort _ hlonger).1 (h.cons hover), fun h => (hshort _ hlonger).2 (h.cons hacc)⟩
          | string | scalar | array =>
            obtain rfl := hend hacc trivial fun start hstart => (hshort start hstart).2
            rw [mergeValue]
            · rfl
            · intro other below _ hbelow
              cases hbelow
      | string | scalar | array =>
        obtain rfl := hend hover trivial fun start hstart => (hshort start hstart).1
        rw [mergeValue]
        · rfl
        · intro inner below hinner
          cases hinner

variable {layers : List (String × Table S)}

/-- Below no value, the merged layers have what the last has, or else what the others have. -/
theorem kindAt_mergedOf_concat {layer : String × Table S} {keys : List String}
    (hordered : ∀ other ∈ layers ++ [layer], (Value.table other.2).Ordered)
    (hshort : ∀ other ∈ layers ++ [layer], ∀ start, Short start keys → ¬ Supplies other.2 start) :
    kindAt (mergedOf (layers ++ [layer])) keys = (kindAt layer.2 keys).or (kindAt (mergedOf layers) keys) := by
  obtain ⟨hbefore, hlayer⟩ := List.forall_mem_append.mp hordered
  obtain ⟨hothers, hown⟩ := List.forall_mem_append.mp hshort
  rw [mergedOf_concat]
  refine kindAt_deepMerge (hlayer layer (List.mem_singleton_self layer)) _ fun start hstart => ?_
  refine ⟨hown layer (List.mem_singleton_self layer) start hstart, fun h => ?_⟩
  obtain ⟨other, hother, hsupplies⟩ := exists_supplies hbefore h
  exact hothers other hother start hstart hsupplies

/-- Below no value, the merged layers have a value exactly where the last layer with anything there has one. -/
theorem kindAt_mergedOf_iff {keys : List String} (hordered : ∀ layer ∈ layers, (Value.table layer.2).Ordered)
    (hshort : ∀ layer ∈ layers, ∀ start, Short start keys → ¬ Supplies layer.2 start) :
    Supplies (mergedOf layers) keys ↔ ∃ before top after, layers = before ++ top :: after ∧
      Supplies top.2 keys ∧ ∀ later ∈ after, (Value.table later.2).at keys = none := by
  induction layers using List.reverseRecOn with
  | nil =>
    refine iff_of_false (fun h => ?_) fun ⟨_, _, _, heq, _⟩ => by simp at heq
    obtain ⟨key, rest, rfl⟩ := List.exists_cons_of_ne_nil h.ne_nil
    obtain ⟨_, hat, _⟩ := h
    cases hat
  | append_singleton layers layer ih =>
    have hbefore := ih (List.forall_mem_append.mp hordered).1 (List.forall_mem_append.mp hshort).1
    rw [supplies_iff_kindAt] at hbefore ⊢
    rw [kindAt_mergedOf_concat hordered hshort]
    cases hkind : kindAt layer.2 keys with
    | none =>
      have hnone : (Value.table layer.2).at keys = none := Option.map_eq_none_iff.mp hkind
      rw [Option.none_or, hbefore]
      constructor
      · rintro ⟨before, top, after, rfl, htop, hafter⟩
        refine ⟨before, top, after ++ [layer], by simp, htop, List.forall_mem_append.mpr ⟨hafter, ?_⟩⟩
        exact List.forall_mem_singleton.mpr hnone
      · rintro ⟨before, top, after, heq, htop, hafter⟩
        rcases List.eq_nil_or_concat after with rfl | ⟨rest, last, rfl⟩
        · obtain ⟨_, hsame⟩ := List.append_inj' heq rfl
          obtain rfl := List.singleton_inj.mp hsame
          rw [supplies_iff_kindAt, hkind] at htop
          cases htop
        · rw [List.concat_eq_append, ← List.cons_append, ← List.append_assoc] at heq
          obtain ⟨rfl, _⟩ := List.append_inj' heq rfl
          rw [List.concat_eq_append] at hafter
          exact ⟨before, top, rest, rfl, htop, (List.forall_mem_append.mp hafter).1⟩
    | some plain =>
      rw [Option.some_or]
      constructor
      · rintro hplain
        exact ⟨layers, layer, [], rfl, supplies_iff_kindAt.mpr (hkind.trans hplain),
          fun _ h => absurd h List.not_mem_nil⟩
      · rintro ⟨before, top, after, heq, htop, hafter⟩
        rcases List.eq_nil_or_concat after with rfl | ⟨rest, last, rfl⟩
        · obtain ⟨_, hsame⟩ := List.append_inj' heq rfl
          obtain rfl := List.singleton_inj.mp hsame
          exact hkind.symm.trans (supplies_iff_kindAt.mp htop)
        · rw [List.concat_eq_append, ← List.cons_append, ← List.append_assoc] at heq
          obtain ⟨_, hsame⟩ := List.append_inj' heq rfl
          obtain rfl := List.singleton_inj.mp hsame
          have hnone := hafter layer (by simp)
          rw [kindAt, hnone] at hkind
          cases hkind

/-- Below no value, the merged layers have something exactly where some layer has. -/
theorem kindAt_mergedOf_ne_none {keys : List String} (hkeys : keys ≠ [])
    (hordered : ∀ layer ∈ layers, (Value.table layer.2).Ordered)
    (hshort : ∀ layer ∈ layers, ∀ start, Short start keys → ¬ Supplies layer.2 start) :
    kindAt (mergedOf layers) keys ≠ none ↔ ∃ layer ∈ layers, (Value.table layer.2).at keys ≠ none := by
  induction layers using List.reverseRecOn with
  | nil =>
    obtain ⟨key, rest, rfl⟩ := List.exists_cons_of_ne_nil hkeys
    exact iff_of_false (fun h => h rfl) fun ⟨_, h, _⟩ => absurd h List.not_mem_nil
  | append_singleton layers layer ih =>
    have hbefore := ih (List.forall_mem_append.mp hordered).1 (List.forall_mem_append.mp hshort).1
    have hone : kindAt layer.2 keys ≠ none ↔ (Value.table layer.2).at keys ≠ none := Option.map_eq_none_iff.not
    rw [kindAt_mergedOf_concat hordered hshort, ne_eq, Option.or_eq_none_iff, not_and_or, ← ne_eq, ← ne_eq, hone,
      hbefore]
    constructor
    · rintro (hlast | ⟨other, hother, hat⟩)
      · exact ⟨layer, List.mem_append_right _ (List.mem_singleton_self layer), hlast⟩
      · exact ⟨other, List.mem_append_left _ hother, hat⟩
    · rintro ⟨other, hother, hat⟩
      rcases List.mem_append.mp hother with hin | hin
      · exact Or.inr ⟨other, hin, hat⟩
      · exact Or.inl (List.mem_singleton.mp hin ▸ hat)

end Kinds

section Exact

variable {layers : List (String × Table S)}

/-- A layer makes a record of each value it supplies, in the path it has over those before. -/
theorem record_of_supplies {before after : List (String × Table S)} {layer : String × Table S}
    (hordered : (Value.table layer.2).Ordered) (hlayers : layers = before ++ layer :: after) {keys : List String}
    (h : Supplies layer.2 keys) : ∃ record ∈ layerRecords layers [], record.keys = keys ∧
      record.path = recordedAs "" (some (.table (mergedOf before))) keys := by
  obtain ⟨shadow, hshadow⟩ := Option.isSome_iff_exists.mp (supplied_isSome.mpr h)
  have hmem : shadow ∈ ((tableRecords layer.1 "" layer.2 (mergedOf before)).filter
      fun record => decide (record.keys = keys)).map Record.shadow := by
    rw [filter_tableRecords hordered keys, hshadow]
    exact List.mem_singleton_self shadow
  obtain ⟨record, hrecord, _⟩ := List.mem_map.mp hmem
  obtain ⟨hmade, hkeys⟩ := List.mem_filter.mp hrecord
  have hkeys := of_decide_eq_true hkeys
  refine ⟨record, mem_layerRecords.mpr ⟨before, layer, after, hlayers, hmade⟩, hkeys, ?_⟩
  rw [path_of_mem_tableRecords _ _ _ hordered _ hmade, hkeys]

/-- A record is of a value its layer supplies. -/
theorem supplies_of_record {record : Record S} (hordered : ∀ layer ∈ layers, (Value.table layer.2).Ordered)
    (h : record ∈ layerRecords layers []) : ∃ before layer after, layers = before ++ layer :: after ∧
      Supplies layer.2 record.keys ∧ record.path = recordedAs "" (some (.table (mergedOf before))) record.keys := by
  obtain ⟨before, layer, after, hlayers, hmade⟩ := mem_layerRecords.mp h
  have hlayer : layer ∈ layers := hlayers ▸ List.mem_append_right _ List.mem_cons_self
  refine ⟨before, layer, after, hlayers, ?_, path_of_mem_tableRecords _ _ _ (hordered layer hlayer) _ hmade⟩
  have hleaf := (mem_plainRows_of_record hmade).2
  rw [← plainLeaves, mem_plainLeaves (hordered layer hlayer)] at hleaf
  exact ⟨_, hleaf⟩

/-- A table has no value short of another. -/
theorem Supplies.not_short {table : Table S} {start keys : List String} (h : Supplies table keys)
    (hshort : Short start keys) : ¬ Supplies table start := by
  rintro ⟨held, hheld, hplain⟩
  obtain ⟨value, hat, _⟩ := h
  obtain ⟨⟨below, rfl⟩, hne⟩ := hshort
  rw [at_append, hheld] at hat
  obtain ⟨rfl, _⟩ := hplain.isLeaf.at_eq_some hat
  exact hne (List.append_nil start).symm

/-- What stops short of some keys that stop short of others stops short of those. -/
theorem Short.trans {first start keys : List String} (h : Short first start) (hshort : Short start keys) :
    Short first keys := by
  refine ⟨h.1.trans hshort.1, fun heq => h.2 (h.1.eq_of_length_le ?_)⟩
  rw [heq]
  exact hshort.1.length_le

/-- Layers whose records are recognized agree. -/
theorem agree_of_recognized (hordered : ∀ layer ∈ layers, (Value.table layer.2).Ordered)
    (h : Recognized (Supplies (mergedOf layers)) (layerRecords layers [])) : Agree layers := by
  have hrecord {layer : String × Table S} (hlayer : layer ∈ layers) {keys : List String}
    (hkeys : Supplies layer.2 keys) :
      ∃ record ∈ layerRecords layers [], record.keys = keys := by
    obtain ⟨before, after, hlayers⟩ := List.append_of_mem hlayer
    obtain ⟨record, hrecord, hsame, _⟩ := record_of_supplies (hordered layer hlayer) hlayers hkeys
    exact ⟨record, hrecord, hsame⟩
  have hleaf {layer : String × Table S} (hlayer : layer ∈ layers) {keys : List String} (hkeys : Supplies layer.2 keys) :
      Supplies (mergedOf layers) keys := by
    obtain ⟨record, hrecord, rfl⟩ := hrecord hlayer hkeys
    exact h.leaf record hrecord
  have hapart : ∀ layer ∈ layers, ∀ other ∈ layers, ∀ keys, Supplies layer.2 keys → ∀ start, Short start keys →
      ¬ Supplies other.2 start := by
    intro layer hlayer other hother keys hkeys start hshort hstart
    exact (hleaf hlayer hkeys).not_short hshort (hleaf hother hstart)
  refine ⟨hapart, ?_, ?_, ?_⟩
  · intro layer hlayer keys hkeys
    refine (kindAt_mergedOf_iff hordered fun other hother start hshort => ?_).mp (hleaf hlayer hkeys)
    exact hapart layer hlayer other hother keys hkeys start hshort
  · intro layer hlayer other hother keys keys' hkeys hkeys' hsame
    obtain ⟨record, hmade, rfl⟩ := hrecord hlayer hkeys
    obtain ⟨record', hmade', rfl⟩ := hrecord hother hkeys'
    exact h.apart record hmade record' hmade' hsame
  · intro before layer after hlayers keys hkeys start hshort hstart hempty
    have hlayer : layer ∈ layers := hlayers ▸ List.mem_append_right _ List.mem_cons_self
    obtain ⟨record, hmade, rfl, hpath⟩ := record_of_supplies (hordered layer hlayer) hlayers hkeys
    rw [h.path record hmade] at hpath
    have hrooted : Rooted (some (.table (mergedOf before))) record.keys := by
      by_contra hnot
      exact ((recordedAs_spec _ _).2 hnot).ne (congrArg String.length hpath)
    obtain ⟨entries, hat⟩ := hrooted start hshort.1 hshort.2 hempty
    have hin {earlier : String × Table S} (hearlier : earlier ∈ before) : earlier ∈ layers :=
      hlayers ▸ List.mem_append_left _ hearlier
    refine (kindAt_mergedOf_ne_none hstart (fun earlier hearlier => hordered earlier (hin hearlier))
      fun earlier hearlier first hfirst => ?_).mp ?_
    · exact hapart layer hlayer earlier (hin hearlier) record.keys hkeys first (hfirst.trans hshort)
    · rw [Option.bind_some] at hat
      rw [kindAt, hat]
      exact Option.some_ne_none _

/-- The records of layers that agree are recognized. -/
theorem recognized_of_agree (hordered : ∀ layer ∈ layers, (Value.table layer.2).Ordered) (h : Agree layers) :
    Recognized (Supplies (mergedOf layers)) (layerRecords layers []) := by
  refine ⟨fun record hrecord => ?_, fun record hrecord other hother hsame => ?_, fun record hrecord => ?_⟩
  · obtain ⟨before, layer, after, hlayers, hkeys, _⟩ := supplies_of_record hordered hrecord
    have hlayer : layer ∈ layers := hlayers ▸ List.mem_append_right _ List.mem_cons_self
    refine (kindAt_mergedOf_iff hordered fun other hother start hshort => ?_).mpr (h.last layer hlayer _ hkeys)
    exact h.apart layer hlayer other hother _ hkeys start hshort
  · obtain ⟨_, layer, _, rfl, hkeys, _⟩ := supplies_of_record hordered hrecord
    obtain ⟨_, layer', _, hlayers, hkeys', _⟩ := supplies_of_record hordered hother
    refine h.named layer (List.mem_append_right _ List.mem_cons_self) layer' ?_ _ _ hkeys hkeys' hsame
    exact hlayers ▸ List.mem_append_right _ List.mem_cons_self
  · obtain ⟨before, layer, after, hlayers, hkeys, hpath⟩ := supplies_of_record hordered hrecord
    have hlayer : layer ∈ layers := hlayers ▸ List.mem_append_right _ List.mem_cons_self
    have hin {earlier : String × Table S} (hearlier : earlier ∈ before) : earlier ∈ layers :=
      hlayers ▸ List.mem_append_left _ hearlier
    have hbefore : ∀ earlier ∈ before, (Value.table earlier.2).Ordered :=
      fun earlier hearlier => hordered earlier (hin hearlier)
    rw [hpath]
    refine (recordedAs_spec _ _).1 fun start hstarts hne hempty => ?_
    by_cases hstart : start = []
    · subst hstart
      exact ⟨mergedOf before, rfl⟩
    have hshort : Short start record.keys := ⟨hstarts, hne⟩
    have hsome : kindAt (mergedOf before) start ≠ none := by
      refine (kindAt_mergedOf_ne_none hstart hbefore fun earlier hearlier first hfirst => ?_).mpr
        (h.rooted before layer after hlayers _ hkeys start hshort hstart hempty)
      exact h.apart layer hlayer earlier (hin hearlier) _ hkeys first (hfirst.trans hshort)
    -- no earlier layer has a value there, so what is there is a table
    have hnot : ¬ Supplies (mergedOf before) start := by
      intro hsupplies
      obtain ⟨earlier, hearlier, hstop⟩ := exists_supplies hbefore hsupplies
      exact h.apart layer hlayer earlier (hin hearlier) _ hkeys start hshort hstop
    rw [Option.bind_some]
    cases hat : (Value.table (mergedOf before)).at start with
    | none =>
      rw [kindAt, hat] at hsome
      exact absurd rfl hsome
    | some value =>
      match value with
      | .table entries => exact ⟨entries, rfl⟩
      | .string _ | .scalar _ | .array _ => exact absurd ⟨_, hat, trivial⟩ hnot

/-- A table with one text supplies it. -/
theorem supplies_row {key text : String} {keys : List String} :
    Supplies ([(key, .string text)] : Table S) keys ↔ keys = [key] := by
  constructor
  · intro h
    obtain ⟨first, rest, rfl⟩ := List.exists_cons_of_ne_nil h.ne_nil
    obtain ⟨value, hat, _⟩ := h
    obtain ⟨held, hrow, hbelow⟩ := at_cons.mp hat
    obtain ⟨rfl, rfl⟩ := Prod.mk.inj (List.mem_singleton.mp (mem_of_rowOf hrow))
    have hleaf : IsLeaf (.string text : Value S) := trivial
    rw [(hleaf.at_eq_some hbelow).1]
  · rintro rfl
    exact ⟨.string text, at_cons.mpr ⟨_, if_pos rfl, rfl⟩, trivial⟩

/-- Layers that all set one key to text agree. -/
theorem agree_of_rows {key : String} (hkey : key ≠ "")
    (hrows : ∀ layer ∈ layers, ∃ text, layer.2 = [(key, .string text)]) : Agree layers := by
  have hone {layer : String × Table S} (hlayer : layer ∈ layers) (keys : List String) :
      Supplies layer.2 keys ↔ keys = [key] := by
    obtain ⟨text, heq⟩ := hrows layer hlayer
    rw [heq]
    exact supplies_row
  refine ⟨?_, ?_, ?_, ?_⟩
  · intro layer hlayer other hother keys hkeys start hshort hstart
    exact hshort.2 (((hone hother _).mp hstart).trans ((hone hlayer _).mp hkeys).symm)
  · intro layer hlayer keys hkeys
    rcases List.eq_nil_or_concat layers with rfl | ⟨before, top, rfl⟩
    · exact absurd hlayer List.not_mem_nil
    rw [List.concat_eq_append] at hone ⊢
    refine ⟨before, top, [], rfl, ?_, fun _ h => absurd h List.not_mem_nil⟩
    rw [hone (List.mem_append_right _ (List.mem_singleton_self top)), (hone (by simpa using hlayer) _).mp hkeys]
  · intro layer hlayer other hother keys keys' hkeys hkeys' _
    exact ((hone hlayer _).mp hkeys).trans ((hone hother _).mp hkeys').symm
  · intro before layer after hlayers keys hkeys start hshort hstart hempty
    have hlayer : layer ∈ layers := hlayers ▸ List.mem_append_right before List.mem_cons_self
    rw [(hone hlayer _).mp hkeys] at hshort
    obtain ⟨first, rest, rfl⟩ := List.exists_cons_of_ne_nil hstart
    obtain ⟨rfl, _⟩ := List.cons_prefix_cons.mp hshort.1
    exact absurd (hempty first List.mem_cons_self) hkey

/-- Provenance matches the merged table exactly where the layers agree. -/
theorem provenanceMatches_iff_agree (layers : List (String × Table S))
    (hordered : ∀ layer ∈ layers, (Value.table layer.2).Ordered) : ProvenanceMatches layers ↔ Agree layers := by
  rw [provenanceMatches_iff_recognized hordered]
  exact ⟨agree_of_recognized hordered, recognized_of_agree hordered⟩

/-- Provenance matches where two files set one text. -/
theorem provenanceMatches_iff_agree_sample :
    ProvenanceMatches (S := Unit) [("low", [("a", .string "1")]), ("high", [("a", .string "2")])] := by
  refine (provenanceMatches_iff_agree _ ?_).mpr (agree_of_rows (show "a" ≠ "" by decide) ?_)
  · refine List.forall_mem_cons.mpr ⟨?_, List.forall_mem_singleton.mpr ?_⟩
    · exact ⟨List.pairwise_singleton _ _, trivial, trivial⟩
    · exact ⟨List.pairwise_singleton _ _, trivial, trivial⟩
  · exact List.forall_mem_cons.mpr ⟨⟨"1", rfl⟩, List.forall_mem_singleton.mpr ⟨"2", rfl⟩⟩

/-- A value below a key stays named where a higher layer sets the key to a text, and a value below an empty key has no
origin under the path it is flattened to. -/
theorem provenanceMatches_overridden :
    ¬ ProvenanceMatches (S := Unit) [("low", [("a", .table [("b", .string "1")])]), ("high", [("a", .string "2")])] ∧
      ¬ ProvenanceMatches (S := Unit) [("low", [("", .table [("b", .string "1")])])] := by
  constructor
  · intro h
    have hnamed := h.named "a.b" (Or.inl (by decide +kernel))
    revert hnamed
    decide +kernel
  · intro h
    have horigin := h.origin (["", "b"], .string "1") (List.mem_singleton_self _)
    revert horigin
    decide +kernel

end Exact

end Devkit.Config
