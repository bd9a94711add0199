import Devkit.Config.Leaves

/-!
# A leaf of an accepted value is accepted

The schema admits a value's leaf, alone under its path, where it admits the value; the harness readers
read it where they read the value, since each field they require is filled in.
-/

namespace Devkit.Config

open Devkit.Library
open Devkit.Library.Toml

variable {S : Type}

section Paths

/-- A path in a value goes by its first key. -/
theorem at_cons {entries : Table S} {key : String} {path : List String} {held : Value S} :
    (Value.table entries).at (key :: path) = some held ↔
      ∃ value, rowOf key entries = some value ∧ value.at path = some held := by
  rw [Value.at, Option.bind_eq_some_iff]

/-- A path in two parts. -/
theorem at_append (value : Value S) (path below : List String) :
    value.at (path ++ below) = (value.at path).bind fun value => value.at below := by
  induction path generalizing value with
  | nil =>
    rw [List.nil_append, Value.at, Option.bind_some]
  | cons key path ih =>
    cases value with
    | table entries =>
      rw [List.cons_append, Value.at, Value.at]
      cases rowOf key entries with
      | none => rfl
      | some value => exact ih value
    | string | scalar | array => rfl

/-- The value in tables of its own. -/
theorem at_nested (path below : List String) (value : Value S) :
    (nested path value).at (path ++ below) = value.at below := by
  induction path with
  | nil => rfl
  | cons key path ih =>
    change (rowOf key [(key, nested path value)]).bind (fun value => value.at (path ++ below)) = _
    rw [rowOf, if_pos rfl, Option.bind_some, ih]

/-- Nothing is below a leaf but itself. -/
theorem IsLeaf.at_eq_some {value held : Value S} (h : IsLeaf value) {path : List String}
    (hat : value.at path = some held) :
    path = [] ∧ held = value := by
  cases path with
  | nil => exact ⟨rfl, (Option.some.inj hat).symm⟩
  | cons key path =>
    cases value with
    | table entries =>
      cases entries with
      | nil => cases hat
      | cons row rest => exact absurd h id
    | string | scalar | array => cases hat

/-- A value is ordered where the value it is in is. -/
theorem ordered_at {value held : Value S} (h : value.Ordered) {path : List String} (hat : value.at path = some held) :
    held.Ordered := by
  induction path generalizing value with
  | nil => exact Option.some.inj hat ▸ h
  | cons key path ih =>
    cases value with
    | table entries =>
      obtain ⟨inner, hrow, hat⟩ := at_cons.mp hat
      exact ih (orderedEntries_iff.mp h.2 _ (mem_of_rowOf hrow)) hat
    | string | scalar | array => cases hat

/-- The leaf found in a leaf is itself. -/
theorem IsLeaf.mem_leaves {value held : Value S} (h : IsLeaf value) {path : List String} :
    (path, held) ∈ leaves value ↔ value.at path = some held ∧ IsLeaf held := by
  rw [leaves_of_isLeaf h, List.mem_singleton]
  constructor
  · intro heq
    obtain ⟨rfl, rfl⟩ := Prod.mk.inj heq
    exact ⟨rfl, h⟩
  · rintro ⟨hat, _⟩
    obtain ⟨rfl, rfl⟩ := h.at_eq_some hat
    rfl

/-- The leaves of an ordered value are the leaves found along paths. -/
theorem mem_leaves {value held : Value S} (h : value.Ordered) {path : List String} :
    (path, held) ∈ leaves value ↔ value.at path = some held ∧ IsLeaf held := by
  induction path generalizing value with
  | nil =>
    cases value with
    | string | scalar | array =>
      refine IsLeaf.mem_leaves ?_
      exact True.intro
    | table entries =>
      cases entries with
      | nil =>
        refine IsLeaf.mem_leaves ?_
        exact True.intro
      | cons row rest =>
        rw [leaves, mem_tableLeaves]
        constructor
        · rintro ⟨_, _, _, _, _, hpath⟩
          cases hpath
        · rintro ⟨hat, hheld⟩
          obtain rfl := Option.some.inj hat
          exact absurd hheld id
  | cons key path ih =>
    cases value with
    | string | scalar | array =>
      refine IsLeaf.mem_leaves ?_
      exact True.intro
    | table entries =>
      cases entries with
      | nil =>
        refine IsLeaf.mem_leaves ?_
        exact True.intro
      | cons row rest =>
        have hbelow : ∀ value, rowOf key (row :: rest) = some value →
            ((path, held) ∈ leaves value ↔ value.at path = some held ∧ IsLeaf held) :=
          fun value hrow => ih (orderedEntries_iff.mp h.2 _ (mem_of_rowOf hrow))
        rw [leaves, mem_tableLeaves, at_cons]
        constructor
        · rintro ⟨other, below, value, hrow, hmem, hpath⟩
          obtain ⟨rfl, rfl⟩ := List.cons.inj hpath
          have hrow := h.1.rowOf_eq_some.mpr hrow
          obtain ⟨hat, hheld⟩ := (hbelow value hrow).mp hmem
          exact ⟨⟨value, hrow, hat⟩, hheld⟩
        · rintro ⟨⟨value, hrow, hat⟩, hheld⟩
          exact ⟨key, path, value, mem_of_rowOf hrow, (hbelow value hrow).mpr ⟨hat, hheld⟩, rfl⟩

end Paths

section Schema

variable (schemas : Schemas) (root : Json)

/-- A key is known where one of the schemas admits every key. -/
theorem firstUnknown_eq_none {unknown : Json → Option (List String)} {segment : String} {candidates : List Json} :
    firstUnknown unknown segment candidates = none ↔ ∃ schema ∈ candidates, unknown schema = none := by
  have hany : (candidates.any fun schema => (unknown schema).isNone) = true ↔
      ∃ schema ∈ candidates, unknown schema = none := by
    rw [List.any_eq_true]
    exact exists_congr fun schema => and_congr_right fun _ => Option.isNone_iff_eq_none
  rw [firstUnknown]
  split
  · rename_i hfound
    exact iff_of_true rfl (hany.mp hfound)
  · rename_i hfound
    exact iff_of_false nofun fun hsome => hfound (hany.mpr hsome)

/-- The keys of a table are known where each is. -/
theorem unknownEntry_eq_none {entries : Table S} {node : Json} : unknownEntry schemas root entries node = none ↔
    ∀ row ∈ entries, ∃ schema ∈ schemasOf schemas root (fieldSchemas row.1) schemas.depth node,
      unknownKey schemas root row.2 schema = none := by
  induction entries with
  | nil => simp [unknownEntry]
  | cons row rest ih => rw [unknownEntry, Option.or_eq_none_iff, ih, firstUnknown_eq_none, List.forall_mem_cons]

/-- The schema at a node admits a value alone along its path where it admits what it is in. -/
theorem unknownKey_nested {value held : Value S} {path : List String} (hat : value.at path = some held) {node : Json}
    (hknown : unknownKey schemas root value node = none) : unknownKey schemas root (nested path held) node = none := by
  induction path generalizing value node with
  | nil => exact Option.some.inj hat ▸ hknown
  | cons key path ih =>
    cases value with
    | table entries =>
      obtain ⟨inner, hrow, hat⟩ := at_cons.mp hat
      rw [unknownKey, unknownEntry_eq_none] at hknown
      obtain ⟨schema, hschema, hinner⟩ := hknown _ (mem_of_rowOf hrow)
      change unknownKey schemas root (.table [(key, nested path held)]) node = none
      rw [unknownKey, unknownEntry_eq_none]
      intro row hmem
      obtain rfl := List.mem_singleton.mp hmem
      exact ⟨schema, hschema, ih hat hinner⟩
    | string | scalar | array => cases hat

/-- Of two strings the schema admits both along a path or none. -/
theorem unknownKey_string {path : List String} {node : Json} (text other : String)
    (hknown : unknownKey schemas root (nested path (.string text : Value S)) node = none) :
    unknownKey schemas root (nested path (.string other : Value S)) node = none := by
  induction path generalizing node with
  | nil => rfl
  | cons key path ih =>
    change unknownKey schemas root (.table [(key, nested path (.string text))]) node = none at hknown
    change unknownKey schemas root (.table [(key, nested path (.string other))]) node = none
    rw [unknownKey, unknownEntry_eq_none] at hknown ⊢
    intro row hmem
    obtain rfl := List.mem_singleton.mp hmem
    obtain ⟨schema, hschema, hinner⟩ := hknown _ List.mem_cons_self
    exact ⟨schema, hschema, ih hinner⟩

variable (lib : Libraries S)

/-- The keys of a leaf are known where those of the value that was set are. -/
theorem unknownIn_append {path below : List String} {value held : Value S} (hpath : path ≠ [])
    (hat : value.at below = some held) (hknown : unknownIn lib path value = none) :
    unknownIn lib (path ++ below) held = none := by
  have hnested : ∀ path : List String, (nested path value).at (path ++ below) = some held := fun path =>
    (at_nested path below value).trans hat
  obtain ⟨key, path, rfl⟩ := List.exists_cons_of_ne_nil hpath
  rw [List.cons_append]
  unfold unknownIn at hknown ⊢
  split at hknown
  · rename_i rest heq
    obtain ⟨rfl, rfl⟩ := List.cons.inj heq
    simp only [Option.map_eq_none_iff] at hknown ⊢
    exact unknownKey_nested _ _ (hnested path) hknown
  · rename_i hne
    split
    · rename_i rest heq
      exact absurd (congrArg (· :: path) (List.cons.inj heq).1) (hne path)
    · exact unknownKey_nested _ _ (hnested (key :: path)) hknown

/-- Of two strings at a key both are known or none. -/
theorem unknownIn_string {path : List String} (text other : String)
    (hknown : unknownIn lib path (.string text) = none) : unknownIn lib path (.string other) = none := by
  unfold unknownIn at hknown ⊢
  split
  · simp only [Option.map_eq_none_iff] at hknown ⊢
    exact unknownKey_string _ _ text other hknown
  · rename_i hne
    split at hknown
    · exact absurd rfl (hne _)
    · exact unknownKey_string _ _ text other hknown

end Schema

section Harness

/-- A reader of single values reads a table at most as one key with a leaf, as a variant's name is read. -/
def ReadsSingly (reads : Value S → Bool) : Prop :=
  ∀ entries, reads (.table entries) = true → ∃ key held, entries = [(key, held)] ∧ IsLeaf held

/-- Once filled in, a value is read from each of its leaves where it is read. -/
def LeafByLeaf (fill : Value S → Value S) (shape : Shape S) : Prop :=
  ∀ value path held, shape.reads (fill value) = true → value.at path = some held → IsLeaf held →
    shape.reads (fill (nested path held)) = true

/-- Single values are read from their leaves. -/
theorem leafByLeaf_plain {reads : Value S → Bool} (h : ReadsSingly reads) : LeafByLeaf id (.plain reads) := by
  intro value path held hreads hat hheld
  cases path with
  | nil => exact Option.some.inj hat ▸ hreads
  | cons key path =>
    cases value with
    | table entries =>
      obtain ⟨only, leaf, rfl, hleaf⟩ := h entries hreads
      obtain ⟨inner, hrow, hinner⟩ := at_cons.mp hat
      obtain ⟨rfl, rfl⟩ := Prod.mk.inj (List.mem_singleton.mp (mem_of_rowOf hrow))
      obtain ⟨rfl, rfl⟩ := hleaf.at_eq_some hinner
      exact hreads
    | string | scalar | array => cases hat

/-- Maps are read from their leaves where their values are. -/
theorem leafByLeaf_map {entry : Shape S} (other : Value S → Bool) {fill fillEntry : Value S → Value S}
    (hfill : ∀ entries : Table S, fill (.table entries) = .table (entries.map fun row => (row.1, fillEntry row.2)))
    (h : LeafByLeaf fillEntry entry) : LeafByLeaf fill (.map entry other) := by
  intro value path held hreads hat hheld
  cases path with
  | nil => exact Option.some.inj hat ▸ hreads
  | cons key path =>
    cases value with
    | table entries =>
      obtain ⟨inner, hrow, hat⟩ := at_cons.mp hat
      rw [hfill, Shape.reads, List.all_map, List.all_eq_true] at hreads
      change (Shape.map entry other).reads (fill (.table [(key, nested path held)])) = true
      rw [hfill, Shape.reads, List.all_map, List.all_eq_true]
      intro row hmem
      obtain rfl := List.mem_singleton.mp hmem
      exact h inner path held (hreads _ (mem_of_rowOf hrow)) hat hheld
    | string | scalar | array => cases hat

/-- A record's fields are read where each is. -/
theorem readsFields_iff {fields : List (String × Bool × Shape S)} {entries : Table S} :
    readsFields fields entries = true ↔ ∀ field ∈ fields, (∀ value, rowOf field.1 entries = some value →
      field.2.2.reads value = true) ∧ (rowOf field.1 entries = none → field.2.1 = false) := by
  induction fields with
  | nil => simp [readsFields]
  | cons field rest ih =>
    rw [readsFields, Bool.and_eq_true, ih, List.forall_mem_cons]
    refine and_congr_left fun _ => ?_
    cases rowOf field.1 entries <;> simp

/-- Records are read from their leaves where each field is, or may be missing, or is filled in. -/
theorem leafByLeaf_record {fields : List (String × Bool × Shape S)} (other : Value S → Bool)
    {fill : Value S → Value S} (fillField : String → Value S → Value S) (filler : String → Option (Value S))
    {rows : Table S → Table S} (hfill : ∀ entries, fill (.table entries) = .table (rows entries))
    (hrows : ∀ name entries, rowOf name (rows entries) = ((rowOf name entries).map (fillField name)).or (filler name))
    (hfields : ∀ field ∈ fields, LeafByLeaf (fillField field.1) field.2.2 ∧
      (∀ value, filler field.1 = some value → field.2.2.reads value = true) ∧
      (filler field.1 = none → field.2.1 = false)) :
    LeafByLeaf fill (.record fields other) := by
  intro value path held hreads hat hheld
  cases path with
  | nil => exact Option.some.inj hat ▸ hreads
  | cons key path =>
    cases value with
    | table entries =>
      obtain ⟨inner, hrow, hat⟩ := at_cons.mp hat
      rw [hfill, Shape.reads, readsFields_iff] at hreads
      change (Shape.record fields other).reads (fill (.table [(key, nested path held)])) = true
      rw [hfill, Shape.reads, readsFields_iff]
      intro field hfield
      obtain ⟨hleaf, hfiller, hmissing⟩ := hfields field hfield
      rw [hrows, rowOf]
      split
      · rename_i hkey
        have hinner := (hreads field hfield).1 (fillField field.1 inner) (by rw [hrows, ← hkey, hrow]; rfl)
        refine ⟨fun value hvalue => ?_, fun hnone => ?_⟩
        · obtain rfl := Option.some.inj hvalue
          exact hleaf inner path held hinner hat hheld
        · cases hnone
      · exact ⟨hfiller, hmissing⟩
    | string | scalar | array => cases hat

/-- Records with nothing to fill in are read from their leaves where their fields are and may be missing. -/
theorem leafByLeaf_optional {fields : List (String × Bool × Shape S)} (other : Value S → Bool)
    (hfields : ∀ field ∈ fields, LeafByLeaf id field.2.2 ∧ field.2.1 = false) : LeafByLeaf id (.record fields other) :=
  leafByLeaf_record other (fun _ => id) (fun _ => none) (fun _ => rfl)
    (fun name entries => by rw [Option.map_id, id, Option.or_none])
    fun field hfield => ⟨(hfields field hfield).1, nofun, fun _ => (hfields field hfield).2⟩

/-- What stands in for a missing title or body. -/
def toolFiller (name : String) : Option (Value S) :=
  if "title" = name then some (.string "") else if "body" = name then some (.string "") else none

/-- A row of a rendered-tool entry once it is filled in. -/
theorem rowOf_fillTool (name : String) (entries : Table S) :
    rowOf name (orInsert "body" (.string "") (orInsert "title" (.string "") entries)) =
      ((rowOf name entries).map id).or (toolFiller name) := by
  have horInsert : ∀ key (value : Value S) entries,
      rowOf name (orInsert key value entries) = (rowOf name entries).or (if key = name then some value else none) := by
    intro key value entries
    rw [orInsert]
    split
    · rename_i held hheld
      split
      · rename_i hkey
        rw [← hkey, hheld, Option.some_or]
      · rw [Option.or_none]
    · rename_i hmissing
      rw [rowOf_putRow]
      split
      · rename_i hkey
        rw [← hkey, hmissing, Option.none_or]
      · rw [Option.or_none]
  rw [horInsert, horInsert, Option.map_id, id, Option.or_assoc]
  refine congrArg _ ?_
  rw [toolFiller]
  split
  · rw [Option.some_or]
  · rw [Option.none_or]

/-- A row of the harness section once its tools are filled in. -/
theorem rowOf_fillHarness (name : String) (entries : Table S) :
    rowOf name (entries.map fun row => if row.1 ∈ ["issue_tools", "pr_tools"] then (row.1, fillTools row.2) else row) =
      ((rowOf name entries).map (if name ∈ ["issue_tools", "pr_tools"] then fillTools else id)).or none := by
  rw [Option.or_none]
  induction entries with
  | nil => rfl
  | cons row rest ih =>
    have hkey : (if row.1 ∈ ["issue_tools", "pr_tools"] then (row.1, fillTools row.2) else row).1 = row.1 := by
      split <;> rfl
    rw [List.map_cons, rowOf, hkey, rowOf]
    split
    · rename_i hname
      rw [← hname, Option.map_some]
      split <;> rfl
    · exact ih

/-- The readers of the harness section's single values. -/
def Readers.single (readers : Readers S) : List (Value S → Bool) :=
  [readers.boolean, readers.strings, readers.word, readers.shell, readers.policyAction, readers.ruleAction,
    readers.severity, readers.tracker, readers.inputKeys, readers.fidelity, readers.promptFidelity, readers.days,
    readers.bytes]

variable {readers : Readers S}

/-- The harness section is read from its leaves. -/
theorem leafByLeaf_harness (h : ∀ reads ∈ readers.single, ReadsSingly reads) :
    LeafByLeaf fillHarness (harnessSection readers) := by
  simp only [Readers.single, List.forall_mem_cons] at h
  obtain ⟨hboolean, hstrings, hword, hshell, hpolicy, hrule, hseverity, htracker, hkeys, hfidelity, hprompt, hdays,
    hbytes, _⟩ := h
  have htext : ReadsSingly (readsString : Value S → Bool) := nofun
  have hcommand : LeafByLeaf id (commandRule readers) := by
    refine leafByLeaf_optional _ ?_
    simp only [optional, List.forall_mem_cons, leafByLeaf_plain, hstrings, htext, hboolean, hrule, hseverity]
    simp
  have htool : LeafByLeaf fillTool (renderedToolRule readers) := by
    refine leafByLeaf_record _ (fun _ => id) toolFiller (fun _ => rfl) rowOf_fillTool ?_
    have hmap : ∀ (reads : Value S → Bool) other, ReadsSingly reads → LeafByLeaf id (.map (.plain reads) other) :=
      fun reads other hreads => leafByLeaf_map other (fun entries => by simp) (leafByLeaf_plain hreads)
    simp [optional, toolFiller, leafByLeaf_plain, hmap, hstrings, htext, hboolean, htracker, hkeys, Shape.reads,
      readsString]
  have htools : ∀ other, LeafByLeaf fillTools (.map (renderedToolRule readers) other) := fun other =>
    leafByLeaf_map other (fun _ => rfl) htool
  have hcommands : ∀ other, LeafByLeaf id (.map (commandRule readers) other) := fun other =>
    leafByLeaf_map other (fun entries => by simp) hcommand
  have happ : LeafByLeaf id (appMatch readers) := by
    refine leafByLeaf_optional _ ?_
    simp [optional, leafByLeaf_plain, hword, hboolean]
  have hlog : LeafByLeaf id (logSection readers) := by
    refine leafByLeaf_optional _ ?_
    simp [optional, leafByLeaf_plain, hboolean, hfidelity, hprompt, htext, hdays, hbytes]
  refine leafByLeaf_record _ (fun name => if name ∈ ["issue_tools", "pr_tools"] then fillTools else id)
    (fun _ => none) (fun _ => rfl) rowOf_fillHarness ?_
  simp [optional, leafByLeaf_plain, hboolean, hshell, hpolicy, htools, hcommands, happ, hlog]

/-- A leaf below the harness section is read where the value that was set is. -/
theorem readsHarness_append (h : ∀ reads ∈ readers.single, ReadsSingly reads) {path below : List String}
    (hpath : path ≠ []) {value held : Value S} (hat : value.at below = some held) (hheld : IsLeaf held)
    (hreads : readsHarness readers path value = true) : readsHarness readers (path ++ below) held = true := by
  rw [readsHarness, List.tail_append_of_ne_nil hpath]
  exact leafByLeaf_harness h _ _ held hreads ((at_nested path.tail below value).trans hat) hheld

/-- A string is read as the log directory. -/
theorem readsHarness_logDir (text : String) : readsHarness readers logDir (.string text) = true := by
  simp [readsHarness, logDir, nested, fillHarness, harnessSection, Shape.reads, readsFields, optional, rowOf,
    logSection,
    readsString]

end Harness

section Accepted

variable (lib : Libraries S)

/-- A value is accepted at a path of keys: they may be set, the schema knows them, and a harness value is read. -/
structure Accepted (path : List String) (value : Value S) : Prop where
  set : (fileOnlyTables.find? fun row => path.head? == some row.1) = none
  known : unknownIn lib path value = none
  read : path.head? = some "harness" → readsHarness lib.readers path value = true

variable {lib}

/-- The check of a key passes where the key may be set and is known. -/
theorem checkKey_eq_ok {label : String} {path : List String} {value : Value S} :
    checkKey lib label path value = .ok () ↔
    (fileOnlyTables.find? fun row => path.head? == some row.1) = none ∧ unknownIn lib path value = none := by
  rw [checkKey]
  split
  · rename_i hfound
    simp [hfound]
  · rename_i hfound
    split
    · rename_i hunknown
      simp [hunknown]
    · rename_i hunknown
      simp [hfound, hunknown]

/-- The path keys of an option. -/
def pathKeys : List (List String) := defaultsPaths.map Prod.fst ++ [logDir]

/-- Another string is accepted at a path key. -/
theorem Accepted.string {path : List String} (hpath : path ∈ pathKeys) {text : String} (other : String)
    (haccepted : Accepted lib path (.string text)) : Accepted lib path (.string other) := by
  refine ⟨haccepted.set, unknownIn_string lib text other haccepted.known, fun hharness => ?_⟩
  simp only [pathKeys, defaultsPaths, List.map_cons, List.map_nil, List.cons_append, List.nil_append, List.mem_cons,
    List.not_mem_nil, or_false] at hpath
  rcases hpath with rfl | rfl | rfl | rfl
  · simp at hharness
  · simp at hharness
  · simp at hharness
  · exact readsHarness_logDir other

end Accepted

end Devkit.Config
