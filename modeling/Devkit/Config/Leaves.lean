import Devkit.Config.Spelling

/-!
# Leaves and their lines

A table is its leaves, each value that is no table and each empty table under its path. The variable has
one line for each; a line is parsed as its leaf, and setting all leaves in turn builds the table again.
-/

namespace Devkit.Config

open Devkit.Library
open Devkit.Library.Toml
open Devkit.Todos (isWhitespace)

variable {S : Type}

/-- The TOML library reads what TOML defines, keeps keys in order, and writes scalars as TOML. -/
structure FollowsToml (lib : Libraries S) (scalarOf : List Char → Option S) (display : S → List Char) : Prop where
  spells : Spells scalarOf display
  zero : (scalarOf ['0']).isSome = true
  reads : ∀ text entries, readLine scalarOf text = some entries → lib.fromStr text = some entries
  ordered : ∀ text entries, lib.fromStr text = some entries → (Value.table entries).Ordered

mutual

/-- The leaves of a value, each under its path in it. -/
def leaves : Value S → List (List String × Value S)
  | .table (row :: rest) => tableLeaves (row :: rest)
  | value => [([], value)]

/-- The leaves of a table. -/
def tableLeaves : Table S → List (List String × Value S)
  | [] => []
  | (key, value) :: rest => ((leaves value).map fun leaf => (key :: leaf.1, leaf.2)) ++ tableLeaves rest

end

/-- A leaf of a table is one of a row's value, under the row's key. -/
theorem mem_tableLeaves {table : Table S} {leaf : List String × Value S} : leaf ∈ tableLeaves table ↔
    ∃ key below value, (key, value) ∈ table ∧ (below, leaf.2) ∈ leaves value ∧ leaf.1 = key :: below := by
  induction table with
  | nil => simp [tableLeaves]
  | cons row rest ih =>
    obtain ⟨key, value⟩ := row
    rw [tableLeaves, List.mem_append, ih, List.mem_map]
    constructor
    · rintro (⟨⟨below, held⟩, hleaf, rfl⟩ | ⟨other, below, held, hrow, hleaf, hpath⟩)
      · exact ⟨key, below, value, List.mem_cons_self, hleaf, rfl⟩
      · exact ⟨other, below, held, List.mem_cons_of_mem _ hrow, hleaf, hpath⟩
    · rintro ⟨other, below, held, hrow, hleaf, hpath⟩
      cases List.mem_cons.mp hrow with
      | inl heq =>
        obtain ⟨rfl, rfl⟩ := Prod.mk.inj heq
        exact Or.inl ⟨(below, leaf.2), hleaf, Prod.ext hpath.symm rfl⟩
      | inr hrow => exact Or.inr ⟨other, below, held, hrow, hleaf, hpath⟩

/-- A value that is no table, or an empty one. -/
def IsLeaf : Value S → Prop
  | .table (_ :: _) => False
  | _ => True

/-- A leaf's only leaf is itself. -/
theorem leaves_of_isLeaf {value : Value S} (h : IsLeaf value) : leaves value = [([], value)] := by
  cases value with
  | table entries =>
    cases entries with
    | nil => rw [leaves]; exact nofun
    | cons row rest => exact absurd h id
  | string | scalar | array => rw [leaves]; exact nofun

section Lines

variable {lib : Libraries S} {scalarOf : List Char → Option S} {display : S → List Char}

/-- The codes of the bare characters. -/
theorem isBareKeyChar_range {c : Char} (hbare : isBareKeyChar c = true) : (48 ≤ c.toNat ∧ c.toNat ≤ 57) ∨
    (65 ≤ c.toNat ∧ c.toNat ≤ 90) ∨ (97 ≤ c.toNat ∧ c.toNat ≤ 122) ∨ c.toNat = 95 ∨ c.toNat = 45 := by
  rw [isBareKeyChar, Char.isAlphanum, Bool.or_eq_true, Bool.or_eq_true, Bool.or_eq_true, beq_iff_eq, beq_iff_eq] at hbare
  rcases hbare with ((halpha | hdigit) | rfl) | rfl
  · have hletter : c.isUpper = true ∨ c.isLower = true := (Bool.or_eq_true _ _).mp halpha
    cases hletter with
    | inl hupper => exact Or.inr (Or.inl (of_decide_eq_true hupper))
    | inr hlower =>
      have hcodes := (Bool.and_eq_true _ _).mp hlower
      exact Or.inr (Or.inr (Or.inl ⟨of_decide_eq_true hcodes.1, of_decide_eq_true hcodes.2⟩))
  · have hcodes := (Bool.and_eq_true _ _).mp hdigit
    exact Or.inl ⟨of_decide_eq_true hcodes.1, of_decide_eq_true hcodes.2⟩
  · exact Or.inr (Or.inr (Or.inr (Or.inl rfl)))
  · exact Or.inr (Or.inr (Or.inr (Or.inr rfl)))

/-- A bare character is no whitespace, and neither is a quote. -/
theorem not_isWhitespace {c : Char} (hc : c = '"' ∨ isBareKeyChar c = true) : isWhitespace c = false := by
  cases hc with
  | inl hquote =>
    rw [hquote]
    decide
  | inr hbare =>
    have hrange := isBareKeyChar_range hbare
    rw [← Bool.not_eq_true, isWhitespace]
    simp only [Bool.or_eq_true, Bool.and_eq_true, decide_eq_true_eq, beq_iff_eq]
    omega

/-- A key ends with a quote or a bare character. -/
theorem tomlKey_last (key : String) : ∃ text c, tomlKey key = text ++ [c] ∧ (c = '"' ∨ isBareKeyChar c = true) := by
  unfold tomlKey
  split
  · rename_i hbare
    rw [Bool.and_eq_true, List.all_eq_true] at hbare
    have hne : key.toList ≠ [] := by
      intro hnil
      simp [← String.toList_eq_nil_iff, hnil] at hbare
    exact ⟨_, _, (List.dropLast_append_getLast hne).symm, Or.inr (hbare.2 _ (List.getLast_mem hne))⟩
  · exact ⟨_, '"', rfl, Or.inl rfl⟩

/-- The text of a path has no whitespace at its ends. -/
theorem trim_pathText {path : List String} (hpath : path ≠ []) : trim (pathText path) = pathText path := by
  have hhead : ∃ c rest, pathText path = c :: rest ∧ isWhitespace c = false := by
    cases path with
    | nil => exact absurd rfl hpath
    | cons key path =>
      obtain ⟨c, rest, htext, hc⟩ := tomlKey_head key
      cases path with
      | nil => exact ⟨c, rest, by rw [pathText, List.map_singleton, List.intercalate_singleton, htext],
        not_isWhitespace hc⟩
      | cons next path => exact ⟨c, _, by rw [pathText_cons_cons, htext]; rfl, not_isWhitespace hc⟩
  have hlast : ∃ text c, pathText path = text ++ [c] ∧ isWhitespace c = false := by
    clear hhead
    induction path with
    | nil => exact absurd rfl hpath
    | cons key path ih =>
      cases path with
      | nil =>
        obtain ⟨text, c, htext, hc⟩ := tomlKey_last key
        exact ⟨text, c, by rw [pathText, List.map_singleton, List.intercalate_singleton, htext], not_isWhitespace hc⟩
      | cons next path =>
        obtain ⟨text, c, htext, hc⟩ := ih (List.cons_ne_nil next path)
        exact ⟨tomlKey key ++ ['.'] ++ text, c, by rw [pathText_cons_cons, htext, ← List.append_assoc], hc⟩
  obtain ⟨c, rest, hhead, hc⟩ := hhead
  obtain ⟨text, d, hlast, hd⟩ := hlast
  have hdrop : (pathText path).dropWhile isWhitespace = pathText path := by
    rw [hhead]
    exact List.dropWhile_cons_of_neg (by simp [hc])
  rw [trim, hdrop, hlast, List.rdropWhile_concat_neg _ _ _ (by simp [hd])]

/-- The line of a leaf. -/
def lineText (display : S → List Char) (leaf : List String × Value S) : List Char :=
  pathText leaf.1 ++ '=' :: inline display leaf.2

/-- A line is parsed as its leaf. -/
theorem parseOne_line (h : FollowsToml lib scalarOf display) (label : String) {path : List String} (hpath : path ≠ [])
    {value : Value S} (hordered : value.Ordered) :
    parseOne lib label (lineText display (path, value)) = .ok (path, value) := by
  have hsegments : keySegments lib (pathText path) = some path := by
    obtain ⟨zero, hzero⟩ := Option.isSome_iff_exists.mp h.zero
    have hpaths : ∀ path : List String, onePath (nested path (Value.scalar zero)) = some path := by
      intro path
      induction path with
      | nil => rfl
      | cons key path ih =>
        change (onePath (nested path (Value.scalar zero))).map (key :: ·) = _
        rw [ih]
        rfl
    obtain ⟨entries, hentries⟩ : ∃ entries, nested path (Value.scalar zero) = .table entries := by
      cases path with
      | nil => exact absurd rfl hpath
      | cons key path => exact ⟨_, rfl⟩
    have hread : ∀ allowance, ['0'].length < allowance →
        readValue scalarOf allowance ['0'] = some (.scalar zero, []) := by
      intro allowance hallowance
      obtain ⟨fewer, rfl⟩ : ∃ fewer, allowance = fewer + 1 := ⟨allowance - 1, by simp at hallowance; omega⟩
      change (scalarOf ['0']).map _ = _
      rw [hzero]
      rfl
    have hline := h.reads _ _ (readLine_path hpath hentries rfl hread)
    change (lib.fromStr (pathText path ++ " = 0".toList)).bind _ = _
    rw [show " = 0".toList = " = ".toList ++ ['0'] by rfl, hline, Option.bind_some, ← hentries, hpaths]
  have hvalue : lib.fromStr ("v = ".toList ++ inline display value) = some [("v", value)] := by
    obtain ⟨c, rest, hhead, hblank, _⟩ := inline_head h.spells value
    refine h.reads _ _ (readLine_path (List.cons_ne_nil "v" []) rfl ?_ fun allowance hallowance => ?_)
    · rw [hhead]
      exact skipBlanks_cons hblank rest
    · have hread := readValue_inline h.spells value hordered allowance hallowance [] nofun
      rwa [List.append_nil] at hread
  simp only [parseOne, lineText, splitAssignment_line, trim_pathText hpath, hsegments, hvalue]

/-- The keys of a path below another, each after a dot. -/
def dotted (path : List String) : List Char := path.flatMap fun key => '.' :: tomlKey key

/-- A path is its first key and the keys below it. -/
theorem pathText_cons (key : String) (path : List String) : pathText (key :: path) = tomlKey key ++ dotted path := by
  induction path generalizing key with
  | nil => rw [pathText, List.map_singleton, List.intercalate_singleton, dotted, List.flatMap_nil, List.append_nil]
  | cons next path ih =>
    rw [pathText, List.map_cons, List.map_cons, List.intercalate_cons_cons, ← List.map_cons, ← pathText, ih]
    simp [dotted]

mutual

/-- The lines of a value are those of its leaves, after its own path. -/
theorem leafLine_eq (value : Value S) (path : List Char) : leafLine display path value =
    (leaves value).map fun leaf => path ++ dotted leaf.1 ++ '=' :: inline display leaf.2 := by
  match value with
  | .table [] => simp [leafLine, leaves, dotted]
  | .table (row :: rest) =>
    rw [leafLine, leaves, leafLines_eq (row :: rest) (path ++ ['.'])]
    refine List.map_congr_left fun leaf hleaf => ?_
    obtain ⟨key, below, value, _, _, hpath⟩ := mem_tableLeaves.mp hleaf
    rw [lineText, hpath, pathText_cons]
    simp [dotted]
  | .string text => simp [leafLine, leaves, dotted]
  | .scalar value => simp [leafLine, leaves, dotted]
  | .array items => simp [leafLine, leaves, dotted]

/-- The lines of a table are those of its leaves. -/
theorem leafLines_eq (table : Table S) (before : List Char) : leafLines display before table =
    (tableLeaves table).map fun leaf => before ++ lineText display leaf := by
  match table with
  | [] => rfl
  | (key, value) :: rest =>
    rw [leafLines, tableLeaves, List.map_append, leafLine_eq value, leafLines_eq rest, List.map_map]
    refine congrArg (· ++ _) (List.map_congr_left fun leaf _ => ?_)
    rw [Function.comp_apply, lineText, pathText_cons]
    simp

end

end Lines

section Rebuild

/-- Set the leaves in turn. -/
def setLeaves (table : Table S) (found : List (List String × Value S)) : Table S :=
  found.foldl (fun table leaf => insertAt leaf.1 leaf.2 table) table

/-- Leaves of two lists are set one list after the other. -/
theorem setLeaves_append (table : Table S) (first second : List (List String × Value S)) :
    setLeaves table (first ++ second) = setLeaves (setLeaves table first) second := List.foldl_append

/-- Setting below the last key of a table sets in what it holds. -/
theorem setLeaves_under {before : Table S} {key : String} (hlast : ∀ row ∈ before, row.1 < key)
    (found : List (List String × Value S)) (hpaths : ∀ leaf ∈ found, leaf.1 ≠ []) (inner : Table S) :
    setLeaves (before ++ [(key, .table inner)]) (found.map fun leaf => (key :: leaf.1, leaf.2)) =
      before ++ [(key, .table (setLeaves inner found))] := by
  induction found generalizing inner with
  | nil => rfl
  | cons leaf rest ih =>
    obtain ⟨next, path, hpath⟩ := List.exists_cons_of_ne_nil (hpaths leaf List.mem_cons_self)
    have hrow : rowOf key (before ++ [(key, Value.table inner)]) = some (.table inner) := by
      rw [rowOf_append fun row hrow => ne_of_lt (hlast row hrow), rowOf, if_pos rfl]
    have hset : insertAt (key :: leaf.1) leaf.2 (before ++ [(key, .table inner)]) =
        before ++ [(key, .table (insertAt leaf.1 leaf.2 inner))] := by
      rw [hpath, insertAt, hrow]
      · exact putRow_last _ _ hlast
      · intro hnil
        cases hnil
    rw [List.map_cons, setLeaves, List.foldl_cons, hset, ← setLeaves,
      ih fun other hother => hpaths other (List.mem_cons_of_mem leaf hother)]
    rfl

/-- Setting below a key that is after all others puts a table there. -/
theorem insertAt_fresh {before : Table S} {key : String} (hlast : ∀ row ∈ before, row.1 < key) {path : List String}
    (hpath : path ≠ []) (value : Value S) :
    insertAt (key :: path) value before = before ++ [(key, .table (insertAt path value []))] := by
  obtain ⟨next, path, rfl⟩ := List.exists_cons_of_ne_nil hpath
  rw [insertAt, rowOf_eq_none fun row hrow => ne_of_lt (hlast row hrow)]
  · exact putRow_of_lt _ hlast
  · exact nofun

/-- Every value has a leaf. -/
theorem leaves_ne_nil : ∀ value : Value S, leaves value ≠ []
  | .table ((key, value) :: rest) => by
    rw [leaves, tableLeaves]
    simp [leaves_ne_nil value]
  | .table [] | .string _ | .scalar _ | .array _ => by simp [leaves]

mutual

/-- Setting the leaves of a value after all other keys puts the value there. -/
theorem setLeaves_value (value : Value S) (hordered : value.Ordered) {before : Table S} {key : String}
    (hlast : ∀ row ∈ before, row.1 < key) :
    setLeaves before ((leaves value).map fun leaf => (key :: leaf.1, leaf.2)) = before ++ [(key, value)] := by
  have hleaf : ∀ value : Value S, leaves value = [([], value)] →
      setLeaves before ((leaves value).map fun leaf => (key :: leaf.1, leaf.2)) = before ++ [(key, value)] := by
    intro value heq
    rw [heq]
    exact putRow_of_lt value hlast
  match value with
  | .table [] => exact hleaf _ (leaves_of_isLeaf True.intro)
  | .string text => exact hleaf _ (leaves_of_isLeaf True.intro)
  | .scalar value => exact hleaf _ (leaves_of_isLeaf True.intro)
  | .array items => exact hleaf _ (leaves_of_isLeaf True.intro)
  | .table (row :: rest) =>
    have hinner := setLeaves_table (row :: rest) hordered.2 [] hordered.1
    have hpaths : ∀ leaf ∈ tableLeaves (row :: rest), leaf.1 ≠ [] := by
      intro leaf hleaf
      obtain ⟨_, _, _, _, _, hpath⟩ := mem_tableLeaves.mp hleaf
      exact hpath ▸ List.cons_ne_nil _ _
    rw [leaves]
    cases hfound : tableLeaves (row :: rest) with
    | nil => exact absurd hfound (by rw [← leaves]; exact leaves_ne_nil _)
    | cons first found =>
      rw [hfound] at hinner hpaths
      rw [List.map_cons, setLeaves, List.foldl_cons, insertAt_fresh hlast (hpaths first List.mem_cons_self),
        ← setLeaves,
        setLeaves_under hlast found fun leaf hleaf => hpaths leaf (List.mem_cons_of_mem first hleaf)]
      rw [setLeaves, List.foldl_cons, ← setLeaves, List.nil_append] at hinner
      rw [hinner]

/-- Setting the leaves of a table after its keys puts the rows there. -/
theorem setLeaves_table (table : Table S) (hordered : orderedEntries table) (before : Table S)
    (hascending : Ascending (before ++ table)) : setLeaves before (tableLeaves table) = before ++ table := by
  match table with
  | [] => exact (List.append_nil before).symm
  | (key, value) :: rest =>
    have hlast : ∀ row ∈ before, row.1 < key := fun row hrow =>
      (List.pairwise_append.mp hascending).2.2 row hrow (key, value) List.mem_cons_self
    have hfirst := setLeaves_value value hordered.1 hlast
    have hrest := setLeaves_table rest hordered.2 (before ++ [(key, value)]) (by rwa [List.append_assoc])
    rw [tableLeaves, setLeaves_append, hfirst, hrest, List.append_assoc]
    rfl

end

end Rebuild

end Devkit.Config
