import Devkit.Config.Variable

/-!
# What is written is read back

Keys, strings and values as the variable spells them are read back by TOML, whatever follows them that
cannot belong to them. A line splits into its key and its value, and is parsed as the leaf it was
written for.
-/

namespace Devkit.Config

open Devkit.Library
open Devkit.Library.Toml
open Devkit.Todos (isWhitespace)

variable {S : Type}

section Strings

/-- The digits of a control character are read as it. -/
theorem escaped_control {c : Char} (hc : isControl c = true) :
    escaped (hexDigit (c.toNat / 4096)) (hexDigit (c.toNat / 256 % 16)) (hexDigit (c.toNat / 16 % 16))
      (hexDigit (c.toNat % 16)) = some c := by
  have hall : ∀ n < 160, escaped (hexDigit (n / 4096)) (hexDigit (n / 256 % 16)) (hexDigit (n / 16 % 16))
      (hexDigit (n % 16)) = some (Char.ofNat n) := by decide +kernel
  have hbound : c.toNat < 160 := by
    simp only [isControl, Bool.or_eq_true, Bool.and_eq_true, decide_eq_true_eq] at hc
    omega
  rw [hall c.toNat hbound, Char.ofNat_toNat]

/-- An escaped character is read as itself. -/
theorem readBasic_escapeChar (c : Char) (rest : List Char) :
    readBasic (escapeChar c ++ rest) = (readBasic rest).map fun found => (c :: found.1, found.2) := by
  unfold escapeChar
  split
  · rename_i hquote
    rw [hquote]
    rfl
  · rename_i hquote
    split
    · rename_i hslash
      rw [hslash]
      rfl
    · rename_i hslash
      split
      · rename_i hcontrol
        change (escaped _ _ _ _).bind _ = _
        rw [escaped_control hcontrol]
        rfl
      · rename_i hcontrol
        refine readBasic_cons ?_ rest
        simp only [isControl, Bool.or_eq_true, Bool.and_eq_true, decide_eq_true_eq, not_or, not_and] at hcontrol
        simp only [isBasicChar, Bool.and_eq_true, bne_iff_ne, ne_eq, decide_eq_true_eq]
        exact ⟨⟨⟨hquote, hslash⟩, by omega⟩, by omega⟩

/-- A text that is escaped is read back up to the closing quote. -/
theorem readBasic_escape (text rest : List Char) :
    readBasic (text.flatMap escapeChar ++ '"' :: rest) = some (text, rest) := by
  induction text with
  | nil => rfl
  | cons c text ih =>
    rw [List.flatMap_cons, List.append_assoc, readBasic_escapeChar, ih]
    rfl

/-- A basic string without its first quote is read back. -/
theorem readBasic_basicString (text : String) (rest : List Char) :
    readBasic ((text.toList.flatMap escapeChar ++ ['"']) ++ rest) = some (text.toList, rest) := by
  rw [List.append_assoc]
  exact readBasic_escape text.toList rest

end Strings

section Keys

/-- A text that a bare key cannot go on into. -/
def EndsKey (rest : List Char) : Prop := ∀ c ∈ rest.head?, isBareKeyChar c = false

/-- A key is read back where it ends. -/
theorem readKey_tomlKey (key : String) {rest : List Char} (hrest : EndsKey rest) :
    readKey (tomlKey key ++ rest) = some (key, rest) := by
  unfold tomlKey
  split
  · rename_i hbare
    rw [Bool.and_eq_true, List.all_eq_true] at hbare
    have htake : (key.toList ++ rest).takeWhile isBareKeyChar = key.toList := by
      rw [List.takeWhile_append_of_pos hbare.2]
      cases rest with
      | nil => exact List.append_nil _
      | cons c rest => rw [List.takeWhile_cons_of_neg (by simp [hrest c rfl]), List.append_nil]
    have hdrop : (key.toList ++ rest).dropWhile isBareKeyChar = rest := by
      rw [List.dropWhile_append_of_pos hbare.2]
      cases rest with
      | nil => rfl
      | cons c rest => exact List.dropWhile_cons_of_neg (by simp [hrest c rfl])
    cases htext : key.toList with
    | nil => simp [← String.toList_eq_nil_iff, htext] at hbare
    | cons c text =>
      have hquote : c ≠ '"' := by
        rintro rfl
        exact absurd (hbare.2 '"' (htext ▸ List.mem_cons_self)) (by decide)
      rw [htext] at htake hdrop
      rw [List.cons_append, readKey]
      · rw [← List.cons_append, htake, hdrop, ← htext, String.ofList_toList]
        simp [htext]
      · exact fun rest heq => hquote (List.cons.inj heq).1
  · rw [basicString, List.cons_append, List.cons_append, readKey, readBasic_basicString, Option.map_some,
      String.ofList_toList]

/-- The keys of a path joined by dots. -/
def pathText (path : List String) : List Char := ['.'].intercalate (path.map tomlKey)

/-- A path goes on after a dot. -/
theorem pathText_cons_cons (key next : String) (path : List String) :
    pathText (key :: next :: path) = tomlKey key ++ ['.'] ++ pathText (next :: path) := by
  rw [pathText, List.map_cons, List.map_cons, List.intercalate_cons_cons, ← List.map_cons, ← pathText]

/-- A path of keys is read back where it ends. -/
theorem readKeys_pathText {path : List String} (hpath : path ≠ []) {allowance : ℕ}
    (hallowance : path.length ≤ allowance)
    {rest : List Char} (hrest : EndsKey rest) (hdot : rest.head? ≠ some '.') :
    readKeys allowance (pathText path ++ rest) = some (path, rest) := by
  induction path generalizing allowance with
  | nil => exact absurd rfl hpath
  | cons key path ih =>
    obtain ⟨allowance, rfl⟩ : ∃ fewer, allowance = fewer + 1 := ⟨allowance - 1, by simp at hallowance; omega⟩
    cases path with
    | nil =>
      rw [pathText, List.map_singleton, List.intercalate_singleton, readKeys, readKey_tomlKey key hrest]
      cases rest with
      | nil => rfl
      | cons c rest =>
        split
        · rename_i heq
          obtain ⟨_, heq⟩ := Prod.mk.inj (Option.some.inj heq)
          exact absurd (by rw [heq]; rfl) hdot
        · rename_i heq
          obtain ⟨rfl, rfl⟩ := Prod.mk.inj (Option.some.inj heq)
          rfl
        · contradiction
    | cons next path =>
      have hends : EndsKey ('.' :: (pathText (next :: path) ++ rest)) := fun c hc => by
        obtain rfl := Option.some.inj hc
        decide
      have htext : pathText (key :: next :: path) ++ rest =
          tomlKey key ++ '.' :: (pathText (next :: path) ++ rest) := by
        simp [pathText_cons_cons]
      rw [htext, readKeys, readKey_tomlKey key hends]
      change (readKeys allowance (pathText (next :: path) ++ rest)).map _ = _
      rw [ih (List.cons_ne_nil next path) (by simpa using hallowance)]
      rfl

/-- A key starts with a quote or a bare character. -/
theorem tomlKey_head (key : String) : ∃ c rest, tomlKey key = c :: rest ∧ (c = '"' ∨ isBareKeyChar c = true) := by
  unfold tomlKey
  split
  · rename_i hbare
    rw [Bool.and_eq_true, List.all_eq_true] at hbare
    cases htext : key.toList with
    | nil => simp [← String.toList_eq_nil_iff, htext] at hbare
    | cons c rest => exact ⟨c, rest, rfl, Or.inr (hbare.2 c (htext ▸ List.mem_cons_self))⟩
  · exact ⟨'"', _, rfl, Or.inl rfl⟩

end Keys

/-- Scalars other than strings are written as tokens that are read back. -/
structure Spells (scalarOf : List Char → Option S) (display : S → List Char) : Prop where
  reads : ∀ value, scalarOf (display value) = some value
  plain : ∀ value, ∀ c ∈ display value, endsToken c = false
  begins : ∀ value, ∃ c rest, display value = c :: rest ∧ c ∉ ['"', '\'', '[', '{']

section Values

variable {scalarOf : List Char → Option S} {display : S → List Char}

/-- A blank ends a token. -/
theorem not_isBlank_of_token {c : Char} (hc : endsToken c = false) : isBlank c = false ∧ c ≠ ']' ∧ c ≠ '}' := by
  refine ⟨?_, ?_, ?_⟩
  · cases hblank : isBlank c with
    | false => rfl
    | true => simp [endsToken, hblank] at hc
  · rintro rfl
    exact absurd hc (by decide)
  · rintro rfl
    exact absurd hc (by decide)

/-- A text that starts with no blank is left as it is. -/
theorem skipBlanks_cons {c : Char} (hc : isBlank c = false) (rest : List Char) : skipBlanks (c :: rest) = c :: rest :=
  List.dropWhile_cons_of_neg (by simp [hc])

/-- A value starts with no blank and no closing bracket. -/
theorem inline_head (h : Spells scalarOf display) (value : Value S) :
    ∃ c rest, inline display value = c :: rest ∧ isBlank c = false ∧ c ≠ ']' ∧ c ≠ '}' := by
  cases value with
  | string text => exact ⟨'"', _, by rw [inline]; rfl, by decide⟩
  | array items => exact ⟨'[', _, by rw [inline]; rfl, by decide⟩
  | table entries => exact ⟨'{', _, by rw [inline]; rfl, by decide⟩
  | scalar value =>
    obtain ⟨c, rest, htext, _⟩ := h.begins value
    exact ⟨c, rest, by rw [inline, htext], not_isBlank_of_token (h.plain value c (htext ▸ List.mem_cons_self))⟩

/-- What follows a value ends a token. -/
def EndsValue (rest : List Char) : Prop := ∀ c ∈ rest.head?, endsToken c = true

/-- A scalar is read back where its token ends. -/
theorem readValue_scalar (h : Spells scalarOf display) (value : S) (allowance : ℕ) {rest : List Char}
    (hrest : EndsValue rest) :
    readValue scalarOf (allowance + 1) (display value ++ rest) = some (.scalar value, rest) := by
  have htake : (display value ++ rest).takeWhile (fun c => !endsToken c) = display value := by
    rw [List.takeWhile_append_of_pos fun c hc => by simp [h.plain value c hc]]
    cases rest with
    | nil => exact List.append_nil _
    | cons c rest => rw [List.takeWhile_cons_of_neg (by simp [hrest c rfl]), List.append_nil]
  have hdrop : (display value ++ rest).dropWhile (fun c => !endsToken c) = rest := by
    rw [List.dropWhile_append_of_pos fun c hc => by simp [h.plain value c hc]]
    cases rest with
    | nil => rfl
    | cons c rest => exact List.dropWhile_cons_of_neg (by simp [hrest c rfl])
  obtain ⟨c, text, htext, hc⟩ := h.begins value
  simp only [List.mem_cons, List.not_mem_nil, or_false, not_or] at hc
  obtain ⟨hquote, hliteral, hbracket, hbrace⟩ := hc
  rw [htext] at htake hdrop ⊢
  rw [List.cons_append] at htake hdrop ⊢
  unfold readValue
  split
  · rename_i heq
    exact absurd (List.cons.inj heq).1 hquote
  · rename_i heq
    exact absurd (List.cons.inj heq).1 hbracket
  · rename_i heq
    exact absurd (List.cons.inj heq).1 hbrace
  · rename_i heq
    exact absurd (List.cons.inj heq).1 hliteral
  · rw [htake, hdrop, ← htext, h.reads]
    rfl

/-- The items of an array as they are written. -/
def itemsText (display : S → List Char) (items : List (Value S)) : List Char :=
  (", ".toList).intercalate (inlineItems display items)

/-- The entries of an inline table as they are written. -/
def entriesText (display : S → List Char) (entries : Table S) : List Char :=
  (", ".toList).intercalate (inlineEntries display entries)

/-- Items after the first follow a comma and a blank. -/
theorem itemsText_cons (value next : Value S) (items : List (Value S)) :
    itemsText display (value :: next :: items) = inline display value ++ ", ".toList ++ itemsText display
      (next :: items) := by
  rw [itemsText, inlineItems, inlineItems, List.intercalate_cons_cons, ← inlineItems, ← itemsText]

/-- Entries after the first follow a comma and a blank. -/
theorem entriesText_cons (key : String) (value : Value S) (next : String × Value S) (entries : Table S) :
    entriesText display ((key, value) :: next :: entries) =
      (tomlKey key ++ " = ".toList ++ inline display value) ++ ", ".toList ++ entriesText display
        (next :: entries) := by
  rw [entriesText, inlineEntries, inlineEntries, List.intercalate_cons_cons, ← inlineEntries, ← entriesText]

/-- An entry's key and its equals sign are read. -/
theorem readKey_entry (key : String) (rest : List Char) :
    readKey (tomlKey key ++ (" = ".toList ++ rest)) = some (key, " = ".toList ++ rest) := by
  refine readKey_tomlKey key fun c hc => ?_
  obtain rfl := Option.some.inj hc
  decide

/-- An array whose text starts with an item is read item by item. -/
theorem readValue_bracket {c : Char} (hblank : isBlank c = false) (hclose : c ≠ ']') (allowance : ℕ) (text :
    List Char) :
    readValue scalarOf (allowance + 1) ('[' :: c :: text) =
      (readItems scalarOf allowance (c :: text)).map fun found => (.array found.1, found.2) := by
  rw [readValue, skipBlanks_cons hblank]
  split
  · rename_i heq
    exact absurd (List.cons.inj heq).1 hclose
  · rfl

/-- An inline table whose text starts with a key is read entry by entry. -/
theorem readValue_brace {c : Char} (hblank : isBlank c = false) (hclose : c ≠ '}') (allowance : ℕ) (text : List Char) :
    readValue scalarOf (allowance + 1) ('{' :: ' ' :: c :: text) =
      (readEntries scalarOf allowance [] (c :: text)).map fun found => (.table found.1, found.2) := by
  have hskip : skipBlanks (' ' :: c :: text) = c :: text := by
    rw [skipBlanks, List.dropWhile_cons_of_pos (by decide)]
    exact skipBlanks_cons hblank text
  rw [readValue, hskip]
  split
  · rename_i heq
    exact absurd (List.cons.inj heq).1 hclose
  · rfl

/-- A key starts with no blank and no closing brace. -/
theorem tomlKey_head_plain (key : String) : ∃ c rest, tomlKey key = c :: rest ∧ isBlank c = false ∧ c ≠ '}' := by
  obtain ⟨c, rest, htext, hc⟩ := tomlKey_head key
  refine ⟨c, rest, htext, ?_⟩
  cases hc with
  | inl hquote =>
    rw [hquote]
    decide
  | inr hbare =>
    constructor
    · cases hblank : isBlank c with
      | false => rfl
      | true =>
        simp only [isBlank, Bool.or_eq_true, beq_iff_eq] at hblank
        rcases hblank with rfl | rfl <;> exact absurd hbare (by decide)
    · rintro rfl
      exact absurd hbare (by decide)

mutual

/-- A value is read back from its line. -/
theorem readValue_inline (h : Spells scalarOf display) (value : Value S) (hordered : value.Ordered) (allowance : ℕ)
    (hallowance : (inline display value).length < allowance) (rest : List Char) (hrest : EndsValue rest) :
    readValue scalarOf allowance (inline display value ++ rest) = some (value, rest) := by
  obtain ⟨allowance, rfl⟩ : ∃ fewer, allowance = fewer + 1 := ⟨allowance - 1, by omega⟩
  match value with
  | .string text =>
    rw [inline, basicString, List.cons_append, List.cons_append]
    change (readBasic _).map _ = _
    rw [readBasic_basicString, Option.map_some, String.ofList_toList]
  | .scalar value =>
    rw [inline]
    exact readValue_scalar h value allowance hrest
  | .array [] => rfl
  | .array (first :: items) =>
    have hread := readItems_inline h first items hordered rest allowance (by
      rw [inline, ← itemsText] at hallowance
      simp at hallowance
      omega)
    have htext : inline display (.array (first :: items)) ++ rest =
        '[' :: (itemsText display (first :: items) ++ ']' :: rest) := by
      rw [inline, ← itemsText]
      simp
    obtain ⟨c, text, hhead, hblank, hclose, _⟩ : ∃ c text, itemsText display (first :: items) ++ ']' :: rest =
      c :: text ∧
        isBlank c = false ∧ c ≠ ']' ∧ c ≠ '}' := by
      obtain ⟨c, text, hhead, hc⟩ := inline_head h first
      cases items with
      | nil => exact ⟨c, _, by rw [itemsText, inlineItems, inlineItems, List.intercalate_singleton, hhead]; rfl, hc⟩
      | cons next items => exact ⟨c, _, by rw [itemsText_cons, hhead]; rfl, hc⟩
    rw [htext, hhead, readValue_bracket hblank hclose, ← hhead, hread]
    rfl
  | .table [] => rfl
  | .table (row :: entries) =>
    have hread := readEntries_inline h row entries [] hordered.1 hordered.2 rest allowance (by
      rw [inline, ← entriesText] at hallowance
      simp at hallowance
      omega)
    have htext : inline display (.table (row :: entries)) ++ rest =
        '{' :: ' ' :: (entriesText display (row :: entries) ++ " \x7d".toList ++ rest) := by
      rw [inline, ← entriesText]
      simp
    obtain ⟨c, text, hhead, hblank, hclose⟩ : ∃ c text, entriesText display (row :: entries) ++ " \x7d".toList ++ rest =
        c :: text ∧ isBlank c = false ∧ c ≠ '}' := by
      obtain ⟨c, text, hhead, hc⟩ := tomlKey_head_plain row.1
      cases entries with
      | nil =>
        exact ⟨c, _, by
          rw [entriesText, inlineEntries, inlineEntries, List.intercalate_singleton, hhead]
          rfl, hc⟩
      | cons next entries => exact ⟨c, _, by rw [entriesText_cons, hhead]; rfl, hc⟩
    rw [htext, hhead, readValue_brace hblank hclose, ← hhead, hread]
    rfl
termination_by allowance

/-- The items of an array are read back. -/
theorem readItems_inline (h : Spells scalarOf display) (first : Value S) (items : List (Value S))
    (hordered : orderedItems (first :: items)) (rest : List Char) (allowance : ℕ)
    (hallowance : (itemsText display (first :: items)).length + 1 < allowance) :
    readItems scalarOf allowance (itemsText display (first :: items) ++ ']' :: rest) = some (first :: items, rest) := by
  obtain ⟨allowance, rfl⟩ : ∃ fewer, allowance = fewer + 1 := ⟨allowance - 1, by omega⟩
  match items with
  | [] =>
    have htext : itemsText display [first] = inline display first := by
      rw [itemsText, inlineItems, inlineItems, List.intercalate_singleton]
    rw [htext] at hallowance ⊢
    have hread := readValue_inline h first hordered.1 allowance (by omega) (']' :: rest)
      fun c hc => by
        obtain rfl := Option.some.inj hc
        decide
    rw [readItems, hread]
    rfl
  | next :: items =>
    rw [itemsText_cons, List.length_append, List.length_append] at hallowance
    have hread := readValue_inline h first hordered.1 allowance (by omega)
      (", ".toList ++ (itemsText display (next :: items) ++ ']' :: rest)) fun c hc => by
        obtain rfl := Option.some.inj hc
        decide
    have hrest := readItems_inline h next items hordered.2 rest allowance (by
      have hcomma : (", ".toList).length = 2 := rfl
      omega)
    obtain ⟨c, text, hhead, hblank, _⟩ := inline_head h next
    have hskip : skipBlanks (' ' :: (itemsText display (next :: items) ++ ']' :: rest)) =
        itemsText display (next :: items) ++ ']' :: rest := by
      have hitems : ∃ text, itemsText display (next :: items) = c :: text := by
        cases items with
        | nil => exact ⟨_, by rw [itemsText, inlineItems, inlineItems, List.intercalate_singleton, hhead]⟩
        | cons other items => exact ⟨_, by rw [itemsText_cons, hhead]; rfl⟩
      obtain ⟨text, hitems⟩ := hitems
      rw [skipBlanks, List.dropWhile_cons_of_pos (by decide), hitems]
      exact skipBlanks_cons hblank _
    rw [itemsText_cons, List.append_assoc, List.append_assoc, readItems, hread]
    change (readItems scalarOf allowance (skipBlanks
      (' ' :: (itemsText display (next :: items) ++ ']' :: rest)))).map _ = _
    rw [hskip, hrest]
    rfl
termination_by allowance

/-- The entries of an inline table are read back after those before. -/
theorem readEntries_inline (h : Spells scalarOf display) (row : String × Value S) (entries : Table S) (before : Table S)
    (hascending : Ascending (before ++ row :: entries)) (hordered : orderedEntries (row :: entries))
    (rest : List Char) (allowance : ℕ) (hallowance : (entriesText display (row :: entries)).length + 1 < allowance) :
    readEntries scalarOf allowance before (entriesText display (row :: entries) ++ " \x7d".toList ++ rest) =
      some (before ++ row :: entries, rest) := by
  obtain ⟨allowance, rfl⟩ : ∃ fewer, allowance = fewer + 1 := ⟨allowance - 1, by omega⟩
  obtain ⟨key, value⟩ := row
  have hlast : ∀ other ∈ before, other.1 < key := fun other hother =>
    (List.pairwise_append.mp hascending).2.2 other hother (key, value) List.mem_cons_self
  have hput : putRow key value before = before ++ [(key, value)] := putRow_of_lt value hlast
  have hnew : rowOf key before = none := rowOf_eq_none fun other hother => ne_of_lt (hlast other hother)
  obtain ⟨c, text, hhead, hblank, _⟩ := inline_head h value
  have hskip : ∀ after, skipBlanks (' ' :: (inline display value ++ after)) = inline display value ++ after := by
    intro after
    rw [skipBlanks, List.dropWhile_cons_of_pos (by decide), hhead]
    exact skipBlanks_cons hblank _
  match entries with
  | [] =>
    have htext : entriesText display [(key, value)] = tomlKey key ++ " = ".toList ++ inline display value := by
      rw [entriesText, inlineEntries, inlineEntries, List.intercalate_singleton]
    rw [htext, List.length_append] at hallowance
    have hread := readValue_inline h value hordered.1 allowance (by omega) (" \x7d".toList ++ rest)
      fun c hc => by
        obtain rfl := Option.some.inj hc
        decide
    rw [htext, List.append_assoc, List.append_assoc, List.append_assoc, readEntries, readKey_entry]
    change (match readValue scalarOf allowance (skipBlanks
      (' ' :: (inline display value ++ (" \x7d".toList ++ rest)))) with
      | none => none
      | some (value, rest) => _) = _
    rw [hskip, hread]
    dsimp only
    rw [hnew, ← hput]
    rfl
  | next :: entries =>
    rw [entriesText_cons, List.length_append, List.length_append, List.length_append] at hallowance
    have hread := readValue_inline h value hordered.1 allowance (by omega)
      (", ".toList ++ (entriesText display (next :: entries) ++ " \x7d".toList ++ rest)) fun c hc => by
        obtain rfl := Option.some.inj hc
        decide
    have hrest := readEntries_inline h next entries (before ++ [(key, value)])
      (by rwa [List.append_assoc]) hordered.2 rest
      allowance (by
        have hcomma : (", ".toList).length = 2 := rfl
        omega)
    obtain ⟨d, keyText, hkey, hkeyBlank, _⟩ := tomlKey_head_plain next.1
    have hnext : skipBlanks (' ' :: (entriesText display (next :: entries) ++ " \x7d".toList ++ rest)) =
        entriesText display (next :: entries) ++ " \x7d".toList ++ rest := by
      have hentries : ∃ text, entriesText display (next :: entries) = d :: text := by
        cases entries with
        | nil => exact ⟨_, by rw [entriesText, inlineEntries, inlineEntries, List.intercalate_singleton, hkey]; rfl⟩
        | cons other entries => exact ⟨_, by rw [entriesText_cons, hkey]; rfl⟩
      obtain ⟨text, hentries⟩ := hentries
      rw [skipBlanks, List.dropWhile_cons_of_pos (by decide), hentries]
      exact skipBlanks_cons hkeyBlank _
    have htext : entriesText display ((key, value) :: next :: entries) ++ " \x7d".toList ++ rest = tomlKey key ++
        (" = ".toList ++ (inline display value ++
          (", ".toList ++ (entriesText display (next :: entries) ++ " \x7d".toList ++ rest)))) := by
      rw [entriesText_cons]
      simp
    rw [htext, readEntries, readKey_entry]
    change (match readValue scalarOf allowance (skipBlanks (' ' :: (inline display value ++ (", ".toList ++
        (entriesText display (next :: entries) ++ " \x7d".toList ++ rest))))) with
      | none => none
      | some (value, rest) => _) = _
    rw [hskip, hread]
    dsimp only
    rw [hnew, hput]
    change readEntries scalarOf allowance (before ++ [(key, value)])
      (skipBlanks (' ' :: (entriesText display (next :: entries) ++ " \x7d".toList ++ rest))) = _
    rw [hnext, hrest, List.append_assoc]
    rfl
termination_by allowance

end

end Values

section Lines

variable {scalarOf : List Char → Option S}

/-- A path is no longer than its text. -/
theorem length_le_pathText (path : List String) : path.length ≤ (pathText path).length := by
  induction path with
  | nil => exact Nat.zero_le _
  | cons key path ih =>
    obtain ⟨c, rest, htext, _⟩ := tomlKey_head key
    cases path with
    | nil => simp [pathText, htext]
    | cons next path =>
      rw [pathText_cons_cons, htext]
      simp at ih ⊢
      omega

/-- A line of a path and a text that is read as a value sets the value at the path. -/
theorem readLine_path {path : List String} (hpath : path ≠ []) {text : List Char} {value : Value S}
    {entries : Table S} (hnested : nested path value = .table entries) (hhead : skipBlanks text = text)
    (hvalue : ∀ allowance, text.length < allowance → readValue scalarOf allowance text = some (value, [])) :
    readLine scalarOf (pathText path ++ (" = ".toList ++ text)) = some entries := by
  have hkeys : readKeys ((pathText path ++ (" = ".toList ++ text)).length + 1)
    (pathText path ++ (" = ".toList ++ text)) =
      some (path, " = ".toList ++ text) := by
    have hlength := length_le_pathText path
    refine readKeys_pathText hpath (by simp only [List.length_append]; omega) (fun c hc => ?_) (fun hdot => ?_)
    · obtain rfl := Option.some.inj hc
      decide
    · exact absurd (Option.some.inj hdot) (by decide)
  have hread := hvalue ((' ' :: text).length + 1) (by rw [List.length_cons]; omega)
  rw [readLine, hkeys]
  change (readValue scalarOf ((' ' :: text).length + 1) (skipBlanks (' ' :: text)) >>= _) = _
  rw [skipBlanks, List.dropWhile_cons_of_pos (by decide), ← skipBlanks, hhead, hread, Option.bind_eq_bind,
    Option.bind_some]
  dsimp only
  rw [hnested]
  rfl

/-- A scanner that has passed a text goes on after it. -/
def Quoting.over (q : Quoting) : List Char → Option Quoting
  | [] => some q
  | c :: rest => (q.next c).bind fun q => q.over rest

/-- A scanner passes two texts one after the other. -/
theorem Quoting.over_append (q : Quoting) (first second : List Char) :
    q.over (first ++ second) = (q.over first).bind fun q => q.over second := by
  induction first generalizing q with
  | nil => rfl
  | cons c rest ih =>
    rw [List.cons_append, Quoting.over, Quoting.over]
    cases q.next c with
    | none => rfl
    | some q => exact ih q

/-- A text that is passed stands before what the scanner finds next. -/
theorem splitFrom_append {q next : Quoting} {text : List Char} (h : q.over text = some next) (rest : List Char) :
    splitFrom q (text ++ rest) = (splitFrom next rest).map fun found => (text ++ found.1, found.2) := by
  induction text generalizing q with
  | nil =>
    obtain rfl := Option.some.inj h
    simp
  | cons c text ih =>
    obtain ⟨after, hnext, hover⟩ := Option.bind_eq_some_iff.mp h
    rw [List.cons_append, splitFrom, hnext]
    change (splitFrom after (text ++ rest)).map _ = _
    rw [ih hover, Option.map_map]
    rfl

/-- The scanner between keys. -/
def between : Quoting := ⟨none, false⟩

/-- The scanner in a double-quoted key. -/
def inQuotes : Quoting := ⟨some '"', false⟩

/-- A hexadecimal digit is no quote and no backslash. -/
theorem hexDigit_ne {n : ℕ} (hn : n < 16) : hexDigit n ≠ '"' ∧ hexDigit n ≠ '\\' := by
  have hall : ∀ n < 16, hexDigit n ≠ '"' ∧ hexDigit n ≠ '\\' := by decide
  exact hall n hn

/-- The scanner passes a character that is no quote and no backslash. -/
theorem next_inQuotes {c : Char} (hquote : c ≠ '"') (hslash : c ≠ '\\') : inQuotes.next c = some inQuotes := by
  simp [Quoting.next, inQuotes, hquote, hslash]

/-- The scanner passes an escaped character. -/
theorem over_escapeChar (c : Char) : inQuotes.over (escapeChar c) = some inQuotes := by
  unfold escapeChar
  split
  · rfl
  · rename_i hquote
    split
    · rfl
    · rename_i hslash
      split
      · rename_i hcontrol
        have hbound : c.toNat < 160 := by
          simp only [isControl, Bool.or_eq_true, Bool.and_eq_true, decide_eq_true_eq] at hcontrol
          omega
        have hdigit : ∀ n < 16, ∀ rest, inQuotes.over (hexDigit n :: rest) = inQuotes.over rest := by
          intro n hn rest
          rw [Quoting.over, next_inQuotes (hexDigit_ne hn).1 (hexDigit_ne hn).2, Option.bind_some]
        change inQuotes.over [_, _, _, _] = _
        rw [hdigit _ (by omega), hdigit _ (by omega), hdigit _ (by omega), hdigit _ (by omega), Quoting.over]
      · rw [Quoting.over, next_inQuotes hquote hslash]
        rfl

/-- The scanner passes a key. -/
theorem over_tomlKey (key : String) : between.over (tomlKey key) = some between := by
  unfold tomlKey
  split
  · rename_i hbare
    rw [Bool.and_eq_true, List.all_eq_true] at hbare
    have hbare := hbare.2
    generalize key.toList = text at hbare
    induction text with
    | nil => rfl
    | cons c rest ih =>
      have hc := hbare c List.mem_cons_self
      have hplain : between.next c = some between := by
        have hquotes : ¬ (c = '"' ∨ c = '\'') := by
          rintro (rfl | rfl)
          · exact absurd hc (by decide)
          · exact absurd hc (by decide)
        have hequals : c ≠ '=' := by
          rintro rfl
          exact absurd hc (by decide)
        change (if _ then _ else if _ then _ else _) = _
        rw [if_neg hquotes, if_neg hequals]
      rw [Quoting.over, hplain]
      exact ih fun d hd => hbare d (List.mem_cons_of_mem c hd)
  · have hescaped : ∀ text : List Char, inQuotes.over (text.flatMap escapeChar) = some inQuotes := by
      intro text
      induction text with
      | nil => rfl
      | cons c text ih => rw [List.flatMap_cons, Quoting.over_append, over_escapeChar, Option.bind_some, ih]
    change inQuotes.over (key.toList.flatMap escapeChar ++ ['"']) = _
    rw [Quoting.over_append, hescaped]
    rfl

/-- The scanner passes a path. -/
theorem over_pathText (path : List String) : between.over (pathText path) = some between := by
  induction path with
  | nil => rfl
  | cons key path ih =>
    cases path with
    | nil => rw [pathText, List.map_singleton, List.intercalate_singleton, over_tomlKey]
    | cons next path =>
      rw [pathText, List.map_cons, List.map_cons, List.intercalate_cons_cons, ← List.map_cons, ← pathText,
        Quoting.over_append, Quoting.over_append, over_tomlKey]
      exact ih

/-- A line splits into its path and its value. -/
theorem splitAssignment_line (path : List String) (value : List Char) :
    splitAssignment (pathText path ++ '=' :: value) = some (pathText path, value) := by
  rw [splitAssignment, ← between, splitFrom_append (over_pathText path)]
  change some (pathText path ++ [], value) = _
  rw [List.append_nil]

end Lines

end Devkit.Config
