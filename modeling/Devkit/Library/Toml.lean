import Devkit.Library.OrderedTable
import Mathlib.Data.String.Basic

/-!
# Reading one line of TOML

A reader of one `key = value` line: bare and quoted keys joined by dots, basic strings with the short
escapes and `\u`, arrays and inline tables on one line, and other scalars as tokens read by the caller.
It reads part of TOML: a line it reads means in TOML what it is read as, and other lines it leaves.
-/

namespace Devkit.Library.Toml

open Devkit.Library

variable {S : Type}

/-- A TOML value; scalars other than strings are the caller's. A table has its keys ascending. -/
inductive Value (S : Type)
  | string (text : String)
  | scalar (value : S)
  | array (items : List (Value S))
  | table (entries : List (String × Value S))

/-- The rows of a table. -/
abbrev Table (S : Type) := List (String × Value S)

/-- The value at a path of keys in a value. -/
def Value.at : Value S → List String → Option (Value S)
  | value, [] => some value
  | .table entries, key :: path => (rowOf key entries).bind fun value => value.at path
  | _, _ :: _ => none

/-- A value in tables of its own along a path. -/
def nested (path : List String) (value : Value S) : Value S :=
  path.foldr (fun key inner => .table [(key, inner)]) value

mutual

/-- The tables in a value have their keys ascending. -/
def Value.Ordered : Value S → Prop
  | .array items => orderedItems items
  | .table entries => Ascending entries ∧ orderedEntries entries
  | .string _ | .scalar _ => True

/-- The tables in the items have their keys ascending. -/
def orderedItems : List (Value S) → Prop
  | [] => True
  | value :: rest => value.Ordered ∧ orderedItems rest

/-- The tables in the entries have their keys ascending. -/
def orderedEntries : Table S → Prop
  | [] => True
  | (_, value) :: rest => value.Ordered ∧ orderedEntries rest

end

/-- Entries are ordered when each value is. -/
theorem orderedEntries_iff {entries : Table S} : orderedEntries entries ↔ ∀ row ∈ entries, row.2.Ordered := by
  induction entries with
  | nil => simp [orderedEntries]
  | cons row rest ih => simp only [orderedEntries, ih, List.forall_mem_cons]

/-- A write keeps a table ordered. -/
theorem ordered_putRow {table : Table S} (h : (Value.table table).Ordered) (key : String) {value : Value S}
    (hvalue : value.Ordered) : (Value.table (putRow key value table)).Ordered := by
  refine ⟨h.1.putRow key value, orderedEntries_iff.mpr fun row hrow => ?_⟩
  cases mem_putRow hrow with
  | inl heq => exact heq ▸ hvalue
  | inr hmem => exact orderedEntries_iff.mp h.2 row hmem

/-- What a row of an ordered table holds is ordered. -/
theorem ordered_rowOf {table : Table S} (h : (Value.table table).Ordered) {key : String} {value : Value S}
    (hrow : rowOf key table = some value) : value.Ordered := orderedEntries_iff.mp h.2 _ (mem_of_rowOf hrow)

/-- The empty table is ordered. -/
theorem ordered_nil : (Value.table ([] : Table S)).Ordered := ⟨List.Pairwise.nil, True.intro⟩

/-- The characters of a bare key. -/
def isBareKeyChar (c : Char) : Bool := c.isAlphanum || c == '_' || c == '-'

/-- The characters that stand for themselves in a basic string: no quote, backslash or control character. -/
def isBasicChar (c : Char) : Bool := c != '"' && c != '\\' && 0x20 ≤ c.toNat && c.toNat != 0x7f

/-- The characters between the tokens of a line. -/
def isBlank (c : Char) : Bool := c == ' ' || c == '\t'

/-- The characters that end a scalar token. -/
def endsToken (c : Char) : Bool := isBlank c || c == ',' || c == ']' || c == '}' || c == '#' || c.toNat < 0x20

/-- The value of a hexadecimal digit. -/
def hexValue (c : Char) : Option ℕ :=
  if c.isDigit then some (c.toNat - '0'.toNat)
  else if 'A' ≤ c && c ≤ 'F' then some (c.toNat - 'A'.toNat + 10)
  else if 'a' ≤ c && c ≤ 'f' then some (c.toNat - 'a'.toNat + 10)
  else none

/-- The character of four hexadecimal digits, where they are a code point. -/
def escaped (a b c d : Char) : Option Char := do
  let high ← hexValue a
  let code := high * 4096 + (← hexValue b) * 256 + (← hexValue c) * 16 + (← hexValue d)
  if code.isValidChar then some (Char.ofNat code) else none

/-- The text of a basic string up to its closing quote, and what follows. -/
def readBasic : List Char → Option (List Char × List Char)
  | '"' :: rest => some ([], rest)
  | '\\' :: '"' :: rest => (readBasic rest).map fun found => ('"' :: found.1, found.2)
  | '\\' :: '\\' :: rest => (readBasic rest).map fun found => ('\\' :: found.1, found.2)
  | '\\' :: 'u' :: a :: b :: c :: d :: rest =>
    (escaped a b c d).bind fun char => (readBasic rest).map fun found => (char :: found.1, found.2)
  | c :: rest =>
    if isBasicChar c then (readBasic rest).map fun found => (c :: found.1, found.2) else none
  | [] => none

/-- A character that stands for itself is read as itself. -/
theorem readBasic_cons {c : Char} (hc : isBasicChar c = true) (rest : List Char) :
    readBasic (c :: rest) = (readBasic rest).map fun found => (c :: found.1, found.2) := by
  have hquote : c ≠ '"' := by
    rintro rfl
    exact absurd hc (by decide)
  have hslash : c ≠ '\\' := by
    rintro rfl
    exact absurd hc (by decide)
  rw [readBasic]
  · exact if_pos hc
  · exact hquote
  · exact fun rest heq _ => hslash heq
  · exact fun rest heq _ => hslash heq
  · exact fun a b c d rest heq _ => hslash heq

/-- One key, bare or quoted, and what follows. -/
def readKey : List Char → Option (String × List Char)
  | '"' :: rest => (readBasic rest).map fun found => (String.ofList found.1, found.2)
  | text =>
    let key := text.takeWhile isBareKeyChar
    if key.isEmpty then none else some (String.ofList key, text.dropWhile isBareKeyChar)

/-- Keys joined by dots, and what follows; each takes one of the allowance. -/
def readKeys : ℕ → List Char → Option (List String × List Char)
  | 0, _ => none
  | allowance + 1, text =>
    match readKey text with
    | some (key, '.' :: rest) => (readKeys allowance rest).map fun found => (key :: found.1, found.2)
    | some (key, rest) => some ([key], rest)
    | none => none

/-- A text without its leading blanks. -/
def skipBlanks (text : List Char) : List Char := text.dropWhile isBlank

section Values

variable (scalarOf : List Char → Option S)

mutual

/-- One value and what follows; each level of nesting and each item takes one of the allowance. -/
def readValue : ℕ → List Char → Option (Value S × List Char)
  | 0, _ => none
  | allowance + 1, text =>
    match text with
    | '"' :: rest => (readBasic rest).map fun found => (.string (String.ofList found.1), found.2)
    | '[' :: rest =>
      match skipBlanks rest with
      | ']' :: rest => some (.array [], rest)
      | rest => (readItems allowance rest).map fun found => (.array found.1, found.2)
    | '{' :: rest =>
      match skipBlanks rest with
      | '}' :: rest => some (.table [], rest)
      | rest => (readEntries allowance [] rest).map fun found => (.table found.1, found.2)
    | '\'' :: _ => none
    | text =>
      (scalarOf (text.takeWhile fun c => !endsToken c)).map fun value =>
        (.scalar value, text.dropWhile fun c => !endsToken c)

/-- The items of an array up to its closing bracket, and what follows. -/
def readItems : ℕ → List Char → Option (List (Value S) × List Char)
  | 0, _ => none
  | allowance + 1, text =>
    match readValue allowance text with
    | none => none
    | some (value, rest) =>
      match skipBlanks rest with
      | ']' :: rest => some ([value], rest)
      | ',' :: rest => (readItems allowance (skipBlanks rest)).map fun found => (value :: found.1, found.2)
      | _ => none

/-- The entries of an inline table up to its closing brace, after those read before, and what follows. -/
def readEntries : ℕ → Table S → List Char → Option (Table S × List Char)
  | 0, _, _ => none
  | allowance + 1, entries, text =>
    match readKey text with
    | none => none
    | some (key, rest) =>
      match skipBlanks rest with
      | '=' :: rest =>
        match readValue allowance (skipBlanks rest) with
        | none => none
        | some (value, rest) =>
          if (rowOf key entries).isSome then none
          else
            match skipBlanks rest with
            | '}' :: rest => some (putRow key value entries, rest)
            | ',' :: rest => readEntries allowance (putRow key value entries) (skipBlanks rest)
            | _ => none
      | _ => none

end

/-- What a line of one key and its value sets. -/
def readLine (text : List Char) : Option (Table S) := do
  let (path, rest) ← readKeys (text.length + 1) text
  match skipBlanks rest with
  | '=' :: rest =>
    let (value, rest) ← readValue scalarOf (rest.length + 1) (skipBlanks rest)
    match skipBlanks rest, nested path value with
    | [], .table entries => some entries
    | _, _ => none
  | _ => none

/-- Items and entries are read ordered, and so are values. -/
theorem ordered_read (allowance : ℕ) :
    (∀ text value rest, readValue scalarOf allowance text = some (value, rest) → value.Ordered) ∧
    (∀ text items rest, readItems scalarOf allowance text = some (items, rest) → orderedItems items) ∧
    ∀ before text entries rest, (Value.table before).Ordered →
      readEntries scalarOf allowance before text = some (entries, rest) → (Value.table entries).Ordered := by
  induction allowance with
  | zero => exact ⟨nofun, nofun, fun _ _ _ _ _ h => nomatch h⟩
  | succ allowance ih =>
    obtain ⟨hvalue, hitems, hentries⟩ := ih
    refine ⟨fun text value rest h => ?_, fun text items rest h => ?_, fun before text entries rest hbefore h => ?_⟩
    · unfold readValue at h
      split at h
      · obtain ⟨found, _, heq⟩ := Option.map_eq_some_iff.mp h
        obtain ⟨rfl, _⟩ := Prod.mk.inj heq
        exact True.intro
      · split at h
        · obtain ⟨rfl, _⟩ := Prod.mk.inj (Option.some.inj h)
          exact True.intro
        · obtain ⟨found, hfound, heq⟩ := Option.map_eq_some_iff.mp h
          obtain ⟨rfl, _⟩ := Prod.mk.inj heq
          exact hitems _ _ _ hfound
      · split at h
        · obtain ⟨rfl, _⟩ := Prod.mk.inj (Option.some.inj h)
          exact ⟨List.Pairwise.nil, True.intro⟩
        · obtain ⟨found, hfound, heq⟩ := Option.map_eq_some_iff.mp h
          obtain ⟨rfl, _⟩ := Prod.mk.inj heq
          exact hentries _ _ _ _ ⟨List.Pairwise.nil, True.intro⟩ hfound
      · cases h
      · obtain ⟨found, _, heq⟩ := Option.map_eq_some_iff.mp h
        obtain ⟨rfl, _⟩ := Prod.mk.inj heq
        exact True.intro
    · rw [readItems] at h
      split at h
      · cases h
      · rename_i value left hread
        split at h
        · obtain ⟨rfl, _⟩ := Prod.mk.inj (Option.some.inj h)
          exact ⟨hvalue _ _ _ hread, True.intro⟩
        · obtain ⟨found, hfound, heq⟩ := Option.map_eq_some_iff.mp h
          obtain ⟨rfl, _⟩ := Prod.mk.inj heq
          exact ⟨hvalue _ _ _ hread, hitems _ _ _ hfound⟩
        · cases h
    · rw [readEntries] at h
      split at h
      · cases h
      · split at h
        · split at h
          · cases h
          · rename_i value left hread
            have hput : ∀ key, (Value.table (putRow key value before)).Ordered := fun key =>
              ordered_putRow hbefore key (hvalue _ _ _ hread)
            split at h
            · cases h
            · split at h
              · obtain ⟨rfl, _⟩ := Prod.mk.inj (Option.some.inj h)
                exact hput _
              · exact hentries _ _ _ _ (hput _) h
              · cases h
        · cases h

/-- What a line sets is ordered. -/
theorem ordered_readLine {text : List Char} {entries : Table S} (h : readLine scalarOf text = some entries) :
    (Value.table entries).Ordered := by
  obtain ⟨⟨path, rest⟩, _, h⟩ := Option.bind_eq_some_iff.mp h
  dsimp only at h
  split at h
  · obtain ⟨⟨value, left⟩, hread, h⟩ := Option.bind_eq_some_iff.mp h
    have hvalue := (ordered_read scalarOf _).1 _ _ _ hread
    have hnested : ∀ path, (nested path value).Ordered := by
      intro path
      induction path with
      | nil => exact hvalue
      | cons key path ih => exact ⟨List.pairwise_singleton _ _, ih, True.intro⟩
    dsimp only at h
    split at h
    · rename_i heq
      obtain rfl := Option.some.inj h
      exact heq ▸ hnested path
    · cases h
  · cases h
end Values

end Devkit.Library.Toml
