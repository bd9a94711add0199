import Devkit.Todos.Item
import Devkit.Todos.Uuid
import Mathlib.Data.List.DropRight

/-!
# Assignments of `DEVKIT_CALLER`

A guard rule names an assignment by one spelling and means every spelling of its value. Of an assignment
known only by its start, the guard asks whether the rest can complete it to the value.
-/

namespace Devkit.Guard

open Devkit.Todos (isWhitespace toNat_toLower)

/-- Who runs a command. -/
inductive Caller
  | human
  | agent
deriving DecidableEq

/-- A text without whitespace at its start. -/
def trimStart (text : List Char) : List Char := text.dropWhile isWhitespace

/-- A text without whitespace at its end. -/
def trimEnd (text : List Char) : List Char := text.rdropWhile isWhitespace

/-- A text with its ASCII letters in lower case. -/
def toAsciiLowercase (text : List Char) : List Char := text.map Char.toLower

/-- `DEVKIT_CALLER` as an explicit answer; blank or unrecognised is none. -/
def parseCallerOverride (val : Option (List Char)) : Option Caller :=
  match val.map fun v => toAsciiLowercase (trimEnd (trimStart v)) with
  | some text =>
    if text = "agent".toList then some .agent
    else if text = "human".toList then some .human
    else none
  | none => none

/-- A text after a prefix it starts with. -/
def stripPrefix (text head : List Char) : Option (List Char) := text.dropPrefix? head

/-- What a `DEVKIT_CALLER` assignment starts with. -/
def assignment : List Char := "DEVKIT_CALLER=".toList

/-- The value rules name a caller by. -/
def Caller.value : Caller → List Char
  | .human => "human".toList
  | .agent => "agent".toList

/-- An assignment word as rules name it, when its value is read as a caller. -/
def canonicalCallerAssignment (word : List Char) : Option (List Char) :=
  (stripPrefix word assignment).bind fun value =>
    (parseCallerOverride (some value)).map fun caller => assignment ++ caller.value

/-- Whether an assignment known only by its start could still read as a canonical one; none when either is no
assignment. -/
def callerAssignmentCouldRead (canonical start : List Char) : Option Bool :=
  (stripPrefix canonical assignment).bind fun value =>
    (stripPrefix start assignment).map fun start =>
      let known := toAsciiLowercase (trimStart start)
      let word := trimEnd known
      if word.length < known.length then word == value else word.isPrefixOf value

/-- An assignment names a caller by its value, in any case of its letters and with any whitespace around them. -/
def Names (caller : Caller) (word : List Char) : Prop :=
  ∃ before spelled after, word = assignment ++ (before ++ (spelled ++ after)) ∧
    (∀ c ∈ before, isWhitespace c = true) ∧ (∀ c ∈ after, isWhitespace c = true) ∧
    spelled.map Char.toLower = caller.value

/-- A text is stripped of a prefix where it starts with it. -/
theorem stripPrefix_eq_some {text head rest : List Char} : stripPrefix text head = some rest ↔ text = head ++ rest := by
  rw [stripPrefix, List.dropPrefix?_eq_some_iff]
  constructor
  · rintro ⟨start, rfl, hstart⟩
    rw [beq_iff_eq.mp hstart]
  · rintro rfl
    exact ⟨head, rfl, beq_self_eq_true head⟩

/-- Canonical assignments are those of the two values. -/
theorem canonical_eq_some {word canonical : List Char} (h : canonicalCallerAssignment word = some canonical) :
    ∃ value caller, word = assignment ++ value ∧ toAsciiLowercase (trimEnd (trimStart value)) = Caller.value caller ∧
      canonical = assignment ++ Caller.value caller := by
  obtain ⟨value, hvalue, hcaller⟩ := Option.bind_eq_some_iff.mp h
  obtain ⟨caller, hparse, rfl⟩ := Option.map_eq_some_iff.mp hcaller
  refine ⟨value, caller, stripPrefix_eq_some.mp hvalue, ?_, rfl⟩
  rw [parseCallerOverride, Option.map_some] at hparse
  dsimp only at hparse
  split at hparse
  · rename_i htext
    obtain rfl := Option.some.inj hparse
    exact htext
  · split at hparse
    · rename_i htext
      obtain rfl := Option.some.inj hparse
      exact htext
    · cases hparse

/-- The two values differ. -/
theorem Caller.value_injective : Function.Injective Caller.value := by
  intro first second
  cases first <;> cases second <;> decide

/-- A value that reads as a caller's when trimmed and in lower case is that caller's. -/
theorem parseCallerOverride_eq_some {value : List Char} {caller : Caller}
    (h : toAsciiLowercase (trimEnd (trimStart value)) = caller.value) :
    parseCallerOverride (some value) = some caller := by
  rw [parseCallerOverride, Option.map_some, h]
  cases caller with
  | human => decide
  | agent => decide

/-- Lower case keeps whitespace whitespace. -/
theorem isWhitespace_toLower (c : Char) : isWhitespace c.toLower = isWhitespace c := by
  have hcode := toNat_toLower c
  split at hcode
  · rename_i hupper
    have hnot : ∀ d : Char, 65 ≤ d.toNat → d.toNat ≤ 122 → isWhitespace d = false := by
      intro d hlow hhigh
      rw [← Bool.not_eq_true, isWhitespace]
      simp only [Bool.or_eq_true, Bool.and_eq_true, decide_eq_true_eq, beq_iff_eq]
      omega
    rw [hnot c (by omega) (by omega), hnot c.toLower (by omega) (by omega)]
  · rw [isWhitespace, isWhitespace, hcode]

/-- Whitespace is trimmed from the end before or after lower case. -/
theorem trimEnd_toAsciiLowercase (text : List Char) :
    trimEnd (toAsciiLowercase text) = toAsciiLowercase (trimEnd text) := by
  have hcongr : (isWhitespace ∘ Char.toLower) = isWhitespace := funext isWhitespace_toLower
  rw [trimEnd, trimEnd, List.rdropWhile, List.rdropWhile, toAsciiLowercase, toAsciiLowercase, ← List.map_reverse,
    List.dropWhile_map, hcongr, List.map_reverse]

/-- A text is what is left of it and the whitespace trimmed from its end. -/
theorem exists_trimEnd (text : List Char) : ∃ blanks, text = trimEnd text ++ blanks ∧
    ∀ c ∈ blanks, isWhitespace c = true := by
  refine ⟨(text.reverse.takeWhile isWhitespace).reverse, ?_, fun c hc => ?_⟩
  · rw [trimEnd, List.rdropWhile, ← List.reverse_append, List.takeWhile_append_dropWhile, List.reverse_reverse]
  · exact List.mem_takeWhile_imp (List.mem_reverse.mp hc)

/-- Whitespace is trimmed up to the text before it, or the text after it is kept. -/
theorem trimEnd_append (text rest : List Char) :
    trimEnd (text ++ rest) = if (trimEnd rest).isEmpty then trimEnd text else text ++ trimEnd rest := by
  rw [trimEnd, trimEnd, trimEnd, List.rdropWhile, List.rdropWhile, List.rdropWhile, List.reverse_append,
    List.dropWhile_append, List.isEmpty_reverse]
  split
  · rfl
  · rw [List.reverse_append, List.reverse_reverse]

/-- Trimming leaves nothing of whitespace. -/
theorem trimEnd_blank {blanks : List Char} (h : ∀ c ∈ blanks, isWhitespace c = true) : trimEnd blanks = [] :=
  List.rdropWhile_eq_nil_iff.mpr h

/-- No value holds whitespace. -/
theorem Caller.value_clean (caller : Caller) : ∀ c ∈ caller.value, isWhitespace c = false := by
  have hall : caller.value.all (fun c => !isWhitespace c) = true := by
    cases caller with
    | human => decide
    | agent => decide
  exact fun c hc => (Bool.not_eq_true' _).mp (List.all_eq_true.mp hall c hc)

/-- A value in any case of its letters is what trimming leaves of it and the whitespace around it. -/
theorem trim_spelled {caller : Caller} {before spelled after : List Char}
    (hbefore : ∀ c ∈ before, isWhitespace c = true) (hafter : ∀ c ∈ after, isWhitespace c = true)
    (hspelled : spelled.map Char.toLower = caller.value) :
    trimEnd (trimStart (before ++ (spelled ++ after))) = spelled := by
  have hclean : ∀ c ∈ spelled, isWhitespace c = false := by
    intro c hc
    rw [← isWhitespace_toLower]
    exact caller.value_clean _ (hspelled ▸ List.mem_map_of_mem hc)
  have hstart : trimStart (before ++ (spelled ++ after)) = spelled ++ after := by
    rw [trimStart, List.dropWhile_append_of_pos hbefore]
    cases spelled with
    | nil => cases caller <;> cases hspelled
    | cons c rest =>
      rw [List.cons_append, List.dropWhile_cons_of_neg]
      rw [hclean c List.mem_cons_self]
      exact Bool.false_ne_true
  have hend : trimEnd spelled = spelled := by
    rw [trimEnd, List.rdropWhile_eq_self_iff]
    intro hsome hblank
    rw [hclean _ (List.getLast_mem hsome)] at hblank
    cases hblank
  rw [hstart, trimEnd_append, trimEnd_blank hafter, List.isEmpty_nil, if_pos rfl, hend]

/-- An assignment is read as a caller's where it names the caller. -/
theorem canonical_iff_names {caller : Caller} {word : List Char} :
    canonicalCallerAssignment word = some (assignment ++ caller.value) ↔ Names caller word := by
  constructor
  · intro h
    obtain ⟨value, other, rfl, htext, heq⟩ := canonical_eq_some h
    rw [← List.append_cancel_left heq] at htext
    obtain ⟨after, hsplit, hafter⟩ := exists_trimEnd (trimStart value)
    refine ⟨value.takeWhile isWhitespace, trimEnd (trimStart value), after, ?_,
      fun c hc => List.mem_takeWhile_imp hc, hafter, htext⟩
    rw [← hsplit, trimStart, List.takeWhile_append_dropWhile]
  · rintro ⟨before, spelled, after, rfl, hbefore, hafter, hspelled⟩
    have htext : toAsciiLowercase (trimEnd (trimStart (before ++ (spelled ++ after)))) = caller.value := by
      rw [trim_spelled hbefore hafter hspelled, toAsciiLowercase, hspelled]
    rw [canonicalCallerAssignment, stripPrefix_eq_some.mpr rfl, Option.bind_some, parseCallerOverride_eq_some htext,
      Option.map_some]

/-- A word is no assignment of a caller where it names none. -/
theorem canonical_eq_none {word : List Char} :
    canonicalCallerAssignment word = none ↔ ∀ caller, ¬ Names caller word := by
  constructor
  · intro hnone caller hnames
    rw [canonical_iff_names.mpr hnames] at hnone
    cases hnone
  · intro hall
    cases hword : canonicalCallerAssignment word with
    | none => rfl
    | some canonical =>
      obtain ⟨_, caller, _, _, rfl⟩ := canonical_eq_some hword
      exact absurd (canonical_iff_names.mp hword) (hall caller)

/-- An assignment of a caller as rules name it names that caller. -/
theorem names_value (caller : Caller) : Names caller (assignment ++ caller.value) := by
  refine ⟨[], caller.value, [], by rw [List.nil_append, List.append_nil], nofun, nofun, ?_⟩
  cases caller with
  | human => decide
  | agent => decide

/-- A word names one caller at most. -/
theorem Names.unique {first second : Caller} {word : List Char} (hfirst : Names first word)
    (hsecond : Names second word) : first = second := by
  have hsame := (canonical_iff_names.mpr hfirst).symm.trans (canonical_iff_names.mpr hsecond)
  exact Caller.value_injective (List.append_cancel_left (Option.some.inj hsame))

/-- What an assignment's start could not read as, no completion of it reads as. -/
theorem not_canonical_of_could_not {caller : Caller} {start : List Char}
    (h : callerAssignmentCouldRead (assignment ++ caller.value) start = some false) {word : List Char}
    (hword : start <+: word) : ¬ Names caller word := by
  intro hnames
  have hcanonical := canonical_iff_names.mpr hnames
  obtain ⟨rest, rfl⟩ := hword
  obtain ⟨value, other, hvalue, htext, heq⟩ := canonical_eq_some hcanonical
  rw [← List.append_cancel_left heq] at htext
  have hstrip : stripPrefix (assignment ++ caller.value) assignment = some caller.value := stripPrefix_eq_some.mpr rfl
  rw [callerAssignmentCouldRead, hstrip, Option.bind_some] at h
  obtain ⟨known, hknown, hread⟩ := Option.map_eq_some_iff.mp h
  obtain rfl := stripPrefix_eq_some.mp hknown
  rw [List.append_assoc] at hvalue
  obtain rfl := List.append_cancel_left hvalue
  dsimp only at hread
  rw [trimEnd_toAsciiLowercase] at hread
  have hread : ∀ text, toAsciiLowercase (trimEnd (trimStart known)) = text → text ≠ caller.value ∧
      (text.length = (trimStart known).length → ¬ text <+: caller.value) := by
    rintro text rfl
    split at hread
    · rename_i hshort
      rw [toAsciiLowercase, toAsciiLowercase, List.length_map, List.length_map] at hshort
      refine ⟨fun heq => absurd (beq_iff_eq.mpr heq) (Bool.eq_false_iff.mp hread), fun hlength => ?_⟩
      rw [toAsciiLowercase, List.length_map] at hlength
      omega
    · have hnot : ¬ toAsciiLowercase (trimEnd (trimStart known)) <+: caller.value := fun hprefix =>
        absurd (List.isPrefixOf_iff_prefix.mpr hprefix) (Bool.eq_false_iff.mp hread)
      exact ⟨fun heq => hnot (heq ▸ List.prefix_rfl), fun _ => hnot⟩
  obtain ⟨hne, hprefix⟩ := hread _ rfl
  rw [trimStart, List.dropWhile_append, ← trimStart] at htext
  split at htext
  · rename_i hempty
    have hnil : trimStart known = [] := List.isEmpty_iff.mp hempty
    rw [hnil] at hprefix
    exact hprefix rfl List.nil_prefix
  · rw [trimEnd_append] at htext
    split at htext
    · exact hne htext
    · -- All that is known stands in the value, so none of it is whitespace.
      have hstart : toAsciiLowercase (trimStart known) <+: caller.value := by
        rw [← htext, toAsciiLowercase, toAsciiLowercase, List.map_append]
        exact List.prefix_append _ _
      have hkept : trimEnd (trimStart known) = trimStart known := by
        rw [trimEnd, List.rdropWhile_eq_self_iff]
        intro hsome hblank
        have hlast : (trimStart known).getLast hsome ∈ trimStart known := List.getLast_mem hsome
        have hmem := hstart.subset (List.mem_map_of_mem hlast)
        rw [← isWhitespace_toLower, caller.value_clean _ hmem] at hblank
        cases hblank
      rw [hkept] at hprefix
      refine hprefix ?_ hstart
      rw [toAsciiLowercase, List.length_map]

end Devkit.Guard
