import Devkit.Guard.Caller
import Devkit.Library.Wildcard
import Mathlib.Data.List.Forall2

/-!
# Guard patterns over partly known words

A rule's patterns are matched against words of which some are known, some known by their start, and some
not at all. The answer is in three values: a no rules out every completion of the words, and a yes holds
of every one but where a pattern word is an assignment of the caller.
-/

namespace Devkit.Guard

open Devkit.Library

/-- Where an API created a fresh entry under a random name. -/
inductive TempLocation
  | systemTemp
  | inDir (dir : List Char)

/-- A word of a command as far as it is known: a path made under a random name, a path under a directory,
a word known by its start, or a word not known. -/
inductive Value
  | known (text : List Char)
  | unknown
  | ephemeral (location : TempLocation)
  | within (dir : List Char)
  | prefixed (start : List Char)

/-- An answer, weakest first. -/
inductive Match
  | no
  | possible
  | yes
deriving DecidableEq

/-- The weaker of two answers. -/
def Match.min : Match → Match → Match
  | .no, _ | _, .no => .no
  | .yes, .yes => .yes
  | _, _ => .possible

/-- The stronger of two answers. -/
def Match.max : Match → Match → Match
  | .yes, _ | _, .yes => .yes
  | .no, .no => .no
  | _, _ => .possible

/-- The strongest of some answers, a no where there is none. -/
def strongest (answers : List Match) : Match := answers.foldl Match.max .no

/-- Whether a text matches a pattern where each `*` stands for any run of characters. -/
def wildcardMatches (pattern text : List Char) : Bool :=
  match pattern.splitOn '*' with
  | [] => false
  | head :: parts =>
    match stripPrefix text head with
    | none => false
    | some rest =>
      match parts.getLast? with
      | none => rest.isEmpty
      | some tail =>
        match parts.dropLast.foldlM (fun rest part => afterFirst part rest) rest with
        | some rest => tail.isSuffixOf rest
        | none => false

/-- Whether a pattern matches every word that starts with a text, only some, or none. -/
def prefixMatch (pattern start : List Char) : Match :=
  let head := pattern.takeWhile (· != '*')
  let rest := pattern.dropWhile (· != '*')
  let common := min head.length start.length
  if head.take common != start.take common then .no
  else if rest.isEmpty && head.length < start.length then .no
  else if !rest.isEmpty && rest.all (· == '*') && head.length ≤ start.length then .yes
  else .possible

/-- How one word answers one pattern. -/
def wordMatch (pattern : List Char) : Value → Match
  | .known actual =>
    let matched := match canonicalCallerAssignment pattern with
      | some pattern => (canonicalCallerAssignment actual).getD actual == pattern
      | none => wildcardMatches pattern actual
    if matched then .yes else .no
  | .prefixed start =>
    match (canonicalCallerAssignment pattern).bind fun c => callerAssignmentCouldRead c start with
    | some true => .yes
    | some false => .no
    | none =>
      match prefixMatch pattern start with
      | .no => if start.head? = some '-' then .possible else .no
      | here => here
  | .unknown | .ephemeral _ | .within _ => .possible

/-- Whether the words start with the patterns. A `**` stands for any number of words and every other entry
matches one word; a no at one word is a no. -/
def argsMatch : List (List Char) → List Value → Match
  | [], _ => .yes
  | pattern :: patterns, args =>
    if pattern = ['*', '*'] then
      strongest ((List.range (args.length + 1)).map fun skipped => argsMatch patterns (args.drop skipped))
    else
      match args with
      | [] => .no
      | arg :: args => (wordMatch pattern arg).min (argsMatch patterns args)

section Meaning

/-- A word fits a pattern word: where that names a caller, by naming the same one, and otherwise as written. -/
def Fits (pattern word : List Char) : Prop :=
  (∃ caller, Names caller pattern ∧ Names caller word) ∨
    ((∀ caller, ¬ Names caller pattern) ∧ Wild '*' pattern word)

/-- The words start with the patterns, where single words fit. -/
inductive Matches (fits : List Char → List Char → Prop) : List (List Char) → List (List Char) → Prop
  | done (words : List (List Char)) : Matches fits [] words
  | any (skipped : List (List Char)) {patterns words : List (List Char)} :
    Matches fits patterns words → Matches fits (['*', '*'] :: patterns) (skipped ++ words)
  | word {pattern word : List Char} {patterns words : List (List Char)} : pattern ≠ ['*', '*'] → fits pattern word →
    Matches fits patterns words → Matches fits (pattern :: patterns) (word :: words)

/-- A word a partly known one can be. -/
def Value.Completes : Value → List Char → Prop
  | .known text, word => word = text
  | .prefixed start, word => start <+: word
  | .unknown, _ | .ephemeral _, _ | .within _, _ => True

end Meaning

section Word

/-- A word fits a pattern that names a caller by naming the same one. -/
theorem fits_names {caller : Caller} {pattern word : List Char} (hpattern : Names caller pattern) :
    Fits pattern word ↔ Names caller word := by
  constructor
  · rintro (⟨other, hother, hword⟩ | ⟨hnone, _⟩)
    · rwa [hpattern.unique hother]
    · exact absurd hpattern (hnone caller)
  · exact fun hword => Or.inl ⟨caller, hpattern, hword⟩

/-- A word fits a pattern that names no caller as written. -/
theorem fits_wild {pattern word : List Char} (hnone : ∀ caller, ¬ Names caller pattern) :
    Fits pattern word ↔ Wild '*' pattern word := by
  constructor
  · rintro (⟨caller, hpattern, _⟩ | ⟨_, hwild⟩)
    · exact absurd hpattern (hnone caller)
    · exact hwild
  · exact fun hwild => Or.inr ⟨hnone, hwild⟩

/-- The wildcard matcher decides what the pattern means. -/
theorem wildcardMatches_iff (pattern text : List Char) :
    wildcardMatches pattern text = true ↔ Wild '*' pattern text := by
  obtain ⟨head, parts, hsplit⟩ := List.exists_cons_of_ne_nil (List.splitOn_ne_nil '*' pattern)
  have hpieces : ∀ piece ∈ head :: parts, '*' ∉ piece := fun piece hpiece =>
    not_mem_of_mem_splitOn (hsplit ▸ hpiece)
  obtain ⟨hhead, hparts⟩ := List.forall_mem_cons.mp hpieces
  have hpattern : ['*'].intercalate (pattern.splitOn '*') = pattern := List.intercalate_splitOn '*'
  rw [hsplit] at hpattern
  rw [wildcardMatches, hsplit]
  cases parts.eq_nil_or_concat with
  | inl hnil =>
    subst hnil
    rw [List.intercalate_singleton] at hpattern
    rw [← hpattern, wild_plain hhead]
    dsimp only
    cases hstrip : stripPrefix text head with
    | none =>
      refine iff_of_false nofun fun heq => ?_
      rw [stripPrefix_eq_some.mpr (heq.trans (List.append_nil head).symm)] at hstrip
      cases hstrip
    | some rest =>
      have htext := stripPrefix_eq_some.mp hstrip
      dsimp only [List.getLast?_nil]
      rw [htext, List.isEmpty_iff]
      exact List.append_right_eq_self.symm
  | inr hconcat =>
    obtain ⟨before, last, rfl⟩ := hconcat
    rw [List.concat_eq_append] at hparts hpattern ⊢
    obtain ⟨hbefore, hlast⟩ := List.forall_mem_append.mp hparts
    have hlast := hlast last List.mem_cons_self
    obtain ⟨next, more, hmore⟩ := List.exists_cons_of_ne_nil
      (List.append_ne_nil_of_right_ne_nil before (List.cons_ne_nil last []))
    have hshape : pattern = head ++ '*' :: ['*'].intercalate (before ++ [last]) := by
      rw [← hpattern, hmore, List.intercalate_cons_cons, List.append_assoc, List.singleton_append]
    rw [hshape, wild_append hhead]
    dsimp only
    rw [List.getLast?_concat, List.dropLast_concat]
    cases hstrip : stripPrefix text head with
    | none =>
      refine iff_of_false nofun ?_
      rintro ⟨rest, heq, _⟩
      rw [stripPrefix_eq_some.mpr heq] at hstrip
      cases hstrip
    | some rest =>
      have htext := stripPrefix_eq_some.mp hstrip
      have hrest : (∃ other, text = head ++ other ∧ Wild '*' ('*' :: ['*'].intercalate (before ++ [last])) other) ↔
          Wild '*' ('*' :: ['*'].intercalate (before ++ [last])) rest := by
        constructor
        · rintro ⟨other, heq, hfit⟩
          rwa [List.append_cancel_left (htext.symm.trans heq)]
        · exact fun hfit => ⟨rest, htext, hfit⟩
      rw [hrest, wild_pieces hbefore hlast]
      dsimp only
      cases before.foldlM (fun rest part => afterFirst part rest) rest with
      | none => exact iff_of_false nofun nofun
      | some left => simp

/-- A known word is answered by what the pattern means. -/
theorem wordMatch_known (pattern text : List Char) :
    (wordMatch pattern (.known text) = .yes ↔ Fits pattern text) ∧
      (wordMatch pattern (.known text) = .no ↔ ¬ Fits pattern text) := by
  have hfits : (match canonicalCallerAssignment pattern with
      | some pattern => (canonicalCallerAssignment text).getD text == pattern
      | none => wildcardMatches pattern text) = true ↔ Fits pattern text := by
    cases hpattern : canonicalCallerAssignment pattern with
    | none =>
      rw [fits_wild (canonical_eq_none.mp hpattern)]
      exact wildcardMatches_iff pattern text
    | some canonical =>
      obtain ⟨_, caller, _, _, rfl⟩ := canonical_eq_some hpattern
      rw [fits_names (canonical_iff_names.mp hpattern), ← canonical_iff_names, beq_iff_eq]
      cases htext : canonicalCallerAssignment text with
      | some other => simp
      | none =>
        -- A word that names no caller is not a caller's name either.
        refine iff_of_false (fun heq => ?_) nofun
        rw [Option.getD_none] at heq
        subst heq
        exact canonical_eq_none.mp htext caller (names_value caller)
  rw [← hfits, wordMatch]
  generalize (match canonicalCallerAssignment pattern with
    | some pattern => (canonicalCallerAssignment text).getD text == pattern
    | none => wildcardMatches pattern text) = matched
  cases matched with
  | true => simp
  | false => simp

/-- Of two comparable texts the pattern's is a prefix of the longer. -/
theorem prefix_or_prefix {head start word : List Char} (hhead : head <+: word) (hstart : start <+: word) :
    head.take (min head.length start.length) = start.take (min head.length start.length) := by
  obtain ⟨after, rfl⟩ := hhead
  obtain ⟨rest, hrest⟩ := hstart
  have htake := congrArg (List.take (min head.length start.length)) hrest
  rw [List.take_append_of_le_length (Nat.min_le_right _ _),
    List.take_append_of_le_length (Nat.min_le_left _ _)] at htake
  exact htake.symm

/-- What stands before the first wildcard has none. -/
theorem star_notMem_head (pattern : List Char) : '*' ∉ pattern.takeWhile (· != '*') := by
  intro hmem
  have hne := List.mem_takeWhile_imp hmem
  simp at hne

/-- A word that fits starts with what stands before the first wildcard. -/
theorem wild_head {pattern word : List Char} (h : Wild '*' pattern word) : pattern.takeWhile (· != '*') <+: word := by
  rw [← List.takeWhile_append_dropWhile (p := (· != '*')) (l := pattern)] at h
  obtain ⟨rest, rfl, _⟩ := (wild_append (star_notMem_head pattern)).mp h
  exact List.prefix_append _ _

/-- Any text fits wildcards alone. -/
theorem wild_all {pattern : List Char} (hne : pattern ≠ []) (hall : ∀ c ∈ pattern, c = '*') (word : List Char) :
    Wild '*' pattern word := by
  induction pattern generalizing word with
  | nil => exact absurd rfl hne
  | cons c pattern ih =>
    obtain ⟨rfl, hrest⟩ := List.forall_mem_cons.mp hall
    cases pattern with
    | nil => exact wild_run.mpr ⟨[], List.nil_suffix, .nil⟩
    | cons d pattern => exact wild_run.mpr ⟨word, List.suffix_rfl, ih (List.cons_ne_nil d pattern) hrest word⟩

/-- A start of what stands before the first wildcard is not answered no. -/
theorem prefixMatch_ne_no {pattern start : List Char} (h : start <+: pattern.takeWhile (· != '*')) :
    prefixMatch pattern start ≠ .no := by
  have hagree := prefix_or_prefix List.prefix_rfl h
  have hlength := h.length_le
  rw [prefixMatch]
  simp only [hagree, bne_self_eq_false, Bool.false_eq_true, if_false, Bool.and_eq_true, decide_eq_true_eq]
  rw [if_neg fun hboth => absurd hboth.2 (Nat.not_lt.mpr hlength)]
  split <;> exact nofun

/-- A start answered no starts no word that fits the pattern as written. -/
theorem prefixMatch_no {pattern start : List Char} (h : prefixMatch pattern start = .no) {word : List Char}
    (hword : start <+: word) : ¬ Wild '*' pattern word := by
  intro hfit
  have hhead := wild_head hfit
  have hagree := prefix_or_prefix hhead hword
  rw [prefixMatch] at h
  split at h
  · rename_i hdiffer
    exact absurd hagree (bne_iff_ne.mp hdiffer)
  · split at h
    · rename_i hlonger
      rw [Bool.and_eq_true, List.isEmpty_iff, decide_eq_true_eq] at hlonger
      obtain ⟨hempty, hshort⟩ := hlonger
      -- The pattern has no wildcard, so the word would be shorter than its start.
      have hplain : '*' ∉ pattern := fun hmem => by
        have := List.dropWhile_eq_nil_iff.mp hempty '*' hmem
        simp at this
      have hsame : pattern.takeWhile (· != '*') = pattern := by
        have hsplit := List.takeWhile_append_dropWhile (p := (· != '*')) (l := pattern)
        rwa [hempty, List.append_nil] at hsplit
      rw [(wild_plain hplain).mp hfit] at hword
      rw [hsame] at hshort
      exact absurd hword.length_le (Nat.not_le.mpr hshort)
    · split at h
      · cases h
      · cases h

/-- A start answered yes starts only words that fit the pattern as written. -/
theorem prefixMatch_yes {pattern start : List Char} (h : prefixMatch pattern start = .yes) {word : List Char}
    (hword : start <+: word) : Wild '*' pattern word := by
  rw [prefixMatch] at h
  split at h
  · cases h
  · rename_i hagree
    split at h
    · cases h
    · split at h
      · rename_i hstars
        rw [Bool.and_eq_true, Bool.and_eq_true, decide_eq_true_eq, Bool.not_eq_true', List.isEmpty_eq_false_iff,
          List.all_eq_true] at hstars
        obtain ⟨⟨hsome, hall⟩, hshort⟩ := hstars
        have hagree := not_not.mp fun hne => hagree (bne_iff_ne.mpr hne)
        rw [Nat.min_eq_left hshort, List.take_length] at hagree
        have hhead : pattern.takeWhile (· != '*') <+: start := List.prefix_iff_eq_take.mpr hagree
        obtain ⟨rest, rfl⟩ := hhead.trans hword
        have hrest : Wild '*' (pattern.takeWhile (· != '*') ++ pattern.dropWhile (· != '*'))
            (pattern.takeWhile (· != '*') ++ rest) :=
          (wild_append (star_notMem_head pattern)).mpr
            ⟨rest, rfl, wild_all hsome (fun c hc => beq_iff_eq.mp (hall c hc)) rest⟩
        rwa [List.takeWhile_append_dropWhile] at hrest
      · cases h

/-- A no at one word rules out every completion of it. -/
theorem wordMatch_no {pattern : List Char} {value : Value} (h : wordMatch pattern value = .no) {word : List Char}
    (hword : value.Completes word) : ¬ Fits pattern word := by
  cases value with
  | known text =>
    rw [show word = text from hword]
    exact (wordMatch_known pattern text).2.mp h
  | prefixed start =>
    rw [wordMatch] at h
    cases hpattern : canonicalCallerAssignment pattern with
    | none =>
      rw [fits_wild (canonical_eq_none.mp hpattern)]
      rw [hpattern, Option.bind_none] at h
      dsimp only at h
      split at h
      · rename_i hno
        exact prefixMatch_no hno hword
      · rename_i here hhere
        exact absurd h hhere
    | some canonical =>
      obtain ⟨spelled, caller, rfl, _, rfl⟩ := canonical_eq_some hpattern
      rw [fits_names (canonical_iff_names.mp hpattern)]
      rw [hpattern, Option.bind_some] at h
      cases hcould : callerAssignmentCouldRead (assignment ++ caller.value) start with
      | some could =>
        rw [hcould] at h
        cases could with
        | true => cases h
        | false => exact not_canonical_of_could_not hcould hword
      | none =>
        rw [hcould] at h
        -- The start is no assignment yet; where it differs from one, so does every completion.
        intro hnames
        obtain ⟨value, _, rfl, _, _⟩ := canonical_eq_some (canonical_iff_names.mpr hnames)
        have hstrip : stripPrefix (assignment ++ caller.value) assignment = some caller.value :=
          stripPrefix_eq_some.mpr rfl
        have hnone : stripPrefix start assignment = none := by
          rw [callerAssignmentCouldRead, hstrip, Option.bind_some] at hcould
          exact Option.map_eq_none_iff.mp hcould
        have hshort : start <+: assignment := by
          cases List.prefix_or_prefix_of_prefix hword (List.prefix_append assignment value) with
          | inl hshort => exact hshort
          | inr hlong =>
            obtain ⟨rest, rfl⟩ := hlong
            rw [stripPrefix_eq_some.mpr rfl] at hnone
            cases hnone
        have hhead : start <+: (assignment ++ spelled).takeWhile (· != '*') := by
          rw [List.takeWhile_append_of_pos (List.all_eq_true.mp (by decide))]
          exact hshort.trans (List.prefix_append _ _)
        dsimp only at h
        split at h
        · rename_i hno
          exact prefixMatch_ne_no hhead hno
        · rename_i here hhere
          exact absurd h hhere
  | unknown | ephemeral | within => cases h

/-- A yes at one word holds of every completion of it, unless the pattern names a caller. -/
theorem wordMatch_yes {pattern : List Char} {value : Value} (h : wordMatch pattern value = .yes) {word : List Char}
    (hword : value.Completes word) : Fits pattern word ∨ ∃ caller, Names caller pattern := by
  cases value with
  | known text =>
    rw [show word = text from hword]
    exact Or.inl ((wordMatch_known pattern text).1.mp h)
  | prefixed start =>
    cases hpattern : canonicalCallerAssignment pattern with
    | some canonical =>
      obtain ⟨_, caller, _, _, rfl⟩ := canonical_eq_some hpattern
      exact Or.inr ⟨caller, canonical_iff_names.mp hpattern⟩
    | none =>
      rw [wordMatch, hpattern, Option.bind_none] at h
      dsimp only at h
      left
      rw [fits_wild (canonical_eq_none.mp hpattern)]
      split at h
      · split at h <;> cases h
      · exact prefixMatch_yes h hword
  | unknown | ephemeral | within => cases h

end Word

section Answers

/-- The weaker of two answers is yes where both are. -/
theorem min_eq_yes {first second : Match} : first.min second = .yes ↔ first = .yes ∧ second = .yes := by
  cases first <;> cases second <;> decide

/-- The weaker of two answers is no where one is. -/
theorem min_eq_no {first second : Match} : first.min second = .no ↔ first = .no ∨ second = .no := by
  cases first <;> cases second <;> decide

/-- The strongest answer is yes where one is, and no where all are. -/
theorem strongest_iff (answers : List Match) : (strongest answers = .yes ↔ Match.yes ∈ answers) ∧
    (strongest answers = .no ↔ ∀ answer ∈ answers, answer = .no) := by
  have hfold : ∀ first : Match, (answers.foldl Match.max first = .yes ↔ first = .yes ∨ Match.yes ∈ answers) ∧
      (answers.foldl Match.max first = .no ↔ first = .no ∧ ∀ answer ∈ answers, answer = .no) := by
    induction answers with
    | nil => simp
    | cons answer rest ih =>
      intro first
      rw [List.foldl_cons]
      obtain ⟨hyes, hno⟩ := ih (first.max answer)
      rw [hyes, hno, List.forall_mem_cons, List.mem_cons]
      cases first <;> cases answer <;> simp [Match.max]
  have hstart := hfold .no
  simpa [strongest] using hstart

end Answers

section Lists

/-- The answer to patterns from a `**`. -/
theorem argsMatch_any (patterns : List (List Char)) (args : List Value) : argsMatch (['*', '*'] :: patterns) args =
    strongest ((List.range (args.length + 1)).map fun skipped => argsMatch patterns (args.drop skipped)) := by
  rw [argsMatch.eq_def]
  exact if_pos rfl

/-- The answer to patterns from another entry. -/
theorem argsMatch_word {pattern : List Char} (hne : pattern ≠ ['*', '*']) (patterns : List (List Char))
    (args : List Value) :
    argsMatch (pattern :: patterns) args = match args with
      | [] => .no
      | arg :: args => (wordMatch pattern arg).min (argsMatch patterns args) := by
  rw [argsMatch.eq_def]
  exact if_neg hne

/-- Words after those skipped complete the rest. -/
theorem completes_drop {args : List Value} {words : List (List Char)} (h : List.Forall₂ Value.Completes args words)
    (skipped : ℕ) : List.Forall₂ Value.Completes (args.drop skipped) (words.drop skipped) := List.forall₂_drop skipped h

variable {fits : List Char → List Char → Prop}

/-- A no rules out every completion of the words. -/
theorem argsMatch_no {patterns : List (List Char)} {args : List Value}
    (hfits : ∀ pattern value word, value ∈ args → wordMatch pattern value = .no → value.Completes word →
      ¬ fits pattern word)
    (h : argsMatch patterns args = .no) {words : List (List Char)} (hwords : List.Forall₂ Value.Completes args words) :
    ¬ Matches fits patterns words := by
  induction patterns generalizing args words with
  | nil => cases h
  | cons pattern patterns ih =>
    intro hmatches
    cases hmatches with
    | any skipped hrest =>
      rw [argsMatch_any, (strongest_iff _).2] at h
      have hlength : skipped.length < args.length + 1 := by
        have hlength := hwords.length_eq
        rw [List.length_append] at hlength
        omega
      have hdrop := completes_drop hwords skipped.length
      rw [List.drop_left] at hdrop
      exact ih (fun pattern value word hvalue => hfits pattern value word (List.mem_of_mem_drop hvalue))
        (h _ (List.mem_map_of_mem (List.mem_range.mpr hlength))) hdrop hrest
    | word hne hword hrest =>
      rw [argsMatch_word hne] at h
      cases hwords with
      | cons hfirst hwords =>
        cases min_eq_no.mp h with
        | inl hno => exact hfits _ _ _ List.mem_cons_self hno hfirst hword
        | inr hno =>
          exact ih (fun pattern value word hvalue =>
            hfits pattern value word (List.mem_cons_of_mem _ hvalue)) hno hwords hrest

/-- A yes holds of every completion of the words. -/
theorem argsMatch_yes {patterns : List (List Char)} {args : List Value}
    (hfits : ∀ pattern value word, value ∈ args → wordMatch pattern value = .yes → value.Completes word →
      fits pattern word)
    (h : argsMatch patterns args = .yes) {words : List (List Char)} (hwords : List.Forall₂ Value.Completes args words) :
    Matches fits patterns words := by
  induction patterns generalizing args words with
  | nil => exact .done words
  | cons pattern patterns ih =>
    by_cases hany : pattern = ['*', '*']
    · rw [hany, argsMatch_any] at h
      obtain ⟨skipped, _, hrest⟩ := List.mem_map.mp ((strongest_iff _).1.mp h)
      have hmatches := ih (fun pattern value word hvalue => hfits pattern value word (List.mem_of_mem_drop hvalue))
        hrest (completes_drop hwords skipped)
      have hwhole := Matches.any (words.take skipped) hmatches
      rwa [List.take_append_drop, ← hany] at hwhole
    · rw [argsMatch_word hany] at h
      cases hwords with
      | nil => cases h
      | cons hfirst hwords =>
        obtain ⟨hyes, hrest⟩ := min_eq_yes.mp h
        exact .word hany (hfits _ _ _ List.mem_cons_self hyes hfirst)
          (ih (fun pattern value word hvalue => hfits pattern value word (List.mem_cons_of_mem _ hvalue)) hrest hwords)

/-- Known words are answered yes or no. -/
theorem argsMatch_known_ne (patterns words : List (List Char)) : argsMatch patterns (words.map .known) ≠ .possible := by
  induction patterns generalizing words with
  | nil =>
    intro h
    cases h
  | cons pattern patterns ih =>
    by_cases hany : pattern = ['*', '*']
    · rw [hany, argsMatch_any]
      intro hpossible
      obtain ⟨hyes, hno⟩ := strongest_iff ((List.range ((words.map Value.known).length + 1)).map fun skipped =>
        argsMatch patterns ((words.map Value.known).drop skipped))
      rw [hpossible] at hyes hno
      have hpossible_ne : Match.possible ≠ .no ∧ Match.possible ≠ .yes := by decide
      refine hpossible_ne.1 (hno.mpr fun answer hanswer => ?_)
      obtain ⟨skipped, hskipped, rfl⟩ := List.mem_map.mp hanswer
      cases hrest : argsMatch patterns ((words.map Value.known).drop skipped) with
      | no => rfl
      | yes => exact absurd (hyes.mpr (List.mem_map.mpr ⟨skipped, hskipped, hrest⟩)) hpossible_ne.2
      | possible =>
        rw [← List.map_drop] at hrest
        exact absurd hrest (ih _)
    · rw [argsMatch_word hany]
      cases words with
      | nil =>
        intro h
        cases h
      | cons word words =>
        intro hpossible
        rw [List.map_cons] at hpossible
        dsimp only at hpossible
        have hword : wordMatch pattern (.known word) ≠ .possible := by
          rw [wordMatch]
          split <;> split <;> simp
        cases hfirst : wordMatch pattern (.known word) with
        | no => rw [hfirst] at hpossible; cases hpossible
        | possible => exact hword hfirst
        | yes =>
          rw [hfirst] at hpossible
          cases hrest : argsMatch patterns (words.map .known) with
          | no => rw [hrest] at hpossible; cases hpossible
          | possible => exact ih words hrest
          | yes => rw [hrest] at hpossible; cases hpossible

end Lists

/-- Where no pattern names a caller every word fits as it does. -/
theorem Matches.strict {patterns words : List (List Char)}
    (h : Matches (fun pattern word => Fits pattern word ∨ ∃ caller, Names caller pattern) patterns words)
    (hnone : ∀ pattern ∈ patterns, ∀ caller, ¬ Names caller pattern) : Matches Fits patterns words := by
  induction h with
  | done words => exact .done words
  | any skipped _ ih => exact .any skipped (ih fun pattern hpattern => hnone pattern (List.mem_cons_of_mem _ hpattern))
  | word hne hfits _ ih =>
    refine .word hne (hfits.resolve_right ?_) (ih fun pattern hpattern =>
      hnone pattern (List.mem_cons_of_mem _ hpattern))
    exact not_exists.mpr (hnone _ List.mem_cons_self)

/-- Known words are answered by what the patterns mean. A no rules out every completion of partly known words, and a
yes holds of every one, but at pattern words that name a caller. -/
theorem argsMatch_sound (patterns : List (List Char)) :
    (∀ words, (argsMatch patterns (words.map .known) = .yes ↔ Matches Fits patterns words) ∧
      (argsMatch patterns (words.map .known) = .no ↔ ¬ Matches Fits patterns words)) ∧
    (∀ args, argsMatch patterns args = .no → ∀ words, List.Forall₂ Value.Completes args words →
      ¬ Matches Fits patterns words) ∧
    ∀ args, argsMatch patterns args = .yes → ∀ words, List.Forall₂ Value.Completes args words →
      Matches (fun pattern word => Fits pattern word ∨ ∃ caller, Names caller pattern) patterns words ∧
      ((∀ pattern ∈ patterns, ∀ caller, ¬ Names caller pattern) → Matches Fits patterns words) := by
  have hno : ∀ args, argsMatch patterns args = .no → ∀ words, List.Forall₂ Value.Completes args words →
      ¬ Matches Fits patterns words := fun args h words hwords =>
    argsMatch_no (fun _ _ _ _ hno hword => wordMatch_no hno hword) h hwords
  refine ⟨fun words => ?_, hno, fun args h words hwords => ?_⟩
  · have hself : List.Forall₂ Value.Completes (words.map .known) words := by
      rw [List.forall₂_map_left_iff]
      exact List.forall₂_same.mpr fun word _ => rfl
    have hyes : argsMatch patterns (words.map .known) = .yes → Matches Fits patterns words := fun h => by
      refine argsMatch_yes (fun pattern value word hvalue hyes hword => ?_) h hself
      obtain ⟨text, _, rfl⟩ := List.mem_map.mp hvalue
      rw [show word = text from hword]
      exact (wordMatch_known pattern text).1.mp hyes
    cases hanswer : argsMatch patterns (words.map .known) with
    | no =>
      have hnot := hno _ hanswer words hself
      exact ⟨iff_of_false nofun hnot, iff_of_true rfl hnot⟩
    | possible => exact absurd hanswer (argsMatch_known_ne patterns words)
    | yes =>
      have hmatches := hyes hanswer
      exact ⟨iff_of_true rfl hmatches, iff_of_false nofun (not_not_intro hmatches)⟩
  · have hmatches := argsMatch_yes (fun _ _ _ _ hyes hword => wordMatch_yes hyes hword) h hwords
    exact ⟨hmatches, hmatches.strict⟩

/-- An unknown word, an assignment known by its start and a known word, each answered for every completion. -/
theorem argsMatch_sound_sample :
    (argsMatch ["**".toList, "FOO=*".toList] [.unknown, .prefixed "FOO=1".toList] = .yes ∧
      ∀ words, List.Forall₂ Value.Completes [.unknown, .prefixed "FOO=1".toList] words →
        Matches Fits ["**".toList, "FOO=*".toList] words) ∧
    (argsMatch ["DEVKIT_CALLER= Human".toList] [.prefixed "DEVKIT_CALLER=ag".toList] = .no ∧
      ∀ words, List.Forall₂ Value.Completes [.prefixed "DEVKIT_CALLER=ag".toList] words →
        ¬ Matches Fits ["DEVKIT_CALLER= Human".toList] words) := by
  have hyes : argsMatch ["**".toList, "FOO=*".toList] [.unknown, .prefixed "FOO=1".toList] = .yes := by decide +kernel
  have hno : argsMatch ["DEVKIT_CALLER= Human".toList] [.prefixed "DEVKIT_CALLER=ag".toList] = .no := by decide +kernel
  refine ⟨⟨hyes, fun words hwords => ?_⟩, hno, (argsMatch_sound _).2.1 _ hno⟩
  refine ((argsMatch_sound _).2.2 _ hyes words hwords).2 fun pattern hpattern => canonical_eq_none.mp ?_
  revert pattern
  decide +kernel

end Devkit.Guard
