import Devkit.Library.Words
import Devkit.Todos.Item
import Mathlib.Data.List.TakeWhile

/-!
# Redaction over a logged command

The command is walked once. A word that assigns a known variable, or that opens with a known token behind
quotes and equals signs, gives way to a substitute that names its kind.
-/

namespace Devkit.Log

open Devkit.Library
open Devkit.Todos (isWhitespace)

/-- Variable names a credential is resolved from. -/
def secretVars : List (List Char) :=
  ["LINEAR_API_KEY".toList, "LINEAR_WORKSPACE".toList, "SLACK_TOKEN".toList, "GH_TOKEN".toList, "GITHUB_TOKEN".toList]

/-- Token prefixes, paired with the kind the substitute names. -/
def tokenPrefixes : List (List Char × List Char) :=
  [("github_pat_".toList, "github-token".toList),
    ("ghp_".toList, "github-token".toList),
    ("gho_".toList, "github-token".toList),
    ("ghs_".toList, "github-token".toList),
    ("xoxb-".toList, "slack-token".toList),
    ("xoxp-".toList, "slack-token".toList),
    ("lin_api_".toList, "linear-key".toList),
    ("sk-".toList, "api-key".toList)]

/-- What stands in the place of a secret. -/
def substitute (kind : List Char) : List Char := "<redacted:".toList ++ kind ++ ['>']

/-- The kind of secret a variable holds, by its name in lower case. -/
def kindOf (name : List Char) : List Char :=
  if name = "gh_token".toList ∨ name = "github_token".toList then "github-token".toList
  else if name = "slack_token".toList then "slack-token".toList
  else if name = "linear_api_key".toList then "linear-key".toList
  else "secret".toList

/-- The sides of the first place where a character stands. -/
def splitOnce (sign : Char) : List Char → Option (List Char × List Char)
  | [] => none
  | c :: text =>
    if c = sign then some ([], text)
    else (splitOnce sign text).map fun sides => (c :: sides.1, sides.2)

/-- A quote of either kind. -/
def isQuote (c : Char) : Bool := c == '"' || c == '\''

/-- What may stand before a token in its word. -/
def isOpening (c : Char) : Bool := c == '"' || c == '\'' || c == '='

/-- The quote a text ends with. -/
def tailQuote (text : List Char) : List Char := (text.getLast?.filter isQuote).toList

/-- An assignment of a known variable, its value substituted. -/
def redactAssignment (word : List Char) : Option (List Char) :=
  match splitOnce '=' word with
  | some (name, value) =>
    if value ≠ [] ∧ name ∈ secretVars then some (name ++ '=' :: substitute (kindOf (name.map Char.toLower))) else none
  | none => none

/-- A bare token behind quotes and equals signs, substituted. -/
def redactToken (word : List Char) : Option (List Char) :=
  let trimmed := word.dropWhile isOpening
  (tokenPrefixes.find? fun entry => entry.1.isPrefixOf trimmed).map fun entry =>
    word.take (word.length - trimmed.length) ++ substitute entry.2 ++ tailQuote trimmed

/-- One word, or none when it carries nothing known. -/
def redactWord (word : List Char) : Option (List Char) := (redactAssignment word).or (redactToken word)

/-- Whether a character belongs to a word. -/
def inWord (c : Char) : Bool := !isWhitespace c

/-- A character outside the blanks begins a word. -/
theorem exists_word {rest : List Char} (hmore : rest.dropWhile isWhitespace ≠ []) :
    ∃ c more, rest.dropWhile isWhitespace = c :: more ∧ inWord c = true := by
  obtain ⟨c, more, hcons⟩ := List.exists_cons_of_ne_nil hmore
  have hhead := List.head?_dropWhile_not isWhitespace rest
  rw [hcons] at hhead
  exact ⟨c, more, hcons, by rw [inWord, hhead]; rfl⟩

/-- A word taken leaves less of the text. -/
theorem length_tail_lt {rest : List Char} (hmore : rest.dropWhile isWhitespace ≠ []) :
    ((rest.dropWhile isWhitespace).dropWhile inWord).length < rest.length := by
  obtain ⟨c, more, hcons, hc⟩ := exists_word hmore
  rw [hcons, List.dropWhile_cons_of_pos hc]
  have hshort : (rest.dropWhile isWhitespace).length ≤ rest.length := List.length_dropWhile_le isWhitespace rest
  rw [hcons, List.length_cons] at hshort
  exact (List.length_dropWhile_le inWord more).trans_lt hshort

/-- Walk the rest of the text. -/
def redactLoop (out : List Char) (hit : Bool) (rest : List Char) : List Char × Bool :=
  if rest = [] then (out, hit)
  else
    let spaced := out ++ rest.takeWhile isWhitespace
    let more := rest.dropWhile isWhitespace
    if more = [] then (spaced, hit)
    else
      let word := more.takeWhile inWord
      let tail := more.dropWhile inWord
      match redactWord word with
      | some replacement => redactLoop (spaced ++ replacement) true tail
      | none => redactLoop (spaced ++ word) hit tail
termination_by rest.length
decreasing_by
  all_goals exact length_tail_lt (by assumption)

/-- The text with its secrets substituted, and whether anything was. -/
def redact (command : List Char) : List Char × Bool := redactLoop [] false command

/-- What a word comes to. -/
def redactedWord (word : List Char) : List Char := (redactWord word).getD word

/-- A text is its blanks, its first word and what follows it. -/
theorem spaced_word_tail {rest : List Char} (hmore : rest.dropWhile isWhitespace ≠ []) :
    ∃ word, (rest.dropWhile isWhitespace).takeWhile inWord = word ∧ word ≠ [] ∧ (∀ c ∈ word, isWhitespace c = false) ∧
      rest = rest.takeWhile isWhitespace ++ (word ++ (rest.dropWhile isWhitespace).dropWhile inWord) := by
  obtain ⟨c, more, hcons, hc⟩ := exists_word hmore
  refine ⟨_, rfl, ?_, ?_, ?_⟩
  · rw [hcons, List.takeWhile_cons_of_pos hc]
    exact List.cons_ne_nil c _
  · intro d hd
    have hin : inWord d = true := List.mem_takeWhile_imp hd
    exact (Bool.not_eq_true' _).mp hin
  · rw [List.takeWhile_append_dropWhile, List.takeWhile_append_dropWhile]

/-- Blanks are passed, the first word is rewritten and the rest is walked. -/
theorem rewriteWords_step {rest : List Char} (hmore : rest.dropWhile isWhitespace ≠ []) :
    rewriteWords isWhitespace redactedWord rest = rest.takeWhile isWhitespace ++
      (redactedWord ((rest.dropWhile isWhitespace).takeWhile inWord) ++
        rewriteWords isWhitespace redactedWord ((rest.dropWhile isWhitespace).dropWhile inWord)) ∧
    words isWhitespace rest = (rest.dropWhile isWhitespace).takeWhile inWord ::
      words isWhitespace ((rest.dropWhile isWhitespace).dropWhile inWord) := by
  have hblank : ∀ c ∈ rest.takeWhile isWhitespace, isWhitespace c = true := fun c hc => List.mem_takeWhile_imp hc
  obtain ⟨word, hword, hne, hclean, hrest⟩ := spaced_word_tail hmore
  have hapart : StartsApart isWhitespace ((rest.dropWhile isWhitespace).dropWhile inWord) := startsApart_dropWhile _
  rw [hword]
  constructor
  · conv_lhs => rw [hrest]
    rw [rewriteWords_separators hblank, rewriteWords_before hne hclean hapart]
  · conv_lhs => rw [hrest]
    rw [words_separators hblank, words_before hne hclean hapart]

/-- The walk rewrites every word and keeps the blanks. -/
theorem redactLoop_eq (out : List Char) (hit : Bool) (rest : List Char) :
    redactLoop out hit rest =
      (out ++ rewriteWords isWhitespace redactedWord rest,
        hit || (words isWhitespace rest).any fun word => (redactWord word).isSome) := by
  fun_induction redactLoop out hit rest with
  | case1 out hit => exact Prod.ext (List.append_nil out).symm (Bool.or_false hit).symm
  | case2 out hit rest hrest spaced more hmore =>
    have hall : ∀ c ∈ rest, isWhitespace c = true := List.dropWhile_eq_nil_iff.mp hmore
    have hrewritten : rewriteWords isWhitespace redactedWord (rest ++ []) = rest ++ [] :=
      rewriteWords_separators hall []
    have hwords : words isWhitespace (rest ++ []) = [] := words_separators hall []
    rw [List.append_nil] at hrewritten hwords
    rw [hrewritten, hwords, List.any_nil, Bool.or_false]
    exact Prod.ext (congrArg (out ++ ·) (List.takeWhile_eq_self_iff.mpr hall)) rfl
  | case3 out hit rest hrest spaced more hmore word tail replacement hword ih =>
    obtain ⟨hrewritten, hwords⟩ := rewriteWords_step hmore
    have hredacted : redactedWord word = replacement := by rw [redactedWord, hword, Option.getD_some]
    have hhit : (redactWord word).isSome = true := by rw [hword, Option.isSome_some]
    rw [ih, hrewritten, hwords, List.any_cons]
    exact Prod.ext (by rw [← hredacted, List.append_assoc, List.append_assoc])
      (by rw [hhit, Bool.true_or, Bool.or_true])
  | case4 out hit rest hrest spaced more hmore word tail hword ih =>
    obtain ⟨hrewritten, hwords⟩ := rewriteWords_step hmore
    have hredacted : redactedWord word = word := by rw [redactedWord, hword, Option.getD_none]
    have hhit : (redactWord word).isSome = false := by rw [hword, Option.isSome_none]
    rw [ih, hrewritten, hwords, List.any_cons]
    exact Prod.ext (by rw [hredacted, List.append_assoc, List.append_assoc]) (by rw [hhit, Bool.false_or])

/-- Redaction rewrites every word, keeps the blanks and tells whether a word carried something known. -/
theorem redact_eq (command : List Char) :
    redact command =
      (rewriteWords isWhitespace redactedWord command,
        (words isWhitespace command).any fun word => (redactWord word).isSome) := by
  rw [redact, redactLoop_eq, List.nil_append, Bool.false_or]

end Devkit.Log
