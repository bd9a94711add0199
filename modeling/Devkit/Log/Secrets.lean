import Devkit.Log.Redact

/-!
# What redaction hides

A secret is a known token prefix and what follows it. Its word gives it away when it assigns a known variable
before the secret, when only quotes and equals signs precede it, or when a known token opens the word already.
Redaction of the command then does not depend on the secret; behind anything else the secret comes through.
-/

namespace Devkit.Log

open Devkit.Library
open Devkit.Todos (isWhitespace)

/-- Neither blanks nor quotes. -/
def Plain (text : List Char) : Prop := ∀ c ∈ text, isWhitespace c = false ∧ isQuote c = false

/-- What a word begins with gives away what follows it. -/
def Guarded (head : List Char) : Prop :=
  (∃ name ∈ secretVars, name ++ ['='] <+: head) ∨ head.dropWhile isOpening = [] ∨
    ∃ entry ∈ tokenPrefixes, entry.1 <+: head.dropWhile isOpening

instance (head : List Char) : Decidable (Guarded head) := inferInstanceAs (Decidable (_ ∨ _))

/-- A text is plain when each of its characters is. -/
theorem plain_of_all {text : List Char} (h : text.all (fun c => !isWhitespace c && !isQuote c) = true) :
    Plain text := by
  intro c hc
  have hc := List.all_eq_true.mp h c hc
  simpa using hc

/-- Somewhere a word assigns a known variable a value. -/
def HoldsAssignment (command : List Char) : Prop :=
  ∃ before name c after, command = before ++ (name ++ '=' :: c :: after) ∧ EndsApart isWhitespace before ∧
    name ∈ secretVars ∧ isWhitespace c = false

/-- Somewhere a known token prefix stands. -/
def HoldsToken (command : List Char) : Prop := ∃ entry ∈ tokenPrefixes, entry.1 <:+: command

/-- A text is split at the first place of the sign. -/
theorem splitOnce_eq {sign : Char} {left : List Char} (hleft : sign ∉ left) (right : List Char) :
    splitOnce sign (left ++ sign :: right) = some (left, right) := by
  induction left with
  | nil => exact if_pos rfl
  | cons c left ih =>
    rw [List.mem_cons, not_or] at hleft
    rw [List.cons_append, splitOnce, if_neg (Ne.symm hleft.1), ih hleft.2, Option.map_some]

/-- The sides of a split are those of the sign. -/
theorem eq_of_splitOnce {sign : Char} {text left right : List Char} (h : splitOnce sign text = some (left, right)) :
    text = left ++ sign :: right := by
  induction text generalizing left with
  | nil => cases h
  | cons c text ih =>
    rw [splitOnce] at h
    split at h
    · rename_i hc
      obtain ⟨rfl, rfl⟩ := Prod.mk.inj (Option.some.inj h)
      rw [hc, List.nil_append]
    · obtain ⟨sides, hsides, heq⟩ := Option.map_eq_some_iff.mp h
      obtain ⟨rfl, rfl⟩ := Prod.mk.inj heq
      rw [ih hsides, List.cons_append]

section Tables

/-- No variable name holds an equals sign. -/
theorem not_mem_secretVars : ∀ name ∈ secretVars, '=' ∉ name := by decide

/-- No token prefix stands in a variable name. -/
theorem not_infix_secretVars : ∀ name ∈ secretVars, ∀ entry ∈ tokenPrefixes, ¬ entry.1 <:+: name := by decide +kernel

/-- A token prefix holds no blank. -/
theorem token_inWord : ∀ entry ∈ tokenPrefixes, entry.1.all inWord = true := by decide

/-- A token prefix holds no quote and no equals sign. -/
theorem token_plain : ∀ entry ∈ tokenPrefixes, entry.1 ≠ [] ∧ entry.1.all (fun c => !isOpening c) = true := by decide

/-- A character of a token prefix is no quote, no equals sign and no blank. -/
theorem token_char {entry : List Char × List Char} (hentry : entry ∈ tokenPrefixes) {c : Char} (hc : c ∈ entry.1) :
    isOpening c = false ∧ isWhitespace c = false :=
  ⟨(Bool.not_eq_true' _).mp (List.all_eq_true.mp (token_plain entry hentry).2 c hc),
    (Bool.not_eq_true' _).mp (List.all_eq_true.mp (token_inWord entry hentry) c hc)⟩

/-- No token prefix opens another. -/
theorem token_unique : ∀ entry ∈ tokenPrefixes, ∀ other ∈ tokenPrefixes, entry.1 <+: other.1 →
    entry = other := by decide +kernel

/-- No token prefix runs on from the inside of another. -/
theorem token_apart : ∀ entry ∈ tokenPrefixes, ∀ other ∈ tokenPrefixes, ∀ i < entry.1.length, 0 < i →
    ¬ entry.1.drop i <+: other.1 ∧ ¬ other.1 <+: entry.1.drop i := by decide +kernel

end Tables

section Word

variable {head tail secret : List Char} {entry : List Char × List Char}

/-- A text that opens with a token prefix opens with no other. -/
theorem find_token {text : List Char} (hentry : entry ∈ tokenPrefixes) (htext : entry.1 <+: text) :
    (tokenPrefixes.find? fun other => other.1.isPrefixOf text) = some entry := by
  have hsome : (tokenPrefixes.find? fun other => other.1.isPrefixOf text).isSome = true :=
    List.find?_isSome.mpr ⟨entry, hentry, List.isPrefixOf_iff_prefix.mpr htext⟩
  obtain ⟨other, hother⟩ := Option.isSome_iff_exists.mp hsome
  have hprefix : other.1 <+: text := List.isPrefixOf_iff_prefix.mp (by simpa only using List.find?_some hother)
  have hmem := List.mem_of_find?_eq_some hother
  rw [hother]
  cases List.prefix_or_prefix_of_prefix hprefix htext with
  | inl hle => rw [token_unique other hmem entry hentry hle]
  | inr hle => rw [token_unique entry hentry other hmem hle]

/-- A known token behind quotes and equals signs is substituted. -/
theorem redactToken_eq {opening text : List Char} (hopening : ∀ c ∈ opening, isOpening c = true)
    (hentry : entry ∈ tokenPrefixes) (htext : entry.1 <+: text) :
    redactToken (opening ++ text) = some (opening ++ substitute entry.2 ++ tailQuote text) := by
  have htrimmed : (opening ++ text).dropWhile isOpening = text := by
    rw [List.dropWhile_append_of_pos hopening]
    obtain ⟨c, rest, hcons⟩ := List.exists_cons_of_ne_nil (token_plain entry hentry).1
    have hnot := (token_char hentry (hcons ▸ List.mem_cons_self)).1
    obtain ⟨more, rfl⟩ := htext
    rw [hcons, List.cons_append, List.dropWhile_cons_of_neg (Bool.not_eq_true _ ▸ hnot)]
  have htake : (opening ++ text).take ((opening ++ text).length - text.length) = opening := by
    rw [List.length_append, Nat.add_sub_cancel, List.take_left]
  rw [redactToken, htrimmed, find_token hentry htext, Option.map_some, htake]

/-- An assignment of a known variable is substituted. -/
theorem redactAssignment_eq {name value : List Char} (hname : name ∈ secretVars) (hvalue : value ≠ []) :
    redactAssignment (name ++ '=' :: value) = some (name ++ '=' :: substitute (kindOf (name.map Char.toLower))) := by
  rw [redactAssignment, splitOnce_eq (not_mem_secretVars name hname)]
  exact if_pos ⟨hvalue, hname⟩

/-- Only an assignment of a known variable is substituted as one. -/
theorem eq_of_redactAssignment {word replacement : List Char} (h : redactAssignment word = some replacement) :
    ∃ name value, word = name ++ '=' :: value ∧ name ∈ secretVars ∧ value ≠ [] := by
  rw [redactAssignment] at h
  split at h
  · rename_i name value hsplit
    split at h
    · rename_i hknown
      exact ⟨name, value, eq_of_splitOnce hsplit, hknown.2, hknown.1⟩
    · cases h
  · cases h

/-- A variable assigned in the word of a token is assigned before the token. -/
theorem name_before_token (hentry : entry ∈ tokenPrefixes) {name value rest : List Char} (hname : name ∈ secretVars)
    (h : head ++ (entry.1 ++ rest) = name ++ '=' :: value) : name ++ ['='] <+: head := by
  have hinside := not_infix_secretVars name hname entry hentry
  have hequals : '=' ∉ entry.1 := fun hmem => absurd (token_char hentry hmem).1 (by decide)
  rcases List.append_eq_append_iff.mp h with ⟨more, hmore, hrest⟩ | ⟨more, hmore, hrest⟩
  · -- The name would hold the token, or end in the middle of it.
    exfalso
    rcases List.append_eq_append_iff.mp hrest with ⟨last, hlast, hvalue⟩ | ⟨last, hlast, hvalue⟩
    · exact hinside ⟨head, last, by rw [hmore, hlast, List.append_assoc]⟩
    · cases last with
      | nil => exact hinside ⟨head, [], by rw [hmore, hlast, List.append_nil, List.append_nil]⟩
      | cons c last =>
        obtain ⟨rfl, _⟩ := List.cons.inj hvalue
        exact hequals (hlast ▸ List.mem_append_right _ List.mem_cons_self)
  · cases more with
    | nil =>
      obtain ⟨c, token, hcons⟩ := List.exists_cons_of_ne_nil (token_plain entry hentry).1
      rw [List.nil_append, hcons] at hrest
      obtain ⟨rfl, _⟩ := List.cons.inj hrest
      exact absurd (hcons ▸ List.mem_cons_self) hequals
    | cons c more =>
      obtain ⟨rfl, _⟩ := List.cons.inj hrest
      exact ⟨more, by rw [hmore, List.append_assoc, List.singleton_append]⟩

/-- A token that opens a word is seen before another token in it. -/
theorem token_before_token {front rest : List Char} {other : List Char × List Char} (hentry : entry ∈ tokenPrefixes)
    (hother : other ∈ tokenPrefixes) (hfront : front ≠ []) (h : other.1 <+: front ++ (entry.1 ++ rest)) :
    other.1 <+: front := by
  by_contra hnot
  have hshort : front <+: other.1 :=
    (List.prefix_or_prefix_of_prefix h (List.prefix_append front _)).resolve_left hnot
  obtain ⟨more, hmore⟩ := hshort
  have hinside : more <+: entry.1 ++ rest := by
    rw [← hmore] at h
    exact (List.prefix_append_right_inj front).mp h
  have hdrop : other.1.drop front.length = more := by rw [← hmore, List.drop_left]
  have hlength : front.length < other.1.length := by
    refine lt_of_le_of_ne (hmore ▸ List.length_append ▸ Nat.le_add_right _ _) fun heq => hnot ?_
    have hnil : more = [] := by rw [← hdrop, heq, List.drop_length]
    exact ⟨[], by rw [← hmore, hnil, List.append_nil, List.append_nil]⟩
  have hapart := token_apart other hother entry hentry front.length hlength (List.length_pos_iff.mpr hfront)
  rw [hdrop] at hapart
  exact (List.prefix_or_prefix_of_prefix hinside (List.prefix_append entry.1 rest)).elim hapart.1 hapart.2

/-- Where no known variable is assigned before a token its word is no known assignment. -/
theorem redactAssignment_eq_none (hentry : entry ∈ tokenPrefixes) {rest : List Char}
    (hassigns : ¬ ∃ name ∈ secretVars, name ++ ['='] <+: head) :
      redactAssignment (head ++ (entry.1 ++ rest)) = none := by
  cases hredact : redactAssignment (head ++ (entry.1 ++ rest)) with
  | none => rfl
  | some replacement =>
    obtain ⟨name, value, hword, hname, _⟩ := eq_of_redactAssignment hredact
    exact absurd ⟨name, hname, name_before_token hentry hname hword⟩ hassigns

/-- Where nothing gives a token away its word is left as it is. -/
theorem redactWord_eq_none (hentry : entry ∈ tokenPrefixes) {rest : List Char} (hhead : ¬ Guarded head) :
    redactWord (head ++ (entry.1 ++ rest)) = none := by
  rw [Guarded, not_or, not_or] at hhead
  obtain ⟨hassigns, hfront, hopens⟩ := hhead
  have htrimmed : (head ++ (entry.1 ++ rest)).dropWhile isOpening = head.dropWhile isOpening ++ (entry.1 ++ rest) := by
    rw [List.dropWhile_append, if_neg (by simpa using hfront)]
  rw [redactWord, redactAssignment_eq_none hentry hassigns, Option.none_or, redactToken, htrimmed,
    Option.map_eq_none_iff,
    List.find?_eq_none]
  intro other hother hprefix
  exact hopens ⟨other, hother, token_before_token hentry hother hfront (List.isPrefixOf_iff_prefix.mp hprefix)⟩

/-- A plain secret behind a token leaves the quote at the end. -/
theorem tailQuote_secret (hentry : entry ∈ tokenPrefixes) (front : List Char) (hsecret : Plain secret) :
    tailQuote (front ++ (entry.1 ++ (secret ++ tail))) = tailQuote tail := by
  have hlast : ∀ c ∈ (front ++ (entry.1 ++ secret)).getLast?, isQuote c = false := by
    intro c hc
    rw [List.getLast?_append_of_ne_nil _ fun hnil =>
      (token_plain entry hentry).1 (List.append_eq_nil_iff.mp hnil).1] at hc
    cases List.mem_append.mp (List.mem_of_getLast? hc) with
    | inl htoken =>
      have hopening := (token_char hentry htoken).1
      exact (Bool.or_eq_false_iff.mp hopening).1
    | inr hin => exact (hsecret c hin).2
  have hmove : front ++ (entry.1 ++ (secret ++ tail)) = front ++ (entry.1 ++ secret) ++ tail := by
    rw [List.append_assoc, List.append_assoc]
  rw [tailQuote, tailQuote, hmove, List.getLast?_append]
  cases tail.getLast? with
  | some c => rfl
  | none =>
    rw [Option.none_or, Option.filter_none]
    refine congrArg Option.toList (Option.filter_eq_none_iff.mpr fun c hc => ?_)
    rw [hlast c hc]
    nofun

/-- What becomes of a word that gives the token away does not depend on the secret. -/
theorem redactWord_guarded (hentry : entry ∈ tokenPrefixes) (hhead : Guarded head) (tail : List Char) :
    ∃ replacement, ∀ secret, Plain secret → redactWord (head ++ (entry.1 ++ (secret ++ tail))) = some replacement := by
  by_cases hassigns : ∃ name ∈ secretVars, name ++ ['='] <+: head
  · obtain ⟨name, hname, more, rfl⟩ := hassigns
    refine ⟨name ++ '=' :: substitute (kindOf (name.map Char.toLower)), fun secret _ => ?_⟩
    have hvalue : more ++ (entry.1 ++ (secret ++ tail)) ≠ [] := fun hnil =>
      (token_plain entry hentry).1 (List.append_eq_nil_iff.mp (List.append_eq_nil_iff.mp hnil).2).1
    rw [List.append_assoc, List.append_assoc, List.singleton_append, redactWord, redactAssignment_eq hname hvalue,
      Option.some_or]
  · have hopening : ∀ c ∈ head.takeWhile isOpening, isOpening c = true := fun c hc => List.mem_takeWhile_imp hc
    have hfront : ∃ other ∈ tokenPrefixes, other.1 <+: head.dropWhile isOpening ++ entry.1 := by
      rcases hhead with hknown | hnil | ⟨other, hother, hopens⟩
      · exact absurd hknown hassigns
      · exact ⟨entry, hentry, [], by rw [hnil, List.append_nil, List.nil_append]⟩
      · exact ⟨other, hother, hopens.trans (List.prefix_append _ _)⟩
    obtain ⟨other, hother, hopens⟩ := hfront
    refine ⟨head.takeWhile isOpening ++ substitute other.2 ++ tailQuote tail, fun secret hsecret => ?_⟩
    have htoken : other.1 <+: head.dropWhile isOpening ++ (entry.1 ++ (secret ++ tail)) := by
      rw [← List.append_assoc]
      exact hopens.trans (List.prefix_append _ _)
    rw [redactWord, redactAssignment_eq_none hentry hassigns, Option.none_or]
    conv_lhs => rw [← List.takeWhile_append_dropWhile (p := isOpening) (l := head), List.append_assoc]
    rw [redactToken_eq hopening hother htoken, tailQuote_secret hentry _ hsecret]

end Word

section Command

variable {entry : List Char × List Char}

/-- A word that stands apart is redacted alone. -/
theorem redact_apart {before word after : List Char} (hbefore : EndsApart isWhitespace before) (hne : word ≠ [])
    (hword : ∀ c ∈ word, isWhitespace c = false) (hafter : StartsApart isWhitespace after) :
    redact (before ++ (word ++ after)) =
      (rewriteWords isWhitespace redactedWord before ++
        (redactedWord word ++ rewriteWords isWhitespace redactedWord after),
      (words isWhitespace before ++ word :: words isWhitespace after).any fun other => (redactWord other).isSome) := by
  rw [redact_eq, rewriteWords_around hbefore hne hword hafter, words_around hbefore hne hword hafter]

/-- What stands around a secret is what stands around its word, and what its word begins and ends with. -/
theorem exists_around (before after : List Char) :
    ∃ front tail back, EndsApart isWhitespace front ∧ StartsApart isWhitespace back ∧
      ∀ entry ∈ tokenPrefixes, ∀ secret, Plain secret →
        before ++ (entry.1 ++ (secret ++ after)) =
          front ++ (before.rtakeWhile inWord ++ (entry.1 ++ (secret ++ tail)) ++ back) ∧
        before.rtakeWhile inWord ++ (entry.1 ++ (secret ++ tail)) ≠ [] ∧
        ∀ c ∈ before.rtakeWhile inWord ++ (entry.1 ++ (secret ++ tail)), isWhitespace c = false := by
  have hfront : EndsApart isWhitespace (before.rdropWhile inWord) := endsApart_rdropWhile before
  have hback : StartsApart isWhitespace (after.dropWhile inWord) := startsApart_dropWhile after
  refine ⟨before.rdropWhile inWord, after.takeWhile inWord, after.dropWhile inWord, hfront, hback,
    fun entry hentry secret hsecret => ⟨?_, fun hnil => ?_, fun c hc => ?_⟩⟩
  · conv_lhs => rw [← List.rdropWhile_append_rtakeWhile (p := inWord) (l := before),
      ← List.takeWhile_append_dropWhile (p := inWord) (l := after)]
    simp only [List.append_assoc]
  · exact (token_plain entry hentry).1 (List.append_eq_nil_iff.mp (List.append_eq_nil_iff.mp hnil).2).1
  · rw [List.mem_append, List.mem_append, List.mem_append] at hc
    rcases hc with hhead | htoken | hin | htail
    · have hin : inWord c = true := List.mem_rtakeWhile_imp hhead
      exact (Bool.not_eq_true' _).mp hin
    · exact (token_char hentry htoken).2
    · exact (hsecret c hin).1
    · have hin : inWord c = true := List.mem_takeWhile_imp htail
      exact (Bool.not_eq_true' _).mp hin

/-- A secret is hidden where the start of its word gives it away. -/
theorem redact_guarded (hentry : entry ∈ tokenPrefixes) {before : List Char}
    (hhead : Guarded (before.rtakeWhile inWord)) (after : List Char) {secret other : List Char} (hsecret : Plain secret)
    (hother : Plain other) :
    redact (before ++ (entry.1 ++ (secret ++ after))) = redact (before ++ (entry.1 ++ (other ++ after))) := by
  obtain ⟨front, tail, back, hfront, hback, hword⟩ := exists_around before after
  obtain ⟨replacement, hredacted⟩ := redactWord_guarded hentry hhead tail
  obtain ⟨htext, hne, hclean⟩ := hword entry hentry secret hsecret
  obtain ⟨htext', hne', hclean'⟩ := hword entry hentry other hother
  rw [htext, htext', redact_apart hfront hne hclean hback, redact_apart hfront hne' hclean' hback]
  simp only [List.any_append, List.any_cons, redactedWord, hredacted secret hsecret, hredacted other hother,
    Option.getD_some]

/-- Elsewhere a secret comes through. -/
theorem redact_unguarded (hentry : entry ∈ tokenPrefixes) {before : List Char}
    (hhead : ¬ Guarded (before.rtakeWhile inWord)) (after : List Char) {secret other : List Char}
    (hsecret : Plain secret)
    (hother : Plain other)
    (h : redact (before ++ (entry.1 ++ (secret ++ after))) = redact (before ++ (entry.1 ++ (other ++ after)))) :
    secret = other := by
  obtain ⟨front, tail, back, hfront, hback, hword⟩ := exists_around before after
  obtain ⟨htext, hne, hclean⟩ := hword entry hentry secret hsecret
  obtain ⟨htext', hne', hclean'⟩ := hword entry hentry other hother
  have hself (secret : List Char) : redactedWord (before.rtakeWhile inWord ++ (entry.1 ++ (secret ++ tail))) =
      before.rtakeWhile inWord ++ (entry.1 ++ (secret ++ tail)) := by
    rw [redactedWord, redactWord_eq_none hentry hhead, Option.getD_none]
  rw [htext, htext', redact_apart hfront hne hclean hback, redact_apart hfront hne' hclean' hback, hself, hself] at h
  have hwords := List.append_cancel_right (List.append_cancel_left (Prod.mk.inj h).1)
  exact List.append_cancel_right (List.append_cancel_left (List.append_cancel_left hwords))

/-- A word that is redacted assigns a known variable or opens with a known token. -/
theorem known_of_redactWord {word : List Char} (h : (redactWord word).isSome = true) :
    (∃ name value, word = name ++ '=' :: value ∧ name ∈ secretVars ∧ value ≠ []) ∨ HoldsToken word := by
  cases hassignment : redactAssignment word with
  | some replacement => exact Or.inl (eq_of_redactAssignment hassignment)
  | none =>
    rw [redactWord, hassignment, Option.none_or, redactToken, Option.isSome_map, List.find?_isSome] at h
    obtain ⟨other, hother, hopens⟩ := h
    exact Or.inr ⟨other, hother, (List.isPrefixOf_iff_prefix.mp hopens).isInfix.trans (List.dropWhile_suffix _).isInfix⟩

/-- A command that holds nothing known comes back as it is. -/
theorem redact_eq_self {command : List Char} (hassignment : ¬ HoldsAssignment command) (htoken : ¬ HoldsToken command) :
    redact command = (command, false) := by
  have hnone : ∀ word ∈ words isWhitespace command, redactWord word = none := by
    intro word hword
    by_contra hsome
    obtain ⟨_, hclean⟩ := mem_words hword
    have hplace : ∃ before after, [] ++ command = before ++ (word ++ after) ∧ EndsApart isWhitespace before :=
      exists_before_word (fun c hc => absurd hc List.not_mem_nil) hword
    obtain ⟨before, after, hcommand, hapart⟩ := hplace
    rw [List.nil_append] at hcommand
    cases known_of_redactWord (Option.isSome_iff_ne_none.mpr hsome) with
    | inl hassigns =>
      obtain ⟨name, value, rfl, hname, hvalue⟩ := hassigns
      obtain ⟨c, value, rfl⟩ := List.exists_cons_of_ne_nil hvalue
      refine hassignment ⟨before, name, c, value ++ after, ?_, hapart, hname, hclean c ?_⟩
      · rw [hcommand, List.append_assoc]
        rfl
      · exact List.mem_append_right _ (List.mem_cons_of_mem _ List.mem_cons_self)
    | inr hholds =>
      obtain ⟨other, hother, hinfix⟩ := hholds
      exact htoken ⟨other, hother, hinfix.trans ⟨before, after, by rw [hcommand, List.append_assoc]⟩⟩
  rw [redact_eq, rewriteWords_eq_self fun word hword => by rw [redactedWord, hnone word hword, Option.getD_none]]
  refine Prod.ext rfl (List.any_eq_false.mpr fun word hword => ?_)
  rw [hnone word hword]
  exact Bool.false_ne_true

/-- Redaction hides a secret exactly where the start of its word gives it away, and changes nothing else. -/
theorem redact_hides (before after command : List Char) (entry : List Char × List Char)
    (hentry : entry ∈ tokenPrefixes) :
    ((∀ secret other, Plain secret → Plain other →
        redact (before ++ (entry.1 ++ (secret ++ after))) = redact (before ++ (entry.1 ++ (other ++ after)))) ↔
      Guarded (before.rtakeWhile inWord)) ∧
    (¬ HoldsAssignment command → ¬ HoldsToken command → redact command = (command, false)) := by
  refine ⟨⟨fun hhides => ?_, fun hhead secret other hsecret hother => ?_⟩, redact_eq_self⟩
  · by_contra hhead
    have hshort : Plain ['a'] := plain_of_all (by decide)
    have hlong : Plain ['b'] := plain_of_all (by decide)
    cases redact_unguarded hentry hhead after hshort hlong (hhides _ _ hshort hlong)
  · exact redact_guarded hentry hhead after hsecret hother

/-- Behind a quote a secret is hidden, and a command without one is left alone. -/
theorem redact_hides_sample :
    redact ("curl \"".toList ++ ("ghp_".toList ++ ("AbC".toList ++ "\" x".toList))) =
      redact ("curl \"".toList ++ ("ghp_".toList ++ ("dEf456".toList ++ "\" x".toList))) ∧
    redact "ls -l".toList = ("ls -l".toList, false) := by
  have hentry : ("ghp_".toList, "github-token".toList) ∈ tokenPrefixes := by decide
  obtain ⟨hhides, hself⟩ := redact_hides "curl \"".toList "\" x".toList "ls -l".toList _ hentry
  refine ⟨hhides.mpr (by decide) _ _ (plain_of_all (by decide)) (plain_of_all (by decide)),
    hself ?_ (by unfold HoldsToken; decide +kernel)⟩
  rintro ⟨before, name, c, after, hcommand, -⟩
  have hequals : '=' ∈ "ls -l".toList :=
    hcommand ▸ List.mem_append_right before (List.mem_append_right name List.mem_cons_self)
  exact absurd hequals (by decide)

/-- Behind a name devkit does not know a token comes through. -/
theorem redact_shows :
    redact ("FOO=".toList ++ ("ghp_".toList ++ ("a".toList ++ []))) ≠
      redact ("FOO=".toList ++ ("ghp_".toList ++ ("b".toList ++ []))) := by
  intro heq
  have hentry : ("ghp_".toList, "github-token".toList) ∈ tokenPrefixes := by decide
  have hsecret := redact_unguarded hentry (by decide) [] (plain_of_all (by decide)) (plain_of_all (by decide)) heq
  cases hsecret

end Command

end Devkit.Log
