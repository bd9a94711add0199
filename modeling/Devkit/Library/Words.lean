import Mathlib.Data.List.Basic
import Mathlib.Data.List.DropRight

/-!
# The words of a text

The words of a list are its maximal runs without a separator. Joining words with one separator
and reading them back gives the same words, so a text rewritten that way is a fixed point.

Every word may be replaced by its image while every separator stays. The text falls apart at its
separators, so what becomes of one word does not depend on the words around it.
-/

namespace Devkit.Library

variable {A : Type*}

/-- The nonempty runs between separators. -/
def words (sep : A → Bool) (text : List A) : List (List A) :=
  (text.splitOnP sep).filter fun word => !word.isEmpty

/-- The words on both sides of a separator are the words of the whole. -/
theorem words_append_cons {sep : A → Bool} {c : A} (hc : sep c = true) (before after : List A) :
    words sep (before ++ c :: after) = words sep before ++ words sep after := by
  rw [words, List.splitOnP_append_cons before after hc, List.filter_append]
  rfl

/-- A nonempty text without a separator is its one word. -/
theorem words_eq_singleton {sep : A → Bool} {word : List A} (hne : word ≠ [])
    (hword : ∀ c ∈ word, sep c = false) : words sep word = [word] := by
  rw [words, List.splitOnP_eq_singleton hword]
  simp [hne]

/-- No run between separators holds a separator. -/
theorem not_sep_of_mem_splitOnP {sep : A → Bool} {text run : List A} (hrun : run ∈ text.splitOnP sep) :
    ∀ c ∈ run, sep c = false := by
  induction text generalizing run with
  | nil =>
    rw [List.splitOnP_nil, List.mem_singleton] at hrun
    simp [hrun]
  | cons first rest ih =>
    rw [List.splitOnP_cons_eq_if_modifyHead] at hrun
    obtain ⟨head, tail, hsplit⟩ := List.exists_cons_of_ne_nil (List.splitOnP_ne_nil sep rest)
    rw [hsplit] at hrun ih
    split at hrun
    · rcases List.mem_cons.mp hrun with heq | hmem
      · simp [heq]
      · exact ih hmem
    · rename_i hfirst
      rcases List.mem_cons.mp hrun with heq | hmem
      · intro c hc
        rcases List.mem_cons.mp (heq ▸ hc) with hhead | hlater
        · rw [hhead]
          exact Bool.not_eq_true _ ▸ hfirst
        · exact ih List.mem_cons_self c hlater
      · exact ih (List.mem_cons_of_mem head hmem)

/-- A word is nonempty and holds no separator. -/
theorem mem_words {sep : A → Bool} {text word : List A} (hword : word ∈ words sep text) :
    word ≠ [] ∧ ∀ c ∈ word, sep c = false := by
  obtain ⟨hrun, hne⟩ := List.mem_filter.mp hword
  exact ⟨by simpa using hne, not_sep_of_mem_splitOnP hrun⟩

/-- Words joined by a separator are read back. -/
theorem words_intercalate {sep : A → Bool} {c : A} (hc : sep c = true) {ws : List (List A)}
    (hws : ∀ word ∈ ws, word ≠ [] ∧ ∀ a ∈ word, sep a = false) : words sep ([c].intercalate ws) = ws := by
  induction ws with
  | nil => rfl
  | cons word rest ih =>
    obtain ⟨hne, hword⟩ := hws word List.mem_cons_self
    have hrest := ih fun other hother => hws other (List.mem_cons_of_mem word hother)
    cases rest with
    | nil => simpa using words_eq_singleton hne hword
    | cons next rest =>
      rw [List.intercalate_cons_cons, List.append_assoc, List.singleton_append, words_append_cons hc, hrest,
        words_eq_singleton hne hword, List.singleton_append]

variable {A : Type*} {sep : A → Bool} {rewrite : List A → List A}

/-- Rewrite the words of a text whose first word has begun. -/
def rewriteFrom (sep : A → Bool) (rewrite : List A → List A) : List A → List A → List A
  | [], [] => []
  | begun@(_ :: _), [] => rewrite begun
  | [], c :: text => if sep c then c :: rewriteFrom sep rewrite [] text else rewriteFrom sep rewrite [c] text
  | begun@(_ :: _), c :: text =>
    if sep c then rewrite begun ++ c :: rewriteFrom sep rewrite [] text
    else rewriteFrom sep rewrite (begun ++ [c]) text

/-- Rewrite every word of a text and keep its separators. -/
def rewriteWords (sep : A → Bool) (rewrite : List A → List A) (text : List A) : List A :=
  rewriteFrom sep rewrite [] text

/-- What a word that has begun comes to where it ends. -/
def finishWord (rewrite : List A → List A) : List A → List A
  | [] => []
  | word => rewrite word

/-- At the end of the text the word is finished. -/
theorem rewriteFrom_nil (begun : List A) : rewriteFrom sep rewrite begun [] = finishWord rewrite begun := by
  cases begun with
  | nil => rfl
  | cons c begun => rfl

/-- At a separator the word is finished. -/
theorem rewriteFrom_sep {c : A} (hc : sep c = true) (begun text : List A) :
    rewriteFrom sep rewrite begun (c :: text) = finishWord rewrite begun ++ c :: rewriteFrom sep rewrite [] text := by
  cases begun with
  | nil => rw [rewriteFrom, if_pos hc]; rfl
  | cons d begun => rw [rewriteFrom, if_pos hc]; rfl

/-- Elsewhere the word grows. -/
theorem rewriteFrom_grow {c : A} (hc : sep c = false) (begun text : List A) :
    rewriteFrom sep rewrite begun (c :: text) = rewriteFrom sep rewrite (begun ++ [c]) text := by
  have hnot : ¬ sep c = true := Bool.not_eq_true _ ▸ hc
  cases begun with
  | nil => rw [rewriteFrom, if_neg hnot]; rfl
  | cons d begun => rw [rewriteFrom, if_neg hnot]

/-- A text falls apart at each of its separators. -/
theorem rewriteFrom_append_cons {c : A} (hc : sep c = true) (begun before after : List A) :
    rewriteFrom sep rewrite begun (before ++ c :: after) =
      rewriteFrom sep rewrite begun before ++ c :: rewriteWords sep rewrite after := by
  induction before generalizing begun with
  | nil => rw [List.nil_append, rewriteFrom_sep hc, rewriteFrom_nil]; rfl
  | cons d before ih =>
    rw [List.cons_append]
    cases hd : sep d with
    | true => rw [rewriteFrom_sep hd, rewriteFrom_sep hd, ih, List.append_assoc, List.cons_append]
    | false => rw [rewriteFrom_grow hd, rewriteFrom_grow hd, ih]

/-- A text falls apart at each of its separators. -/
theorem rewriteWords_append_cons {c : A} (hc : sep c = true) (before after : List A) :
    rewriteWords sep rewrite (before ++ c :: after) =
      rewriteWords sep rewrite before ++ c :: rewriteWords sep rewrite after :=
  rewriteFrom_append_cons hc [] before after

/-- Separators at the start stay as they are. -/
theorem rewriteWords_separators {blank : List A} (hblank : ∀ c ∈ blank, sep c = true) (text : List A) :
    rewriteWords sep rewrite (blank ++ text) = blank ++ rewriteWords sep rewrite text := by
  induction blank with
  | nil => rfl
  | cons c blank ih =>
    obtain ⟨hc, hblank⟩ := List.forall_mem_cons.mp hblank
    exact (rewriteWords_append_cons hc [] (blank ++ text)).trans (congrArg (c :: ·) (ih hblank))

/-- Separators at the start hold no word. -/
theorem words_separators {blank : List A} (hblank : ∀ c ∈ blank, sep c = true) (text : List A) :
    words sep (blank ++ text) = words sep text := by
  induction blank with
  | nil => rfl
  | cons c blank ih =>
    obtain ⟨hc, hblank⟩ := List.forall_mem_cons.mp hblank
    exact (words_append_cons hc [] (blank ++ text)).trans (ih hblank)

/-- A text without a separator is one word. -/
theorem rewriteFrom_word {word : List A} (hword : ∀ c ∈ word, sep c = false) (begun : List A) :
    rewriteFrom sep rewrite begun word = finishWord rewrite (begun ++ word) := by
  induction word generalizing begun with
  | nil => rw [rewriteFrom_nil, List.append_nil]
  | cons c word ih =>
    obtain ⟨hc, hword⟩ := List.forall_mem_cons.mp hword
    rw [rewriteFrom_grow hc, ih hword, List.append_assoc, List.singleton_append]

/-- A nonempty text without a separator is rewritten as one word. -/
theorem rewriteWords_word {word : List A} (hne : word ≠ []) (hword : ∀ c ∈ word, sep c = false) :
    rewriteWords sep rewrite word = rewrite word := by
  rw [rewriteWords, rewriteFrom_word hword, List.nil_append]
  obtain ⟨c, rest, rfl⟩ := List.exists_cons_of_ne_nil hne
  rfl

/-- The text is empty or its last element is a separator. -/
def EndsApart (sep : A → Bool) (text : List A) : Prop := ∀ c ∈ text.getLast?, sep c = true

/-- The text is empty or its first element is a separator. -/
def StartsApart (sep : A → Bool) (text : List A) : Prop := ∀ c ∈ text.head?, sep c = true

/-- Up to the last run without a separator a text ends apart. -/
theorem endsApart_rdropWhile (text : List A) : EndsApart sep (text.rdropWhile fun c => !sep c) := by
  induction text using List.reverseRecOn with
  | nil => nofun
  | append_singleton text c ih =>
    rw [List.rdropWhile_concat]
    split
    · exact ih
    · rename_i hc
      intro last hlast
      obtain rfl := Option.some.inj (List.getLast?_concat.symm.trans hlast)
      simpa using hc

/-- From the end of the first run without a separator a text starts apart. -/
theorem startsApart_dropWhile (text : List A) : StartsApart sep (text.dropWhile fun c => !sep c) := by
  intro c hc
  have hstop := List.head?_dropWhile_not (fun c => !sep c) text
  rw [hc] at hstop
  simpa using hstop

/-- A text that starts apart stays apart from the word before it. -/
theorem rewriteWords_before {word after : List A} (hne : word ≠ []) (hword : ∀ c ∈ word, sep c = false)
    (hafter : StartsApart sep after) :
    rewriteWords sep rewrite (word ++ after) = rewrite word ++ rewriteWords sep rewrite after := by
  cases after with
  | nil =>
    rw [List.append_nil, rewriteWords_word hne hword]
    exact (List.append_nil _).symm
  | cons c after =>
    have hc := hafter c rfl
    have hright : rewriteWords sep rewrite (c :: after) = c :: rewriteWords sep rewrite after :=
      rewriteWords_append_cons hc [] after
    rw [rewriteWords_append_cons hc, rewriteWords_word hne hword, hright]

/-- A text that ends apart stays apart from what follows it. -/
theorem rewriteWords_after {before : List A} (hbefore : EndsApart sep before) (after : List A) :
    rewriteWords sep rewrite (before ++ after) = rewriteWords sep rewrite before ++ rewriteWords sep rewrite after := by
  induction before using List.reverseRecOn with
  | nil => rfl
  | append_singleton before c ih =>
    have hc := hbefore c List.getLast?_concat
    rw [List.append_assoc, List.singleton_append, rewriteWords_append_cons hc, rewriteWords_append_cons hc,
      List.append_assoc]
    rfl

/-- A word that stands apart is rewritten alone. -/
theorem rewriteWords_around {before word after : List A} (hbefore : EndsApart sep before) (hne : word ≠ [])
    (hword : ∀ c ∈ word, sep c = false) (hafter : StartsApart sep after) :
    rewriteWords sep rewrite (before ++ (word ++ after)) =
      rewriteWords sep rewrite before ++ (rewrite word ++ rewriteWords sep rewrite after) := by
  rw [rewriteWords_after hbefore, rewriteWords_before hne hword hafter]

/-- A word before a text that starts apart is its first. -/
theorem words_before {word after : List A} (hne : word ≠ []) (hword : ∀ c ∈ word, sep c = false)
    (hafter : StartsApart sep after) : words sep (word ++ after) = word :: words sep after := by
  cases after with
  | nil => rw [List.append_nil, words_eq_singleton hne hword]; rfl
  | cons c after =>
    have hc := hafter c rfl
    have hnil : words sep (c :: after) = words sep after := words_append_cons hc [] after
    rw [words_append_cons hc, words_eq_singleton hne hword, hnil, List.singleton_append]

/-- A word that stands apart is one of the words. -/
theorem words_around {before word after : List A} (hbefore : EndsApart sep before) (hne : word ≠ [])
    (hword : ∀ c ∈ word, sep c = false) (hafter : StartsApart sep after) :
    words sep (before ++ (word ++ after)) = words sep before ++ word :: words sep after := by
  have hright := words_before hne hword hafter
  induction before using List.reverseRecOn with
  | nil => exact hright
  | append_singleton before c ih =>
    have hc := hbefore c List.getLast?_concat
    have hleft : words sep (before ++ [c]) = words sep before ++ [] := words_append_cons hc before []
    rw [List.append_assoc, List.singleton_append, words_append_cons hc, hright, hleft, List.append_nil]

/-- After a separator a text ends apart as what follows it does. -/
theorem endsApart_append_cons {c : A} (hc : sep c = true) (front : List A) {text : List A}
    (htext : EndsApart sep text) :
    EndsApart sep (front ++ c :: text) := by
  intro last hlast
  rw [List.getLast?_append, List.getLast?_cons, Option.some_or] at hlast
  obtain rfl := Option.some.inj hlast
  cases hend : text.getLast? with
  | none => rwa [Option.getD_none]
  | some last =>
    rw [Option.getD_some]
    exact htext last hend

/-- A run without a separator grows by what is none. -/
theorem grown_run {begun : List A} {c : A} (hbegun : ∀ d ∈ begun, sep d = false) (hc : sep c = false) :
    ∀ d ∈ begun ++ [c], sep d = false := by
  intro d hd
  cases List.mem_append.mp hd with
  | inl hin => exact hbegun d hin
  | inr heq => exact List.mem_singleton.mp heq ▸ hc

/-- Where every word is its own image the text stays as it is. -/
theorem rewriteFrom_eq_self {begun text : List A} (hbegun : ∀ c ∈ begun, sep c = false)
    (hself : ∀ word ∈ words sep (begun ++ text), rewrite word = word) :
    rewriteFrom sep rewrite begun text = begun ++ text := by
  have hfinish {begun : List A} (hbegun : ∀ c ∈ begun, sep c = false)
      (hself : ∀ word ∈ words sep begun, rewrite word = word) : finishWord rewrite begun = begun := by
    cases begun with
    | nil => rfl
    | cons c begun =>
      rw [words_eq_singleton (List.cons_ne_nil c begun) hbegun] at hself
      exact hself _ List.mem_cons_self
  induction text generalizing begun with
  | nil =>
    rw [List.append_nil] at hself ⊢
    rw [rewriteFrom_nil, hfinish hbegun hself]
  | cons c text ih =>
    cases hc : sep c with
    | true =>
      rw [words_append_cons hc] at hself
      have hhead := hfinish hbegun fun word hword => hself word (List.mem_append_left _ hword)
      have htail : rewriteFrom sep rewrite [] text = [] ++ text :=
        ih nofun fun word hword => hself word (List.mem_append_right _ hword)
      rw [rewriteFrom_sep hc, hhead, htail, List.nil_append]
    | false =>
      have hmove : begun ++ c :: text = begun ++ [c] ++ text := by rw [List.append_assoc, List.singleton_append]
      rw [hmove] at hself ⊢
      rw [rewriteFrom_grow hc, ih (grown_run hbegun hc) hself]

/-- Where every word is its own image the text stays as it is. -/
theorem rewriteWords_eq_self {text : List A} (hself : ∀ word ∈ words sep text, rewrite word = word) :
    rewriteWords sep rewrite text = text := by
  have hstart : rewriteFrom sep rewrite [] text = [] ++ text := rewriteFrom_eq_self nofun hself
  exact hstart

/-- A word stands in the text, apart from what precedes it. -/
theorem exists_before_word {begun text word : List A} (hbegun : ∀ c ∈ begun, sep c = false)
    (hword : word ∈ words sep (begun ++ text)) :
    ∃ before after, begun ++ text = before ++ (word ++ after) ∧ EndsApart sep before := by
  induction text generalizing begun with
  | nil =>
    rw [List.append_nil] at hword ⊢
    cases begun with
    | nil => cases hword
    | cons c begun =>
      rw [words_eq_singleton (List.cons_ne_nil c begun) hbegun] at hword
      obtain rfl := List.mem_singleton.mp hword
      exact ⟨[], [], (List.append_nil _).symm, nofun⟩
  | cons c text ih =>
    cases hc : sep c with
    | true =>
      rw [words_append_cons hc] at hword
      cases List.mem_append.mp hword with
      | inl hfirst =>
        cases begun with
        | nil => cases hfirst
        | cons d begun =>
          rw [words_eq_singleton (List.cons_ne_nil d begun) hbegun] at hfirst
          obtain rfl := List.mem_singleton.mp hfirst
          exact ⟨[], c :: text, rfl, nofun⟩
      | inr hlater =>
        have hmore : ∃ before after, [] ++ text = before ++ (word ++ after) ∧ EndsApart sep before := ih nofun hlater
        obtain ⟨before, after, htext, hapart⟩ := hmore
        exact ⟨begun ++ c :: before, after, by rw [List.append_assoc, List.cons_append, ← htext, List.nil_append],
          endsApart_append_cons hc begun hapart⟩
    | false =>
      have hmove : begun ++ c :: text = begun ++ [c] ++ text := by rw [List.append_assoc, List.singleton_append]
      rw [hmove] at hword ⊢
      exact ih (grown_run hbegun hc) hword

end Devkit.Library
