import Mathlib.Data.List.Basic

/-!
# Words with wildcards

A pattern is a word in which one symbol stands for any run of symbols and every other stands for itself.
Cut at the wildcards, a pattern fits a text when its pieces are found in turn; looking for each as far left
as it stands finds a place for all of them where there is one.

In a pattern with two wildcards the second stands for any one symbol. A part of such a pattern without the first one
takes as many symbols as it has.
-/

namespace Devkit.Library

section OneWildcard

variable {A : Type*}

/-- The text fits the pattern: each `star` stands for any run, and other symbols for themselves. -/
inductive Wild (star : A) : List A → List A → Prop
  | nil : Wild star [] []
  | symbol {c : A} {pattern text : List A} : c ≠ star → Wild star pattern text → Wild star (c :: pattern) (c :: text)
  | run (skipped : List A) {pattern text : List A} :
    Wild star pattern text → Wild star (star :: pattern) (skipped ++ text)

section Fit

variable {star : A}

/-- Only the empty text fits the empty pattern. -/
theorem wild_nil {text : List A} : Wild star [] text ↔ text = [] := by
  constructor
  · intro h
    cases h
    rfl
  · rintro rfl
    exact .nil

/-- A text that fits from a wildcard has a run skipped. -/
theorem wild_run {pattern text : List A} :
    Wild star (star :: pattern) text ↔ ∃ rest, rest <:+ text ∧ Wild star pattern rest := by
  constructor
  · intro h
    cases h with
    | symbol hne _ => exact absurd rfl hne
    | run skipped hrest => exact ⟨_, List.suffix_append skipped _, hrest⟩
  · rintro ⟨rest, ⟨skipped, rfl⟩, hrest⟩
    exact .run skipped hrest

/-- A text that fits from other symbols starts with them. -/
theorem wild_append {head : List A} (hhead : star ∉ head) {pattern text : List A} :
    Wild star (head ++ pattern) text ↔ ∃ rest, text = head ++ rest ∧ Wild star pattern rest := by
  induction head generalizing text with
  | nil => simp
  | cons c head ih =>
    have hrest : star ∉ head := fun hmem => hhead (List.mem_cons_of_mem c hmem)
    constructor
    · intro h
      rw [List.cons_append] at h
      cases h with
      | symbol _ hfit =>
        obtain ⟨rest, rfl, hrest⟩ := (ih hrest).mp hfit
        exact ⟨rest, rfl, hrest⟩
      | run => exact absurd List.mem_cons_self hhead
    · rintro ⟨rest, rfl, hfit⟩
      have hne : c ≠ star := fun heq => hhead (heq ▸ List.mem_cons_self)
      exact .symbol hne ((ih hrest).mpr ⟨rest, rfl, hfit⟩)

/-- A pattern without wildcards fits itself alone. -/
theorem wild_plain {pattern : List A} (h : star ∉ pattern) {text : List A} :
    Wild star pattern text ↔ text = pattern := by
  have hsplit : Wild star (pattern ++ []) text ↔ ∃ rest, text = pattern ++ rest ∧ Wild star [] rest := wild_append h
  simpa [wild_nil] using hsplit

/-- A text that fits from a wildcard still fits after a longer run. -/
theorem Wild.extend {pattern text longer : List A} (h : Wild star (star :: pattern) text) (hsuffix : text <:+ longer) :
    Wild star (star :: pattern) longer := by
  obtain ⟨rest, hrest, hfit⟩ := wild_run.mp h
  exact wild_run.mpr ⟨rest, hrest.trans hsuffix, hfit⟩

end Fit

section Search

variable [DecidableEq A]

/-- What follows the first place where a part stands in a text. -/
def afterFirst (part : List A) : List A → Option (List A)
  | [] => if part = [] then some [] else none
  | c :: text => if part.isPrefixOf (c :: text) then some ((c :: text).drop part.length) else afterFirst part text

/-- The part stands before what follows it. -/
theorem suffix_of_afterFirst {part text rest : List A} (h : afterFirst part text = some rest) :
    part ++ rest <:+ text := by
  induction text with
  | nil =>
    rw [afterFirst] at h
    split at h
    · rename_i hpart
      obtain rfl := Option.some.inj h
      subst hpart
      exact List.suffix_rfl
    · cases h
  | cons c text ih =>
    rw [afterFirst] at h
    split at h
    · rename_i hprefix
      obtain ⟨after, hafter⟩ := List.isPrefixOf_iff_prefix.mp hprefix
      obtain rfl := Option.some.inj h
      exact ⟨[], by rw [← hafter, List.drop_left, List.nil_append]⟩
    · exact (ih h).trans (List.suffix_cons c text)

/-- The first place of a part is no later than another. -/
theorem afterFirst_first {part text rest : List A} (h : part ++ rest <:+ text) :
    ∃ longer, afterFirst part text = some longer ∧ rest <:+ longer := by
  induction text with
  | nil =>
    obtain ⟨hpart, rfl⟩ := List.append_eq_nil_iff.mp (List.suffix_nil.mp h)
    exact ⟨[], by rw [afterFirst, if_pos hpart], List.suffix_rfl⟩
  | cons c text ih =>
    rw [afterFirst]
    split
    · rename_i hprefix
      obtain ⟨after, hafter⟩ := List.isPrefixOf_iff_prefix.mp hprefix
      refine ⟨_, rfl, ?_⟩
      rw [← hafter, List.drop_left]
      rw [← hafter] at h
      refine List.suffix_of_suffix_length_le ((List.suffix_append part rest).trans h) (List.suffix_append part after) ?_
      have hlength := h.length_le
      simp only [List.length_append] at hlength
      omega
    · rename_i hprefix
      cases List.suffix_cons_iff.mp h with
      | inl heq => exact absurd (List.isPrefixOf_iff_prefix.mpr ⟨rest, heq⟩) hprefix
      | inr hsuffix => exact ih hsuffix

/-- A text fits the pieces of a pattern between wildcards, and a last one, where the pieces are found in turn
and the last one ends what is left. -/
theorem wild_pieces {star : A} {pieces : List (List A)} (hpieces : ∀ piece ∈ pieces, star ∉ piece) {last : List A}
    (hlast : star ∉ last) {text : List A} :
    Wild star (star :: [star].intercalate (pieces ++ [last])) text ↔
      ∃ rest, pieces.foldlM (fun text piece => afterFirst piece text) text = some rest ∧ last <:+ rest := by
  induction pieces generalizing text with
  | nil =>
    rw [List.nil_append, List.intercalate_singleton, wild_run]
    simp [wild_plain hlast]
  | cons piece rest ih =>
    obtain ⟨hpiece, hrest⟩ := List.forall_mem_cons.mp hpieces
    obtain ⟨next, more, hmore⟩ := List.exists_cons_of_ne_nil
      (List.append_ne_nil_of_right_ne_nil rest (List.cons_ne_nil last []))
    have hsplit : [star].intercalate (piece :: rest ++ [last]) =
        piece ++ (star :: [star].intercalate (rest ++ [last])) := by
      rw [List.cons_append, hmore, List.intercalate_cons_cons, List.append_assoc, List.singleton_append]
    rw [hsplit, wild_run, List.foldlM_cons]
    constructor
    · rintro ⟨after, hafter, hfit⟩
      obtain ⟨left, rfl, hleft⟩ := (wild_append hpiece).mp hfit
      obtain ⟨longer, hfound, hlonger⟩ := afterFirst_first hafter
      obtain ⟨end_, hend, hsuffix⟩ := (ih hrest).mp (hleft.extend hlonger)
      exact ⟨end_, by rw [hfound]; exact hend, hsuffix⟩
    · rintro ⟨end_, hend, hsuffix⟩
      obtain ⟨left, hfound, hend⟩ := Option.bind_eq_some_iff.mp hend
      exact ⟨piece ++ left, suffix_of_afterFirst hfound,
        (wild_append hpiece).mpr ⟨left, rfl, (ih hrest).mpr ⟨end_, hend, hsuffix⟩⟩⟩

/-- No piece of a list cut at a symbol has the symbol. -/
theorem not_mem_of_mem_splitOn {star : A} {text piece : List A} (h : piece ∈ text.splitOn star) : star ∉ piece := by
  induction text generalizing piece with
  | nil =>
    rw [List.splitOn_nil] at h
    exact List.mem_singleton.mp h ▸ List.not_mem_nil
  | cons c text ih =>
    rw [List.splitOn_cons_eq_if_modifyHead] at h
    split at h
    · cases List.mem_cons.mp h with
      | inl heq => exact heq ▸ List.not_mem_nil
      | inr hmem => exact ih hmem
    · rename_i hne
      obtain ⟨first, rest, hpieces⟩ := List.exists_cons_of_ne_nil (List.splitOn_ne_nil star text)
      rw [hpieces] at h ih
      cases List.mem_cons.mp h with
      | inl heq =>
        rw [heq, List.mem_cons, not_or]
        exact ⟨fun heq => hne (beq_iff_eq.mpr heq.symm), ih List.mem_cons_self⟩
      | inr hmem => exact ih (List.mem_cons_of_mem first hmem)

end Search

end OneWildcard

section TwoWildcards

variable {A : Type*}

/-- The text fits the pattern: `run` stands for any run, `one` for any one symbol, others for themselves. -/
inductive Fits (run one : A) : List A → List A → Prop
  | nil : Fits run one [] []
  | skip (skipped : List A) {pattern text : List A} :
      Fits run one pattern text → Fits run one (run :: pattern) (skipped ++ text)
  | any (c : A) {pattern text : List A} : Fits run one pattern text → Fits run one (one :: pattern) (c :: text)
  | symbol {c : A} {pattern text : List A} :
      c ≠ run → c ≠ one → Fits run one pattern text → Fits run one (c :: pattern) (c :: text)

variable {run one : A} {pattern text : List A}

/-- Only the empty text fits the empty pattern. -/
theorem fits_nil : Fits run one [] text ↔ text = [] := by
  constructor
  · intro h
    cases h
    rfl
  · rintro rfl
    exact .nil

/-- A text fits from a run where some end of it fits what follows. -/
theorem fits_run (hne : run ≠ one) :
    Fits run one (run :: pattern) text ↔ ∃ rest, rest <:+ text ∧ Fits run one pattern rest := by
  constructor
  · intro h
    cases h with
    | skip skipped hrest => exact ⟨_, List.suffix_append skipped _, hrest⟩
    | any => exact absurd rfl hne
    | symbol hself _ _ => exact absurd rfl hself
  · rintro ⟨rest, ⟨skipped, rfl⟩, hrest⟩
    exact .skip skipped hrest

/-- Past its first symbol a text fits what follows a symbol that is no run, if it starts with what that stands for. -/
theorem fits_cons {c : A} (hc : c ≠ run) :
    Fits run one (c :: pattern) text ↔ ∃ d rest, text = d :: rest ∧ (c = one ∨ c = d) ∧ Fits run one pattern rest := by
  constructor
  · intro h
    cases h with
    | skip => exact absurd rfl hc
    | any d hrest => exact ⟨d, _, rfl, Or.inl rfl, hrest⟩
    | symbol _ _ hrest => exact ⟨c, _, rfl, Or.inr rfl, hrest⟩
  · rintro ⟨d, rest, rfl, rfl | rfl, hrest⟩
    · exact .any d hrest
    · by_cases hone : c = one
      · subst hone
        exact .any c hrest
      · exact .symbol hc hone hrest

/-- Only runs fit no text. -/
theorem fits_empty : Fits run one pattern [] ↔ ∀ c ∈ pattern, c = run := by
  induction pattern with
  | nil => exact iff_of_true .nil fun c hc => absurd hc List.not_mem_nil
  | cons c pattern ih =>
    rw [List.forall_mem_cons, ← ih]
    constructor
    · intro h
      generalize htext : ([] : List A) = text at h
      cases h with
      | skip skipped hrest =>
        obtain ⟨rfl, rfl⟩ := List.append_eq_nil_iff.mp htext.symm
        exact ⟨rfl, hrest⟩
      | any => cases htext
      | symbol => cases htext
    · rintro ⟨rfl, hrest⟩
      exact .skip [] hrest

/-- A text that fits from a run still fits after a longer run. -/
theorem Fits.extend (hne : run ≠ one) {longer : List A} (h : Fits run one (run :: pattern) text)
    (hsuffix : text <:+ longer) : Fits run one (run :: pattern) longer := by
  obtain ⟨rest, hrest, hfit⟩ := (fits_run hne).mp h
  exact (fits_run hne).mpr ⟨rest, hrest.trans hsuffix, hfit⟩

/-- A part without runs takes as many symbols as it has. -/
theorem Fits.split {part : List A} (hpart : run ∉ part) (h : Fits run one (part ++ pattern) text) :
    ∃ used rest, text = used ++ rest ∧ used.length = part.length ∧ Fits run one pattern rest := by
  induction part generalizing text with
  | nil => exact ⟨[], text, rfl, rfl, h⟩
  | cons c part ih =>
    rw [List.mem_cons, not_or] at hpart
    obtain ⟨d, rest, rfl, _, hrest⟩ := (fits_cons fun heq => hpart.1 heq.symm).mp h
    obtain ⟨used, left, rfl, hlength, hleft⟩ := ih hpart.2 hrest
    exact ⟨d :: used, left, rfl, congrArg Nat.succ hlength, hleft⟩

/-- As many single wildcards take any symbols. -/
theorem fits_ones {used : List A} (h : Fits run one pattern text) :
    Fits run one (List.replicate used.length one ++ pattern) (used ++ text) := by
  induction used with
  | nil => exact h
  | cons c used ih => exact .any c ih

end TwoWildcards

end Devkit.Library
