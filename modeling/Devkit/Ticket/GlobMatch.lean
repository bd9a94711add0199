import Devkit.Library.Wildcard
import Mathlib.Data.List.TakeWhile

/-!
# Matching a check name

The matcher scans the name once and goes back only to the last run it passed, taking one symbol more for it. Where
it never holds a `*` of the pattern against a `*` of the name it finds a match exactly when there is one. A `*` held
against a `*` is taken for an ordinary symbol, and the run is lost.
-/

namespace Devkit.Ticket

open Devkit.Library

/-- What a scan goes back to where it just went back, or passed a run, is as long as what it has left. -/
theorem later_self {after text : List Char} : ∀ resume ∈ some (after, text), text.length ≤ resume.2.length := by
  intro resume hresume
  obtain rfl := Option.some.inj hresume
  exact Nat.le_refl _

/-- A scan that passed no run has nothing to go back to. -/
theorem later_none {text : List Char} :
    ∀ resume ∈ (none : Option (List Char × List Char)), text.length ≤ resume.2.length := nofun

/-- Scan a name from a place in the pattern; what to go back to is the pattern after the last run and the name
from where that run ended. -/
def globScan (pattern text : List Char) (star : Option (List Char × List Char))
    (later : ∀ resume ∈ star, text.length ≤ resume.2.length) : Bool :=
  match text with
  | [] => (pattern.dropWhile (· == '*')).isEmpty
  | d :: rest =>
    match pattern with
    | c :: next =>
      if c = '?' ∨ c = d then globScan next rest star fun resume h => Nat.le_of_succ_le (later resume h)
      else if c = '*' then
        globScan next (d :: rest) (some (next, d :: rest)) later_self
      else
        match star with
        | some (after, resume) =>
          globScan after resume.tail (some (after, resume.tail)) later_self
        | none => false
    | [] =>
      match star with
      | some (after, resume) =>
        globScan after resume.tail (some (after, resume.tail)) later_self
      | none => false
termination_by (star.elim (text.length + 1) fun resume => resume.2.length, text.length, pattern.length)
decreasing_by
  · cases star with
    | none => exact Prod.Lex.left _ _ (Nat.lt_succ_self _)
    | some resume => exact Prod.Lex.right _ (Prod.Lex.left _ _ (Nat.lt_succ_self _))
  · cases star with
    | none => exact Prod.Lex.left _ _ (Nat.lt_succ_self _)
    | some resume =>
      have hle : (d :: rest).length ≤ resume.2.length := later resume rfl
      cases Nat.lt_or_eq_of_le hle with
      | inl hlt => exact Prod.Lex.left _ _ hlt
      | inr heq =>
        dsimp only [Option.elim]
        rw [← heq]
        exact Prod.Lex.right _ (Prod.Lex.right _ (Nat.lt_succ_self _))
  all_goals
    have hle : (d :: rest).length ≤ resume.length := later (after, resume) rfl
    refine Prod.Lex.left _ _ ?_
    dsimp only [Option.elim]
    rw [List.length_tail]
    rw [List.length_cons] at hle
    omega

/-- Match a name against a pattern, both in lower case. -/
def globMatch (lower : String → String) (pattern text : String) : Bool :=
  globScan (lower pattern).toList (lower text).toList none later_none

/-- A scan that never holds a `*` of the pattern against a `*` of the name, from a place on. -/
inductive Apart : List Char → List Char → Option (List Char × List Char) → Prop
  | ended (pattern : List Char) (star : Option (List Char × List Char)) : Apart pattern [] star
  | symbol {c d : Char} {next rest : List Char} {star : Option (List Char × List Char)} :
    c ≠ '*' → c = '?' ∨ c = d → Apart next rest star → Apart (c :: next) (d :: rest) star
  | run {d : Char} {next rest : List Char} (star : Option (List Char × List Char)) :
    d ≠ '*' → Apart next (d :: rest) (some (next, d :: rest)) → Apart ('*' :: next) (d :: rest) star
  | back {d : Char} {pattern rest after resume : List Char} :
    (∀ c ∈ pattern.head?, c ≠ '*' ∧ ¬ (c = '?' ∨ c = d)) → Apart after resume.tail (some (after, resume.tail)) →
      Apart pattern (d :: rest) (some (after, resume))
  | stopped {d : Char} {pattern : List Char} (rest : List Char) :
    (∀ c ∈ pattern.head?, c ≠ '*' ∧ ¬ (c = '?' ∨ c = d)) → Apart pattern (d :: rest) none

/-- The last run and what it can go back to are tied to the place of the scan: without runs between, and as long. -/
def Tied (pattern text : List Char) (star : Option (List Char × List Char)) : Prop :=
  ∀ resume ∈ star, ∃ part used, resume.1 = part ++ pattern ∧ resume.2 = used ++ text ∧
    used.length = part.length ∧ '*' ∉ part

/-- Going back finds a place for the pattern after the last run. -/
def GoesBack (star : Option (List Char × List Char)) : Prop :=
  ∃ resume ∈ star, ∃ rest, rest <:+ resume.2.tail ∧ Fits '*' '?' resume.1 rest

variable {pattern text : List Char} {star : Option (List Char × List Char)}

/-- What going back finds starts no later than the scan has come, so it fits from a run there. -/
theorem GoesBack.passed (h : GoesBack star) (htied : Tied pattern text star) :
    ∃ rest, rest.length ≤ text.length ∧ Fits '*' '?' pattern rest ∧ rest <:+ text := by
  obtain ⟨resume, hresume, rest, hrest, hfit⟩ := h
  obtain ⟨part, used, hpattern, htext, hlength, hpart⟩ := htied resume hresume
  rw [hpattern] at hfit
  obtain ⟨taken, left, rfl, htaken, hleft⟩ := hfit.split hpart
  have hsuffix : left <:+ used ++ text :=
    htext ▸ ((List.suffix_append taken left).trans hrest).trans (List.tail_suffix _)
  have hle : left.length ≤ text.length := by
    have hlong := hrest.length_le
    rw [htext, List.length_append, List.length_tail, List.length_append] at hlong
    omega
  exact ⟨left, hle, hleft, List.suffix_of_suffix_length_le hsuffix (List.suffix_append used text) hle⟩

/-- An end of a text is the text or an end of what follows its first symbol. -/
theorem suffix_iff_tail {rest text : List Char} : rest <:+ text ↔ rest = text ∨ rest <:+ text.tail := by
  cases text with
  | nil => simp
  | cons c text => exact List.suffix_cons_iff

/-- From a run on, what fits is found at its place or by going back. -/
theorem fits_run_goesBack {after text : List Char} :
    Fits '*' '?' ('*' :: after) text ↔ Fits '*' '?' after text ∨ GoesBack (some (after, text)) := by
  rw [fits_run (by decide)]
  constructor
  · rintro ⟨rest, hrest, hfit⟩
    cases suffix_iff_tail.mp hrest with
    | inl heq => exact Or.inl (heq ▸ hfit)
    | inr hsuffix => exact Or.inr ⟨_, rfl, rest, hsuffix, hfit⟩
  · rintro (hfit | ⟨found, hfound, rest, hrest, hfit⟩)
    · exact ⟨_, List.suffix_rfl, hfit⟩
    · obtain rfl := Option.some.inj hfound
      exact ⟨rest, suffix_iff_tail.mpr (Or.inr hrest), hfit⟩

/-- Going back a step finds a place from there or further on. -/
theorem goesBack_some {after resume : List Char} :
    GoesBack (some (after, resume)) ↔
      Fits '*' '?' after resume.tail ∨ GoesBack (some (after, resume.tail)) := by
  rw [← fits_run_goesBack, fits_run (by decide)]
  constructor
  · rintro ⟨found, hfound, rest, hrest, hfit⟩
    obtain rfl := Option.some.inj hfound
    exact ⟨rest, hrest, hfit⟩
  · exact fun ⟨rest, hrest, hfit⟩ => ⟨_, rfl, rest, hrest, hfit⟩

/-- There is nothing to go back to before the first run. -/
theorem not_goesBack_none : ¬ GoesBack none := fun ⟨_, hresume, _⟩ => nomatch hresume

/-- A scan that just went back, or passed a run, is tied to what it goes back to. -/
theorem tied_self {after text : List Char} : Tied after text (some (after, text)) := by
  intro resume hresume
  obtain rfl := Option.some.inj hresume
  exact ⟨[], [], rfl, rfl, rfl, List.not_mem_nil⟩

/-- A step of the scan keeps it tied. -/
theorem Tied.step {c d : Char} {next rest : List Char} (h : Tied (c :: next) (d :: rest) star) (hc : c ≠ '*') :
    Tied next rest star := by
  intro resume hresume
  obtain ⟨part, used, hpattern, htext, hlength, hpart⟩ := h resume hresume
  refine ⟨part ++ [c], used ++ [d], ?_, ?_, ?_, ?_⟩
  · rw [hpattern, List.append_assoc, List.singleton_append]
  · rw [htext, List.append_assoc, List.singleton_append]
  · rw [List.length_append, List.length_append, hlength]
    rfl
  · rw [List.mem_append, List.mem_singleton, not_or]
    exact ⟨hpart, hc.symm⟩

/-- The scan ends well at the end of the name where only runs are left of the pattern. -/
theorem all_runs_iff : (pattern.dropWhile (· == '*')).isEmpty = true ↔ Fits '*' '?' pattern [] := by
  rw [fits_empty, List.isEmpty_iff, List.dropWhile_eq_nil_iff]
  simp only [beq_iff_eq]

/-- What is gone back to has no `*` either. -/
theorem resume_tail {after resume : List Char} (h : ∀ found ∈ some (after, resume), '*' ∉ found.2) :
    ∀ found ∈ some (after, resume.tail), '*' ∉ found.2 := by
  intro found hfound
  obtain rfl := Option.some.inj hfound
  exact h _ rfl ∘ List.mem_of_mem_tail

/-- A symbol that stands neither for any nor for the next one of the name does not fit it. -/
theorem not_fits_cons {c d : Char} {next rest : List Char} (hdiffer : ¬ (c = '?' ∨ c = d)) (hc : c ≠ '*') :
    ¬ Fits '*' '?' (c :: next) (d :: rest) := by
  rw [fits_cons hc]
  rintro ⟨_, _, heq, hmatch, _⟩
  exact hdiffer ((List.cons.inj heq).1 ▸ hmatch)

/-- A `*` held apart meets another symbol. -/
theorem Apart.not_star {d : Char} {next rest : List Char} (h : Apart ('*' :: next) (d :: rest) star) : '*' ≠ d := by
  cases h with
  | symbol hstar => exact absurd rfl hstar
  | run _ hd => exact hd.symm
  | back hhead => exact absurd rfl (hhead '*' rfl).1
  | stopped _ hhead => exact absurd rfl (hhead '*' rfl).1

/-- Past a symbol that matches, the scan is still apart. -/
theorem Apart.of_symbol {c d : Char} {next rest : List Char} (h : Apart (c :: next) (d :: rest) star)
    (hmatch : c = '?' ∨ c = d) : Apart next rest star := by
  cases h with
  | symbol _ _ hrest => exact hrest
  | run _ hd => exact (hmatch.elim (by decide) fun heq => hd heq.symm).elim
  | back hhead => exact absurd hmatch (hhead c rfl).2
  | stopped _ hhead => exact absurd hmatch (hhead c rfl).2

/-- Past a run the scan is still apart. -/
theorem Apart.of_run {d : Char} {next rest : List Char} (h : Apart ('*' :: next) (d :: rest) star) :
    Apart next (d :: rest) (some (next, d :: rest)) := by
  cases h with
  | symbol hstar => exact absurd rfl hstar
  | run _ _ hrest => exact hrest
  | back hhead => exact absurd rfl (hhead '*' rfl).1
  | stopped _ hhead => exact absurd rfl (hhead '*' rfl).1

/-- A scan that goes back is still apart. -/
theorem Apart.of_back {d : Char} {rest after resume : List Char} (h : Apart pattern (d :: rest) (some (after, resume)))
    (hhead : ∀ c ∈ pattern.head?, c ≠ '*' ∧ ¬ (c = '?' ∨ c = d)) : Apart after resume.tail (some (after, resume.tail)) := by
  cases h with
  | symbol _ hmatch => exact absurd hmatch (hhead _ rfl).2
  | run => exact absurd rfl (hhead _ rfl).1
  | back _ hrest => exact hrest

/-- A scan held apart finds a match from its place or from one it goes back to, if there is one. -/
theorem globScan_iff (later : ∀ resume ∈ star, text.length ≤ resume.2.length) (hapart : Apart pattern text star)
    (htied : Tied pattern text star) :
    globScan pattern text star later = true ↔ Fits '*' '?' pattern text ∨ GoesBack star := by
  induction pattern, text, star, later using globScan.induct with
  | case1 pattern star later =>
    rw [globScan, all_runs_iff]
    refine (or_iff_left_of_imp fun hback => ?_).symm
    obtain ⟨rest, hlength, hfit, _⟩ := hback.passed htied
    exact List.length_eq_zero_iff.mp (Nat.le_zero.mp hlength) ▸ hfit
  | case2 star d rest later c next hmatch _ ih =>
    have hc : c ≠ '*' := by
      rintro rfl
      exact hmatch.elim (by decide) hapart.not_star
    rw [globScan.eq_def]
    dsimp only
    rw [if_pos hmatch, ih (hapart.of_symbol hmatch) (htied.step hc), fits_cons hc]
    refine or_congr_left ⟨fun hfit => ⟨d, rest, rfl, hmatch, hfit⟩, fun hfit => ?_⟩
    obtain ⟨_, _, heq, _, hfit⟩ := hfit
    exact (List.cons.inj heq).2 ▸ hfit
  | case3 star d rest later next hmatch hdiffer ih =>
    rw [globScan.eq_def]
    dsimp only
    rw [if_neg hdiffer, if_pos rfl, ih hapart.of_run tied_self, ← fits_run_goesBack]
    -- what the last run could still take, this one takes too
    refine (or_iff_left_of_imp fun hback => ?_).symm
    obtain ⟨rest', _, hfit, hsuffix⟩ := hback.passed htied
    exact hfit.extend (by decide) hsuffix
  | case4 d rest c next hdiffer hc after resume later _ ih =>
    rw [globScan.eq_def]
    dsimp only
    rw [if_neg hdiffer, if_neg hc, or_iff_right (not_fits_cons hdiffer hc), goesBack_some]
    exact ih (hapart.of_back fun _ hhead => Option.some.inj hhead ▸ ⟨hc, hdiffer⟩) tied_self
  | case5 d rest c next hdiffer hc later _ =>
    rw [globScan.eq_def]
    dsimp only
    rw [if_neg hdiffer, if_neg hc, or_iff_right (not_fits_cons hdiffer hc)]
    exact iff_of_false Bool.false_ne_true not_goesBack_none
  | case6 d rest after resume later _ ih =>
    rw [globScan.eq_def]
    dsimp only
    rw [fits_nil, or_iff_right (List.cons_ne_nil d rest), goesBack_some]
    exact ih (hapart.of_back nofun) tied_self
  | case7 d rest later _ =>
    rw [globScan.eq_def]
    dsimp only
    rw [fits_nil, or_iff_right (List.cons_ne_nil d rest)]
    exact iff_of_false Bool.false_ne_true not_goesBack_none

/-- A scan held apart from its start finds a match exactly when there is one. -/
theorem globScan_exact (hapart : Apart pattern text none) :
    globScan pattern text none later_none = true ↔ Fits '*' '?' pattern text := by
  have hscan : globScan pattern text none later_none = true ↔ Fits '*' '?' pattern text ∨ GoesBack none :=
    globScan_iff later_none hapart fun _ h => absurd h (Option.not_mem_none _)
  rw [hscan, or_iff_left not_goesBack_none]

/-- A name without a `*` is held apart from every pattern. -/
theorem apart_of_name (later : ∀ resume ∈ star, text.length ≤ resume.2.length) (hname : '*' ∉ text)
    (hresume : ∀ resume ∈ star, '*' ∉ resume.2) : Apart pattern text star := by
  induction pattern, text, star, later using globScan.induct with
  | case1 pattern star later => exact .ended pattern star
  | case2 star d rest later c next hmatch _ ih =>
    obtain ⟨hd, hrest⟩ : '*' ≠ d ∧ '*' ∉ rest := by rwa [List.mem_cons, not_or] at hname
    have hc : c ≠ '*' := by
      rintro rfl
      exact hmatch.elim (by decide) hd
    exact .symbol hc hmatch (ih hrest hresume)
  | case3 star d rest later next hmatch hdiffer ih =>
    have hself : ∀ resume ∈ some (next, d :: rest), '*' ∉ resume.2 := by
      intro resume hresume
      obtain rfl := Option.some.inj hresume
      exact hname
    exact .run star (fun heq => hdiffer (Or.inr heq.symm)) (ih hname hself)
  | case4 d rest c next hdiffer hc after resume later _ ih =>
    exact .back (fun _ hhead => Option.some.inj hhead ▸ ⟨hc, hdiffer⟩)
      (ih (hresume _ rfl ∘ List.mem_of_mem_tail) (resume_tail hresume))
  | case5 d rest c next hdiffer hc later _ =>
    exact .stopped rest fun _ hhead => Option.some.inj hhead ▸ ⟨hc, hdiffer⟩
  | case6 d rest after resume later _ ih =>
    exact .back nofun (ih (hresume _ rfl ∘ List.mem_of_mem_tail) (resume_tail hresume))
  | case7 d rest later _ => exact .stopped rest nofun

/-- As many single wildcards are scanned past any symbols. -/
theorem globScan_ones (used : List Char) :
    globScan (List.replicate used.length '?' ++ pattern) (used ++ text) none later_none =
      globScan pattern text none later_none := by
  induction used with
  | nil => rfl
  | cons c used ih =>
    rw [List.length_cons, List.replicate_succ, List.cons_append, List.cons_append, globScan.eq_def]
    exact ih

/-- A pattern that fits a word split at a `*`: any symbols, a run that takes none, and any symbols. -/
def starPattern (used rest : List Char) : List Char :=
  List.replicate used.length '?' ++ '*' :: (List.replicate ('*' :: rest).length '?' ++ [])

/-- The word fits the pattern. -/
theorem fits_starPattern (used rest : List Char) : Fits '*' '?' (starPattern used rest) (used ++ '*' :: rest) := by
  refine fits_ones (.skip [] ?_)
  have hfit : Fits '*' '?' (List.replicate ('*' :: rest).length '?' ++ []) (('*' :: rest) ++ []) := fits_ones .nil
  rwa [List.append_nil ('*' :: rest)] at hfit

/-- The scan takes the `*` for an ordinary symbol and then has a symbol too few. -/
theorem globScan_starPattern (used rest : List Char) :
    globScan (starPattern used rest) (used ++ '*' :: rest) none later_none = false := by
  have hshort : List.replicate ('*' :: rest).length '?' ++ [] = List.replicate rest.length '?' ++ ['?'] := by
    rw [List.append_nil, List.length_cons, List.replicate_succ']
  rw [starPattern, globScan_ones, globScan.eq_def]
  dsimp only
  rw [if_pos (Or.inr rfl), hshort]
  have hend : globScan (List.replicate rest.length '?' ++ ['?']) (rest ++ []) none later_none =
      globScan ['?'] [] none later_none := globScan_ones rest
  rw [List.append_nil] at hend
  rw [hend, globScan]
  rfl

end Devkit.Ticket
