import Devkit.Weakened.Lexemes
import Devkit.Weakened.Shape

/-!
# The scan over one lexeme

Wherever the scan stands at the start of a lexeme, it goes on past it with exactly its hidden part blanked: either it
passes the bytes one by one, or it takes the lexeme in one step.
-/

namespace Devkit.Weakened

open Devkit.Library.Utf8

/-- The scan from a place gives the masked bytes, once it ran long enough. -/
def Yields (lang : Lang) (b out : List UInt8) (i : ℕ) (result : List UInt8) : Prop :=
  ∃ fuel, maskLoop lang b fuel out i = some result

/-- The scan over the rest of the bytes, after those before it are masked. -/
def Scans (lang : Lang) (before masked rest result : List UInt8) : Prop :=
  Yields lang (before ++ rest) (masked ++ rest) before.length result

section Runs

variable {lang : Lang} {b out before masked rest result : List UInt8} {i : ℕ}

/-- A step of the scan keeps what it gives. -/
theorem Yields.step (h : Yields lang b out i result) (hi : i < b.length) {after : List UInt8} {i' : ℕ}
    (hstep : maskStep lang b out i = some (after, i')) : Yields lang b after i' result := by
  obtain ⟨fuel, hfuel⟩ := h
  cases fuel with
  | zero =>
    rw [maskLoop, if_pos hi] at hfuel
    cases hfuel
  | succ fuel =>
    rw [maskLoop, if_pos hi, hstep, Option.bind_some] at hfuel
    exact ⟨fuel, hfuel⟩

/-- What is masked before the place of the scan stays. -/
theorem Yields.take_eq (h : Yields lang b out i result) : result.take i = out.take i := by
  obtain ⟨fuel, hfuel⟩ := h
  induction fuel generalizing out i with
  | zero =>
    rw [maskLoop] at hfuel
    split at hfuel
    · cases hfuel
    · rw [Option.some.inj hfuel]
  | succ fuel ih =>
    rw [maskLoop] at hfuel
    split at hfuel
    · rename_i hi
      obtain ⟨⟨after, i'⟩, hstep, hrest⟩ := Option.bind_eq_some_iff.mp hfuel
      obtain ⟨hlt, hsame⟩ := maskStep_take hi hstep
      have hlater := congrArg (List.take i) (ih hrest)
      rw [List.take_take, List.take_take, min_eq_left hlt.le] at hlater
      rw [hlater, hsame]
    · rw [Option.some.inj hfuel]

/-- A scan that is over gives its masked bytes. -/
theorem Scans.nil_eq (h : Scans lang before masked [] result) : result = masked := by
  obtain ⟨fuel, hfuel⟩ := h
  rw [List.append_nil, List.append_nil] at hfuel
  cases fuel with
  | zero =>
    rw [maskLoop, if_neg (lt_irrefl _)] at hfuel
    exact (Option.some.inj hfuel).symm
  | succ fuel =>
    rw [maskLoop, if_neg (lt_irrefl _)] at hfuel
    exact (Option.some.inj hfuel).symm

/-- The bytes from the place of the scan. -/
theorem drop_before : (before ++ rest).drop before.length = rest := List.drop_left

/-- The byte before the place of the scan is none of an identifier. -/
theorem startsWord_iff :
    (before.length = 0 ∨ ((before ++ rest)[before.length - 1]?.any isIdent) = false) ↔
      (before.getLast?.any isIdent) = false := by
  cases hbefore : before with
  | nil => exact iff_of_true (.inl rfl) rfl
  | cons c tail =>
    rw [← hbefore]
    have hlast : (before ++ rest)[before.length - 1]? = before.getLast? := by
      rw [List.getLast?_eq_getElem?, List.getElem?_append_left]
      rw [hbefore, List.length_cons]
      omega
    rw [hlast]
    apply or_iff_right
    rw [hbefore]
    exact fun hzero => List.cons_ne_nil c tail (List.eq_nil_of_length_eq_zero hzero)

/-- Blanking a range in the rest of the bytes, that ends between characters. -/
theorem blank_rest {opening hidden closing : List UInt8} (hlength : masked.length = before.length)
    (hclosing : ∀ c ∈ closing.head?, isContinuation c = false) :
    blank (before ++ (opening ++ (hidden ++ closing))) (masked ++ (opening ++ (hidden ++ closing)))
        (before.length + opening.length) (before.length + opening.length + hidden.length) =
      some (masked ++ (opening ++ (hidden.map hide ++ closing))) := by
  have hstop : (before ++ (opening ++ (hidden ++ closing))).length =
      before.length + opening.length + hidden.length + closing.length := by
    simp only [List.length_append]
    omega
  have hboundary : charBoundary (before ++ (opening ++ (hidden ++ closing)))
      (before.length + opening.length + hidden.length) = before.length + opening.length + hidden.length := by
    rw [charBoundary]
    split
    · rename_i hzero
      exact hzero.symm
    · have hdrop : (before ++ (opening ++ (hidden ++ closing))).drop
          (before.length + opening.length + hidden.length) = closing := by
        rw [← List.append_assoc, ← List.append_assoc]
        exact List.drop_left' (by simp only [List.length_append])
      rw [hdrop]
      cases closing with
      | nil => rfl
      | cons c closing =>
        rw [List.takeWhile_cons_of_neg]
        · rfl
        · rw [hclosing c rfl]
          exact Bool.false_ne_true
  rw [blank, min_eq_left (by omega), hboundary, if_pos]
  · have htake : (masked ++ (opening ++ (hidden ++ closing))).take (before.length + opening.length) =
        masked ++ opening := by
      rw [← List.append_assoc]
      exact List.take_left' (by rw [List.length_append, hlength])
    have hmiddle : ((masked ++ (opening ++ (hidden ++ closing))).take
        (before.length + opening.length + hidden.length)).drop (before.length + opening.length) = hidden := by
      rw [← List.append_assoc, ← List.append_assoc, List.take_left' (by simp only [List.length_append, hlength])]
      exact List.drop_left' (by rw [List.length_append, hlength])
    have hdrop : (masked ++ (opening ++ (hidden ++ closing))).drop
        (before.length + opening.length + hidden.length) = closing := by
      rw [← List.append_assoc, ← List.append_assoc]
      exact List.drop_left' (by simp only [List.length_append, hlength])
    rw [htake, hmiddle, hdrop, List.append_assoc, List.append_assoc]
  · refine ⟨by omega, ?_⟩
    simp only [List.length_append, hlength]
    omega

/-- A step of the scan that blanks a range and goes on past the bytes after it. -/
theorem Scans.cover {opening hidden closing after : List UInt8}
    (h : Scans lang before masked (opening ++ (hidden ++ (closing ++ after))) result)
    (hlength : masked.length = before.length) (hsome : opening ++ (hidden ++ closing) ≠ [])
    (hclosing : ∀ c ∈ (closing ++ after).head?, isContinuation c = false)
    (hstep : maskStep lang (before ++ (opening ++ (hidden ++ (closing ++ after))))
        (masked ++ (opening ++ (hidden ++ (closing ++ after)))) before.length =
      (blank (before ++ (opening ++ (hidden ++ (closing ++ after))))
        (masked ++ (opening ++ (hidden ++ (closing ++ after)))) (before.length + opening.length)
        (before.length + opening.length + hidden.length)).map
          (·, before.length + (opening ++ (hidden ++ closing)).length)) :
    Scans lang (before ++ (opening ++ (hidden ++ closing))) (masked ++ (opening ++ (hidden.map hide ++ closing)))
      after result := by
  rw [blank_rest hlength hclosing, Option.map_some] at hstep
  have hi : before.length < (before ++ (opening ++ (hidden ++ (closing ++ after)))).length := by
    have hpos := List.length_pos_iff.mpr hsome
    simp only [List.length_append] at hpos ⊢
    omega
  have hnext := Yields.step h hi hstep
  rw [Scans, List.length_append]
  simp only [List.append_assoc] at hnext ⊢
  exact hnext

/-- A step of the scan that blanks all that it goes past. -/
theorem Scans.coverAll {hidden after : List UInt8} (h : Scans lang before masked (hidden ++ after) result)
    (hlength : masked.length = before.length) (hsome : hidden ≠ [])
    (hafter : ∀ c ∈ after.head?, isContinuation c = false)
    (hstep : maskStep lang (before ++ (hidden ++ after)) (masked ++ (hidden ++ after)) before.length =
      (blank (before ++ (hidden ++ after)) (masked ++ (hidden ++ after)) before.length
        (before.length + hidden.length)).map (·, before.length + hidden.length)) :
    Scans lang (before ++ hidden) (masked ++ hidden.map hide) after result := by
  have hcover := @Scans.cover _ _ _ _ [] hidden [] _ h hlength
  rw [List.nil_append, List.nil_append, List.append_nil, List.append_nil] at hcover
  exact hcover hsome hafter hstep

end Runs

section Pass

variable {lang : Lang} {before masked tail result : List UInt8} {c : UInt8}

/-- Two bytes start a text when its first two bytes are they. -/
theorem isPrefixOf_two {x y : UInt8} : ([x, y] : List UInt8).isPrefixOf (c :: tail) = true ↔ c = x ∧ tail.head? = some y := by
  rw [List.isPrefixOf_iff_prefix]
  cases tail with
  | nil =>
    apply iff_of_false
    · intro h
      have hle := h.length_le
      simp only [List.length_cons, List.length_nil] at hle
      omega
    · intro h
      cases h.2
  | cons d tail =>
    rw [List.cons_prefix_cons, List.cons_prefix_cons, List.head?_cons, Option.some_inj]
    exact ⟨fun h => ⟨h.1.symm, h.2.1.symm⟩, fun h => ⟨h.1.symm, h.2.symm, List.nil_prefix⟩⟩

/-- A byte that the scanner leaves alone, by the bytes before it, those masked, and the bytes after it. -/
def Passes (lang : Lang) (before masked : List UInt8) (c : UInt8) (tail : List UInt8) : Prop :=
  match lang with
  | .rust =>
    c ≠ byte '"' ∧ c ≠ byte '\'' ∧ (c = byte '/' → tail.head? ≠ some (byte '/') ∧ tail.head? ≠ some (byte '*')) ∧
      (c = byte 'r' → (before.getLast?.any isIdent) = true ∨ isRawString (c :: tail) = false)
  | .js =>
    c ≠ byte '"' ∧ c ≠ byte '\'' ∧ c ≠ byte '\x60' ∧
      (c = byte '/' → (tail.head? ≠ some (byte '/') ∧ tail.head? ≠ some (byte '*')) ∧
        (regexMayStart masked = false ∨ regexEnd false tail = none))
  | .python => c ≠ byte '#' ∧ c ≠ byte '"' ∧ c ≠ byte '\''

/-- A byte that starts neither a line comment nor a block comment. -/
theorem not_comment (hcomment : c = byte '/' → tail.head? ≠ some (byte '/') ∧ tail.head? ≠ some (byte '*')) :
    ¬ (c = byte '/' ∧ (bytes "//").isPrefixOf (c :: tail) = true) ∧
      ¬ (c = byte '/' ∧ (bytes "/*").isPrefixOf (c :: tail) = true) := by
  constructor
  · rintro ⟨hc, hstarts⟩
    exact (hcomment hc).1 (isPrefixOf_two.mp hstarts).2
  · rintro ⟨hc, hstarts⟩
    exact (hcomment hc).2 (isPrefixOf_two.mp hstarts).2

/-- The scanner goes one byte on where it leaves the byte alone. -/
theorem maskStep_pass (hlength : masked.length = before.length) (h : Passes lang before masked c tail) :
    maskStep lang (before ++ c :: tail) (masked ++ c :: tail) before.length =
      some (masked ++ c :: tail, before.length + 1) := by
  rw [maskStep]
  dsimp only
  rw [drop_before, List.headD_cons]
  cases lang with
  | rust =>
    obtain ⟨hdouble, hsingle, hcomment, hraw⟩ := h
    obtain ⟨hline, hblock⟩ := not_comment hcomment
    rw [if_neg (fun hnot => hline ⟨(hnot.1.resolve_left fun h => Lang.noConfusion h.1).2, hnot.2⟩),
      if_neg (fun hnot => hblock hnot.2), if_neg (fun hnot => Lang.noConfusion hnot.1),
      if_neg (fun hnot => Lang.noConfusion hnot.1),
      if_neg (fun hnot => hdouble (hnot.resolve_left fun h => Lang.noConfusion h.1).2), if_neg,
      if_neg (fun hnot => hsingle hnot.2)]
    rintro ⟨_, hr, hword, hstarts⟩
    rw [startsWord_iff] at hword
    obtain hident | hnone := hraw hr
    · exact Bool.noConfusion (hident.symm.trans hword)
    · exact Bool.noConfusion (hstarts.symm.trans hnone)
  | js =>
    obtain ⟨hdouble, hsingle, htick, hslash⟩ := h
    obtain ⟨hline, hblock⟩ := not_comment fun hc => (hslash hc).1
    rw [if_neg (fun hnot => hline ⟨(hnot.1.resolve_left fun h => Lang.noConfusion h.1).2, hnot.2⟩),
      if_neg (fun hnot => hblock hnot.2)]
    split
    · rename_i hregex
      rw [List.take_left' hlength] at hregex
      rw [List.drop_one, List.tail_cons,
        (hslash hregex.2.1).2.resolve_left fun hnot => Bool.noConfusion (hregex.2.2.symm.trans hnot)]
    · rw [if_neg (fun hnot => Lang.noConfusion hnot.1), if_neg, if_neg (fun hnot => Lang.noConfusion hnot.1),
        if_neg (fun hnot => Lang.noConfusion hnot.1)]
      rintro (⟨_, hc | hc | hc⟩ | ⟨hlang, _⟩)
      · exact hdouble hc
      · exact hsingle hc
      · exact htick hc
      · cases hlang
  | python =>
    obtain ⟨hhash, hdouble, hsingle⟩ := h
    rw [if_neg, if_neg (fun hnot => hnot.1 rfl), if_neg (fun hnot => Lang.noConfusion hnot.1), if_neg, if_neg,
      if_neg (fun hnot => Lang.noConfusion hnot.1), if_neg (fun hnot => Lang.noConfusion hnot.1)]
    · rintro (⟨hlang, _⟩ | ⟨hlang, _⟩)
      · cases hlang
      · cases hlang
    · rintro ⟨_, hc | hc⟩
      · exact hdouble hc
      · exact hsingle hc
    · rintro ⟨⟨_, hc⟩ | ⟨hlang, _⟩, _⟩
      · exact hhash hc
      · exact hlang rfl

/-- The scan over a byte that the scanner leaves alone. -/
theorem Scans.pass (h : Scans lang before masked (c :: tail) result) (hlength : masked.length = before.length)
    (hpass : Passes lang before masked c tail) : Scans lang (before ++ [c]) (masked ++ [c]) tail result := by
  have hi : before.length < (before ++ c :: tail).length := by
    simp only [List.length_append, List.length_cons]
    omega
  have hnext := Yields.step h hi (maskStep_pass hlength hpass)
  rw [Scans, List.length_append]
  simp only [List.append_assoc, List.singleton_append]
  exact hnext

/-- The scan over bytes that the scanner leaves alone. -/
theorem Scans.passAll {w after : List UInt8} (h : Scans lang before masked (w ++ after) result)
    (hlength : masked.length = before.length)
    (hpass : ∀ left c right, w = left ++ c :: right → Passes lang (before ++ left) (masked ++ left) c (right ++ after)) :
    Scans lang (before ++ w) (masked ++ w) after result := by
  induction w generalizing before masked with
  | nil =>
    rw [List.append_nil, List.append_nil]
    exact h
  | cons c w ih =>
    have hfirst := hpass [] c w rfl
    rw [List.append_nil, List.append_nil] at hfirst
    have hrest := ih (h.pass hlength hfirst) (by rw [List.length_append, List.length_append, hlength])
    simp only [List.append_assoc, List.singleton_append] at hrest
    apply hrest
    intro left d right hw
    exact hpass (c :: left) d right (by rw [hw]; rfl)

end Pass

end Devkit.Weakened
