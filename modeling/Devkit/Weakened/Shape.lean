import Devkit.Weakened.Mask
import Mathlib.Order.Lattice

/-!
# A masked text keeps its shape

Whatever the text is, every range that is blanked starts and stops between characters, so the masked bytes are those of
a text of the same length, with its newlines where they were, and the scan never reads outside the bytes.
-/

namespace Devkit.Weakened

open Devkit.Library.Utf8

/-- A blanked byte is a newline or a space. -/
theorem hide_cases (b : UInt8) : hide b = byte '\n' ∨ hide b = byte ' ' := by
  rw [hide]
  split
  · rename_i h
    exact .inl h
  · exact .inr rfl

/-- Blanking again changes nothing. -/
theorem hide_hide (b : UInt8) : hide (hide b) = hide b := by
  obtain h | h := hide_cases b
  all_goals
    rw [h]
    rfl

/-- Only a newline is blanked to one. -/
theorem hide_eq_newline {b : UInt8} : hide b = byte '\n' ↔ b = byte '\n' := by
  rw [hide]
  split
  · rfl
  · rename_i h
    exact iff_of_false (by decide) h

/-- Blanked bytes are those of a text. -/
theorem exists_encode_hide (l : List UInt8) : ∃ made, l.map hide = encode made := by
  induction l with
  | nil => exact ⟨[], rfl⟩
  | cons b l ih =>
    obtain ⟨made, hmade⟩ := ih
    obtain h | h := hide_cases b
    · exact ⟨'\n' :: made, by rw [List.map_cons, h, hmade]; rfl⟩
    · exact ⟨' ' :: made, by rw [List.map_cons, h, hmade]; rfl⟩

section Places

variable {chars : List Char} {out : List UInt8} {i : ℕ}

/-- A place between two characters of a text. -/
def IsBoundary (chars : List Char) (i : ℕ) : Prop := ∃ left right, chars = left ++ right ∧ (encode left).length = i

theorem IsBoundary.le (h : IsBoundary chars i) : i ≤ (encode chars).length := by
  obtain ⟨left, right, rfl, rfl⟩ := h
  rw [encode_append, List.length_append]
  omega

/-- An ASCII byte is between two places between characters. -/
theorem isBoundary_ascii {b : UInt8} (hb : (encode chars)[i]? = some b) (hsmall : b.toNat < 128) :
    IsBoundary chars i ∧ IsBoundary chars (i + 1) := by
  obtain ⟨left, c, right, rfl, hleft, hc⟩ := split_single hb hsmall
  refine ⟨⟨left, c :: right, rfl, hleft⟩, left ++ [c], right, ?_, ?_⟩
  · rw [List.append_assoc, List.singleton_append]
  · rw [encode_append, List.length_append, hleft, encode_cons, encode_nil, hc]
    rfl

/-- The next place between characters is at or after a place, and between characters. -/
theorem charBoundary_spec (hi : i ≤ (encode chars).length) :
    i ≤ charBoundary (encode chars) i ∧ IsBoundary chars (charBoundary (encode chars) i) := by
  rw [charBoundary]
  split
  · rename_i hzero
    exact ⟨hzero.le, [], chars, rfl, rfl⟩
  · refine ⟨Nat.le_add_right .., split_boundary ?_ ?_⟩
    · have htake := List.IsPrefix.length_le (List.takeWhile_prefix isContinuation (l := (encode chars).drop i))
      rw [List.length_drop] at htake
      omega
    · intro b hb
      have hsplit := List.takeWhile_append_dropWhile (p := isContinuation) (l := (encode chars).drop i)
      rw [← List.getElem?_drop, ← hsplit, List.getElem?_append_right (by rw [hsplit]),  hsplit, Nat.sub_self] at hb
      have hhead := List.head?_dropWhile_not isContinuation ((encode chars).drop i)
      rw [List.head?_eq_getElem?, hb] at hhead
      exact hhead

/-- Blanking from between characters overwrites whole characters. -/
theorem blank_overwrites (h : Overwrites hide chars out) {start stop : ℕ} (hstart : IsBoundary chars start)
    (hle : start ≤ stop) :
    ∃ after, blank (encode chars) out start stop = some after ∧ Overwrites hide chars after := by
  obtain ⟨hstop, hboundary⟩ := @charBoundary_spec chars _ (Nat.min_le_right stop (encode chars).length)
  have hin := hboundary.le
  rw [blank]
  rw [if_pos ⟨le_trans (le_min hle hstart.le) hstop, by rw [h.length_eq]; exact hin⟩]
  refine ⟨_, rfl, ?_⟩
  have hsame : start ≤ charBoundary (encode chars) (min stop (encode chars).length) :=
    le_trans (le_min hle hstart.le) hstop
  obtain ⟨left, right, rfl, rfl⟩ := hstart
  obtain ⟨upto, rest, hchars, hlength⟩ := hboundary
  obtain ⟨middle, rfl, rfl⟩ | ⟨extra, rfl, rfl⟩ := List.append_eq_append_iff.mp hchars
  · rw [← hlength]
    exact h.cover_middle hide_hide
  · -- the range is empty
    rw [← hlength, encode_append, List.length_append] at hsame
    have hextra : extra = [] := by
      cases extra with
      | nil => rfl
      | cons c extra =>
        obtain ⟨first, tail, hc, _⟩ := encodeChar_shape c
        rw [encode_cons, hc, List.cons_append, List.length_cons] at hsame
        omega
    rw [hextra, List.append_nil] at h hlength ⊢
    rw [← hlength]
    have hcover := @Overwrites.cover_middle hide upto [] _ _ hide_hide h
    rw [List.append_nil] at hcover
    exact hcover

end Places

/-- A regex literal closes past its start. -/
theorem regexEnd_pos {inClass : Bool} {rest : List UInt8} {n : ℕ} (h : regexEnd inClass rest = some n) : 1 ≤ n := by
  cases rest with
  | nil => cases h
  | cons c rest =>
    by_cases hc : c = byte '\\'
    · obtain rfl := hc
      cases rest with
      | nil => cases h
      | cons d rest =>
        rw [regexEnd_escape] at h
        split at h
        · cases h
        · obtain ⟨m, _, rfl⟩ := Option.map_eq_some_iff.mp h
          omega
    · rw [regexEnd_cons hc] at h
      split_ifs at h
      · obtain ⟨m, _, rfl⟩ := Option.map_eq_some_iff.mp h
        omega
      · obtain ⟨m, _, rfl⟩ := Option.map_eq_some_iff.mp h
        omega
      · obtain rfl := Option.some.inj h
        rfl
      · obtain ⟨m, _, rfl⟩ := Option.map_eq_some_iff.mp h
        omega

/-- A block comment that is open ends. -/
theorem blockCommentEnd_isSome (lang : Lang) {depth : ℕ} (hopen : 0 < depth) (rest : List UInt8) :
    ∃ n, blockCommentEnd lang depth rest = some n := by
  fun_induction blockCommentEnd lang depth rest with
  | case1 => exact ⟨0, rfl⟩
  | case2 => exact ⟨1, rfl⟩
  | case3 depth c d rest hopens ih =>
    obtain ⟨n, hn⟩ := ih (Nat.succ_pos depth)
    exact ⟨n + 2, by rw [hn]; rfl⟩
  | case4 => omega
  | case5 => exact ⟨2, rfl⟩
  | case6 depth c d rest hopens hcloses hzero hlast ih =>
    obtain ⟨n, hn⟩ := ih (by omega)
    exact ⟨n + 2, by rw [hn]; rfl⟩
  | case7 depth c d rest hopens hcloses ih =>
    obtain ⟨n, hn⟩ := ih hopen
    exact ⟨n + 1, by rw [hn]; rfl⟩

/-- A block comment that starts here ends past its start. -/
theorem blockCommentEnd_starts (lang : Lang) {rest : List UInt8} (h : (bytes "/*").isPrefixOf rest = true) :
    ∃ n, 2 ≤ n ∧ blockCommentEnd lang 0 rest = some n := by
  obtain ⟨rest, rfl⟩ := List.isPrefixOf_iff_prefix.mp h
  obtain ⟨n, hn⟩ := blockCommentEnd_isSome lang Nat.one_pos rest
  refine ⟨n + 2, by omega, ?_⟩
  change blockCommentEnd lang 0 (byte '/' :: byte '*' :: rest) = _
  rw [blockCommentEnd, if_pos ⟨rfl, rfl, .inl rfl⟩, hn]
  rfl

/-- A quote reaches past itself. -/
theorem charLiteralLen_pos (rest : List UInt8) : 1 ≤ charLiteralLen rest := by
  rw [charLiteralLen]
  split
  · split
    all_goals omega
  · dsimp only
    split
    all_goals omega

/-- The close of a raw string is where it is found: after its bytes as far as they go. -/
theorem rawStop_le (b close : List UInt8) {body : ℕ} (hbody : body ≤ b.length) :
    body ≤ ((closePosition close (b.drop body)).map (body + ·)).getD b.length := by
  cases closePosition close (b.drop body) with
  | none => exact hbody
  | some e => exact Nat.le_add_right ..

section Step

variable {lang : Lang} {chars : List Char} {b out : List UInt8} {i : ℕ}

/-- Blanking a range changes nothing before it. -/
theorem take_blank {after : List UInt8} {start stop n : ℕ} (h : blank b out start stop = some after) (hn : n ≤ start) :
    after.take n = out.take n := by
  rw [blank] at h
  split at h
  · rename_i hrange
    obtain rfl := Option.some.inj h
    rw [List.append_assoc, List.take_append_of_le_length, List.take_take, min_eq_left hn]
    rw [List.length_take]
    omega
  · cases h

/-- What a step of the scan can do: it leaves the bytes alone, or blanks a range that starts at the ASCII byte of its
place or after an ASCII byte from there on; it goes on from a later place. -/
theorem maskStep_cases (lang : Lang) (out : List UInt8) (hi : i < b.length) :
    (∃ next, i < next ∧ maskStep lang b out i = some (out, next)) ∨
    ∃ start stop next k c, i < next ∧ start ≤ stop ∧ i ≤ k ∧ (start = k ∨ start = k + 1) ∧ b[k]? = some c ∧
      c.toNat < 128 ∧ maskStep lang b out i = (blank b out start stop).map (·, next) := by
  have hrest : b.drop i = b[i] :: b.drop (i + 1) := List.drop_eq_getElem_cons hi
  have hget : b[i]? = some b[i] := List.getElem?_eq_getElem hi
  have hat : ∀ k : ℕ, (b.drop i)[k]? = b[i + k]? := fun k => List.getElem?_drop
  rw [maskStep]
  dsimp only
  rw [hrest, List.headD_cons, ← hrest]
  split
  · rename_i hcomment
    right
    have hsmall : b[i].toNat < 128 ∧ (b[i] != byte '\n') = true := by
      obtain ⟨⟨_, hc⟩ | ⟨_, hc⟩, _⟩ := hcomment
      all_goals
        rw [hc]
        decide
    have hpos : 0 < ((b.drop i).takeWhile (· != byte '\n')).length := by
      rw [hrest, List.takeWhile_cons, if_pos hsmall.2]
      exact Nat.succ_pos _
    exact ⟨_, _, _, i, _, by omega, Nat.le_add_right .., le_rfl, .inl rfl, hget, hsmall.1, rfl⟩
  · split
    · rename_i hopens
      right
      have hsmall : b[i].toNat < 128 := by
        rw [hopens.2.1]
        decide
      obtain ⟨n, hn, hend⟩ := blockCommentEnd_starts lang hopens.2.2
      rw [hend, Option.bind_some]
      exact ⟨_, _, _, i, _, by omega, Nat.le_add_right .., le_rfl, .inl rfl, hget, hsmall, rfl⟩
    · split
      · rename_i hslash
        have hsmall : b[i].toNat < 128 := by
          rw [hslash.2.1]
          decide
        split
        · rename_i n hend
          right
          have hn := regexEnd_pos hend
          exact ⟨_, _, _, i, _, by omega, by omega, le_rfl, .inr rfl, hget, hsmall, rfl⟩
        · exact .inl ⟨i + 1, Nat.lt_succ_self i, rfl⟩
      · split
        · rename_i hquote
          right
          have hsmall : b[i].toNat < 128 := by
            obtain ⟨_, hc | hc⟩ := hquote
            all_goals
              rw [hc]
              decide
          split
          · -- three quotes: the body starts after the third
            rename_i htriple
            have hthird : b[i + 2]? = some b[i] := (hat 2).symm.trans htriple.2.2
            exact ⟨_, _, _, i + 2, _, by omega, le_max_right .., Nat.le_add_right .., .inr rfl, hthird, hsmall, rfl⟩
          · exact ⟨_, _, _, i, _, by omega, le_max_right .., le_rfl, .inr rfl, hget, hsmall, rfl⟩
        · split
          · rename_i hquote
            right
            have hsmall : b[i].toNat < 128 := by
              obtain ⟨_, hc | hc | hc⟩ | ⟨_, hc⟩ := hquote
              all_goals
                rw [hc]
                decide
            exact ⟨_, _, _, i, _, by omega, le_max_right .., le_rfl, .inr rfl, hget, hsmall, rfl⟩
          · split
            · rename_i hraw
              right
              have hopens : b[i + (1 + hashes (b.drop i))]? = some (byte '"') := by
                rw [← hat]
                exact eq_of_beq hraw.2.2.2
              have hin : i + (1 + hashes (b.drop i)) < b.length := (List.getElem?_eq_some_iff.mp hopens).1
              have hle := rawStop_le b (byte '"' :: List.replicate (hashes (b.drop i)) (byte '#'))
                (show i + 2 + hashes (b.drop i) ≤ b.length by omega)
              refine ⟨_, _, _, i + (1 + hashes (b.drop i)), _, ?_, hle, Nat.le_add_right .., .inr (by omega), hopens,
                by decide, rfl⟩
              rw [List.length_cons]
              omega
            · left
              split
              · have hlen := charLiteralLen_pos (b.drop i)
                exact ⟨_, by omega, rfl⟩
              · exact ⟨i + 1, Nat.lt_succ_self i, rfl⟩

/-- The scan goes on from every byte of a text, and what it blanks are whole characters. -/
theorem maskStep_overwrites (lang : Lang) (h : Overwrites hide chars out) (hi : i < (encode chars).length) :
    ∃ after i', maskStep lang (encode chars) out i = some (after, i') ∧ i < i' ∧ Overwrites hide chars after := by
  obtain ⟨next, hlt, hstep⟩ | ⟨start, stop, next, k, c, hlt, hle, _, hstart, hk, hc, hstep⟩ :=
    maskStep_cases lang out hi
  · exact ⟨out, next, hstep, hlt, h⟩
  · have hboundary : IsBoundary chars start := by
      obtain ⟨hat, hafter⟩ := isBoundary_ascii hk hc
      obtain rfl | rfl := hstart
      · exact hat
      · exact hafter
    obtain ⟨after, hblank, hafter⟩ := blank_overwrites h hboundary hle
    exact ⟨after, next, by rw [hstep, hblank]; rfl, hlt, hafter⟩

/-- A step of the scan changes nothing before its place, and goes on from a later one. -/
theorem maskStep_take {after : List UInt8} {i' : ℕ} (hi : i < b.length)
    (hstep : maskStep lang b out i = some (after, i')) : i < i' ∧ after.take i = out.take i := by
  obtain ⟨next, hlt, hsame⟩ | ⟨start, stop, next, k, c, hlt, _, hk, hstart, _, _, hblank⟩ :=
    maskStep_cases lang out hi
  · obtain ⟨rfl, rfl⟩ := Prod.mk.inj (Option.some.inj (hsame.symm.trans hstep))
    exact ⟨hlt, rfl⟩
  · obtain ⟨blanked, hblanked, hpair⟩ := Option.map_eq_some_iff.mp (hblank.symm.trans hstep)
    obtain ⟨rfl, rfl⟩ := Prod.mk.inj hpair
    exact ⟨hlt, take_blank hblanked (by omega)⟩

/-- The scan reaches the end of a text. -/
theorem maskLoop_overwrites (lang : Lang) (fuel : ℕ) (h : Overwrites hide chars out)
    (hfuel : (encode chars).length ≤ i + fuel) :
    ∃ after, maskLoop lang (encode chars) fuel out i = some after ∧ Overwrites hide chars after := by
  induction fuel generalizing out i with
  | zero =>
    rw [maskLoop, if_neg (by omega)]
    exact ⟨out, rfl, h⟩
  | succ fuel ih =>
    rw [maskLoop]
    split
    · rename_i hi
      obtain ⟨after, i', hstep, hlt, hafter⟩ := maskStep_overwrites lang h hi
      rw [hstep, Option.bind_some]
      exact ih hafter (by omega)
    · exact ⟨out, rfl, h⟩

end Step

/-- The bytes of a text are those of its characters. -/
theorem asBytes_eq (text : String) : asBytes text = encode text.toList := by
  rw [asBytes, ← String.utf8Encode_toList, List.utf8Encode, List.toList_data_toByteArray]
  rfl

/-- The bytes of a text are read as the text. -/
theorem fromUTF8?_encode (chars : List Char) :
    String.fromUTF8? (encode chars).toByteArray = some (String.ofList chars) := by
  have hvalid : (encode chars).toByteArray.IsValidUTF8 := ByteArray.isValidUTF8_utf8Encode (l := chars)
  rw [String.fromUTF8?, dif_pos hvalid]
  rfl

/-- Masking a text never fails, and what it gives is the text with some of its characters blanked. -/
theorem exists_mask (lang : Lang) (text : String) : ∃ masked, mask lang text = some masked ∧
    maskLoop lang (asBytes text) (asBytes text).length (asBytes text) 0 = some (asBytes masked) ∧
    Overwrites hide text.toList (asBytes masked) := by
  rw [mask, asBytes_eq]
  obtain ⟨after, hloop, hafter⟩ := maskLoop_overwrites (i := 0) lang (encode text.toList).length
    (Overwrites.refl hide text.toList) (Nat.le_add_left ..)
  obtain ⟨made, rfl⟩ := hafter.exists_encode fun c => exists_encode_hide _
  rw [hloop, Option.bind_some, fromUTF8?_encode]
  refine ⟨String.ofList made, rfl, ?_⟩
  rw [asBytes_eq, String.toList_ofList]
  exact ⟨rfl, hafter⟩

/-- A masked text has as many bytes as the text, and its newlines where they were. -/
theorem mask_shape {lang : Lang} {text masked : String} (h : mask lang text = some masked) :
    (asBytes masked).length = (asBytes text).length ∧
      ∀ i : ℕ, (asBytes masked)[i]? = some (byte '\n') ↔ (asBytes text)[i]? = some (byte '\n') := by
  obtain ⟨other, hother, _, hover⟩ := exists_mask lang text
  obtain rfl := Option.some.inj (hother.symm.trans h)
  rw [asBytes_eq text]
  refine ⟨hover.length_eq, fun i => ?_⟩
  obtain hsame | hhidden := hover.getElem?_eq i
  · rw [hsame]
  · rw [hhidden]
    cases (encode text.toList)[i]? with
    | none => exact Iff.rfl
    | some b => rw [Option.map_some, Option.some_inj, Option.some_inj, hide_eq_newline]

end Devkit.Weakened
