import Devkit.Weakened.Lexemes
import Mathlib.Order.Lattice

/-!
# Where literals and comments end

Each of the scanner's searches for an end finds the end that the grammar gives: of a string, a raw string, a block
comment, a regex literal and a char literal.
-/

namespace Devkit.Weakened

open Devkit.Library.Utf8

section Strings

variable {quote : UInt8} {width : ℕ} {stops : List (List UInt8)} {body after : List UInt8}

/-- Copies of a quote are found where they start the bytes. -/
theorem closes_iff {c : UInt8} {rest : List UInt8} (hwidth : 0 < width) :
    (c = quote ∧ ((c :: rest).take width).all (· == quote) ∧ width ≤ (c :: rest).length) ↔
      List.replicate width quote <+: c :: rest := by
  rw [List.prefix_iff_eq_take, List.length_replicate]
  constructor
  · rintro ⟨_, hall, hle⟩
    symm
    rw [List.eq_replicate_iff, List.length_take]
    refine ⟨min_eq_left hle, fun b hb => ?_⟩
    exact eq_of_beq (List.all_eq_true.mp hall b hb)
  · intro htake
    have hle : width ≤ (c :: rest).length := by
      have hlength := congrArg List.length htake
      rw [List.length_replicate, List.length_take] at hlength
      omega
    refine ⟨?_, ?_, hle⟩
    · obtain ⟨n, rfl⟩ := Nat.exists_eq_succ_of_ne_zero hwidth.ne'
      rw [List.take_succ_cons, List.replicate_succ] at htake
      exact (List.cons.inj htake).1.symm
    · rw [← htake, List.all_replicate]
      split
      · rfl
      · exact beq_self_eq_true quote

/-- The string ends after the quotes that close it. -/
theorem stringEnd_body (after : List UInt8) (hbody : Body quote width stops body) (hquote : quote ≠ byte '\\') (hwidth : 0 < width) :
    stringEnd quote width (body ++ (List.replicate width quote ++ after)) = body.length + width := by
  induction hbody with
  | nil =>
    obtain ⟨n, hn⟩ := Nat.exists_eq_succ_of_ne_zero hwidth.ne'
    have hcopies : List.replicate width quote ++ after = quote :: (List.replicate n quote ++ after) := by
      rw [hn, List.replicate_succ, List.cons_append]
    rw [List.nil_append, hcopies, stringEnd_cons hquote, if_pos, List.length_nil, Nat.zero_add]
    rw [closes_iff hwidth, ← hcopies]
    exact List.prefix_append ..
  | escape d _ ih =>
    rw [List.cons_append, List.cons_append, stringEnd_escape, ih, List.length_cons, List.length_cons]
    omega
  | @plain c rest hc hnone _ _ ih =>
    rw [List.cons_append, stringEnd_cons hc, if_neg, ih, List.length_cons]
    · omega
    · rw [closes_iff hwidth]
      intro hcloses
      apply hnone
      have hlong : c :: rest ++ List.replicate width quote <+: c :: (rest ++ (List.replicate width quote ++ after)) := by
        rw [← List.append_assoc, ← List.cons_append]
        exact List.prefix_append ..
      apply List.prefix_of_prefix_length_le hcloses hlong
      rw [List.length_append, List.length_replicate]
      omega

/-- A body that one quote closes does not start with the quote. -/
theorem Body.head_ne (hbody : Body quote 1 stops body) (hquote : quote ≠ byte '\\') : body.head? ≠ some quote := by
  cases hbody with
  | nil => exact Option.some_ne_none quote ∘ Eq.symm
  | escape d _ =>
    rw [List.head?_cons]
    exact fun h => hquote (Option.some.inj h).symm
  | plain hc hnone _ _ =>
    rw [List.head?_cons]
    intro h
    apply hnone
    rw [Option.some.inj h]
    exact ⟨_, rfl⟩

end Strings

/-- The closing bytes of a raw string are found where they are. -/
theorem closePosition_body {close body : List UInt8} (after : List UInt8) (hclose : close ≠ []) (hbody : Unclosed close body) :
    closePosition close (body ++ (close ++ after)) = some body.length := by
  induction body with
  | nil =>
    obtain ⟨c, rest, rfl⟩ := List.exists_cons_of_ne_nil hclose
    have hstarts : (c :: rest).isPrefixOf (c :: (rest ++ after)) = true :=
      List.isPrefixOf_iff_prefix.mpr (List.prefix_append (c :: rest) after)
    change closePosition (c :: rest) (c :: (rest ++ after)) = some 0
    rw [closePosition, if_pos hstarts]
  | cons b body ih =>
    have hnone := hbody (b :: body) (List.cons_ne_nil b body) (List.suffix_refl _)
    rw [List.cons_append, closePosition, if_neg, ih]
    · rfl
    · intro tail hsome htail
      exact hbody tail hsome (htail.trans (List.suffix_cons b body))
    · rw [List.isPrefixOf_iff_prefix]
      intro hstarts
      apply hnone
      have hlong : b :: body ++ close <+: b :: (body ++ (close ++ after)) := by
        rw [← List.append_assoc, ← List.cons_append]
        exact List.prefix_append ..
      apply List.prefix_of_prefix_length_le hstarts hlong
      rw [List.length_append]
      omega

/-- The marks of a raw string are counted up to its quote. -/
theorem hashes_marks (c : UInt8) (marks : ℕ) (rest : List UInt8) :
    hashes (c :: (List.replicate marks (byte '#') ++ byte '"' :: rest)) = marks := by
  rw [hashes, List.drop_one, List.tail_cons]
  induction marks with
  | zero => rfl
  | succ marks ih =>
    rw [List.replicate_succ, List.cons_append, List.takeWhile_cons_of_pos, List.length_cons, ih]
    exact beq_self_eq_true (byte '#')

/-- A raw string is seen by its marks and its quote. -/
theorem isRawString_marks (c : UInt8) (marks : ℕ) (rest : List UInt8) :
    isRawString (c :: (List.replicate marks (byte '#') ++ byte '"' :: rest)) = true := by
  rw [isRawString, hashes_marks, Nat.add_comm, List.getElem?_cons_succ,
    List.getElem?_append_right (List.length_replicate ..).le, List.length_replicate, Nat.sub_self]
  rfl

/-- A block comment is closed by something. -/
theorem CommentBody.exists_cons {nests : Bool} {depth : ℕ} {body : List UInt8} (h : CommentBody nests depth body) :
    ∃ c rest, body = c :: rest := by
  cases h with
  | last => exact ⟨_, _, rfl⟩
  | closes _ => exact ⟨_, _, rfl⟩
  | opens _ _ => exact ⟨_, _, rfl⟩
  | plain _ _ _ => exact ⟨_, _, rfl⟩

/-- The block comment ends where the one that is open is closed. -/
theorem blockCommentEnd_body {lang : Lang} {nests : Bool} {depth : ℕ} {body after : List UInt8}
    (hlang : nests = true ↔ lang = .rust) (hbody : CommentBody nests depth body) :
    0 < depth ∧ blockCommentEnd lang depth (body ++ after) = some body.length := by
  have hstar : byte '*' ≠ byte '/' := by decide
  induction hbody with
  | last =>
    refine ⟨Nat.one_pos, ?_⟩
    change blockCommentEnd lang 1 (byte '*' :: byte '/' :: after) = some 2
    rw [blockCommentEnd, if_neg (fun h => hstar h.1), if_pos ⟨rfl, rfl⟩, if_neg Nat.one_ne_zero, if_pos rfl]
  | @closes depth rest _ ih =>
    refine ⟨Nat.succ_pos _, ?_⟩
    change blockCommentEnd lang (depth + 2) (byte '*' :: byte '/' :: (rest ++ after)) = _
    rw [blockCommentEnd, if_neg (fun h => hstar h.1), if_pos ⟨rfl, rfl⟩, if_neg (by omega), if_neg (by omega)]
    change (blockCommentEnd lang (depth + 1) (rest ++ after)).map (· + 2) = _
    rw [ih.2]
    rfl
  | @opens depth rest hnests _ ih =>
    refine ⟨Nat.succ_pos _, ?_⟩
    change blockCommentEnd lang (depth + 1) (byte '/' :: byte '*' :: (rest ++ after)) = _
    rw [blockCommentEnd, if_pos ⟨rfl, rfl, .inr (hlang.mp hnests)⟩, ih.2]
    rfl
  | @plain depth c rest hclose hopen hrest ih =>
    obtain ⟨d, tail, rfl⟩ := hrest.exists_cons
    refine ⟨ih.1, ?_⟩
    change blockCommentEnd lang depth (c :: d :: (tail ++ after)) = _
    have hshut : ¬ (c = byte '*' ∧ d = byte '/') := by
      rintro ⟨rfl, rfl⟩
      exact hclose ⟨tail, rfl⟩
    have hnest : ¬ (c = byte '/' ∧ d = byte '*' ∧ (depth = 0 ∨ lang = .rust)) := by
      rintro ⟨rfl, rfl, hzero | hrust⟩
      · exact ih.1.ne' hzero
      · exact hopen (hlang.mpr hrust) ⟨tail, rfl⟩
    rw [blockCommentEnd, if_neg hnest, if_neg hshut]
    change (blockCommentEnd lang depth (d :: tail ++ after)).map (· + 1) = _
    rw [ih.2]
    rfl

/-- The regex literal ends at the `/` after its body. -/
theorem regexEnd_body {inClass : Bool} {body after : List UInt8} (hbody : RegexBody inClass body) :
    regexEnd inClass (body ++ byte '/' :: after) = some (body.length + 1) := by
  induction hbody with
  | nil =>
    rw [List.nil_append, regexEnd_cons (by decide), if_neg (by decide), if_neg (by decide), if_neg (by decide),
      if_pos ⟨rfl, rfl⟩]
    rfl
  | @escape inClass d rest hd _ ih =>
    rw [List.cons_append, List.cons_append, regexEnd_escape, if_neg hd, ih]
    rfl
  | opens _ ih =>
    rw [List.cons_append, regexEnd_cons (by decide), if_neg (by decide), if_pos rfl, ih]
    rfl
  | closes _ ih =>
    rw [List.cons_append, regexEnd_cons (by decide), if_neg (by decide), if_neg (by decide), if_pos rfl, ih]
    rfl
  | @plain inClass c rest hescape hline hout hin _ ih =>
    rw [List.cons_append, regexEnd_cons hescape, if_neg hline]
    cases inClass with
    | false =>
      obtain ⟨hslash, hopen⟩ := hout rfl
      rw [if_neg hopen]
      split
      · rw [ih]
        rfl
      · rw [if_neg (fun h => hslash h.1), ih]
        rfl
    | true =>
      rw [if_neg (hin rfl), ih]
      split
      · rfl
      · rw [if_neg (fun h => Bool.noConfusion h.2)]
        rfl

section Chars

/-- The byte of an ASCII character by its number. -/
theorem toNat_byte {c : Char} (hc : c.toNat < 128) : (byte c).toNat = c.toNat := by
  rw [byte, Nat.toUInt8_eq, UInt8.toNat_ofNat']
  omega

/-- No byte of a character is the byte of another one that is ASCII. -/
theorem encodeChar_ne {c x : Char} (hx : x.toNat < 128) (hne : c ≠ x) {b : UInt8} (hb : b ∈ String.utf8EncodeChar c) :
    b ≠ byte x := by
  rintro rfl
  by_cases hc : c.toNat < 128
  · rw [encodeChar_ascii hc, List.mem_singleton] at hb
    apply hne
    have hnat := congrArg UInt8.toNat hb
    rw [toNat_byte hx, UInt8.toNat_ofNat'] at hnat
    apply Char.toNat_inj.mp
    omega
  · have hle := le_encodeChar (not_lt.mp hc) hb
    rw [toNat_byte hx] at hle
    omega

/-- The first byte of a character gives its width. -/
theorem leadWidth_encodeChar {c : Char} {first : UInt8} {rest : List UInt8}
    (h : String.utf8EncodeChar c = first :: rest) : leadWidth first = (String.utf8EncodeChar c).length := by
  obtain ⟨other, tail, hshape, _, hwidth⟩ := encodeChar_shape c
  obtain ⟨rfl, rfl⟩ := List.cons.inj (h.symm.trans hshape)
  rw [h, List.length_cons, leadWidth]
  simp only [UInt8.le_iff_toNat_le]
  have hlow : (0x7f : UInt8).toNat = 127 := rfl
  have htwo : (0xc0 : UInt8).toNat = 192 := rfl
  have hthree : (0xdf : UInt8).toNat = 223 := rfl
  have hfour : (0xe0 : UInt8).toNat = 224 := rfl
  have hfive : (0xef : UInt8).toNat = 239 := rfl
  rw [hlow, htwo, hthree, hfour, hfive]
  split_ifs
  all_goals omega

/-- The quote of a char literal reaches over a character to the quote after it. -/
theorem charLiteralLen_plain {c : Char} {after : List UInt8} (hescape : c ≠ '\\') :
    charLiteralLen (byte '\'' :: (String.utf8EncodeChar c ++ byte '\'' :: after)) =
      (String.utf8EncodeChar c).length + 2 := by
  obtain ⟨first, rest, hshape, _⟩ := encodeChar_shape c
  have hfirst : first ≠ byte '\\' := encodeChar_ne (by decide) hescape (by rw [hshape]; exact List.mem_cons_self)
  have hone : (byte '\'' :: (String.utf8EncodeChar c ++ byte '\'' :: after))[1]? = some first := by
    rw [hshape]
    rfl
  have hclose : (byte '\'' :: (String.utf8EncodeChar c ++ byte '\'' :: after))[1 + (String.utf8EncodeChar c).length]? =
      some (byte '\'') := by
    rw [Nat.add_comm, List.getElem?_cons_succ, List.getElem?_append_right le_rfl, Nat.sub_self]
    rfl
  rw [charLiteralLen, hone, if_neg (fun h => hfirst (Option.some.inj h))]
  dsimp only [Option.map_some, Option.getD_some]
  rw [leadWidth_encodeChar hshape, if_pos hclose]

/-- The quote of a char literal reaches over an escape to the first quote after the byte it escapes. -/
theorem charLiteralLen_escape {escaped : List UInt8} (after : List UInt8) (hquote : byte '\'' ∉ escaped) :
    charLiteralLen (byte '\'' :: byte '\\' :: (escaped ++ byte '\'' :: after)) = escaped.length + 3 := by
  have hfind : (escaped ++ byte '\'' :: after).findIdx? (· == byte '\'') = some escaped.length := by
    rw [List.findIdx?_append, List.findIdx?_eq_none_iff.mpr, Option.none_or]
    · rw [List.findIdx?_cons, if_pos (beq_self_eq_true _), Option.map_some, Nat.zero_add]
    · intro b hb
      rw [beq_eq_false_iff_ne]
      exact fun h => hquote (h ▸ hb)
  have hone : (byte '\'' :: byte '\\' :: (escaped ++ byte '\'' :: after))[1]? = some (byte '\\') := rfl
  have hdrop : (byte '\'' :: byte '\\' :: (escaped ++ byte '\'' :: after)).drop 2 = escaped ++ byte '\'' :: after := rfl
  rw [charLiteralLen, if_pos hone, hdrop, hfind]

/-- The quote of a lifetime reaches over itself only. -/
theorem charLiteralLen_lifetime {name : List Char} {after : List UInt8} (hsome : name ≠ [])
    (hname : ∀ c ∈ name, c ≠ '\\' ∧ c ≠ '\'') (hquote : after.head? ≠ some (byte '\'')) :
    charLiteralLen (byte '\'' :: (encode name ++ after)) = 1 := by
  obtain ⟨c, name, rfl⟩ := List.exists_cons_of_ne_nil hsome
  obtain ⟨first, rest, hshape, _⟩ := encodeChar_shape c
  have hfirst : first ≠ byte '\\' :=
    encodeChar_ne (by decide) (hname c List.mem_cons_self).1 (by rw [hshape]; exact List.mem_cons_self)
  have hone : (byte '\'' :: (encode (c :: name) ++ after))[1]? = some first := by
    rw [encode_cons, hshape]
    rfl
  have hclose : (byte '\'' :: (encode (c :: name) ++ after))[1 + (String.utf8EncodeChar c).length]? ≠
      some (byte '\'') := by
    rw [Nat.add_comm, List.getElem?_cons_succ, encode_cons, List.append_assoc, List.getElem?_append_right le_rfl,
      Nat.sub_self, ← List.head?_eq_getElem?]
    cases name with
    | nil => exact hquote
    | cons d name =>
      obtain ⟨second, tail, hsecond, _⟩ := encodeChar_shape d
      rw [encode_cons, hsecond]
      intro hd
      apply encodeChar_ne (c := d) (x := '\'') (by decide)
        (hname d (List.mem_cons_of_mem c List.mem_cons_self)).2 (b := second) _ (Option.some.inj hd)
      rw [hsecond]
      exact List.mem_cons_self
  rw [charLiteralLen, hone, if_neg (fun h => hfirst (Option.some.inj h))]
  dsimp only [Option.map_some, Option.getD_some]
  rw [leadWidth_encodeChar hshape, if_neg hclose]

end Chars

end Devkit.Weakened
