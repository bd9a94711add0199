import Devkit.Weakened.Readers
import Devkit.Weakened.Scan

/-!
# The scan over each lexeme

A comment, a string, a raw string, a char literal, a lifetime, a regex literal and a word are each passed with their
hidden part blanked, under the condition that the scanner reads them as the language does.
-/

namespace Devkit.Weakened

open Devkit.Library.Utf8

variable {lang : Lang} {before masked after result : List UInt8}

section Characters

/-- A byte beyond ASCII is left alone. -/
theorem passes_high {b : UInt8} (hb : 128 ≤ b.toNat) {tail : List UInt8} : Passes lang before masked b tail := by
  have hne : ∀ x : Char, x.toNat < 128 → b ≠ byte x := by
    rintro x hx rfl
    rw [toNat_byte hx] at hb
    omega
  have hslash := hne '/' (by decide)
  have hdouble := hne '"' (by decide)
  have hsingle := hne '\'' (by decide)
  cases lang with
  | rust => exact ⟨hdouble, hsingle, fun h => absurd h hslash, fun h => absurd h (hne 'r' (by decide))⟩
  | js => exact ⟨hdouble, hsingle, hne '\x60' (by decide), fun h => absurd h hslash⟩
  | python => exact ⟨hne '#' (by decide), hdouble, hsingle⟩

/-- Different ASCII characters have different bytes. -/
theorem byte_ne {c x : Char} (hc : c.toNat < 128) (hx : x.toNat < 128) (hne : c ≠ x) : byte c ≠ byte x := by
  apply encodeChar_ne hx hne
  rw [encodeChar_ascii hc]
  exact List.mem_singleton_self _

/-- An ASCII character is told by its byte. -/
theorem eq_of_byte_eq {c x : Char} (hc : c.toNat < 128) (hx : x.toNat < 128) (h : byte c = byte x) : c = x := by
  by_contra hne
  exact byte_ne hc hx hne h

/-- The scan over a character that the scanner leaves alone where it is ASCII. -/
theorem Scans.character {c : Char} (h : Scans lang before masked (String.utf8EncodeChar c ++ after) result)
    (hlength : masked.length = before.length) (hpass : c.toNat < 128 → Passes lang before masked (byte c) after) :
    Scans lang (before ++ String.utf8EncodeChar c) (masked ++ String.utf8EncodeChar c) after result := by
  by_cases hc : c.toNat < 128
  · have hshape : String.utf8EncodeChar c = [byte c] := encodeChar_ascii hc
    rw [hshape] at h ⊢
    exact h.pass hlength (hpass hc)
  · apply h.passAll hlength
    intro left b right hsplit
    apply passes_high
    apply le_encodeChar (not_lt.mp hc)
    rw [hsplit]
    exact List.mem_append_right left List.mem_cons_self

/-- An ASCII character of a word is a byte of an identifier. -/
theorem isIdent_word {c : Char} (hword : isWordChar c = true) (hc : c.toNat < 128) : isIdent (byte c) = true := by
  have hall : ∀ n < 128, isWordChar (Char.ofNat n) = true → isIdent (byte (Char.ofNat n)) = true := by decide
  have hof := hall c.toNat hc
  rw [Char.ofNat_toNat] at hof
  exact hof hword

/-- A character of a word is none that the scanner looks for. -/
theorem ne_of_isWordChar {c x : Char} (hword : isWordChar c = true) (hx : isWordChar x = false) : c ≠ x := by
  rintro rfl
  exact Bool.noConfusion (hword.symm.trans hx)

/-- No raw string starts before a character of a word. -/
theorem isRawString_word {c : Char} (hword : isWordChar c = true) (b : UInt8) (tail : List UInt8) :
    isRawString (b :: (String.utf8EncodeChar c ++ tail)) = false := by
  obtain ⟨first, rest, hshape, _⟩ := encodeChar_shape c
  have hmem : first ∈ String.utf8EncodeChar c := by
    rw [hshape]
    exact List.mem_cons_self
  have hmark : first ≠ byte '#' := encodeChar_ne (by decide) (ne_of_isWordChar hword (by decide)) hmem
  have hquote : first ≠ byte '"' := encodeChar_ne (by decide) (ne_of_isWordChar hword (by decide)) hmem
  have hnone : hashes (b :: (String.utf8EncodeChar c ++ tail)) = 0 := by
    rw [hashes, List.drop_one, List.tail_cons, hshape, List.cons_append, List.takeWhile_cons_of_neg]
    · rfl
    · rw [beq_iff_eq]
      exact hmark
  rw [isRawString, hnone, hshape]
  exact beq_eq_false_iff_ne.mpr fun h => hquote (Option.some.inj h)

/-- The scan over the characters of a word, of which none is taken for the start of a raw string. -/
theorem Scans.name {name : List Char} (h : Scans .rust before masked (encode name ++ after) result)
    (hlength : masked.length = before.length) (hname : ∀ c ∈ name, isWordChar c = true)
    (hraw : ∀ left, name = left ++ ['r'] →
      ((before ++ encode left).getLast?.any isIdent) = true ∨ isRawString (byte 'r' :: after) = false) :
    Scans .rust (before ++ encode name) (masked ++ encode name) after result := by
  induction name generalizing before masked with
  | nil =>
    rw [encode_nil, List.append_nil, List.append_nil]
    exact h
  | cons c name ih =>
    have hword := hname c List.mem_cons_self
    rw [encode_cons, List.append_assoc] at h
    have hpass : c.toNat < 128 → Passes .rust before masked (byte c) (encode name ++ after) := by
      intro hc
      have hne : ∀ x : Char, x.toNat < 128 → isWordChar x = false → byte c ≠ byte x := by
        intro x hx hother
        exact byte_ne hc hx (ne_of_isWordChar hword hother)
      refine ⟨hne '"' (by decide) (by decide), hne '\'' (by decide) (by decide),
        fun hslash => absurd hslash (hne '/' (by decide) (by decide)), fun hr => ?_⟩
      cases name with
      | nil =>
        have hlast : c = 'r' := eq_of_byte_eq hc (by decide) hr
        have hends := hraw [] (by rw [hlast]; rfl)
        rw [encode_nil, List.append_nil] at hends
        rw [hr]
        exact hends
      | cons d name =>
        right
        rw [encode_cons, List.append_assoc]
        exact isRawString_word (hname d (List.mem_cons_of_mem c List.mem_cons_self)) _ _
    have hnext := h.character hlength hpass
    rw [encode_cons, ← List.append_assoc, ← List.append_assoc]
    apply ih hnext (by rw [List.length_append, List.length_append, hlength])
      (fun d hd => hname d (List.mem_cons_of_mem c hd))
    intro left hleft
    have hlonger := hraw (c :: left) (by rw [hleft]; rfl)
    rw [encode_cons, ← List.append_assoc] at hlonger
    exact hlonger

/-- A word that is no raw mark ends where no raw string is taken to start. -/
theorem endsInRawMark_or {name left : List Char} (hname : ∀ c ∈ name, isWordChar c = true) (hleft : name = left ++ ['r'])
    (hread : KeepsMark name after) (bytesBefore : List UInt8) :
    ((bytesBefore ++ encode left).getLast?.any isIdent) = true ∨ isRawString (byte 'r' :: after) = false := by
  by_cases hmark : ∀ c, left.getLast? = some c → 128 ≤ c.toNat
  · right
    apply hread
    rw [hleft]
    refine ⟨List.getLast?_concat, ?_⟩
    rw [List.dropLast_concat]
    exact hmark
  · left
    simp only [not_forall] at hmark
    obtain ⟨c, hc, hascii⟩ := hmark
    obtain ⟨start, rfl⟩ := List.getLast?_eq_some_iff.mp hc
    have hword : isWordChar c = true := by
      apply hname
      rw [hleft]
      simp
    have hshape : String.utf8EncodeChar c = [byte c] := encodeChar_ascii (by omega)
    rw [encode_append, encode_cons, encode_nil, hshape, List.append_nil, ← List.append_assoc, List.getLast?_concat,
      Option.any_some]
    exact isIdent_word hword (by omega)

end Characters

section Comments

/-- A character of the rest of a line and the newline after it. -/
theorem takeWhile_line {line : List UInt8} (hline : byte '\n' ∉ line)
    (hend : after = [] ∨ after.head? = some (byte '\n')) : (line ++ after).takeWhile (· != byte '\n') = line := by
  rw [List.takeWhile_append_of_pos]
  · have hnone : after.takeWhile (· != byte '\n') = [] := by
      cases after with
      | nil => rfl
      | cons c after =>
        obtain hnil | hhead := hend
        · cases hnil
        · rw [List.takeWhile_cons_of_neg]
          rw [Option.some.inj hhead]
          decide
    rw [hnone, List.append_nil]
  · intro b hb
    rw [bne_iff_ne]
    rintro rfl
    exact hline hb

/-- The scanner takes a line comment to the next newline. -/
theorem maskStep_lineComment {marker tail : List UInt8}
    (hmarker : lang = .python ∧ marker = bytes "#" ∨ lang ≠ .python ∧ marker = bytes "//") :
    maskStep lang (before ++ (marker ++ tail)) (masked ++ (marker ++ tail)) before.length =
      (blank (before ++ (marker ++ tail)) (masked ++ (marker ++ tail)) before.length
        (before.length + ((marker ++ tail).takeWhile (· != byte '\n')).length)).map
          (·, before.length + ((marker ++ tail).takeWhile (· != byte '\n')).length) := by
  have hstarts : (lang = .python ∧ (marker ++ tail).headD 0 = byte '#' ∨
      lang ≠ .python ∧ (marker ++ tail).headD 0 = byte '/') ∧ isLineComment lang (marker ++ tail) = true := by
    obtain ⟨hlang, rfl⟩ | ⟨hlang, rfl⟩ := hmarker
    · refine ⟨.inl ⟨hlang, rfl⟩, ?_⟩
      rw [hlang]
      rfl
    · refine ⟨.inr ⟨hlang, rfl⟩, ?_⟩
      cases lang with
      | rust => rfl
      | js => rfl
      | python => exact absurd rfl hlang
  rw [maskStep]
  dsimp only
  rw [drop_before, if_pos hstarts]

/-- The scan over a line comment that ends at a newline or with the text. -/
theorem Scans.lineComment {marker body : List UInt8} (h : Scans lang before masked (marker ++ body ++ after) result)
    (hlength : masked.length = before.length)
    (hmarker : lang = .python ∧ marker = bytes "#" ∨ lang ≠ .python ∧ marker = bytes "//") (hbody : byte '\n' ∉ body)
    (hend : after = [] ∨ after.head? = some (byte '\n')) :
    Scans lang (before ++ (marker ++ body)) (masked ++ (marker ++ body).map hide) after result := by
  have hline : byte '\n' ∉ marker ++ body := by
    rw [List.mem_append, not_or]
    refine ⟨?_, hbody⟩
    obtain ⟨_, rfl⟩ | ⟨_, rfl⟩ := hmarker
    · decide
    · decide
  have hsome : marker ++ body ≠ [] := by
    obtain ⟨_, rfl⟩ | ⟨_, rfl⟩ := hmarker
    · exact List.cons_ne_nil _ _
    · exact List.cons_ne_nil _ _
  apply h.coverAll hlength hsome
  · intro c hc
    obtain rfl | hhead := hend
    · cases hc
    · obtain rfl := Option.some.inj (hhead.symm.trans hc)
      decide
  · rw [List.append_assoc, maskStep_lineComment hmarker, ← List.append_assoc, takeWhile_line hline hend]

/-- The scan over a block comment. -/
theorem Scans.blockComment {nests : Bool} {body : List UInt8}
    (h : Scans lang before masked (bytes "/*" ++ body ++ after) result) (hlength : masked.length = before.length)
    (hpython : lang ≠ .python) (hlang : nests = true ↔ lang = .rust) (hbody : CommentBody nests 1 body)
    (hafter : ∀ c ∈ after.head?, isContinuation c = false) :
    Scans lang (before ++ (bytes "/*" ++ body)) (masked ++ (bytes "/*" ++ body).map hide) after result := by
  have hline : ¬ ((lang = .python ∧ (bytes "/*" ++ body ++ after).headD 0 = byte '#' ∨
      lang ≠ .python ∧ (bytes "/*" ++ body ++ after).headD 0 = byte '/') ∧
        isLineComment lang (bytes "/*" ++ body ++ after) = true) := by
    rintro ⟨_, hstarts⟩
    cases lang with
    | rust => cases hstarts
    | js => cases hstarts
    | python => exact hpython rfl
  have hopens : lang ≠ .python ∧ (bytes "/*" ++ body ++ after).headD 0 = byte '/' ∧
      (bytes "/*").isPrefixOf (bytes "/*" ++ body ++ after) = true := ⟨hpython, rfl, rfl⟩
  have hends : blockCommentEnd lang 0 (bytes "/*" ++ body ++ after) = some (body.length + 2) := by
    change blockCommentEnd lang 0 (byte '/' :: byte '*' :: (body ++ after)) = _
    rw [blockCommentEnd, if_pos ⟨rfl, rfl, .inl rfl⟩, (blockCommentEnd_body hlang hbody).2]
    rfl
  apply h.coverAll hlength (List.cons_ne_nil _ _) hafter
  rw [maskStep]
  dsimp only
  rw [drop_before, if_neg hline, if_pos hopens, hends, Option.bind_some]
  rfl

end Comments

section Strings

variable {quote : UInt8} {body : List UInt8} {stops : List (List UInt8)}

/-- A quote of one of the languages is ASCII and no backslash. -/
theorem quote_facts (hquote : quote ∈ [byte '"', byte '\'', byte '\x60']) :
    quote ≠ byte '\\' ∧ isContinuation quote = false ∧ quote ≠ byte '#' ∧ quote ≠ byte '/' := by
  simp only [List.mem_cons, List.not_mem_nil, or_false] at hquote
  obtain rfl | rfl | rfl := hquote
  all_goals decide

/-- The scanner takes a string of Rust or JavaScript to its end. -/
theorem maskStep_string {tail : List UInt8}
    (hquote : lang = .js ∧ quote ∈ [byte '"', byte '\'', byte '\x60'] ∨ lang = .rust ∧ quote = byte '"') :
    maskStep lang (before ++ quote :: tail) (masked ++ quote :: tail) before.length =
      (blank (before ++ quote :: tail) (masked ++ quote :: tail) (before.length + 1)
        (max (before.length + 1 + stringEnd quote 1 tail - 1) (before.length + 1))).map
          (·, before.length + 1 + stringEnd quote 1 tail) := by
  have hpython : lang ≠ .python := by
    obtain ⟨rfl, _⟩ | ⟨rfl, _⟩ := hquote
    · exact Lang.noConfusion
    · exact Lang.noConfusion
  have hmem : quote ∈ [byte '"', byte '\'', byte '\x60'] := by
    obtain ⟨_, hmem⟩ | ⟨_, rfl⟩ := hquote
    · exact hmem
    · exact List.mem_cons_self
  obtain ⟨_, _, _, hslash⟩ := quote_facts hmem
  rw [maskStep]
  dsimp only
  rw [drop_before, List.headD_cons,
    if_neg (fun hc => hslash (hc.1.resolve_left fun hp => hpython hp.1).2), if_neg (fun hc => hslash hc.2.1),
    if_neg (fun hc => hslash hc.2.1), if_neg (fun hc => hpython hc.1), if_pos, List.drop_one, List.tail_cons]
  obtain ⟨hlang, hmem⟩ | hrust := hquote
  · simp only [List.mem_cons, List.not_mem_nil, or_false] at hmem
    exact .inl ⟨hlang, hmem⟩
  · exact .inr hrust

/-- The scan over a string of Rust or JavaScript. -/
theorem Scans.string (h : Scans lang before masked ([quote] ++ (body ++ ([quote] ++ after))) result)
    (hlength : masked.length = before.length)
    (hquote : lang = .js ∧ quote ∈ [byte '"', byte '\'', byte '\x60'] ∨ lang = .rust ∧ quote = byte '"')
    (hend : stringEnd quote 1 (body ++ ([quote] ++ after)) = body.length + 1) :
    Scans lang (before ++ ([quote] ++ (body ++ [quote]))) (masked ++ ([quote] ++ (body.map hide ++ [quote]))) after
      result := by
  have hmem : quote ∈ [byte '"', byte '\'', byte '\x60'] := by
    obtain ⟨_, hmem⟩ | ⟨_, rfl⟩ := hquote
    · exact hmem
    · exact List.mem_cons_self
  obtain ⟨_, hcontinues, _⟩ := quote_facts hmem
  apply h.cover hlength (List.cons_ne_nil _ _)
  · intro c hc
    obtain rfl := Option.some.inj hc
    exact hcontinues
  · have hstop : max (before.length + 1 + (body.length + 1) - 1) (before.length + 1) =
        before.length + 1 + body.length := by omega
    have hnext : before.length + 1 + (body.length + 1) = before.length + (quote :: (body ++ [quote])).length := by
      rw [List.length_cons, List.length_append, List.length_singleton]
      omega
    rw [List.singleton_append, maskStep_string hquote, hend, hstop, hnext]
    rfl

/-- The scan over a string of Python. -/
theorem Scans.pythonString (width : ℕ)
    (h : Scans .python before masked
      (List.replicate width quote ++ (body ++ (List.replicate width quote ++ after))) result)
    (hlength : masked.length = before.length) (hquote : quote ∈ [byte '"', byte '\''])
    (hwidth : width = 1 ∧ (body = [] → after.head? ≠ some quote) ∨ width = 3) (hbody : Body quote width stops body) :
    Scans .python (before ++ (List.replicate width quote ++ (body ++ List.replicate width quote)))
      (masked ++ (List.replicate width quote ++ (body.map hide ++ List.replicate width quote))) after result := by
  obtain ⟨hescape, hcontinues, hhash, hslash⟩ := @quote_facts quote (by
    simp only [List.mem_cons, List.not_mem_nil, or_false] at hquote ⊢
    tauto)
  have hpos : 0 < width := by omega
  obtain ⟨n, hn⟩ := Nat.exists_eq_succ_of_ne_zero hpos.ne'
  have hhead : (List.replicate width quote ++ (body ++ (List.replicate width quote ++ after))).headD 0 = quote := by
    rw [hn]
    rfl
  have hend := stringEnd_body after hbody hescape hpos
  have htriple : (if 3 ≤ (List.replicate width quote ++ (body ++ (List.replicate width quote ++ after))).length ∧
      (List.replicate width quote ++ (body ++ (List.replicate width quote ++ after)))[1]? = some quote ∧
      (List.replicate width quote ++ (body ++ (List.replicate width quote ++ after)))[2]? = some quote then 3 else 1) =
      width := by
    obtain ⟨rfl, hempty⟩ | rfl := hwidth
    · apply if_neg
      rintro ⟨_, hone, htwo⟩
      cases body with
      | nil =>
        apply hempty rfl
        rw [List.head?_eq_getElem?]
        exact htwo
      | cons c body => exact hbody.head_ne hescape hone
    · apply if_pos
      refine ⟨?_, rfl, rfl⟩
      rw [List.length_append, List.length_replicate]
      omega
  apply h.cover hlength
  · rw [hn, List.replicate_succ]
    exact List.cons_ne_nil _ _
  · intro c hc
    rw [hn, List.replicate_succ] at hc
    obtain rfl := Option.some.inj hc
    exact hcontinues
  · rw [maskStep]
    dsimp only
    rw [drop_before, hhead, if_neg, if_neg (fun hc => hc.1 rfl), if_neg (fun hc => Lang.noConfusion hc.1), if_pos,
      htriple]
    · have hdrop : (List.replicate width quote ++ (body ++ (List.replicate width quote ++ after))).drop width =
          body ++ (List.replicate width quote ++ after) := List.drop_left' (List.length_replicate ..)
      have hstop : max (before.length + width + (body.length + width) - width) (before.length + width) =
          before.length + width + body.length := by omega
      have hnext : before.length + width + (body.length + width) =
          before.length + (List.replicate width quote ++ (body ++ List.replicate width quote)).length := by
        simp only [List.length_append, List.length_replicate]
        omega
      rw [hdrop, hend, hstop, hnext, List.length_replicate]
    · refine ⟨rfl, ?_⟩
      simp only [List.mem_cons, List.not_mem_nil, or_false] at hquote
      exact hquote
    · rintro ⟨⟨_, hc⟩ | ⟨hlang, _⟩, _⟩
      · exact hhash hc
      · exact hlang rfl

end Strings

section Rust

variable {body tail : List UInt8} {marks : ℕ}

/-- A mark is left alone, and so is the tag of a raw string. -/
theorem passes_tag {c : UInt8} (hc : c ∈ [byte '#', byte 'b', byte 'c']) : Passes .rust before masked c tail := by
  simp only [List.mem_cons, List.not_mem_nil, or_false] at hc
  obtain rfl | rfl | rfl := hc
  all_goals
    refine ⟨by decide, by decide, fun h => ?_, fun h => ?_⟩
    · exact absurd h (by decide)
    · exact absurd h (by decide)

/-- The scan over the marks of a raw string. -/
theorem Scans.rawMarks (h : Scans .rust before masked (List.replicate marks (byte '#') ++ after) result)
    (hlength : masked.length = before.length) :
    Scans .rust (before ++ List.replicate marks (byte '#')) (masked ++ List.replicate marks (byte '#')) after result := by
  apply h.passAll hlength
  intro left c right hsplit
  apply passes_tag
  have hmem : c ∈ List.replicate marks (byte '#') := by
    rw [hsplit]
    exact List.mem_append_right left List.mem_cons_self
  rw [List.eq_of_mem_replicate hmem]
  exact List.mem_cons_self

/-- The scan over a raw string that the scanner sees. -/
theorem Scans.raw
    (h : Scans .rust before masked (byte 'r' :: (List.replicate marks (byte '#') ++ [byte '"']) ++
      (body ++ (closeOf marks ++ after))) result)
    (hlength : masked.length = before.length) (hstart : (before.getLast?.any isIdent) = false)
    (hbody : Unclosed (closeOf marks) body) :
    Scans .rust
      (before ++ (byte 'r' :: (List.replicate marks (byte '#') ++ [byte '"']) ++ (body ++ closeOf marks)))
      (masked ++ (byte 'r' :: (List.replicate marks (byte '#') ++ [byte '"']) ++ (body.map hide ++ closeOf marks)))
      after result := by
  have hclosed := @closePosition_body (closeOf marks) body after (List.cons_ne_nil _ _) hbody
  have hrest : byte 'r' :: (List.replicate marks (byte '#') ++ [byte '"']) ++ (body ++ (closeOf marks ++ after)) =
      byte 'r' :: (List.replicate marks (byte '#') ++ byte '"' :: (body ++ (closeOf marks ++ after))) := by
    rw [List.cons_append, List.append_assoc, List.singleton_append]
  have hcount : hashes (byte 'r' :: (List.replicate marks (byte '#') ++ [byte '"']) ++
      (body ++ (closeOf marks ++ after))) = marks := by
    rw [hrest]
    exact hashes_marks ..
  have hraw : isRawString (byte 'r' :: (List.replicate marks (byte '#') ++ [byte '"']) ++
      (body ++ (closeOf marks ++ after))) = true := by
    rw [hrest]
    exact isRawString_marks ..
  have hother : ∀ x : Char, x.toNat < 128 → x ≠ 'r' → byte 'r' ≠ byte x := by
    intro x hx hne
    exact byte_ne (by decide) hx hne.symm
  apply h.cover hlength (List.cons_ne_nil _ _)
  · intro c hc
    obtain rfl := Option.some.inj hc
    decide
  · have hlen : (byte 'r' :: (List.replicate marks (byte '#') ++ [byte '"'])).length = 2 + marks := by
      simp only [List.length_cons, List.length_append, List.length_replicate, List.length_nil]
      omega
    have hdrop : (before ++ (byte 'r' :: (List.replicate marks (byte '#') ++ [byte '"']) ++
        (body ++ (closeOf marks ++ after)))).drop (before.length + 2 + marks) = body ++ (closeOf marks ++ after) := by
      rw [← List.append_assoc]
      apply List.drop_left'
      rw [List.length_append, hlen]
      omega
    have hstop : before.length + 2 + marks + body.length =
        before.length + (byte 'r' :: (List.replicate marks (byte '#') ++ [byte '"'])).length + body.length := by
      rw [hlen]
      omega
    have hbodyAt : before.length + 2 + marks =
        before.length + (byte 'r' :: (List.replicate marks (byte '#') ++ [byte '"'])).length := by
      rw [hlen]
      omega
    have hnext : min (before.length + 2 + marks + body.length + (closeOf marks).length)
        (before ++ (byte 'r' :: (List.replicate marks (byte '#') ++ [byte '"']) ++
          (body ++ (closeOf marks ++ after)))).length =
        before.length + (byte 'r' :: (List.replicate marks (byte '#') ++ [byte '"']) ++
          (body ++ closeOf marks)).length := by
      simp only [List.length_append, List.length_cons, List.length_replicate, List.length_nil]
      omega
    rw [maskStep]
    dsimp only
    rw [drop_before, List.cons_append, List.headD_cons, ← List.cons_append, hcount,
      if_neg (fun hc => hother '/' (by decide) (by decide) (hc.1.resolve_left fun hp => Lang.noConfusion hp.1).2),
      if_neg (fun hc => hother '/' (by decide) (by decide) hc.2.1), if_neg (fun hc => Lang.noConfusion hc.1),
      if_neg (fun hc => Lang.noConfusion hc.1),
      if_neg (fun hc => hother '"' (by decide) (by decide) (hc.resolve_left fun hp => Lang.noConfusion hp.1).2),
      if_pos ⟨rfl, rfl, startsWord_iff.mpr hstart, hraw⟩, hdrop]
    change (blank _ _ _ (((closePosition (closeOf marks) (body ++ (closeOf marks ++ after))).map _).getD _)).map
      (·, min (((closePosition (closeOf marks) (body ++ (closeOf marks ++ after))).map _).getD _ +
        (closeOf marks).length) _) = _
    rw [hclosed, Option.map_some, Option.getD_some, hnext, hbodyAt]

/-- The scanner takes a quote for the start of a char literal or a lifetime. -/
theorem maskStep_quote : maskStep .rust (before ++ byte '\'' :: tail) (masked ++ byte '\'' :: tail) before.length =
    some (masked ++ byte '\'' :: tail, before.length + charLiteralLen (byte '\'' :: tail)) := by
  rw [maskStep]
  dsimp only
  rw [drop_before, List.headD_cons,
    if_neg (fun hc => absurd (hc.1.resolve_left fun hp => Lang.noConfusion hp.1).2 (by decide)),
    if_neg (fun hc => absurd hc.2.1 (by decide)), if_neg (fun hc => Lang.noConfusion hc.1),
    if_neg (fun hc => Lang.noConfusion hc.1),
    if_neg (fun hc => absurd (hc.resolve_left fun hp => Lang.noConfusion hp.1).2 (by decide)),
    if_neg (fun hc => absurd hc.2.1 (by decide)), if_pos ⟨rfl, rfl⟩]

/-- The scan over the bytes that a quote reaches over. -/
theorem Scans.quote (reached : List UInt8)
    (h : Scans .rust before masked (byte '\'' :: (reached ++ after)) result)
    (hreach : charLiteralLen (byte '\'' :: (reached ++ after)) = reached.length + 1) :
    Scans .rust (before ++ byte '\'' :: reached) (masked ++ byte '\'' :: reached) after result := by
  have hi : before.length < (before ++ byte '\'' :: (reached ++ after)).length := by
    simp only [List.length_append, List.length_cons]
    omega
  have hnext := Yields.step h hi maskStep_quote
  rw [hreach] at hnext
  rw [Scans, List.length_append, List.length_cons, List.append_assoc, List.append_assoc]
  exact hnext

/-- The scan over a char literal. -/
theorem Scans.charLiteral {content : List UInt8}
    (h : Scans .rust before masked (byte '\'' :: (content ++ byte '\'' :: after)) result) (hcontent : CharBody content)
    (hread : content = bytes "\\'" → charLiteralLen (byte '\'' :: after) = 1) :
    Scans .rust (before ++ byte '\'' :: (content ++ [byte '\''])) (masked ++ byte '\'' :: (content ++ [byte '\'']))
      after result := by
  have hwhole : byte '\'' :: (content ++ byte '\'' :: after) = byte '\'' :: (content ++ [byte '\''] ++ after) := by
    rw [List.append_assoc, List.singleton_append]
  cases hcontent with
  | plain c hc =>
    rw [hwhole] at h
    apply Scans.quote _ h
    rw [← hwhole, charLiteralLen_plain, List.length_append, List.length_singleton]
    rintro rfl
    exact hc (by decide)
  | quote =>
    -- the scanner takes the escaped quote for the closing one, and the closing one for an opening one
    have hshort : charLiteralLen (byte '\'' :: ([byte '\\', byte '\''] ++ byte '\'' :: after)) = 3 :=
      @charLiteralLen_escape [] (byte '\'' :: after) List.not_mem_nil
    have hfirst := Scans.quote [byte '\\', byte '\''] h hshort
    have hsecond := Scans.quote [] hfirst (hread rfl)
    rw [List.append_assoc, List.append_assoc] at hsecond
    exact hsecond
  | @escape escaped hsome hquote =>
    rw [hwhole] at h
    apply Scans.quote _ h
    rw [← hwhole, List.cons_append, charLiteralLen_escape _ hquote, List.length_append, List.length_cons,
      List.length_singleton]

end Rust

section Js

/-- The scanner takes a `/` for the start of a regex literal where the text before it lets one start. -/
theorem maskStep_regex {tail : List UInt8} {n : ℕ} (hlength : masked.length = before.length)
    (hcomment : tail.head? ≠ some (byte '/') ∧ tail.head? ≠ some (byte '*')) (hstart : regexMayStart masked = true)
    (hend : regexEnd false tail = some n) :
    maskStep .js (before ++ byte '/' :: tail) (masked ++ byte '/' :: tail) before.length =
      (blank (before ++ byte '/' :: tail) (masked ++ byte '/' :: tail) (before.length + 1)
        (before.length + 1 + n - 1)).map (·, before.length + 1 + n) := by
  obtain ⟨hline, hblock⟩ := not_comment (c := byte '/') fun _ => hcomment
  rw [maskStep]
  dsimp only
  rw [drop_before, List.headD_cons, if_neg (fun hnot => hline ⟨rfl, hnot.2⟩), if_neg (fun hnot => hblock hnot.2),
    if_pos, List.drop_one, List.tail_cons, hend]
  rw [List.take_left' hlength]
  exact ⟨rfl, rfl, hstart⟩

/-- The body of a regex literal starts with neither `/` nor `*`. -/
theorem RegexBody.head_ne {body : List UInt8} (hbody : RegexBody false body) (hsome : body ≠ [])
    (hstar : body.head? ≠ some (byte '*')) (tail : List UInt8) :
    (body ++ tail).head? ≠ some (byte '/') ∧ (body ++ tail).head? ≠ some (byte '*') := by
  cases hbody with
  | nil => exact absurd rfl hsome
  | escape hd _ => exact ⟨fun h => absurd (Option.some.inj h) (by decide), fun h => absurd (Option.some.inj h) (by decide)⟩
  | opens _ => exact ⟨fun h => absurd (Option.some.inj h) (by decide), fun h => absurd (Option.some.inj h) (by decide)⟩
  | plain _ _ hout _ _ => exact ⟨fun h => (hout rfl).1 (Option.some.inj h), hstar⟩

/-- The scan over what is taken for a regex literal. -/
theorem Scans.regexTaken {body : List UInt8} (h : Scans .js before masked (byte '/' :: (body ++ byte '/' :: after)) result)
    (hlength : masked.length = before.length)
    (hcomment : (body ++ byte '/' :: after).head? ≠ some (byte '/') ∧
      (body ++ byte '/' :: after).head? ≠ some (byte '*'))
    (hstart : regexMayStart masked = true)
    (hend : regexEnd false (body ++ byte '/' :: after) = some (body.length + 1)) :
    Scans .js (before ++ ([byte '/'] ++ (body ++ [byte '/']))) (masked ++ ([byte '/'] ++ (body.map hide ++ [byte '/'])))
      after result := by
  apply Scans.cover h hlength (List.cons_ne_nil _ _)
  · intro c hc
    obtain rfl := Option.some.inj hc
    decide
  · have hstop : before.length + 1 + (body.length + 1) - 1 = before.length + 1 + body.length := by omega
    have hnext : before.length + 1 + (body.length + 1) = before.length + (byte '/' :: (body ++ [byte '/'])).length := by
      rw [List.length_cons, List.length_append, List.length_singleton]
      omega
    rw [List.singleton_append, List.singleton_append, maskStep_regex hlength hcomment hstart hend, hstop, hnext]
    rfl

/-- The scan over a regex literal. -/
theorem Scans.regex {body : List UInt8} (h : Scans .js before masked (byte '/' :: (body ++ byte '/' :: after)) result)
    (hlength : masked.length = before.length) (hbody : RegexBody false body) (hsome : body ≠ [])
    (hstar : body.head? ≠ some (byte '*')) (hstart : regexMayStart masked = true) :
    Scans .js (before ++ ([byte '/'] ++ (body ++ [byte '/']))) (masked ++ ([byte '/'] ++ (body.map hide ++ [byte '/'])))
      after result :=
  h.regexTaken hlength (hbody.head_ne hsome hstar _) hstart (regexEnd_body hbody)

end Js

end Devkit.Weakened
