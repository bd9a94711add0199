import Devkit.Weakened.ScanLexeme

/-!
# What a mask hides

Where the scanner reads every lexeme of a source as its language does, the mask blanks exactly comments and the
contents of strings, raw strings and regex literals. What it does not read so is named by the condition: a line comment
that another line terminator ends, a hashbang comment, a raw byte or C string that ends elsewhere as a plain string, an
identifier taken for the start of a raw string, the escaped quote of a char literal before a character and a quote, and
a `/` whose meaning the text before it does not tell.
-/

namespace Devkit.Weakened

open Devkit.Library.Utf8

variable {lang : Lang} {start : Bool} {l : Lexeme} {before masked after result : List UInt8}

/-- Masking a lexeme keeps the number of its bytes. -/
theorem Lexeme.length_masked (l : Lexeme) : l.masked.length = l.text.length := by
  rw [Lexeme.masked, Lexeme.text]
  simp only [List.length_append, List.length_map]

/-- The scan over the suffix of a literal. -/
theorem Scans.suffix {suffix : List Char} (h : Scans .rust before masked (encode suffix ++ after) result)
    (hlength : masked.length = before.length) (hsuffix : ∀ c ∈ suffix, isWordChar c = true)
    (hread : KeepsMark suffix after) :
    Scans .rust (before ++ encode suffix) (masked ++ encode suffix) after result :=
  h.name hlength hsuffix fun _ hleft => endsInRawMark_or hsuffix hleft hread before

/-- The scan over the opening of a raw string that the scanner does not see: it stops before the quote. -/
theorem Scans.rawOpening {tag tail : List UInt8} {marks : ℕ}
    (h : Scans .rust before masked (tag ++ byte 'r' :: (List.replicate marks (byte '#') ++ byte '"' :: tail)) result)
    (hlength : masked.length = before.length) (htag : tag ∈ [[], [byte 'b'], [byte 'c']])
    (hunseen : ¬ (tag = [] ∧ (before.getLast?.any isIdent) = false)) :
    Scans .rust (before ++ (tag ++ byte 'r' :: List.replicate marks (byte '#')))
      (masked ++ (tag ++ byte 'r' :: List.replicate marks (byte '#'))) (byte '"' :: tail) result := by
  have htags : ∀ left c right, tag = left ++ c :: right → c ∈ [byte '#', byte 'b', byte 'c'] := by
    intro left c right hsplit
    have hmem : c ∈ tag := by
      rw [hsplit]
      exact List.mem_append_right left List.mem_cons_self
    simp only [List.mem_cons, List.not_mem_nil, or_false] at htag
    obtain rfl | rfl | rfl := htag
    · cases hmem
    · exact List.mem_cons_of_mem _ (List.mem_cons.mpr (.inl (List.mem_singleton.mp hmem)))
    · exact List.mem_cons_of_mem _ (List.mem_cons_of_mem _ hmem)
  have htagged := h.passAll hlength fun left c right hsplit => passes_tag (htags left c right hsplit)
  have hlast : ((before ++ tag).getLast?.any isIdent) = true := by
    simp only [List.mem_cons, List.not_mem_nil, or_false] at htag
    obtain rfl | rfl | rfl := htag
    · rw [List.append_nil, ← Bool.not_eq_false]
      exact fun hstart => hunseen ⟨rfl, hstart⟩
    · rw [List.getLast?_concat]
      rfl
    · rw [List.getLast?_concat]
      rfl
  have hr := htagged.pass (by rw [List.length_append, List.length_append, hlength])
    ⟨by decide, by decide, fun hc => absurd hc (by decide), fun _ => .inl hlast⟩
  have hmarks := hr.rawMarks (by simp only [List.length_append, hlength])
  simp only [List.append_assoc, List.singleton_append] at hmarks
  exact hmarks

/-- The scan over a raw string, seen as one or read as a plain string that ends where it does. -/
theorem Scans.rawString {tag body : List UInt8} {marks : ℕ}
    (h : Scans .rust before masked
      (tag ++ byte 'r' :: (List.replicate marks (byte '#') ++ [byte '"']) ++ (body ++ (closeOf marks ++ after))) result)
    (hlength : masked.length = before.length) (htag : tag ∈ [[], [byte 'b'], [byte 'c']])
    (hbody : Unclosed (closeOf marks) body)
    (hread : tag = [] ∧ (before.getLast?.any isIdent) = false ∨
      stringEnd (byte '"') 1 (body ++ (closeOf marks ++ after)) = body.length + 1) :
    Scans .rust
      (before ++ (tag ++ byte 'r' :: (List.replicate marks (byte '#') ++ [byte '"']) ++ (body ++ closeOf marks)))
      (masked ++
        (tag ++ byte 'r' :: (List.replicate marks (byte '#') ++ [byte '"']) ++ (body.map hide ++ closeOf marks)))
      after result := by
  by_cases hseen : tag = [] ∧ (before.getLast?.any isIdent) = false
  · obtain ⟨rfl, hstart⟩ := hseen
    exact h.raw hlength hstart hbody
  · -- the tag, the `r` and the marks are passed, and then a plain string is read
    have hend := hread.resolve_left hseen
    have hrest : tag ++ byte 'r' :: (List.replicate marks (byte '#') ++ [byte '"']) ++
        (body ++ (closeOf marks ++ after)) =
        tag ++ byte 'r' :: (List.replicate marks (byte '#') ++
          byte '"' :: (body ++ ([byte '"'] ++ (List.replicate marks (byte '#') ++ after)))) := by
      simp only [List.append_assoc, List.cons_append, List.nil_append, closeOf]
    rw [hrest] at h
    have hopened := h.rawOpening hlength htag hseen
    have hstring := hopened.string (by simp only [List.length_append, hlength]) (.inr ⟨rfl, rfl⟩) hend
    have hclosed := hstring.rawMarks (by simp only [List.length_append, List.length_map, hlength])
    simp only [List.append_assoc, List.cons_append, List.nil_append, closeOf] at hclosed ⊢
    exact hclosed

/-- The scan over a lexeme of Rust. -/
theorem Scans.rustLexeme (hlexes : RustLexes l after) (hread : l.Readable .rust before masked after)
    (hafter : ∀ c ∈ after.head?, isContinuation c = false) (hlength : masked.length = before.length)
    (h : Scans .rust before masked (l.text ++ after) result) :
    Scans .rust (before ++ l.text) (masked ++ l.masked) after result := by
  cases hlexes with
  | @lineComment body _ hbody _ =>
    have htext : (Lexeme.lineComment (bytes "//") body).text = bytes "//" ++ body := List.append_nil _
    have hmasked : (Lexeme.lineComment (bytes "//") body).masked = (bytes "//" ++ body).map hide := List.append_nil _
    rw [htext] at h
    rw [htext, hmasked]
    exact h.lineComment hlength (.inr ⟨Lang.noConfusion, rfl⟩) hbody hread.2.2
  | @blockComment body _ hbody =>
    have htext : (Lexeme.blockComment body).text = bytes "/*" ++ body := List.append_nil _
    have hmasked : (Lexeme.blockComment body).masked = (bytes "/*" ++ body).map hide := List.append_nil _
    rw [htext] at h
    rw [htext, hmasked]
    exact h.blockComment hlength Lang.noConfusion (iff_of_true rfl rfl) hbody hafter
  | @string body _ suffix hbody hsuffix _ =>
    simp only [Lexeme.text, Lexeme.masked, Lexeme.opening, Lexeme.hidden, Lexeme.closing, List.append_assoc] at h ⊢
    have hend := stringEnd_body (encode suffix ++ after) hbody (by decide) Nat.one_pos
    have hstring := h.string hlength (.inr ⟨rfl, rfl⟩) hend
    have hdone := hstring.suffix (by simp only [List.length_append, List.length_map, hlength]) hsuffix hread.1
    simp only [List.append_assoc] at hdone
    exact hdone
  | @rawString tag body _ marks suffix htag hbody hsuffix _ =>
    obtain ⟨hsteady, hraw⟩ := hread
    have hrest : (Lexeme.raw tag marks body suffix).text ++ after =
        tag ++ byte 'r' :: (List.replicate marks (byte '#') ++ [byte '"']) ++
          (body ++ (closeOf marks ++ (encode suffix ++ after))) := by
      simp only [Lexeme.text, Lexeme.opening, Lexeme.hidden, Lexeme.closing, closeOf, List.append_assoc,
        List.cons_append]
    rw [hrest] at h
    have hdone := (h.rawString hlength htag hbody hraw).suffix
      (by simp only [List.length_append, List.length_cons, List.length_map, hlength]) hsuffix hsteady
    simp only [Lexeme.text, Lexeme.masked, Lexeme.opening, Lexeme.hidden, Lexeme.closing, closeOf, List.append_assoc,
      List.cons_append] at hdone ⊢
    exact hdone
  | @char content _ suffix hcontent hsuffix _ =>
    obtain ⟨⟨hquote, hsteady⟩, _⟩ := hread
    have hrest : (Lexeme.char content suffix).text ++ after =
        byte '\'' :: (content ++ byte '\'' :: (encode suffix ++ after)) := by
      simp only [Lexeme.text, Lexeme.opening, Lexeme.hidden, Lexeme.closing, List.append_assoc, List.cons_append,
        List.nil_append]
    rw [hrest] at h
    have hdone := (h.charLiteral hcontent hquote).suffix (by simp only [List.length_append, hlength]) hsuffix hsteady
    simp only [Lexeme.text, Lexeme.masked, Lexeme.opening, Lexeme.hidden, Lexeme.closing, List.append_assoc,
      List.cons_append, List.map_nil, List.append_nil, List.nil_append] at hdone ⊢
    exact hdone
  | @lifetime name _ hsome hname _ hquote =>
    have hrest : (Lexeme.lifetime name).text ++ after = byte '\'' :: ([] ++ (encode name ++ after)) := by
      simp only [Lexeme.text, Lexeme.opening, Lexeme.hidden, Lexeme.closing, List.append_assoc, List.cons_append,
        List.nil_append]
    rw [hrest] at h
    have hone := charLiteralLen_lifetime hsome
      (fun c hc => ⟨ne_of_isWordChar (hname c hc) (by decide), ne_of_isWordChar (hname c hc) (by decide)⟩) hquote
    have hdone := (Scans.quote _ h hone).suffix (by simp only [List.length_append, hlength]) hname hread.1
    simp only [Lexeme.text, Lexeme.masked, Lexeme.opening, Lexeme.hidden, Lexeme.closing, List.append_assoc,
      List.cons_append, List.map_nil, List.append_nil, List.nil_append] at hdone ⊢
    exact hdone
  | @word name _ hsome hname _ hraw =>
    have htext : (Lexeme.word name).text = encode name := List.append_nil _
    have hmasked : (Lexeme.word name).masked = encode name := List.append_nil _
    rw [htext] at h
    rw [htext, hmasked]
    exact h.suffix hlength hname hread.1
  | @other c _ hword hquote hcomment =>
    have htext : (Lexeme.other c).text = String.utf8EncodeChar c := List.append_nil _
    have hmasked : (Lexeme.other c).masked = String.utf8EncodeChar c := List.append_nil _
    rw [htext] at h
    rw [htext, hmasked]
    apply h.character hlength
    intro hascii
    simp only [List.mem_cons, List.not_mem_nil, or_false, not_or] at hquote
    refine ⟨byte_ne hascii (by decide) hquote.1, byte_ne hascii (by decide) hquote.2, fun hslash => ?_, fun hr => ?_⟩
    · exact hcomment (eq_of_byte_eq hascii (by decide) hslash)
    · rw [eq_of_byte_eq hascii (by decide) hr] at hword
      cases hword

/-- A JavaScript line has no newline. -/
theorem newline_not_mem {body : List UInt8} (h : ∀ t ∈ terminators, ¬ t <:+: body) : byte '\n' ∉ body := by
  intro hnewline
  apply h [byte '\n'] List.mem_cons_self
  obtain ⟨left, right, rfl⟩ := List.append_of_mem hnewline
  exact ⟨left, right, by rw [List.append_assoc, List.singleton_append]⟩

/-- The scan over a lexeme of JavaScript. -/
theorem Scans.jsLexeme (hlexes : JsLexes start l after) (hread : l.Readable .js before masked after)
    (hafter : ∀ c ∈ after.head?, isContinuation c = false) (hlength : masked.length = before.length)
    (h : Scans .js before masked (l.text ++ after) result) :
    Scans .js (before ++ l.text) (masked ++ l.masked) after result := by
  cases hlexes with
  | hashbang => exact absurd rfl hread.2.1
  | @lineComment _ body _ hbody _ =>
    have htext : (Lexeme.lineComment (bytes "//") body).text = bytes "//" ++ body := List.append_nil _
    have hmasked : (Lexeme.lineComment (bytes "//") body).masked = (bytes "//" ++ body).map hide := List.append_nil _
    rw [htext] at h
    rw [htext, hmasked]
    exact h.lineComment hlength (.inr ⟨Lang.noConfusion, rfl⟩) (newline_not_mem hbody) hread.2.2
  | @blockComment _ body _ hbody =>
    have htext : (Lexeme.blockComment body).text = bytes "/*" ++ body := List.append_nil _
    have hmasked : (Lexeme.blockComment body).masked = (bytes "/*" ++ body).map hide := List.append_nil _
    rw [htext] at h
    rw [htext, hmasked]
    exact h.blockComment hlength Lang.noConfusion (iff_of_false Bool.false_ne_true Lang.noConfusion) hbody hafter
  | @string _ quote body _ hquote hbody =>
    have hmem : quote ∈ [byte '"', byte '\'', byte '\x60'] := by
      simp only [List.mem_cons, List.not_mem_nil, or_false] at hquote ⊢
      tauto
    simp only [Lexeme.text, Lexeme.masked, Lexeme.opening, Lexeme.hidden, Lexeme.closing, encode_nil, List.append_nil,
      List.append_assoc] at h ⊢
    exact h.string hlength (.inl ⟨rfl, hmem⟩) (stringEnd_body _ hbody (quote_facts hmem).1 Nat.one_pos)
  | @template _ body _ hbody =>
    simp only [Lexeme.text, Lexeme.masked, Lexeme.opening, Lexeme.hidden, Lexeme.closing, encode_nil, List.append_nil,
      List.append_assoc] at h ⊢
    exact h.string hlength (.inl ⟨rfl, by decide⟩) (stringEnd_body _ hbody (by decide) Nat.one_pos)
  | @regex _ body _ hbody hsome hstar =>
    simp only [Lexeme.text, Lexeme.masked, Lexeme.opening, Lexeme.hidden, Lexeme.closing, List.append_assoc] at h ⊢
    exact h.regex hlength hbody hsome hstar hread.2
  | @other _ c _ hquote hcomment _ =>
    have htext : (Lexeme.other c).text = String.utf8EncodeChar c := List.append_nil _
    have hmasked : (Lexeme.other c).masked = String.utf8EncodeChar c := List.append_nil _
    rw [htext] at h
    rw [htext, hmasked]
    apply h.character hlength
    intro hascii
    simp only [List.mem_cons, List.not_mem_nil, or_false, not_or] at hquote
    refine ⟨byte_ne hascii (by decide) hquote.1, byte_ne hascii (by decide) hquote.2.1,
      byte_ne hascii (by decide) hquote.2.2, fun hslash => ?_⟩
    have hc := eq_of_byte_eq hascii (by decide) hslash
    exact ⟨hcomment hc, hread.2 rfl hc⟩

/-- The scan over a lexeme of Python. -/
theorem Scans.pythonLexeme (hlexes : PythonLexes l after) (hread : l.Readable .python before masked after)
    (hlength : masked.length = before.length) (h : Scans .python before masked (l.text ++ after) result) :
    Scans .python (before ++ l.text) (masked ++ l.masked) after result := by
  cases hlexes with
  | @comment body _ hbody _ =>
    have htext : (Lexeme.lineComment (bytes "#") body).text = bytes "#" ++ body := List.append_nil _
    have hmasked : (Lexeme.lineComment (bytes "#") body).masked = (bytes "#" ++ body).map hide := List.append_nil _
    rw [htext] at h
    rw [htext, hmasked]
    exact h.lineComment hlength (.inl ⟨rfl, rfl⟩) hbody.1 hread.2.2
  | @string quote body _ hquote hbody hempty =>
    simp only [Lexeme.text, Lexeme.masked, Lexeme.opening, Lexeme.hidden, Lexeme.closing, encode_nil, List.append_nil,
      List.append_assoc] at h ⊢
    exact Scans.pythonString 1 h hlength hquote (.inl ⟨rfl, hempty⟩) hbody
  | @longString quote body _ hquote hbody =>
    simp only [Lexeme.text, Lexeme.masked, Lexeme.opening, Lexeme.hidden, Lexeme.closing, encode_nil, List.append_nil,
      List.append_assoc] at h ⊢
    exact Scans.pythonString 3 h hlength hquote (.inr rfl) hbody
  | @other c _ hc =>
    have htext : (Lexeme.other c).text = String.utf8EncodeChar c := List.append_nil _
    have hmasked : (Lexeme.other c).masked = String.utf8EncodeChar c := List.append_nil _
    rw [htext] at h
    rw [htext, hmasked]
    apply h.character hlength
    intro hascii
    simp only [List.mem_cons, List.not_mem_nil, or_false, not_or] at hc
    exact ⟨byte_ne hascii (by decide) hc.1, byte_ne hascii (by decide) hc.2.1, byte_ne hascii (by decide) hc.2.2⟩

/-- The scan over a lexeme that the scanner reads as its language does. -/
theorem Scans.lexeme (hlexes : Lexes lang start l after) (hread : l.Readable lang before masked after)
    (hafter : ∀ c ∈ after.head?, isContinuation c = false) (hlength : masked.length = before.length)
    (h : Scans lang before masked (l.text ++ after) result) :
    Scans lang (before ++ l.text) (masked ++ l.masked) after result := by
  cases lang with
  | rust => exact h.rustLexeme hlexes hread hafter hlength
  | js => exact h.jsLexeme hlexes hread hafter hlength
  | python => exact h.pythonLexeme hlexes hread hlength

/-- A character starts with no continuation byte. -/
theorem head?_encodeChar (c : Char) (rest : List UInt8) :
    ∃ first, (String.utf8EncodeChar c ++ rest).head? = some first ∧ isContinuation first = false := by
  obtain ⟨first, tail, hshape, _⟩ := encodeChar_shape c
  refine ⟨first, ?_, not_isContinuation_head hshape⟩
  rw [hshape]
  rfl

/-- A word starts with no continuation byte. -/
theorem head?_encode {name : List Char} (hsome : name ≠ []) (rest : List UInt8) :
    ∃ first, (encode name ++ rest).head? = some first ∧ isContinuation first = false := by
  obtain ⟨c, name, rfl⟩ := List.exists_cons_of_ne_nil hsome
  rw [encode_cons, List.append_assoc]
  exact head?_encodeChar c _

/-- A lexeme starts with no continuation byte. -/
theorem Lexes.head?_text (h : Lexes lang start l after) :
    ∃ first, l.text.head? = some first ∧ isContinuation first = false := by
  cases lang with
  | rust =>
    cases h with
    | lineComment => exact ⟨byte '/', rfl, by decide⟩
    | blockComment => exact ⟨byte '/', rfl, by decide⟩
    | string => exact ⟨byte '"', rfl, by decide⟩
    | rawString htag =>
      simp only [List.mem_cons, List.not_mem_nil, or_false] at htag
      obtain rfl | rfl | rfl := htag
      · exact ⟨byte 'r', rfl, by decide⟩
      · exact ⟨byte 'b', rfl, by decide⟩
      · exact ⟨byte 'c', rfl, by decide⟩
    | char => exact ⟨byte '\'', rfl, by decide⟩
    | lifetime => exact ⟨byte '\'', rfl, by decide⟩
    | word hsome => exact head?_encode hsome _
    | other => exact head?_encodeChar _ _
  | js =>
    cases h with
    | hashbang => exact ⟨byte '#', rfl, by decide⟩
    | lineComment => exact ⟨byte '/', rfl, by decide⟩
    | blockComment => exact ⟨byte '/', rfl, by decide⟩
    | @string _ quote _ _ hquote =>
      simp only [List.mem_cons, List.not_mem_nil, or_false] at hquote
      refine ⟨quote, rfl, ?_⟩
      obtain rfl | rfl := hquote
      all_goals decide
    | template => exact ⟨byte '\x60', rfl, by decide⟩
    | regex => exact ⟨byte '/', rfl, by decide⟩
    | other => exact head?_encodeChar _ _
  | python =>
    cases h with
    | comment => exact ⟨byte '#', rfl, by decide⟩
    | @string quote _ _ hquote =>
      simp only [List.mem_cons, List.not_mem_nil, or_false] at hquote
      refine ⟨quote, rfl, ?_⟩
      obtain rfl | rfl := hquote
      all_goals decide
    | @longString quote _ _ hquote =>
      simp only [List.mem_cons, List.not_mem_nil, or_false] at hquote
      refine ⟨quote, rfl, ?_⟩
      obtain rfl | rfl := hquote
      all_goals decide
    | other => exact head?_encodeChar _ _

/-- The rest of a source starts with no continuation byte. -/
theorem IsSource.head?_textOf {source : List Lexeme} (h : IsSource lang start source) :
    ∀ c ∈ (textOf source).head?, isContinuation c = false := by
  intro c hc
  cases source with
  | nil => cases hc
  | cons l rest =>
    obtain ⟨first, hfirst, hcontinues⟩ := h.1.head?_text
    have hhead : (textOf (l :: rest)).head? = some first := by
      rw [textOf, List.flatMap_cons, List.head?_append, hfirst]
      rfl
    obtain rfl := Option.some.inj (hhead.symm.trans hc)
    exact hcontinues

/-- The scan over the rest of a source whose lexemes the scanner reads as its language does. -/
theorem Scans.source {source : List Lexeme} (hsource : IsSource lang start source)
    (hread : Readable lang before masked source) (hlength : masked.length = before.length)
    (h : Scans lang before masked (textOf source) result) : result = masked ++ maskedOf source := by
  induction source generalizing start before masked with
  | nil =>
    rw [maskedOf, List.flatMap_nil, List.append_nil]
    exact h.nil_eq
  | cons l rest ih =>
    obtain ⟨hlexes, hrest⟩ := hsource
    obtain ⟨hfirst, hread⟩ := hread
    rw [textOf, List.flatMap_cons] at h
    have hnext := h.lexeme hlexes hfirst hrest.head?_textOf hlength
    rw [maskedOf, List.flatMap_cons, ← List.append_assoc]
    apply ih hrest hread _ hnext
    rw [List.length_append, List.length_append, hlength, l.length_masked]

/-- The mask of a source is the scan over its bytes. -/
theorem scans_mask {source : List Lexeme} {text masked : String} (htext : asBytes text = textOf source)
    (h : mask lang text = some masked) : Scans lang [] [] (textOf source) (asBytes masked) := by
  obtain ⟨other, hother, hloop, _⟩ := exists_mask lang text
  obtain rfl := Option.some.inj (hother.symm.trans h)
  rw [htext] at hloop
  exact ⟨_, hloop⟩

end Devkit.Weakened
