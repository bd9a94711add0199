import Devkit.Weakened.Masked

/-!
# Where a mask is wrong

Where the scanner reads a lexeme in another way than its language does and the lexeme shows it, the mask keeps a byte
that it should blank or blanks one that it should keep. So on a source whose lexemes show how they are read, the mask
is right exactly where the scanner reads every lexeme as its language does.
-/

namespace Devkit.Weakened

open Devkit.Library.Utf8

/-- Only a newline and a space are the same once they are blanked. -/
theorem hide_eq_self {b : UInt8} (h : hide b = b) : b = byte '\n' ∨ b = byte ' ' := by
  obtain hnewline | hspace := hide_cases b
  · exact .inl (h.symm.trans hnewline)
  · exact .inr (h.symm.trans hspace)

/-- Spaces are blank already. -/
theorem map_hide_spaces {spaces : List UInt8} (h : ∀ b ∈ spaces, b = byte ' ') : spaces.map hide = spaces := by
  have hsame : ∀ b ∈ spaces, hide b = id b := by
    intro b hb
    rw [h b hb]
    rfl
  rw [List.map_congr_left hsame, List.map_id]

/-- Bytes that are not all spaces have a first one behind their spaces. -/
theorem exists_behind_spaces {l : List UInt8} (h : ∃ b ∈ l, b ≠ byte ' ') :
    ∃ spaces d tail, l = spaces ++ d :: tail ∧ (∀ b ∈ spaces, b = byte ' ') ∧ d ≠ byte ' ' := by
  induction l with
  | nil =>
    obtain ⟨b, hb, _⟩ := h
    cases hb
  | cons c l ih =>
    by_cases hc : c = byte ' '
    · obtain ⟨b, hb, hne⟩ := h
      have hb : b ∈ l := (List.mem_cons.mp hb).resolve_left fun heq => hne (heq.trans hc)
      obtain ⟨spaces, d, tail, rfl, hspaces, hd⟩ := ih ⟨b, hb, hne⟩
      exact ⟨c :: spaces, d, tail, rfl, List.forall_mem_cons.mpr ⟨hc, hspaces⟩, hd⟩
    · exact ⟨[], c, l, rfl, fun b hb => absurd hb List.not_mem_nil, hc⟩

section Places

variable {lang : Lang} {b out before masked rest tail after result : List UInt8} {c d : UInt8} {i : ℕ}

/-- The scan takes a step wherever it stands. -/
theorem Yields.exists_step (h : Yields lang b out i result) (hi : i < b.length) :
    ∃ after i', maskStep lang b out i = some (after, i') ∧ Yields lang b after i' result := by
  obtain ⟨fuel, hfuel⟩ := h
  cases fuel with
  | zero =>
    rw [maskLoop, if_pos hi] at hfuel
    cases hfuel
  | succ fuel =>
    rw [maskLoop, if_pos hi] at hfuel
    obtain ⟨⟨after, i'⟩, hstep, hrest⟩ := Option.bind_eq_some_iff.mp hfuel
    exact ⟨after, i', hstep, fuel, hrest⟩

/-- What is masked before the place of the scan starts what the scan gives. -/
theorem Scans.kept (h : Scans lang before masked rest result) (hlength : masked.length = before.length) :
    masked <+: result := by
  have htake := Yields.take_eq h
  rw [List.take_left' hlength] at htake
  rw [← htake]
  exact List.take_prefix ..

/-- A byte of a range that is blanked is blanked. -/
theorem getElem?_blank {start stop j : ℕ} (h : blank b out start stop = some after) (hstart : start ≤ j)
    (hstop : j < stop) (hj : j < b.length) : after[j]? = out[j]?.map hide := by
  rw [blank] at h
  have hboundary : j < charBoundary b (min stop b.length) := by
    rw [charBoundary]
    split
    · omega
    · omega
  split at h
  · rename_i hrange
    obtain rfl := Option.some.inj h
    have hfirst : (out.take start).length = start := by
      rw [List.length_take]
      omega
    have hmiddle : ((out.take (charBoundary b (min stop b.length))).drop start).length =
        charBoundary b (min stop b.length) - start := by
      rw [List.length_drop, List.length_take]
      omega
    rw [List.append_assoc, List.getElem?_append_right (by omega), hfirst, List.getElem?_append_left, List.getElem?_map,
      List.getElem?_drop, List.getElem?_take_of_lt (by omega)]
    · congr 2
      omega
    · rw [List.length_map, hmiddle]
      omega
  · cases h

/-- A JavaScript byte other than a `/` is kept where the scan stands at it. -/
theorem Scans.keeps (h : Scans .js before masked (c :: tail) result) (hlength : masked.length = before.length)
    (hslash : c ≠ byte '/') : masked ++ [c] <+: result := by
  by_cases hquote : c ∈ [byte '"', byte '\'', byte '\x60']
  · have hi : before.length < (before ++ c :: tail).length := by
      simp only [List.length_append, List.length_cons]
      omega
    obtain ⟨after, i', hstep, hnext⟩ := Yields.exists_step h hi
    rw [maskStep_string (.inl ⟨rfl, hquote⟩)] at hstep
    obtain ⟨blanked, hblank, hpair⟩ := Option.map_eq_some_iff.mp hstep
    obtain ⟨rfl, rfl⟩ := Prod.mk.inj hpair
    have hsame := take_blank hblank le_rfl
    have hlater := congrArg (List.take (before.length + 1)) hnext.take_eq
    rw [List.take_take, List.take_take, min_eq_left (Nat.le_add_right ..), hsame, ← List.singleton_append,
      ← List.append_assoc, List.take_left' (by rw [List.length_append, hlength]; rfl)] at hlater
    rw [← hlater]
    exact List.take_prefix ..
  · simp only [List.mem_cons, List.not_mem_nil, or_false, not_or] at hquote
    have hnext := h.pass hlength ⟨hquote.1, hquote.2.1, hquote.2.2, fun hc => absurd hc hslash⟩
    exact hnext.kept (by rw [List.length_append, List.length_append, hlength])

end Places

section Ends

variable {body hidden rest tail more : List UInt8}

/-- A string that one quote closes ends after a quote, or with the text. -/
theorem stringEnd_split (quote : UInt8) (tail : List UInt8) :
    (∃ hidden rest, tail = hidden ++ quote :: rest ∧ stringEnd quote 1 tail = hidden.length + 1) ∨
      stringEnd quote 1 tail = tail.length := by
  fun_induction stringEnd quote 1 tail with
  | case1 => exact .inr rfl
  | case2 => exact .inr rfl
  | case3 d rest ih =>
    obtain ⟨hidden, later, hrest, hend⟩ | hend := ih
    · refine .inl ⟨byte '\\' :: d :: hidden, later, ?_, ?_⟩
      · rw [hrest]
        rfl
      · rw [hend, List.length_cons, List.length_cons]
    · right
      rw [hend, List.length_cons, List.length_cons]
  | case4 c rest _ hcloses =>
    obtain ⟨rfl, _⟩ := hcloses
    exact .inl ⟨[], rest, rfl, rfl⟩
  | case5 c rest _ _ ih =>
    obtain ⟨hidden, later, hrest, hend⟩ | hend := ih
    · refine .inl ⟨c :: hidden, later, ?_, ?_⟩
      · rw [hrest]
        rfl
      · rw [hend, List.length_cons]
    · right
      rw [hend, List.length_cons]

/-- The bytes reach over a line to a `/`, a number of bytes on. -/
def ReachesSlash (tail : List UInt8) (n : ℕ) : Prop :=
  ∃ hidden rest, tail = hidden ++ byte '/' :: rest ∧ n = hidden.length + 1 ∧ byte '\n' ∉ hidden

theorem ReachesSlash.cons {c : UInt8} {n : ℕ} (h : ReachesSlash tail n) (hc : c ≠ byte '\n') :
    ReachesSlash (c :: tail) (n + 1) := by
  obtain ⟨hidden, rest, rfl, rfl, hnone⟩ := h
  exact ⟨c :: hidden, rest, rfl, rfl, List.not_mem_cons_of_ne_of_not_mem hc.symm hnone⟩

/-- What is taken for a regex literal is on one line and ends at a `/`. -/
theorem regexEnd_reaches {inClass : Bool} {n : ℕ} (h : regexEnd inClass tail = some n) : ReachesSlash tail n := by
  fun_induction regexEnd inClass tail generalizing n with
  | case1 => cases h
  | case2 => cases h
  | case3 => cases h
  | case4 inClass d rest hline ih =>
    obtain ⟨m, hm, rfl⟩ := Option.map_eq_some_iff.mp h
    exact ((ih hm).cons hline).cons (by decide)
  | case5 => cases h
  | case6 inClass rest _ hline ih =>
    obtain ⟨m, hm, rfl⟩ := Option.map_eq_some_iff.mp h
    exact (ih hm).cons hline
  | case7 inClass rest _ hline _ ih =>
    obtain ⟨m, hm, rfl⟩ := Option.map_eq_some_iff.mp h
    exact (ih hm).cons hline
  | case8 inClass c rest _ _ _ _ hcloses =>
    obtain ⟨rfl, _⟩ := hcloses
    exact ⟨[], rest, rfl, (Option.some.inj h).symm, List.not_mem_nil⟩
  | case9 inClass c rest _ hline _ _ _ ih =>
    obtain ⟨m, hm, rfl⟩ := Option.map_eq_some_iff.mp h
    exact (ih hm).cons hline

/-- A regex literal's body is on one line. -/
theorem RegexBody.newline_not_mem {inClass : Bool} (h : RegexBody inClass body) : byte '\n' ∉ body := by
  induction h with
  | nil => exact List.not_mem_nil
  | escape hd _ ih =>
    exact List.not_mem_cons_of_ne_of_not_mem (by decide) (List.not_mem_cons_of_ne_of_not_mem hd.symm ih)
  | opens _ ih => exact List.not_mem_cons_of_ne_of_not_mem (by decide) ih
  | closes _ ih => exact List.not_mem_cons_of_ne_of_not_mem (by decide) ih
  | plain _ hline _ _ _ ih => exact List.not_mem_cons_of_ne_of_not_mem hline.symm ih

/-- Behind its spaces no body of a regex literal starts with a `/`. -/
theorem RegexBody.ne_slash {spaces : List UInt8} {d : UInt8} (h : RegexBody false (spaces ++ d :: tail))
    (hspaces : ∀ b ∈ spaces, b = byte ' ') : d ≠ byte '/' := by
  induction spaces with
  | nil =>
    rintro rfl
    cases h with
    | plain _ _ hout _ _ => exact (hout rfl).1 rfl
  | cons c spaces ih =>
    obtain rfl := hspaces c List.mem_cons_self
    apply ih _ fun b hb => hspaces b (List.mem_cons_of_mem _ hb)
    cases h with
    | plain _ _ _ _ hrest => exact hrest

/-- Two bodies of one text are the same where each is blanked up to the quote after it. -/
theorem length_eq_of_blanked {quote : UInt8} (hquote : hide quote ≠ quote) {text : List UInt8}
    (htext : hidden ++ quote :: rest = body ++ quote :: more) (hhidden : hidden.map hide ++ [quote] <+: text)
    (hbody : body.map hide ++ [quote] <+: text) : hidden.length = body.length := by
  induction hidden generalizing body text with
  | nil =>
    cases body with
    | nil => rfl
    | cons c body =>
      obtain ⟨rfl, _⟩ := List.cons.inj htext
      obtain ⟨tail, rfl⟩ := hhidden
      exact absurd (List.cons_prefix_cons.mp hbody).1 hquote
  | cons c hidden ih =>
    cases body with
    | nil =>
      obtain ⟨rfl, _⟩ := List.cons.inj htext
      obtain ⟨tail, rfl⟩ := hbody
      exact absurd (List.cons_prefix_cons.mp hhidden).1 hquote
    | cons d body =>
      obtain ⟨rfl, hrest⟩ := List.cons.inj htext
      obtain ⟨tail, rfl⟩ := hhidden
      rw [List.length_cons, List.length_cons, ih hrest (List.prefix_append ..) (List.cons_prefix_cons.mp hbody).2]

end Ends

section Heads

variable {lang : Lang} {start : Bool} {l : Lexeme} {after : List UInt8} {d : UInt8}

/-- A lexeme that opens with a byte keeps its first byte where it is masked. -/
theorem Lexeme.head?_masked (h : l.opening ≠ []) : l.masked.head? = l.text.head? := by
  obtain ⟨first, tail, hopening⟩ := List.exists_cons_of_ne_nil h
  rw [Lexeme.masked, Lexeme.text, hopening]
  rfl

/-- A character has a byte. -/
theorem encodeChar_ne_nil (c : Char) : String.utf8EncodeChar c ≠ [] := by
  obtain ⟨first, tail, hshape, _⟩ := encodeChar_shape c
  rw [hshape]
  exact List.cons_ne_nil _ _

/-- A word has a byte. -/
theorem encode_ne_nil {name : List Char} (hsome : name ≠ []) : encode name ≠ [] := by
  obtain ⟨c, name, rfl⟩ := List.exists_cons_of_ne_nil hsome
  rw [encode_cons]
  exact List.append_ne_nil_of_left_ne_nil (encodeChar_ne_nil c) _

/-- Only comments are masked from their first byte on. -/
theorem Lexes.opening_ne_nil (h : Lexes lang start l after) :
    l.opening ≠ [] ∨ lang ≠ .python ∧ l.text.head? = some (byte '/') ∨
      (lang = .python ∨ start = true) ∧ l.text.head? = some (byte '#') := by
  cases lang with
  | rust =>
    cases h with
    | lineComment => exact .inr (.inl ⟨Lang.noConfusion, rfl⟩)
    | blockComment => exact .inr (.inl ⟨Lang.noConfusion, rfl⟩)
    | string => exact .inl (List.cons_ne_nil _ _)
    | rawString => exact .inl (List.append_ne_nil_of_right_ne_nil _ (List.cons_ne_nil _ _))
    | char => exact .inl (List.cons_ne_nil _ _)
    | lifetime => exact .inl (List.cons_ne_nil _ _)
    | word hsome => exact .inl (encode_ne_nil hsome)
    | other => exact .inl (encodeChar_ne_nil _)
  | js =>
    cases h with
    | hashbang => exact .inr (.inr ⟨.inr rfl, rfl⟩)
    | lineComment => exact .inr (.inl ⟨Lang.noConfusion, rfl⟩)
    | blockComment => exact .inr (.inl ⟨Lang.noConfusion, rfl⟩)
    | string => exact .inl (List.cons_ne_nil _ _)
    | template => exact .inl (List.cons_ne_nil _ _)
    | regex => exact .inl (List.cons_ne_nil _ _)
    | other => exact .inl (encodeChar_ne_nil _)
  | python =>
    cases h with
    | comment => exact .inr (.inr ⟨.inl rfl, rfl⟩)
    | string => exact .inl (List.cons_ne_nil _ _)
    | longString => exact .inl (List.cons_ne_nil _ _)
    | other => exact .inl (encodeChar_ne_nil _)

/-- The rest of a source that starts with no comment keeps its first byte where it is masked. -/
theorem IsSource.head?_maskedOf {source : List Lexeme} (h : IsSource lang false source)
    (hhead : (textOf source).head? = some d) (hslash : d ≠ byte '/') (hhash : lang = .python → d ≠ byte '#') :
    (maskedOf source).head? = some d := by
  cases source with
  | nil => cases hhead
  | cons l rest =>
    obtain ⟨first, hfirst, _⟩ := h.1.head?_text
    rw [textOf, List.flatMap_cons, List.head?_append, hfirst, Option.some_or] at hhead
    obtain rfl := Option.some.inj hhead
    rw [maskedOf, List.flatMap_cons, List.head?_append, l.head?_masked, hfirst]
    · rfl
    · obtain hopening | ⟨_, hcomment⟩ | ⟨hlang, hcomment⟩ := h.1.opening_ne_nil
      · exact hopening
      · exact absurd (Option.some.inj (hfirst.symm.trans hcomment)) hslash
      · exact absurd (Option.some.inj (hfirst.symm.trans hcomment)) (hhash (hlang.resolve_right Bool.false_ne_true))

/-- A JavaScript lexeme that starts with a space is the space. -/
theorem JsLexes.eq_space (h : JsLexes start l after) (hspace : l.text.head? = some (byte ' ')) : l = .other ' ' := by
  cases h with
  | hashbang => exact absurd (Option.some.inj hspace) (by decide)
  | lineComment => exact absurd (Option.some.inj hspace) (by decide)
  | blockComment => exact absurd (Option.some.inj hspace) (by decide)
  | string hquote =>
    obtain rfl := Option.some.inj hspace
    exact absurd hquote (by decide)
  | template => exact absurd (Option.some.inj hspace) (by decide)
  | regex => exact absurd (Option.some.inj hspace) (by decide)
  | @other _ c _ =>
    by_contra hother
    obtain ⟨first, tail, hshape, _⟩ := encodeChar_shape c
    have hfirst : first ≠ byte ' ' := by
      apply encodeChar_ne (c := c) (by decide)
      · rintro rfl
        exact hother rfl
      · rw [hshape]
        exact List.mem_cons_self
    apply hfirst
    rw [Lexeme.text, Lexeme.opening, hshape] at hspace
    exact Option.some.inj hspace

/-- The rest of a JavaScript source keeps its spaces and the byte behind them where it is masked. -/
theorem IsSource.spaces_maskedOf {source : List Lexeme} {spaces tail : List UInt8} (h : IsSource .js false source)
    (htext : textOf source = spaces ++ d :: tail) (hspaces : ∀ b ∈ spaces, b = byte ' ') (hslash : d ≠ byte '/') :
    ∃ more, maskedOf source = spaces ++ d :: more := by
  induction spaces generalizing source with
  | nil =>
    have hhead := h.head?_maskedOf (d := d) (by rw [htext]; rfl) hslash fun hlang => Lang.noConfusion hlang
    obtain ⟨more, hmore⟩ := List.head?_eq_some_iff.mp hhead
    exact ⟨more, hmore⟩
  | cons b spaces ih =>
    obtain rfl := hspaces b List.mem_cons_self
    cases source with
    | nil => cases htext
    | cons l rest =>
      obtain ⟨first, hfirst, _⟩ := h.1.head?_text
      have hspace : l.text.head? = some (byte ' ') := by
        have hhead := congrArg List.head? htext
        rw [textOf, List.flatMap_cons, List.head?_append, hfirst, Option.some_or] at hhead
        rw [hfirst, hhead]
        rfl
      obtain rfl : l = .other ' ' := JsLexes.eq_space h.1 hspace
      have hrest : textOf rest = spaces ++ d :: tail := (List.cons.inj htext).2
      obtain ⟨more, hmore⟩ := ih h.2 hrest fun b hb => hspaces b (List.mem_cons_of_mem _ hb)
      refine ⟨more, ?_⟩
      rw [maskedOf, List.flatMap_cons]
      change byte ' ' :: maskedOf rest = _
      rw [hmore]
      rfl

end Heads

section Lexemes

variable {lang : Lang} {start : Bool} {before masked marker body result : List UInt8} {rest : List Lexeme}

/-- A line comment of a language: JavaScript's hashbang, or one from its marker to the end of a line. -/
theorem Lexes.lineComment_cases {after : List UInt8} (h : Lexes lang start (.lineComment marker body) after) :
    lang = .js ∧ marker = bytes "#!" ∨
      (lang = .python ∧ marker = bytes "#" ∨ lang ≠ .python ∧ marker = bytes "//") ∧ byte '\n' ∉ body ∧
        (after = [] ∨ ∃ d ∈ [byte '\n', byte '\r', 0xe2], after.head? = some d) := by
  cases lang with
  | rust =>
    cases h with
    | lineComment hbody hend =>
      refine .inr ⟨.inr ⟨Lang.noConfusion, rfl⟩, hbody, ?_⟩
      obtain hnil | ⟨hnewline, _⟩ | ⟨tail, rfl⟩ := hend
      · exact .inl hnil
      · exact .inr ⟨_, List.mem_cons_self, hnewline⟩
      · exact .inr ⟨byte '\r', by decide, rfl⟩
  | js =>
    cases h with
    | hashbang => exact .inl ⟨rfl, rfl⟩
    | lineComment hbody hend =>
      refine .inr ⟨.inr ⟨Lang.noConfusion, rfl⟩, newline_not_mem hbody, ?_⟩
      obtain hnil | ⟨t, hmem, tail, rfl⟩ := hend
      · exact .inl hnil
      · right
        simp only [terminators, List.mem_cons, List.not_mem_nil, or_false] at hmem
        obtain rfl | rfl | rfl | rfl := hmem
        · exact ⟨byte '\n', by decide, rfl⟩
        · exact ⟨byte '\r', by decide, rfl⟩
        · exact ⟨0xe2, by decide, rfl⟩
        · exact ⟨0xe2, by decide, rfl⟩
  | python =>
    cases h with
    | comment hbody hend =>
      refine .inr ⟨.inl ⟨rfl, rfl⟩, hbody.1, ?_⟩
      obtain hnil | hnewline | hreturn := hend
      · exact .inl hnil
      · exact .inr ⟨_, List.mem_cons_self, hnewline⟩
      · exact .inr ⟨byte '\r', by decide, hreturn⟩

/-- A line comment is blanked as far as the next newline. -/
theorem Scans.lineComment_blanks {d : UInt8} {after : List UInt8}
    (h : Scans lang before masked (marker ++ body ++ after) result) (hlength : masked.length = before.length)
    (hmarker : lang = .python ∧ marker = bytes "#" ∨ lang ≠ .python ∧ marker = bytes "//") (hbody : byte '\n' ∉ body)
    (hafter : after.head? = some d) (hd : d ≠ byte '\n') :
    masked ++ ((marker ++ body).map hide ++ [hide d]) <+: result := by
  obtain ⟨tail, rfl⟩ := List.head?_eq_some_iff.mp hafter
  have hsplit := List.takeWhile_append_dropWhile (p := (· != byte '\n')) (l := tail)
  have hline : marker ++ body ++ d :: tail = marker ++ (body ++ d :: tail.takeWhile (· != byte '\n')) ++
      tail.dropWhile (· != byte '\n') := by
    rw [List.append_assoc, List.append_assoc, List.append_assoc, List.cons_append, hsplit]
  rw [hline] at h
  have hlonger := h.lineComment hlength hmarker (by
    rw [List.mem_append, List.mem_cons, not_or, not_or]
    exact ⟨hbody, hd.symm, fun hmem => absurd (List.mem_takeWhile_imp hmem) (by decide)⟩) (by
    cases hrest : tail.dropWhile (· != byte '\n') with
    | nil => exact .inl rfl
    | cons c rest =>
      right
      have hhead := List.head?_dropWhile_not (· != byte '\n') tail
      rw [hrest] at hhead
      have hc : c = byte '\n' := by simpa using hhead
      rw [List.head?_cons, hc])
  apply List.IsPrefix.trans _ (hlonger.kept (by
    rw [List.length_append, List.length_append, List.length_map, hlength]))
  refine ⟨(tail.takeWhile (· != byte '\n')).map hide, ?_⟩
  simp only [List.map_append, List.map_cons, List.append_assoc, List.cons_append, List.nil_append]

/-- A line comment that is masked as its language has it ends at a newline or with the text. -/
theorem Scans.readable_lineComment (hlexes : Lexes lang start (.lineComment marker body) (textOf rest))
    (hrest : IsSource lang false rest) (hlength : masked.length = before.length)
    (h : Scans lang before masked ((Lexeme.lineComment marker body).text ++ textOf rest) result)
    (hresult : result = masked ++ ((Lexeme.lineComment marker body).masked ++ maskedOf rest)) :
    marker ≠ bytes "#!" ∧ (textOf rest = [] ∨ (textOf rest).head? = some (byte '\n')) := by
  have htext : (Lexeme.lineComment marker body).text = marker ++ body := List.append_nil _
  have hmasked : (Lexeme.lineComment marker body).masked = (marker ++ body).map hide := List.append_nil _
  rw [htext] at h
  rw [hmasked] at hresult
  obtain ⟨rfl, rfl⟩ | ⟨hmarker, hbody, hend⟩ := hlexes.lineComment_cases
  · -- the scan passes the hashbang's first byte
    have hkept := h.keeps hlength (by decide)
    rw [hresult, List.prefix_append_right_inj] at hkept
    exact absurd (List.cons_prefix_cons.mp hkept).1 (by decide)
  · refine ⟨?_, ?_⟩
    · obtain ⟨_, rfl⟩ | ⟨_, rfl⟩ := hmarker
      · decide
      · decide
    · obtain hnil | ⟨d, hd, hhead⟩ := hend
      · exact .inl hnil
      · right
        rw [hhead]
        by_contra hother
        have hne : d ≠ byte '\n' := fun heq => hother (by rw [heq])
        have hfacts : d ≠ byte '/' ∧ d ≠ byte '#' ∧ hide d ≠ d := by
          simp only [List.mem_cons, List.not_mem_nil, or_false] at hd
          obtain rfl | rfl | rfl := hd
          · exact absurd rfl hne
          · decide
          · decide
        have hkept := h.lineComment_blanks hlength hmarker hbody hhead hne
        obtain ⟨more, hmore⟩ := List.head?_eq_some_iff.mp (hrest.head?_maskedOf hhead hfacts.1 fun _ => hfacts.2.1)
        rw [hresult, hmore, List.prefix_append_right_inj, List.prefix_append_right_inj] at hkept
        exact hfacts.2.2 (List.cons_prefix_cons.mp hkept).1

/-- A plain string's bytes are blanked up to the last one that it reaches. -/
theorem Scans.string_blanks {tail : List UInt8} {j : ℕ} (h : Scans .rust before masked (byte '"' :: tail) result)
    (hlength : masked.length = before.length) (hj : j + 1 < stringEnd (byte '"') 1 tail) (hin : j < tail.length) :
    result[before.length + 1 + j]? = tail[j]?.map hide := by
  have htotal : (before ++ byte '"' :: tail).length = before.length + 1 + tail.length := by
    rw [List.length_append, List.length_cons]
    omega
  obtain ⟨after, i', hstep, hnext⟩ := Yields.exists_step h (by omega)
  rw [maskStep_string (.inr ⟨rfl, rfl⟩)] at hstep
  obtain ⟨blanked, hblank, hpair⟩ := Option.map_eq_some_iff.mp hstep
  obtain ⟨rfl, rfl⟩ := Prod.mk.inj hpair
  have hbyte := getElem?_blank (j := before.length + 1 + j) hblank (by omega) (by omega) (by omega)
  have hout : (masked ++ byte '"' :: tail)[before.length + 1 + j]? = tail[j]? := by
    have hplace : before.length + 1 + j - masked.length = j + 1 := by omega
    rw [List.getElem?_append_right (by omega), hplace, List.getElem?_cons_succ]
  have hsame := congrArg (·[before.length + 1 + j]?) hnext.take_eq
  rw [List.getElem?_take_of_lt (by omega), List.getElem?_take_of_lt (by omega), hbyte, hout] at hsame
  exact hsame

/-- A raw string that is masked as Rust has it is seen, or ends where a plain string does. -/
theorem Scans.readable_raw {tag : List UInt8} {marks : ℕ} {suffix : List Char} {after more : List UInt8}
    (htag : tag ∈ [[], [byte 'b'], [byte 'c']]) (hlength : masked.length = before.length)
    (h : Scans .rust before masked ((Lexeme.raw tag marks body suffix).text ++ after) result)
    (hresult : result = masked ++ ((Lexeme.raw tag marks body suffix).masked ++ more)) :
    tag = [] ∧ (before.getLast?.any isIdent) = false ∨
      stringEnd (byte '"') 1 (body ++ (closeOf marks ++ (encode suffix ++ after))) = body.length + 1 := by
  by_contra hread
  rw [not_or] at hread
  obtain ⟨hunseen, hother⟩ := hread
  have hquote : hide (byte '"') ≠ byte '"' := by decide
  obtain ⟨tail, htail⟩ : ∃ tail, tail = body ++ (closeOf marks ++ (encode suffix ++ after)) := ⟨_, rfl⟩
  obtain ⟨later, hlater⟩ : ∃ later, later = List.replicate marks (byte '#') ++ (encode suffix ++ more) := ⟨_, rfl⟩
  rw [← htail] at hother
  have htext : (Lexeme.raw tag marks body suffix).text ++ after =
      tag ++ byte 'r' :: (List.replicate marks (byte '#') ++ byte '"' :: tail) := by
    simp only [Lexeme.text, Lexeme.opening, Lexeme.hidden, Lexeme.closing, htail, closeOf, List.append_assoc,
      List.cons_append, List.nil_append]
  have hmasked : (Lexeme.raw tag marks body suffix).masked ++ more =
      tag ++ byte 'r' :: List.replicate marks (byte '#') ++ byte '"' :: (body.map hide ++ byte '"' :: later) := by
    simp only [Lexeme.masked, Lexeme.opening, Lexeme.hidden, Lexeme.closing, hlater, List.append_assoc,
      List.cons_append, List.nil_append]
  rw [htext] at h
  rw [hmasked, ← List.append_assoc] at hresult
  have hopened := h.rawOpening hlength htag hunseen
  have hplace : (masked ++ (tag ++ byte 'r' :: List.replicate marks (byte '#'))).length =
      (before ++ (tag ++ byte 'r' :: List.replicate marks (byte '#'))).length := by
    simp only [List.length_append, hlength]
  obtain ⟨hidden, rest, hsplit, hend⟩ | hend := stringEnd_split (byte '"') tail
  · -- the plain string ends at a quote, and that quote is kept
    rw [hsplit] at hopened hend
    have hstring := @Scans.string _ _ _ rest _ _ hidden hopened hplace (.inr ⟨rfl, rfl⟩) hend
    have hkept := hstring.kept (by simp only [List.length_append, List.length_map, hlength])
    rw [hresult, List.prefix_append_right_inj, List.singleton_append, List.cons_prefix_cons] at hkept
    apply hother
    rw [hsplit, hend, length_eq_of_blanked hquote (hsplit.symm.trans htail) hkept.2]
    exact ⟨later, by rw [List.append_assoc, List.singleton_append]⟩
  · -- the plain string reaches the end of the text, past the quote that closes the raw string
    have hlong : tail.length = body.length + 1 + marks + (encode suffix ++ after).length := by
      simp only [htail, closeOf, List.length_append, List.length_cons, List.length_replicate]
      omega
    have hblanked := hopened.string_blanks (j := body.length) hplace (by omega) (by omega)
    have hclosing : tail[body.length]? = some (byte '"') := by
      rw [htail, List.getElem?_append_right le_rfl, Nat.sub_self]
      rfl
    have hkept : result[(before ++ (tag ++ byte 'r' :: List.replicate marks (byte '#'))).length + 1 + body.length]? =
        some (byte '"') := by
      have hafter : (before ++ (tag ++ byte 'r' :: List.replicate marks (byte '#'))).length + 1 + body.length -
          (masked ++ (tag ++ byte 'r' :: List.replicate marks (byte '#'))).length = body.length + 1 := by omega
      rw [hresult, List.getElem?_append_right (by omega), hafter, List.getElem?_cons_succ,
        List.getElem?_append_right (by rw [List.length_map]), List.length_map, Nat.sub_self]
      rfl
    rw [hkept, hclosing, Option.map_some, Option.some_inj] at hblanked
    exact hquote hblanked.symm

/-- A regex literal with more than spaces in it that is masked as JavaScript has it is seen. -/
theorem Scans.readable_regex {after more : List UInt8} (hbody : RegexBody false body) (hsome : body ≠ [])
    (hstar : body.head? ≠ some (byte '*')) (hshows : ∃ b ∈ body, b ≠ byte ' ') (hlength : masked.length = before.length)
    (h : Scans .js before masked (byte '/' :: (body ++ byte '/' :: after)) result)
    (hresult : result = masked ++ byte '/' :: (body.map hide ++ byte '/' :: more)) : regexMayStart masked = true := by
  by_contra hunseen
  obtain ⟨spaces, d, tail, rfl, hspaces, hd⟩ := exists_behind_spaces hshows
  have hline : d ≠ byte '\n' := by
    rintro rfl
    exact hbody.newline_not_mem (List.mem_append_right _ List.mem_cons_self)
  -- the `/` and the spaces are passed, and so the byte behind them is kept
  have hslash := h.pass hlength ⟨by decide, by decide, by decide, fun _ =>
    ⟨hbody.head_ne hsome hstar _, .inl (Bool.not_eq_true _ ▸ hunseen)⟩⟩
  rw [List.append_assoc] at hslash
  have hpassed := hslash.passAll (by rw [List.length_append, List.length_append, hlength]) (by
    intro left c right hpart
    obtain rfl : c = byte ' ' := by
      apply hspaces
      rw [hpart]
      exact List.mem_append_right left List.mem_cons_self
    exact ⟨by decide, by decide, by decide, fun hc => absurd hc (by decide)⟩)
  have hkept := hpassed.keeps (by simp only [List.length_append, hlength]) (hbody.ne_slash hspaces)
  rw [hresult, List.map_append, map_hide_spaces hspaces] at hkept
  simp only [List.append_assoc, List.prefix_append_right_inj, List.cons_append, List.nil_append, List.cons_prefix_cons,
    List.map_cons, true_and] at hkept
  obtain hnewline | hspace := hide_eq_self hkept.1.symm
  · exact hline hnewline
  · exact hd hspace

/-- A `/` of JavaScript with more than spaces between it and the next `/` is masked as the other code that it is only
where it is not taken for the start of a regex literal. -/
theorem Scans.readable_slash (hrest : IsSource .js false rest)
    (hcomment : (textOf rest).head? ≠ some (byte '/') ∧ (textOf rest).head? ≠ some (byte '*'))
    (hshows : ((textOf rest).dropWhile (· == byte ' ')).head? ≠ some (byte '/')) (hlength : masked.length = before.length)
    (h : Scans .js before masked (byte '/' :: textOf rest) result)
    (hresult : result = masked ++ byte '/' :: maskedOf rest) :
    regexMayStart masked = false ∨ regexEnd false (textOf rest) = none := by
  by_contra hread
  rw [not_or, Bool.not_eq_false] at hread
  obtain ⟨hstart, hsome⟩ := hread
  obtain ⟨n, hn⟩ := Option.ne_none_iff_exists'.mp hsome
  obtain ⟨hidden, later, htext, rfl, hline⟩ := regexEnd_reaches hn
  have hvisible : ∃ b ∈ hidden, b ≠ byte ' ' := by
    by_contra hall
    simp only [not_exists, not_and, not_not] at hall
    apply hshows
    rw [htext, List.dropWhile_append_of_pos fun b hb => beq_iff_eq.mpr (hall b hb)]
    rfl
  obtain ⟨spaces, d, tail, rfl, hspaces, hd⟩ := exists_behind_spaces hvisible
  have hslash : d ≠ byte '/' := by
    rintro rfl
    apply hshows
    rw [htext, List.append_assoc, List.dropWhile_append_of_pos fun b hb => beq_iff_eq.mpr (hspaces b hb)]
    rfl
  obtain ⟨more, hmore⟩ := @IsSource.spaces_maskedOf d rest spaces (tail ++ byte '/' :: later) hrest
    (by rw [htext, List.append_assoc, List.cons_append]) hspaces hslash
  rw [htext] at h hcomment hn
  have hkept := (h.regexTaken hlength hcomment hstart hn).kept (by
    simp only [List.length_append, List.length_map, hlength])
  rw [hresult, hmore, List.map_append, map_hide_spaces hspaces] at hkept
  simp only [List.append_assoc, List.prefix_append_right_inj, List.cons_append, List.nil_append, List.cons_prefix_cons,
    List.map_cons, true_and] at hkept
  obtain hnewline | hspace := hide_eq_self hkept.1
  · apply hline
    rw [hnewline]
    exact List.mem_append_right _ List.mem_cons_self
  · exact hd hspace

/-- A lexeme that shows how it is read and is masked as its language has it is read as its language does. -/
theorem Scans.readableLexeme {l : Lexeme} (hlexes : Lexes lang start l (textOf rest)) (hrest : IsSource lang false rest)
    (hshows : l.Shows lang (textOf rest)) (hlength : masked.length = before.length)
    (h : Scans lang before masked (l.text ++ textOf rest) result)
    (hresult : result = masked ++ (l.masked ++ maskedOf rest)) : l.Readable lang before masked (textOf rest) := by
  refine ⟨hshows.1, ?_⟩
  cases l with
  | lineComment marker body => exact h.readable_lineComment hlexes hrest hlength hresult
  | blockComment => exact trivial
  | quoted => exact trivial
  | raw tag marks body suffix =>
    cases lang with
    | rust =>
      cases hlexes with
      | rawString htag => exact h.readable_raw htag hlength hresult
    | js => cases hlexes
    | python => cases hlexes
  | char => exact trivial
  | lifetime => exact trivial
  | regex body =>
    cases lang with
    | rust => cases hlexes
    | js =>
      cases hlexes with
      | regex hbody hsome hstar =>
        simp only [Lexeme.text, Lexeme.masked, Lexeme.opening, Lexeme.hidden, Lexeme.closing, List.append_assoc,
          List.cons_append, List.nil_append] at h hresult
        exact h.readable_regex hbody hsome hstar hshows.2 hlength hresult
    | python => cases hlexes
  | word => exact trivial
  | other c =>
    rintro rfl rfl
    cases hlexes with
    | other _ hcomment => exact h.readable_slash hrest (hcomment rfl) (hshows.2 rfl rfl) hlength hresult

/-- The scan over the rest of a source whose lexemes show how they are read, and that is masked as its language has
it. -/
theorem Scans.readable {source : List Lexeme} (hsource : IsSource lang start source) (hshows : Shows lang source)
    (hlength : masked.length = before.length) (h : Scans lang before masked (textOf source) result)
    (hresult : result = masked ++ maskedOf source) : Readable lang before masked source := by
  induction source generalizing start before masked with
  | nil => exact trivial
  | cons l rest ih =>
    obtain ⟨hlexes, hrest⟩ := hsource
    obtain ⟨hfirst, hshows⟩ := hshows
    rw [textOf, List.flatMap_cons] at h
    rw [maskedOf, List.flatMap_cons] at hresult
    have hread := h.readableLexeme hlexes hrest hfirst hlength hresult
    refine ⟨hread, ih hrest hshows ?_ (h.lexeme hlexes hread hrest.head?_textOf hlength) ?_⟩
    · rw [List.length_append, List.length_append, hlength, l.length_masked]
    · rw [hresult, List.append_assoc]
      rfl

end Lexemes

/-- Masking a text never fails and keeps its length and its newlines. Of a source whose lexemes the scanner reads as
its language does it blanks exactly comments and what is between the delimiters of strings and regex literals, and of
one whose lexemes show how they are read only then. -/
theorem mask_hides (lang : Lang) (text : String) : ∃ masked, mask lang text = some masked ∧
    (asBytes masked).length = (asBytes text).length ∧
    (∀ i : ℕ, (asBytes masked)[i]? = some (byte '\n') ↔ (asBytes text)[i]? = some (byte '\n')) ∧
    ∀ source, IsSource lang true source → asBytes text = textOf source →
      (Readable lang [] [] source → asBytes masked = maskedOf source) ∧
      (Shows lang source → asBytes masked = maskedOf source → Readable lang [] [] source) := by
  obtain ⟨masked, hmask, _⟩ := exists_mask lang text
  obtain ⟨hlength, hnewlines⟩ := mask_shape hmask
  refine ⟨masked, hmask, hlength, hnewlines, fun source hsource htext => ?_⟩
  have hscans := scans_mask htext hmask
  exact ⟨fun hread => hscans.source hsource hread rfl,
    fun hshows hresult => hscans.readable hsource hshows rfl hresult⟩

/-- A string with a `#` in it, and a comment with a quote in it. -/
theorem mask_hides_sample :
    ∃ masked, mask .python "s='#'#'" = some masked ∧ asBytes masked = bytes "s=' '  " := by
  obtain ⟨masked, hmask, _, _, hsource⟩ := mask_hides .python "s='#'#'"
  refine ⟨masked, hmask, (hsource [.other 's', .other '=', .quoted [byte '\''] (bytes "#") [],
    .lineComment (bytes "#") (bytes "'")] ?_ ?_).1 ?_⟩
  · refine ⟨.other (by decide), .other (by decide), .string (by decide) ?_ (by decide),
      .comment (by decide) (.inl rfl), trivial⟩
    exact .plain (by decide) (by decide) (by decide) .nil
  · rw [asBytes_eq]
    decide
  · exact ⟨⟨trivial, fun h => Lang.noConfusion h⟩, ⟨trivial, fun h => Lang.noConfusion h⟩,
      ⟨fun h => absurd h.1 (by decide), trivial⟩,
      ⟨trivial, by decide, .inl rfl⟩, trivial⟩

/-- A word ends before an ASCII character that is none of a word. -/
theorem wordEnd_ascii {x : Char} (hx : x.toNat < 128) (hword : isWordChar x = false) (tail : List UInt8) :
    WordEnd (byte x :: tail) := by
  intro c rest hafter
  obtain ⟨first, more, hshape, _⟩ := encodeChar_shape c
  rw [hshape] at hafter
  obtain ⟨hfirst, _⟩ := List.cons.inj hafter
  by_contra hother
  apply encodeChar_ne (c := c) hx (ne_of_isWordChar (Bool.not_eq_false _ ▸ hother) hword) (b := first)
  · rw [hshape]
    exact List.mem_cons_self
  · exact hfirst.symm

/-- An escaped quote as a char literal, and a double quote as one after it. -/
def escapedQuote : List Lexeme :=
  [.word ['v', 'e', 'c'], .other '!', .other '[', .char (bytes "\\'") [], .other ',',
    .char (String.utf8EncodeChar '"') [], .other ']', .other ';']

/-- The quote that closes the first char literal is taken to open the next one, and so the double quote opens a
string: the brackets after it are blanked. -/
theorem escaped_quote_hides : IsSource .rust true escapedQuote ∧
    asBytes "vec!['\\'','\"'];" = textOf escapedQuote ∧
    ∃ masked, mask .rust "vec!['\\'','\"'];" = some masked ∧ asBytes masked = bytes "vec!['\\'','\"  ;" ∧
      asBytes masked ≠ maskedOf escapedQuote := by
  have htext : asBytes "vec!['\\'','\"'];" = textOf escapedQuote := by
    rw [asBytes_eq]
    decide
  refine ⟨?_, htext, ?_⟩
  · have hother : ∀ {c : Char}, c = '!' ∨ c = '[' ∨ c = ',' ∨ c = ']' ∨ c = ';' →
        ∀ after, RustLexes (.other c) after := by
      rintro c (rfl | rfl | rfl | rfl | rfl) after
      all_goals exact .other (by decide) (by decide) fun h => absurd h (by decide)
    have hnone : ∀ c ∈ ([] : List Char), isWordChar c = true := fun c hc => absurd hc List.not_mem_nil
    have hvec : ∀ c ∈ ['v', 'e', 'c'], isWordChar c = true := List.forall_mem_cons.mpr
      ⟨rfl, List.forall_mem_cons.mpr ⟨rfl, List.forall_mem_cons.mpr ⟨rfl, hnone⟩⟩⟩
    refine ⟨.word (List.cons_ne_nil _ _) hvec (@wordEnd_ascii '!' (by decide) (by decide) _)
      fun h => absurd h (by decide), hother (by decide) _, hother (by decide) _,
      .char .quote hnone (@wordEnd_ascii ',' (by decide) (by decide) _), hother (by decide) _,
      .char (.plain '"' (by decide)) hnone (@wordEnd_ascii ']' (by decide) (by decide) _),
      hother (by decide) _, hother (by decide) _, trivial⟩
  · obtain ⟨masked, hmask, hloop, _⟩ := exists_mask .rust "vec!['\\'','\"'];"
    have hbytes : asBytes masked = bytes "vec!['\\'','\"  ;" := by
      have heval : maskLoop .rust (textOf escapedQuote) (textOf escapedQuote).length (textOf escapedQuote) 0 =
          some (bytes "vec!['\\'','\"  ;") := by decide
      rw [htext, heval] at hloop
      exact (Option.some.inj hloop).symm
    refine ⟨masked, hmask, hbytes, ?_⟩
    rw [hbytes]
    decide

end Devkit.Weakened
