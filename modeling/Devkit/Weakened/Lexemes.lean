import Devkit.Weakened.Mask

/-!
# The lexemes of a test file

What the lexical grammars of Rust, JavaScript and Python say of comments, strings, char literals and regex literals,
each by the bytes after it where the longest match decides. All other code is left in characters, and in Rust in words
too. Which of JavaScript's `/` open a regex literal is decided by its syntax, so it is given with the lexemes of a
source, and so it is given that a string interpolates nothing.
-/

namespace Devkit.Weakened

open Devkit.Library.Utf8

/-- A lexeme of a source. -/
inductive Lexeme
  | lineComment (marker body : List UInt8)
  | blockComment (body : List UInt8)
  | quoted (delimiter body : List UInt8) (suffix : List Char)
  | raw (tag : List UInt8) (marks : ℕ) (body : List UInt8) (suffix : List Char)
  | char (content : List UInt8) (suffix : List Char)
  | lifetime (name : List Char)
  | regex (body : List UInt8)
  | word (name : List Char)
  | other (c : Char)

namespace Lexeme

/-- The bytes of a lexeme before what a mask hides of it. -/
def opening : Lexeme → List UInt8
  | .lineComment _ _ | .blockComment _ => []
  | .quoted delimiter _ _ => delimiter
  | .raw tag marks _ _ => tag ++ byte 'r' :: (List.replicate marks (byte '#') ++ [byte '"'])
  | .char content suffix => byte '\'' :: (content ++ byte '\'' :: encode suffix)
  | .lifetime name => byte '\'' :: encode name
  | .regex _ => [byte '/']
  | .word name => encode name
  | .other c => String.utf8EncodeChar c

/-- What a mask hides of a lexeme: a comment with its markers, and what is strictly between the delimiters of a
string or a regex literal. -/
def hidden : Lexeme → List UInt8
  | .lineComment marker body => marker ++ body
  | .blockComment body => bytes "/*" ++ body
  | .quoted _ body _ | .raw _ _ body _ | .regex body => body
  | _ => []

/-- The bytes of a lexeme after what a mask hides of it. -/
def closing : Lexeme → List UInt8
  | .quoted delimiter _ suffix => delimiter ++ encode suffix
  | .raw _ marks _ suffix => byte '"' :: (List.replicate marks (byte '#') ++ encode suffix)
  | .regex _ => [byte '/']
  | _ => []

/-- The bytes of a lexeme. -/
def text (l : Lexeme) : List UInt8 := l.opening ++ (l.hidden ++ l.closing)

/-- The bytes of a lexeme with what a mask hides blanked. -/
def masked (l : Lexeme) : List UInt8 := l.opening ++ (l.hidden.map hide ++ l.closing)

end Lexeme

/-- The bytes of a source. -/
def textOf (source : List Lexeme) : List UInt8 := source.flatMap Lexeme.text

/-- The bytes of a source where exactly comments and the contents of literals are blanked. -/
def maskedOf (source : List Lexeme) : List UInt8 := source.flatMap Lexeme.masked

/-- The body of a string: a backslash escapes the next byte, and neither the closing quotes nor one of the stops is
there unescaped. -/
inductive Body (quote : UInt8) (width : ℕ) (stops : List (List UInt8)) : List UInt8 → Prop
  | nil : Body quote width stops []
  | escape (d : UInt8) {rest : List UInt8} : Body quote width stops rest → Body quote width stops (byte '\\' :: d :: rest)
  | plain {c : UInt8} {rest : List UInt8} (hc : c ≠ byte '\\')
      (hquote : ¬ List.replicate width quote <+: c :: rest ++ List.replicate width quote)
      (hstops : ∀ stop ∈ stops, ¬ stop <+: c :: rest) : Body quote width stops rest → Body quote width stops (c :: rest)

/-- What follows the opening of a block comment that is open to a depth: where comments nest, each is closed. -/
inductive CommentBody (nests : Bool) : ℕ → List UInt8 → Prop
  | last : CommentBody nests 1 (bytes "*/")
  | closes {depth : ℕ} {rest : List UInt8} :
      CommentBody nests (depth + 1) rest → CommentBody nests (depth + 2) (byte '*' :: byte '/' :: rest)
  | opens {depth : ℕ} {rest : List UInt8} (hnests : nests = true) :
      CommentBody nests (depth + 2) rest → CommentBody nests (depth + 1) (byte '/' :: byte '*' :: rest)
  | plain {depth : ℕ} {c : UInt8} {rest : List UInt8} (hclose : ¬ bytes "*/" <+: c :: rest)
      (hopen : nests = true → ¬ bytes "/*" <+: c :: rest) :
      CommentBody nests depth rest → CommentBody nests depth (c :: rest)

/-- The body of a regex literal, in a class or out of one: on one line, no `/` outside a class. -/
inductive RegexBody : Bool → List UInt8 → Prop
  | nil : RegexBody false []
  | escape {inClass : Bool} {d : UInt8} {rest : List UInt8} (hd : d ≠ byte '\n') :
      RegexBody inClass rest → RegexBody inClass (byte '\\' :: d :: rest)
  | opens {rest : List UInt8} : RegexBody true rest → RegexBody false (byte '[' :: rest)
  | closes {rest : List UInt8} : RegexBody false rest → RegexBody true (byte ']' :: rest)
  | plain {inClass : Bool} {c : UInt8} {rest : List UInt8} (hescape : c ≠ byte '\\') (hline : c ≠ byte '\n')
      (hout : inClass = false → c ≠ byte '/' ∧ c ≠ byte '[') (hin : inClass = true → c ≠ byte ']') :
      RegexBody inClass rest → RegexBody inClass (c :: rest)

/-- The body of a raw string: what closes it is not there before its end. -/
def Unclosed (close body : List UInt8) : Prop := ∀ tail, tail ≠ [] → tail <:+ body → ¬ close <+: tail ++ close

/-- What closes a raw string. -/
def closeOf (marks : ℕ) : List UInt8 := byte '"' :: List.replicate marks (byte '#')

/-- The content of a char literal: a character, or an escape. -/
inductive CharBody : List UInt8 → Prop
  | plain (c : Char) (hc : c ∉ ['\'', '\\', '\n', '\r', '\t']) : CharBody (String.utf8EncodeChar c)
  | quote : CharBody [byte '\\', byte '\'']
  | escape {escaped : List UInt8} (hsome : escaped ≠ []) (hquote : byte '\'' ∉ escaped) :
      CharBody (byte '\\' :: escaped)

/-- A character of a Rust identifier, keyword or number: beyond ASCII, all but the whitespace of its grammar. -/
def isWordChar (c : Char) : Bool :=
  c.isAlphanum || c == '_' || (128 ≤ c.toNat && !([0x85, 0x200e, 0x200f, 0x2028, 0x2029].contains c.toNat))

/-- No character of a word follows. -/
def WordEnd (after : List UInt8) : Prop :=
  ∀ c rest, after = String.utf8EncodeChar c ++ rest → isWordChar c = false

/-- The bytes of a raw string after its `r` follow. -/
def RawStart (after : List UInt8) : Prop :=
  ∃ marks rest, after = List.replicate marks (byte '#') ++ byte '"' :: rest

/-- Rust's lexemes, each by the bytes after it. A carriage return before a newline is part of the newline. -/
inductive RustLexes : Lexeme → List UInt8 → Prop
  | lineComment {body after : List UInt8} (hbody : byte '\n' ∉ body)
      (hend : after = [] ∨ after.head? = some (byte '\n') ∧ body.getLast? ≠ some (byte '\r') ∨
        bytes "\r\n" <+: after) :
      RustLexes (.lineComment (bytes "//") body) after
  | blockComment {body after : List UInt8} (hbody : CommentBody true 1 body) : RustLexes (.blockComment body) after
  | string {body after : List UInt8} {suffix : List Char} (hbody : Body (byte '"') 1 [] body)
      (hsuffix : ∀ c ∈ suffix, isWordChar c = true) (hend : WordEnd after) :
      RustLexes (.quoted [byte '"'] body suffix) after
  | rawString {tag body after : List UInt8} {marks : ℕ} {suffix : List Char}
      (htag : tag ∈ [[], [byte 'b'], [byte 'c']]) (hbody : Unclosed (closeOf marks) body)
      (hsuffix : ∀ c ∈ suffix, isWordChar c = true) (hend : WordEnd after) :
      RustLexes (.raw tag marks body suffix) after
  | char {content after : List UInt8} {suffix : List Char} (hcontent : CharBody content)
      (hsuffix : ∀ c ∈ suffix, isWordChar c = true) (hend : WordEnd after) : RustLexes (.char content suffix) after
  | lifetime {name : List Char} {after : List UInt8} (hsome : name ≠ []) (hname : ∀ c ∈ name, isWordChar c = true)
      (hend : WordEnd after) (hquote : after.head? ≠ some (byte '\'')) : RustLexes (.lifetime name) after
  | word {name : List Char} {after : List UInt8} (hsome : name ≠ []) (hname : ∀ c ∈ name, isWordChar c = true)
      (hend : WordEnd after) (hraw : name ∈ [['r'], ['b', 'r'], ['c', 'r']] → ¬ RawStart after) :
      RustLexes (.word name) after
  | other {c : Char} {after : List UInt8} (hword : isWordChar c = false) (hquote : c ∉ ['"', '\''])
      (hcomment : c = '/' → after.head? ≠ some (byte '/') ∧ after.head? ≠ some (byte '*')) : RustLexes (.other c) after

/-- JavaScript's line terminators. -/
def terminators : List (List UInt8) := [[byte '\n'], [byte '\r'], encode ['\u2028'], encode ['\u2029']]

/-- JavaScript's lexemes, each by the bytes after it; a source may start with a hashbang comment. -/
inductive JsLexes : Bool → Lexeme → List UInt8 → Prop
  | hashbang {body after : List UInt8} (hbody : ∀ t ∈ terminators, ¬ t <:+: body)
      (hend : after = [] ∨ ∃ t ∈ terminators, t <+: after) : JsLexes true (.lineComment (bytes "#!") body) after
  | lineComment {start : Bool} {body after : List UInt8} (hbody : ∀ t ∈ terminators, ¬ t <:+: body)
      (hend : after = [] ∨ ∃ t ∈ terminators, t <+: after) : JsLexes start (.lineComment (bytes "//") body) after
  | blockComment {start : Bool} {body after : List UInt8} (hbody : CommentBody false 1 body) :
      JsLexes start (.blockComment body) after
  | string {start : Bool} {quote : UInt8} {body after : List UInt8} (hquote : quote ∈ [byte '"', byte '\''])
      (hbody : Body quote 1 [] body) : JsLexes start (.quoted [quote] body []) after
  | template {start : Bool} {body after : List UInt8} (hbody : Body (byte '\x60') 1 [bytes "$\x7b"] body) :
      JsLexes start (.quoted [byte '\x60'] body []) after
  | regex {start : Bool} {body after : List UInt8} (hbody : RegexBody false body) (hsome : body ≠ [])
      (hstar : body.head? ≠ some (byte '*')) : JsLexes start (.regex body) after
  | other {start : Bool} {c : Char} {after : List UInt8} (hquote : c ∉ ['"', '\'', '\x60'])
      (hcomment : c = '/' → after.head? ≠ some (byte '/') ∧ after.head? ≠ some (byte '*'))
      (hstart : start = true → c = '#' → after.head? ≠ some (byte '!')) : JsLexes start (.other c) after

/-- Python's lexemes, each by the bytes after it. -/
inductive PythonLexes : Lexeme → List UInt8 → Prop
  | comment {body after : List UInt8} (hbody : byte '\n' ∉ body ∧ byte '\r' ∉ body)
      (hend : after = [] ∨ after.head? = some (byte '\n') ∨ after.head? = some (byte '\r')) :
      PythonLexes (.lineComment (bytes "#") body) after
  | string {quote : UInt8} {body after : List UInt8} (hquote : quote ∈ [byte '"', byte '\''])
      (hbody : Body quote 1 [] body) (hempty : body = [] → after.head? ≠ some quote) :
      PythonLexes (.quoted [quote] body []) after
  | longString {quote : UInt8} {body after : List UInt8} (hquote : quote ∈ [byte '"', byte '\''])
      (hbody : Body quote 3 [] body) : PythonLexes (.quoted (List.replicate 3 quote) body []) after
  | other {c : Char} {after : List UInt8} (hc : c ∉ ['#', '"', '\'']) : PythonLexes (.other c) after

/-- A lexeme of a language, at the start of a source or not, by the bytes after it. -/
def Lexes (lang : Lang) (start : Bool) (l : Lexeme) (after : List UInt8) : Prop :=
  match lang with
  | .rust => RustLexes l after
  | .js => JsLexes start l after
  | .python => PythonLexes l after

/-- The lexemes of the rest of a source, from its start or not. -/
def IsSource (lang : Lang) : Bool → List Lexeme → Prop
  | _, [] => True
  | start, l :: rest => Lexes lang start l (textOf rest) ∧ IsSource lang false rest

/-- A word whose last character the scanner may take for the start of a raw string: an `r` with no ASCII character of
the word before it. -/
def EndsInRawMark (name : List Char) : Prop :=
  name.getLast? = some 'r' ∧ ∀ c, name.dropLast.getLast? = some c → 128 ≤ c.toNat

/-- No raw string is taken to start at the end of a word. -/
def KeepsMark (name : List Char) (after : List UInt8) : Prop :=
  EndsInRawMark name → isRawString (byte 'r' :: after) = false

/-- The scanner takes neither the end of a word for the start of a raw string, nor the closing quote after an escaped
one for the start of a char literal. -/
def Lexeme.Steady (l : Lexeme) (after : List UInt8) : Prop :=
  match l with
  | .quoted _ _ suffix | .raw _ _ _ suffix => KeepsMark suffix after
  | .char content suffix =>
    (content = bytes "\\'" → charLiteralLen (byte '\'' :: (encode suffix ++ after)) = 1) ∧ KeepsMark suffix after
  | .lifetime name | .word name => KeepsMark name after
  | _ => True

/-- What the scanner needs to read a lexeme as the language does, by the bytes before it, those bytes masked, and the
bytes after it. -/
def Lexeme.Readable (lang : Lang) (before masked : List UInt8) (l : Lexeme) (after : List UInt8) : Prop :=
  l.Steady after ∧
    match l with
    | .lineComment marker _ => marker ≠ bytes "#!" ∧ (after = [] ∨ after.head? = some (byte '\n'))
    | .raw tag marks body suffix =>
      tag = [] ∧ (before.getLast?.any isIdent) = false ∨
        stringEnd (byte '"') 1 (body ++ (closeOf marks ++ (encode suffix ++ after))) = body.length + 1
    | .regex _ => regexMayStart masked = true
    | .other c => lang = .js → c = '/' → regexMayStart masked = false ∨ regexEnd false after = none
    | _ => True

/-- The scanner reads every lexeme of the rest of a source as the language does. -/
def Readable (lang : Lang) (before masked : List UInt8) : List Lexeme → Prop
  | [] => True
  | l :: rest =>
    l.Readable lang before masked (textOf rest) ∧ Readable lang (before ++ l.text) (masked ++ l.masked) rest

/-- Where a lexeme is read in another way than the language reads it, the mask shows it: a regex literal is not all
spaces, and not only spaces are between two `/`. -/
def Lexeme.Shows (lang : Lang) (l : Lexeme) (after : List UInt8) : Prop :=
  l.Steady after ∧
    match l with
    | .regex body => ∃ b ∈ body, b ≠ byte ' '
    | .other c => lang = .js → c = '/' → (after.dropWhile (· == byte ' ')).head? ≠ some (byte '/')
    | _ => True

/-- Every lexeme of the rest of a source shows how it is read. -/
def Shows (lang : Lang) : List Lexeme → Prop
  | [] => True
  | l :: rest => l.Shows lang (textOf rest) ∧ Shows lang rest

end Devkit.Weakened
