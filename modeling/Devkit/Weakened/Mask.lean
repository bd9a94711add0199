import Devkit.Library.Utf8
import Mathlib.Data.List.DropRight

/-!
# Masking comments and literals

A test file is read with its comments blanked and the contents of its strings blanked. One scanner goes over the bytes
of the text for all three languages: at each byte it tells by a few hand-written rules what starts there, blanks it
and goes on past it. A scan that would read outside the bytes or make no text gives none.
-/

namespace Devkit.Weakened

open Devkit.Library.Utf8

/-- The languages whose test files the check reads. -/
inductive Lang
  | rust
  | js
  | python
deriving DecidableEq

/-- The byte of an ASCII character. -/
def byte (c : Char) : UInt8 := c.toNat.toUInt8

/-- The bytes of an ASCII text. -/
def bytes (text : String) : List UInt8 := text.toList.map byte

/-- A byte of an identifier. -/
def isIdent (b : UInt8) : Bool :=
  (byte 'a' ≤ b && b ≤ byte 'z') || (byte 'A' ≤ b && b ≤ byte 'Z') || (byte '0' ≤ b && b ≤ byte '9') ||
    b == byte '_' || b == byte '$'

/-- An ASCII whitespace byte. -/
def isAsciiWhitespace (b : UInt8) : Bool :=
  b == byte ' ' || b == byte '\t' || b == byte '\n' || b == byte '\x0c' || b == byte '\r'

/-- A byte once it is blanked: newlines stay. -/
def hide (b : UInt8) : UInt8 := if b = byte '\n' then b else byte ' '

/-- The place between characters at or after a place. -/
def charBoundary (b : List UInt8) (i : ℕ) : ℕ :=
  if i = 0 then 0 else i + ((b.drop i).takeWhile isContinuation).length

/-- The bytes with a range of them blanked, up to the end of its last character. -/
def blank (b out : List UInt8) (start stop : ℕ) : Option (List UInt8) :=
  let stop := charBoundary b (min stop b.length)
  if start ≤ stop ∧ stop ≤ out.length then
    some (out.take start ++ ((out.take stop).drop start).map hide ++ out.drop stop)
  else none

/-- Whether a line comment starts here. -/
def isLineComment (lang : Lang) (rest : List UInt8) : Bool :=
  match lang with
  | .python => true
  | .rust | .js => (bytes "//").isPrefixOf rest

/-- Whether a `/` after the masked text opens a regex literal rather than dividing. -/
def regexMayStart (before : List UInt8) : Bool :=
  let code := before.rdropWhile isAsciiWhitespace
  match code.getLast? with
  | none => true
  | some last =>
    (bytes "(,=:[!&|?\x7b\x7d;~+-*%<>").contains last ||
      [bytes "return", bytes "typeof", bytes "case"].contains (code.rtakeWhile isIdent)

/-- How far past the start of its body the regex literal closes, none when the line ends first. -/
def regexEnd (inClass : Bool) : List UInt8 → Option ℕ
  | [] => none
  | c :: rest =>
    if c = byte '\\' then
      match rest with
      | [] => none
      | escaped :: rest =>
        if escaped = byte '\n' then none else (regexEnd inClass rest).map (· + 2)
    else if c = byte '\n' then none
    else if c = byte '[' then (regexEnd true rest).map (· + 1)
    else if c = byte ']' then (regexEnd false rest).map (· + 1)
    else if c = byte '/' ∧ inClass = false then some 1
    else (regexEnd inClass rest).map (· + 1)

theorem regexEnd_escape (inClass : Bool) (d : UInt8) (rest : List UInt8) :
    regexEnd inClass (byte '\\' :: d :: rest) =
      if d = byte '\n' then none else (regexEnd inClass rest).map (· + 2) := by
  rw [regexEnd, if_pos rfl]

theorem regexEnd_cons {inClass : Bool} {c : UInt8} {rest : List UInt8} (hc : c ≠ byte '\\') :
    regexEnd inClass (c :: rest) =
      if c = byte '\n' then none
      else if c = byte '[' then (regexEnd true rest).map (· + 1)
      else if c = byte ']' then (regexEnd false rest).map (· + 1)
      else if c = byte '/' ∧ inClass = false then some 1
      else (regexEnd inClass rest).map (· + 1) := by
  cases rest with
  | nil => conv_lhs => rw [regexEnd, if_neg hc]
  | cons d rest => conv_lhs => rw [regexEnd, if_neg hc]

/-- How far the block comment reaches that is open to a depth: Rust's nest. -/
def blockCommentEnd (lang : Lang) : ℕ → List UInt8 → Option ℕ
  | _, [] => some 0
  | _, [_] => some 1
  | depth, c :: d :: rest =>
    if c = byte '/' ∧ d = byte '*' ∧ (depth = 0 ∨ lang = .rust) then (blockCommentEnd lang (depth + 1) rest).map (· + 2)
    else if c = byte '*' ∧ d = byte '/' then
      if depth = 0 then none
      else if depth - 1 = 0 then some 2
      else (blockCommentEnd lang (depth - 1) rest).map (· + 2)
    else (blockCommentEnd lang depth (d :: rest)).map (· + 1)

/-- How far past the start of its body the string reaches that a number of quotes closes. -/
def stringEnd (quote : UInt8) (width : ℕ) : List UInt8 → ℕ
  | [] => 0
  | c :: rest =>
    if c = byte '\\' then
      match rest with
      | [] => 1
      | _ :: rest => stringEnd quote width rest + 2
    else if c = quote ∧ ((c :: rest).take width).all (· == quote) ∧ width ≤ (c :: rest).length then width
    else stringEnd quote width rest + 1

theorem stringEnd_escape (quote : UInt8) (width : ℕ) (d : UInt8) (rest : List UInt8) :
    stringEnd quote width (byte '\\' :: d :: rest) = stringEnd quote width rest + 2 := by
  rw [stringEnd, if_pos rfl]

theorem stringEnd_cons {quote c : UInt8} {width : ℕ} {rest : List UInt8} (hc : c ≠ byte '\\') :
    stringEnd quote width (c :: rest) =
      if c = quote ∧ ((c :: rest).take width).all (· == quote) ∧ width ≤ (c :: rest).length then width
      else stringEnd quote width rest + 1 := by
  cases rest with
  | nil => conv_lhs => rw [stringEnd, if_neg hc]
  | cons d rest => conv_lhs => rw [stringEnd, if_neg hc]

/-- The number of `#` after the first byte. -/
def hashes (rest : List UInt8) : ℕ := ((rest.drop 1).takeWhile (· == byte '#')).length

/-- Whether a raw string starts at this `r`. -/
def isRawString (rest : List UInt8) : Bool := rest[1 + hashes rest]? == some (byte '"')

/-- How far into the bytes the closing bytes are. -/
def closePosition (close : List UInt8) : List UInt8 → Option ℕ
  | [] => none
  | c :: rest => if close.isPrefixOf (c :: rest) then some 0 else (closePosition close rest).map (· + 1)

/-- The bytes of a character by its first byte. -/
def leadWidth (lead : UInt8) : ℕ :=
  if lead ≤ 0x7f then 1 else if 0xc0 ≤ lead ∧ lead ≤ 0xdf then 2 else if 0xe0 ≤ lead ∧ lead ≤ 0xef then 3 else 4

/-- How far a Rust `'` reaches: a whole char literal, or just the quote of a lifetime. -/
def charLiteralLen (rest : List UInt8) : ℕ :=
  if rest[1]? = some (byte '\\') then
    match (rest.drop 2).findIdx? (· == byte '\'') with
    | none => 1
    | some e => e + 3
  else
    let width := (rest[1]?.map leadWidth).getD 1
    if rest[1 + width]? = some (byte '\'') then width + 2 else 1

/-- The masked bytes and the place of the scan after what starts at a place. -/
def maskStep (lang : Lang) (b out : List UInt8) (i : ℕ) : Option (List UInt8 × ℕ) :=
  let rest := b.drop i
  let c := rest.headD 0
  if (lang = .python ∧ c = byte '#' ∨ lang ≠ .python ∧ c = byte '/') ∧ isLineComment lang rest then
    let stop := i + (rest.takeWhile (· != byte '\n')).length
    (blank b out i stop).map (·, stop)
  else if lang ≠ .python ∧ c = byte '/' ∧ (bytes "/*").isPrefixOf rest then
    (blockCommentEnd lang 0 rest).bind fun length => (blank b out i (i + length)).map (·, i + length)
  else if lang = .js ∧ c = byte '/' ∧ regexMayStart (out.take i) then
    match regexEnd false (rest.drop 1) with
    | some length => (blank b out (i + 1) (i + 1 + length - 1)).map (·, i + 1 + length)
    | none => some (out, i + 1)
  else if lang = .python ∧ (c = byte '"' ∨ c = byte '\'') then
    let width := if 3 ≤ rest.length ∧ rest[1]? = some c ∧ rest[2]? = some c then 3 else 1
    let stop := i + width + stringEnd c width (rest.drop width)
    (blank b out (i + width) (max (stop - width) (i + width))).map (·, stop)
  else if lang = .js ∧ (c = byte '"' ∨ c = byte '\'' ∨ c = byte '\x60') ∨ lang = .rust ∧ c = byte '"' then
    let stop := i + 1 + stringEnd c 1 (rest.drop 1)
    (blank b out (i + 1) (max (stop - 1) (i + 1))).map (·, stop)
  else if lang = .rust ∧ c = byte 'r' ∧ (i = 0 ∨ (b[i - 1]?.any isIdent) = false) ∧ isRawString rest then
    let body := i + 2 + hashes rest
    let close := byte '"' :: List.replicate (hashes rest) (byte '#')
    let stop := ((closePosition close (b.drop body)).map (body + ·)).getD b.length
    (blank b out body stop).map (·, min (stop + close.length) b.length)
  else if lang = .rust ∧ c = byte '\'' then some (out, i + charLiteralLen rest)
  else some (out, i + 1)

/-- The masked bytes, once the scan is over. -/
def maskLoop (lang : Lang) (b : List UInt8) : ℕ → List UInt8 → ℕ → Option (List UInt8)
  | 0, out, i => if i < b.length then none else some out
  | fuel + 1, out, i =>
    if i < b.length then (maskStep lang b out i).bind fun next => maskLoop lang b fuel next.1 next.2 else some out

/-- The bytes of a text. -/
def asBytes (text : String) : List UInt8 := text.toByteArray.data.toList

/-- The text with every comment and every string's contents blanked. -/
def mask (lang : Lang) (text : String) : Option String :=
  (maskLoop lang (asBytes text) (asBytes text).length (asBytes text) 0).bind fun out =>
    String.fromUTF8? out.toByteArray

end Devkit.Weakened
