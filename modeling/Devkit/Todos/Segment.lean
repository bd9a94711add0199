import Devkit.Common.Path
import Mathlib.Tactic.IntervalCases

/-!
# Session and agent ids as file names

A mark is kept in a file named by its ids, each byte outside a small set as an escape of two digits. The names are
read back when the marks are listed. The reader takes an escape through the parser of numbers, which reads more
spellings than the writer uses.
-/

namespace Devkit.Todos

open Devkit.Common

/-- The byte that starts an escape. -/
def percent : UInt8 := 37

/-- Whether a byte is written as it is: a letter, a digit, `_` or `-`. -/
def plainByte (b : UInt8) : Bool :=
  (97 ≤ b && b ≤ 122) || (65 ≤ b && b ≤ 90) || (48 ≤ b && b ≤ 57) || b == 95 || b == 45

/-- One hexadecimal digit, upper case. -/
def upperDigit (n : ℕ) : Char := if n < 10 then Char.ofNat (48 + n) else Char.ofNat (55 + n)

/-- One byte as it is written. -/
def segmentByte (b : UInt8) : List Char :=
  if plainByte b then [Char.ofNat b.toNat] else ['%', upperDigit (b.toNat / 16), upperDigit (b.toNat % 16)]

/-- An id as one path segment. -/
def segment (id : String) : String := String.ofList ((bytes id).flatMap segmentByte)

/-- The value of a hexadecimal digit, of either case. -/
def digitValue (b : UInt8) : Option ℕ :=
  if 48 ≤ b ∧ b ≤ 57 then some (b.toNat - 48)
  else if 97 ≤ b ∧ b ≤ 102 then some (b.toNat - 87)
  else if 65 ≤ b ∧ b ≤ 70 then some (b.toNat - 55)
  else none

/-- The byte some digits are, to base 16: a leading `+` is taken, and a sign alone is no number. -/
def fromStrRadix (src : List UInt8) : Option UInt8 :=
  let digits := if src.head? = some 43 then src.tail else src
  if digits = [] then none
  else do
    let values ← digits.mapM digitValue
    let value := values.foldl (fun acc d => acc * 16 + d) 0
    if value < 256 then some (UInt8.ofNat value) else none

/-- The byte an escape is read as. -/
def escapedByte (hi lo : UInt8) : Option UInt8 :=
  match toStr [hi, lo] with
  | none => none
  | some text => fromStrRadix (bytes text)

/-- The bytes some bytes of a name are read as. -/
def unsegmentBytes : List UInt8 → Option (List UInt8)
  | [] => some []
  | b :: rest =>
    if b = percent then
      match rest with
      | hi :: lo :: rest => do
        let b ← escapedByte hi lo
        let out ← unsegmentBytes rest
        some (b :: out)
      | _ => none
    else if plainByte b then do
      let out ← unsegmentBytes rest
      some (b :: out)
    else none

/-- The id a name is read as. -/
def unsegment (name : String) : Option String := (unsegmentBytes (bytes name)).bind toStr

section Bytes

/-- The bytes of a text read as the text. -/
theorem toStr_bytes (text : String) : toStr (bytes text) = some text := by
  have hvalid : String.fromUTF8? text.toByteArray = some text := by
    unfold String.fromUTF8?
    rw [dif_pos text.isValidUTF8]
    rfl
  simpa [toStr, bytes] using hvalid

/-- Bytes that read as a text are its bytes. -/
theorem bytes_of_toStr {name : OsStr} {text : String} (hread : toStr name = some text) : bytes text = name := by
  unfold toStr String.fromUTF8? at hread
  split at hread
  · obtain rfl := Option.some.inj hread
    rfl
  · contradiction

/-- The byte of an ASCII character. -/
def asciiByte (c : Char) : UInt8 := UInt8.ofNat c.toNat

/-- The bytes of ASCII characters, one each. -/
theorem bytes_ofList {chars : List Char} (hascii : ∀ c ∈ chars, c.toNat < 128) :
    bytes (String.ofList chars) = chars.map asciiByte := by
  have hbytes : chars.flatMap String.utf8EncodeChar = chars.map asciiByte := by
    induction chars with
    | nil => rfl
    | cons c rest ih =>
      have hc : c.toNat ≤ 127 := Nat.le_of_lt_succ (hascii c List.mem_cons_self)
      rw [List.flatMap_cons, List.map_cons, ih fun c hmem => hascii c (List.mem_cons_of_mem _ hmem)]
      simp [String.utf8EncodeChar, asciiByte, hc]
  simp [bytes, List.utf8Encode, hbytes]

end Bytes

section RoundTrip

/-- An upper-case digit is ASCII and reads as its number. -/
theorem upperDigit_spec {n : ℕ} (hn : n < 16) :
    (upperDigit n).toNat < 128 ∧ digitValue (asciiByte (upperDigit n)) = some n ∧
      asciiByte (upperDigit n) ≠ 43 := by
  interval_cases n <;> decide

/-- A plain byte is ASCII and is its own character's byte. -/
theorem plainByte_spec {b : UInt8} (hplain : plainByte b = true) :
    (Char.ofNat b.toNat).toNat < 128 ∧ asciiByte (Char.ofNat b.toNat) = b ∧ b ≠ percent := by
  have hall : ∀ n : Fin 256, plainByte (UInt8.ofNat n) = true →
      (Char.ofNat n).toNat < 128 ∧ asciiByte (Char.ofNat n) = UInt8.ofNat n ∧ UInt8.ofNat n ≠ percent := by
    decide +kernel
  have hb := hall ⟨b.toNat, b.toNat_lt⟩
  simp only [UInt8.ofNat_toNat] at hb
  exact hb hplain

/-- Every character of a written byte is ASCII. -/
theorem segmentByte_ascii (b : UInt8) : ∀ c ∈ segmentByte b, c.toNat < 128 := by
  intro c hc
  have hb := b.toNat_lt
  unfold segmentByte at hc
  split at hc
  · rename_i hplain
    obtain rfl := List.mem_singleton.mp hc
    exact (plainByte_spec hplain).1
  · simp only [List.mem_cons, List.not_mem_nil, or_false] at hc
    rcases hc with rfl | rfl | rfl
    · decide
    · exact (upperDigit_spec (by omega)).1
    · exact (upperDigit_spec (by omega)).1

/-- The bytes of a written id. -/
theorem bytes_segment (id : String) :
    bytes (segment id) = (bytes id).flatMap fun b => (segmentByte b).map asciiByte := by
  unfold segment
  rw [bytes_ofList, List.map_flatMap]
  intro c hc
  obtain ⟨b, -, hmem⟩ := List.mem_flatMap.mp hc
  exact segmentByte_ascii b c hmem

/-- Two digits are read as a byte, to base 16. -/
theorem fromStrRadix_digits {hi lo : UInt8} {a b : ℕ} (hhi : digitValue hi = some a) (hlo : digitValue lo = some b)
    (hsign : hi ≠ 43) (hsmall : a * 16 + b < 256) : fromStrRadix [hi, lo] = some (UInt8.ofNat (a * 16 + b)) := by
  simp [fromStrRadix, hsign, hhi, hlo, hsmall]

/-- The escape of a byte is read as the byte. -/
theorem escapedByte_upper (b : UInt8) :
    escapedByte (asciiByte (upperDigit (b.toNat / 16))) (asciiByte (upperDigit (b.toNat % 16))) = some b := by
  have hb := b.toNat_lt
  obtain ⟨hhi, hhiValue, hsign⟩ := upperDigit_spec (n := b.toNat / 16) (by omega)
  obtain ⟨hlo, hloValue, -⟩ := upperDigit_spec (n := b.toNat % 16) (by omega)
  have hascii : ∀ c ∈ [upperDigit (b.toNat / 16), upperDigit (b.toNat % 16)], c.toNat < 128 := by
    intro c hc
    simp only [List.mem_cons, List.not_mem_nil, or_false] at hc
    rcases hc with rfl | rfl
    · exact hhi
    · exact hlo
  have hbytes := bytes_ofList hascii
  have hread := toStr_bytes (String.ofList [upperDigit (b.toNat / 16), upperDigit (b.toNat % 16)])
  rw [hbytes] at hread
  simp only [List.map_cons, List.map_nil] at hread hbytes
  have hvalue : b.toNat / 16 * 16 + b.toNat % 16 = b.toNat := by omega
  simp only [escapedByte, hread, hbytes]
  rw [fromStrRadix_digits hhiValue hloValue hsign (by omega), hvalue, UInt8.ofNat_toNat]

/-- A written byte is read back, and the reading goes on behind it. -/
theorem unsegmentBytes_segmentByte (b : UInt8) (rest : List UInt8) :
    unsegmentBytes ((segmentByte b).map asciiByte ++ rest) = (unsegmentBytes rest).map (b :: ·) := by
  unfold segmentByte
  split
  · rename_i hplain
    obtain ⟨-, hbyte, hpercent⟩ := plainByte_spec hplain
    simp only [List.map_cons, List.map_nil, hbyte, List.singleton_append]
    rw [unsegmentBytes.eq_def]
    simp only [if_neg hpercent, if_pos hplain]
    cases unsegmentBytes rest <;> rfl
  · have hpercent : asciiByte '%' = percent := by decide
    simp only [List.map_cons, List.map_nil, List.cons_append, List.nil_append, hpercent]
    rw [unsegmentBytes.eq_def]
    simp only [if_true, escapedByte_upper]
    cases unsegmentBytes rest <;> rfl

/-- Written bytes are read back. -/
theorem unsegmentBytes_flatMap (content : List UInt8) :
    unsegmentBytes (content.flatMap fun b => (segmentByte b).map asciiByte) = some content := by
  induction content with
  | nil => rfl
  | cons b rest ih => rw [List.flatMap_cons, unsegmentBytes_segmentByte, ih, Option.map_some]

/-- A name an id was written as is read as the id. -/
theorem unsegment_segment (id : String) : unsegment (segment id) = some id := by
  unfold unsegment
  rw [bytes_segment, unsegmentBytes_flatMap, Option.bind_some, toStr_bytes]

/-- Different ids have different names. -/
theorem segment_injective : Function.Injective segment := fun first second heq =>
  Option.some.inj (by rw [← unsegment_segment first, heq, unsegment_segment])

end RoundTrip

section Spellings

/-- Two bytes are a number: two digits of either case, or a plus sign and one. -/
def Number (hi lo b : UInt8) : Prop :=
  (∃ high low, digitValue hi = some high ∧ digitValue lo = some low ∧ b.toNat = high * 16 + low) ∨
    (hi = 43 ∧ digitValue lo = some b.toNat)

/-- Some bytes spell others: plain ones stand for themselves, and an escape for the byte that is its number. -/
inductive Spells : List UInt8 → List UInt8 → Prop
  | done : Spells [] []
  | plain {b : UInt8} {rest out : List UInt8} : plainByte b = true → Spells rest out → Spells (b :: rest) (b :: out)
  | escape {hi lo b : UInt8} {rest out : List UInt8} : Number hi lo b → Spells rest out →
    Spells (percent :: hi :: lo :: rest) (b :: out)

/-- The escapes of a name, read from its left. -/
def escapes : List UInt8 → List (UInt8 × UInt8)
  | [] => []
  | b :: rest =>
    if b = percent then
      match rest with
      | hi :: lo :: rest => (hi, lo) :: escapes rest
      | _ => []
    else escapes rest

/-- An escape is one that is written: two upper-case digits, of a byte that is not plain. -/
def Written (escape : UInt8 × UInt8) : Prop :=
  ∃ high < 16, ∃ low < 16, escape = (asciiByte (upperDigit high), asciiByte (upperDigit low)) ∧
    plainByte (UInt8.ofNat (high * 16 + low)) = false

/-- The name spells the bytes of a text, in whatever way. -/
def Readable (name : String) : Prop := ∃ id, Spells (bytes name) (bytes id)

/-- A digit is ASCII, no sign, and below sixteen. -/
theorem digitValue_spec {b : UInt8} {value : ℕ} (hvalue : digitValue b = some value) :
    (Char.ofNat b.toNat).toNat < 128 ∧ asciiByte (Char.ofNat b.toNat) = b ∧ b ≠ 43 ∧ value < 16 := by
  have hall : ∀ n : Fin 256, ∀ value ∈ digitValue (UInt8.ofNat n), (Char.ofNat n).toNat < 128 ∧
      asciiByte (Char.ofNat n) = UInt8.ofNat n ∧ UInt8.ofNat n ≠ 43 ∧ value < 16 := by
    decide +kernel
  have hb := hall ⟨b.toNat, b.toNat_lt⟩
  simp only [UInt8.ofNat_toNat] at hb
  exact hb value hvalue

/-- Two ASCII bytes are a text. -/
theorem toStr_pair {hi lo : UInt8} (hhi : (Char.ofNat hi.toNat).toNat < 128)
    (hhiByte : asciiByte (Char.ofNat hi.toNat) = hi)
    (hlo : (Char.ofNat lo.toNat).toNat < 128) (hloByte : asciiByte (Char.ofNat lo.toNat) = lo) :
    ∃ text, toStr [hi, lo] = some text := by
  have hascii : ∀ c ∈ [Char.ofNat hi.toNat, Char.ofNat lo.toNat], c.toNat < 128 := by
    intro c hc
    simp only [List.mem_cons, List.not_mem_nil, or_false] at hc
    rcases hc with rfl | rfl
    · exact hhi
    · exact hlo
  have hread := toStr_bytes (String.ofList [Char.ofNat hi.toNat, Char.ofNat lo.toNat])
  rw [bytes_ofList hascii] at hread
  simp only [List.map_cons, List.map_nil, hhiByte, hloByte] at hread
  exact ⟨_, hread⟩

/-- Two bytes are read as the byte that is their number. -/
theorem fromStrRadix_eq_some {hi lo b : UInt8} : fromStrRadix [hi, lo] = some b ↔ Number hi lo b := by
  by_cases hsign : hi = 43
  · subst hsign
    have hnone : digitValue 43 = none := by decide
    cases hlo : digitValue lo with
    | none => simp [fromStrRadix, Number, hlo, hnone]
    | some low =>
      have hsmall := (digitValue_spec hlo).2.2.2
      have hlow : low < 256 := by omega
      simp only [fromStrRadix, Number, hlo, hnone]
      simp [hlo, hlow, ← UInt8.toNat_inj, Nat.mod_eq_of_lt hlow]
  · cases hhi : digitValue hi with
    | none => simp [fromStrRadix, Number, hsign, hhi]
    | some high =>
      cases hlo : digitValue lo with
      | none => simp [fromStrRadix, Number, hsign, hhi, hlo]
      | some low =>
        have hhigh := (digitValue_spec hhi).2.2.2
        have hlow := (digitValue_spec hlo).2.2.2
        have hsmall : high * 16 + low < 256 := by omega
        rw [fromStrRadix_digits hhi hlo hsign hsmall]
        simp [Number, hsign, hhi, hlo, ← UInt8.toNat_inj, Nat.mod_eq_of_lt hsmall, eq_comm]

/-- An escape is read as the byte that is its number. -/
theorem escapedByte_eq_some {hi lo b : UInt8} : escapedByte hi lo = some b ↔ Number hi lo b := by
  rw [← fromStrRadix_eq_some]
  unfold escapedByte
  cases hread : toStr [hi, lo] with
  | some text =>
    dsimp only
    rw [bytes_of_toStr hread]
  | none =>
    refine ⟨fun hnone => absurd hnone (by simp), fun hnumber => ?_⟩
    have hpair : ∃ text, toStr [hi, lo] = some text := by
      rcases fromStrRadix_eq_some.mp hnumber with ⟨high, low, hhi, hlo, -⟩ | ⟨rfl, hlo⟩
      · obtain ⟨hhi, hhiByte, -⟩ := digitValue_spec hhi
        obtain ⟨hlo, hloByte, -⟩ := digitValue_spec hlo
        exact toStr_pair hhi hhiByte hlo hloByte
      · obtain ⟨hlo, hloByte, -⟩ := digitValue_spec hlo
        exact toStr_pair (by decide) (by decide) hlo hloByte
    obtain ⟨text, htext⟩ := hpair
    rw [hread] at htext
    contradiction

/-- Bytes are read as what they spell. -/
theorem unsegmentBytes_of_spells {name out : List UInt8} (hspells : Spells name out) :
    unsegmentBytes name = some out := by
  induction hspells with
  | done => rfl
  | plain hplain _ ih =>
    rw [unsegmentBytes.eq_def]
    simp [(plainByte_spec hplain).2.2, hplain, ih]
  | escape hnumber _ ih =>
    rw [unsegmentBytes.eq_def]
    simp [escapedByte_eq_some.mpr hnumber, ih]

/-- Bytes that are read spell what they are read as. -/
theorem spells_of_unsegmentBytes {name out : List UInt8} (hread : unsegmentBytes name = some out) :
    Spells name out := by
  induction hlength : name.length using Nat.strong_induction_on generalizing name out with
  | _ length ih =>
    subst hlength
    cases name with
    | nil =>
      obtain rfl := Option.some.inj hread
      exact .done
    | cons b rest =>
      rw [unsegmentBytes.eq_def] at hread
      dsimp only at hread
      split at hread
      · rename_i hpercent
        subst hpercent
        split at hread
        · rename_i hi lo rest
          obtain ⟨b, hb, hread⟩ := Option.bind_eq_some_iff.mp hread
          obtain ⟨behind, hbehind, heq⟩ := Option.bind_eq_some_iff.mp hread
          obtain rfl := Option.some.inj heq
          have hshort : rest.length < (percent :: hi :: lo :: rest).length := by
            simp only [List.length_cons]
            omega
          exact .escape (escapedByte_eq_some.mp hb) (ih _ hshort hbehind rfl)
        · contradiction
      · split at hread
        · rename_i hplain
          obtain ⟨behind, hbehind, heq⟩ := Option.bind_eq_some_iff.mp hread
          obtain rfl := Option.some.inj heq
          exact .plain hplain (ih _ (Nat.lt_succ_self _) hbehind rfl)
        · contradiction

/-- An escape is how its number is written exactly when it is one that is written. -/
theorem segmentByte_eq_iff {hi lo b : UInt8} (hnumber : Number hi lo b) :
    (segmentByte b).map asciiByte = [percent, hi, lo] ↔ Written (hi, lo) := by
  have hb := b.toNat_lt
  have hpercent : asciiByte '%' = percent := by decide
  constructor
  · intro heq
    unfold segmentByte at heq
    split at heq
    · simp at heq
    · rename_i hplain
      simp only [List.map_cons, List.map_nil, List.cons.injEq, and_true] at heq
      refine ⟨b.toNat / 16, by omega, b.toNat % 16, by omega, by rw [heq.2.1, heq.2.2], ?_⟩
      have hvalue : b.toNat / 16 * 16 + b.toNat % 16 = b.toNat := by omega
      rw [hvalue, UInt8.ofNat_toNat]
      exact Bool.eq_false_iff.mpr hplain
  · rintro ⟨high, hhigh, low, hlow, heq, hplain⟩
    obtain ⟨rfl, rfl⟩ := Prod.mk.inj heq
    obtain ⟨-, hhighValue, hsign⟩ := upperDigit_spec hhigh
    obtain ⟨-, hlowValue, -⟩ := upperDigit_spec hlow
    rcases hnumber with ⟨high', low', hhigh', hlow', hvalue⟩ | ⟨hplus, -⟩
    · obtain rfl := Option.some.inj (hhighValue.symm.trans hhigh')
      obtain rfl := Option.some.inj (hlowValue.symm.trans hlow')
      rw [← hvalue, UInt8.ofNat_toNat] at hplain
      have hdiv : b.toNat / 16 = high := by omega
      have hmod : b.toNat % 16 = low := by omega
      simp [segmentByte, hplain, hdiv, hmod, hpercent]
    · exact absurd hplus hsign

/-- A name is how what it spells is written exactly when each of its escapes is one that is written. -/
theorem flatMap_segmentByte_eq_iff {name out : List UInt8} (hspells : Spells name out) :
    (out.flatMap fun b => (segmentByte b).map asciiByte) = name ↔ ∀ escape ∈ escapes name, Written escape := by
  induction hspells with
  | done => simp [escapes]
  | @plain b rest out hplain _ ih =>
    obtain ⟨-, hbyte, hpercent⟩ := plainByte_spec hplain
    have hself : (segmentByte b).map asciiByte = [b] := by simp [segmentByte, hplain, hbyte]
    rw [escapes.eq_def]
    simp only [if_neg hpercent, ← ih, List.flatMap_cons, hself, List.singleton_append, List.cons.injEq, true_and]
  | @escape hi lo b rest out hnumber _ ih =>
    rw [escapes.eq_def]
    simp only [if_true, List.forall_mem_cons, ← ih, ← segmentByte_eq_iff hnumber, List.flatMap_cons]
    constructor
    · intro heq
      by_cases hplain : plainByte b = true
      · have hbyte := (plainByte_spec hplain).2
        simp only [segmentByte, hplain, if_true, List.map_cons, List.map_nil, List.singleton_append, hbyte.1,
          List.cons.injEq] at heq
        exact absurd heq.1 hbyte.2
      · have hlength : ((segmentByte b).map asciiByte).length = [percent, hi, lo].length := by
          simp [segmentByte, hplain]
        have happend : (segmentByte b).map asciiByte ++ (out.flatMap fun b => (segmentByte b).map asciiByte) =
            [percent, hi, lo] ++ rest := heq
        exact List.append_inj happend hlength
    · rintro ⟨hbyte, hrest⟩
      rw [hbyte, hrest]
      rfl

end Spellings

/-- A name is read as exactly the ids it is the name of, exactly when it spells no id, or each of its escapes is two
upper-case digits of a byte that is not written as it is. -/
theorem unsegment_exact_iff (name : String) :
    (∀ id, unsegment name = some id ↔ segment id = name) ↔
      (Readable name → ∀ escape ∈ escapes (bytes name), Written escape) := by
  have hread : ∀ id, unsegment name = some id ↔ Spells (bytes name) (bytes id) := by
    intro id
    constructor
    · intro hsome
      obtain ⟨out, hout, htext⟩ := Option.bind_eq_some_iff.mp hsome
      rw [bytes_of_toStr htext]
      exact spells_of_unsegmentBytes hout
    · intro hspells
      rw [unsegment, unsegmentBytes_of_spells hspells, Option.bind_some, toStr_bytes]
  have hname : ∀ id, segment id = name ↔ ((bytes id).flatMap fun b => (segmentByte b).map asciiByte) = bytes name := by
    intro id
    rw [← bytes_segment]
    constructor
    · exact congrArg bytes
    · intro heq
      have hsome := toStr_bytes (segment id)
      rw [heq, toStr_bytes] at hsome
      exact (Option.some.inj hsome).symm
  constructor
  · rintro hexact ⟨id, hspells⟩
    exact (flatMap_segmentByte_eq_iff hspells).mp ((hname id).mp ((hexact id).mp ((hread id).mpr hspells)))
  · intro hwritten id
    constructor
    · intro hsome
      have hspells := (hread id).mp hsome
      exact (hname id).mpr ((flatMap_segmentByte_eq_iff hspells).mpr (hwritten ⟨id, hspells⟩))
    · rintro rfl
      exact unsegment_segment id

/-- A lower-case escape is read, though no id is written so. -/
theorem unsegment_lowerCase : ¬ (unsegment "%2f" = some "/" ↔ segment "/" = "%2f") := by
  decide +kernel

end Devkit.Todos
