import Mathlib.Data.List.Basic

/-!
# The bytes of a text

Every character is a first byte and continuation bytes. A place in the bytes that no continuation byte follows is
between characters, and a byte of its own is a character. Where whole characters are overwritten byte by byte, by
bytes that make characters again, the bytes are still those of a text.
-/

namespace Devkit.Library.Utf8

/-- The bytes of a text. -/
def encode (chars : List Char) : List UInt8 := chars.flatMap String.utf8EncodeChar

/-- A byte that continues a character. -/
def isContinuation (b : UInt8) : Bool := 128 ≤ b.toNat && b.toNat < 192

theorem isContinuation_eq_true {b : UInt8} : isContinuation b = true ↔ 128 ≤ b.toNat ∧ b.toNat < 192 := by
  rw [isContinuation, Bool.and_eq_true, decide_eq_true_iff, decide_eq_true_iff]

@[simp] theorem encode_nil : encode [] = [] := rfl

@[simp] theorem encode_cons (c : Char) (chars : List Char) :
    encode (c :: chars) = String.utf8EncodeChar c ++ encode chars := List.flatMap_cons

@[simp] theorem encode_append (left right : List Char) : encode (left ++ right) = encode left ++ encode right :=
  List.flatMap_append

/-- The first byte of a character says how many continue it. -/
theorem encodeChar_shape (c : Char) : ∃ first rest, String.utf8EncodeChar c = first :: rest ∧
    (∀ b ∈ rest, isContinuation b = true) ∧
    (first.toNat < 128 ∧ rest.length = 0 ∨ (192 ≤ first.toNat ∧ first.toNat < 224) ∧ rest.length = 1 ∨
      (224 ≤ first.toNat ∧ first.toNat < 240) ∧ rest.length = 2 ∨ 240 ≤ first.toNat ∧ rest.length = 3) := by
  have hlow : ∀ n : ℕ, isContinuation (UInt8.ofNat (n % 64 + 128)) = true := by
    intro n
    rw [isContinuation_eq_true, UInt8.toNat_ofNat']
    omega
  fun_cases String.utf8EncodeChar c with
  | case1 hone =>
    refine ⟨_, _, rfl, ?_, .inl ⟨?_, rfl⟩⟩
    · intro b hb
      cases hb
    · rw [UInt8.toNat_ofNat']
      omega
  | case2 =>
    refine ⟨_, _, rfl, ?_, .inr (.inl ⟨?_, rfl⟩)⟩
    · intro b hb
      obtain rfl := List.mem_singleton.mp hb
      exact hlow _
    · rw [UInt8.toNat_ofNat']
      omega
  | case3 =>
    refine ⟨_, _, rfl, ?_, .inr (.inr (.inl ⟨?_, rfl⟩))⟩
    · intro b hb
      simp only [List.mem_cons, List.not_mem_nil, or_false] at hb
      obtain rfl | rfl := hb
      all_goals exact hlow _
    · rw [UInt8.toNat_ofNat']
      omega
  | case4 =>
    refine ⟨_, _, rfl, ?_, .inr (.inr (.inr ⟨?_, rfl⟩))⟩
    · intro b hb
      simp only [List.mem_cons, List.not_mem_nil, or_false] at hb
      obtain rfl | rfl | rfl := hb
      all_goals exact hlow _
    · rw [UInt8.toNat_ofNat']
      omega

/-- The first byte of a character does not continue one. -/
theorem not_isContinuation_head {c : Char} {first : UInt8} {rest : List UInt8}
    (h : String.utf8EncodeChar c = first :: rest) : isContinuation first = false := by
  obtain ⟨other, tail, hshape, _, hwidth⟩ := encodeChar_shape c
  obtain ⟨rfl, rfl⟩ := List.cons.inj (h.symm.trans hshape)
  rw [Bool.eq_false_iff, ne_eq, isContinuation_eq_true]
  omega

/-- An ASCII character is one byte. -/
theorem encodeChar_ascii {c : Char} (hc : c.toNat < 128) : String.utf8EncodeChar c = [UInt8.ofNat c.toNat] := by
  have hval : c.val.toNat < 128 := hc
  fun_cases String.utf8EncodeChar c with
  | case1 => rfl
  | case2 => omega
  | case3 => omega
  | case4 => omega

/-- No byte of a character beyond ASCII is an ASCII byte. -/
theorem le_encodeChar {c : Char} (hc : 128 ≤ c.toNat) {b : UInt8} (hb : b ∈ String.utf8EncodeChar c) :
    128 ≤ b.toNat := by
  have hval : 128 ≤ c.val.toNat := hc
  revert hb
  fun_cases String.utf8EncodeChar c
  all_goals
    intro hb
    simp only [List.mem_cons, List.not_mem_nil, or_false] at hb
  · omega
  · obtain rfl | rfl := hb
    all_goals
      rw [UInt8.toNat_ofNat']
      omega
  · obtain rfl | rfl | rfl := hb
    all_goals
      rw [UInt8.toNat_ofNat']
      omega
  · obtain rfl | rfl | rfl | rfl := hb
    all_goals
      rw [UInt8.toNat_ofNat']
      omega

/-- A place that no continuation byte follows is between characters. -/
theorem split_boundary {chars : List Char} {i : ℕ} (hi : i ≤ (encode chars).length)
    (hnext : ∀ b, (encode chars)[i]? = some b → isContinuation b = false) :
    ∃ left right, chars = left ++ right ∧ (encode left).length = i := by
  induction chars generalizing i with
  | nil =>
    obtain rfl : i = 0 := Nat.le_zero.mp hi
    exact ⟨[], [], rfl, rfl⟩
  | cons c chars ih =>
    obtain ⟨first, rest, hc, hrest, _⟩ := encodeChar_shape c
    rw [encode_cons] at hi hnext
    by_cases hzero : i = 0
    · obtain rfl := hzero
      exact ⟨[], c :: chars, rfl, rfl⟩
    · by_cases hinside : i < (String.utf8EncodeChar c).length
      · -- inside the character every byte continues it
        exfalso
        rw [List.getElem?_append_left hinside, hc] at hnext
        rw [hc, List.length_cons] at hinside
        have hbyte : (first :: rest)[i]? = some rest[i - 1] := by
          obtain ⟨j, rfl⟩ := Nat.exists_eq_succ_of_ne_zero hzero
          exact List.getElem?_eq_getElem (by omega)
        have hcontinues := hrest rest[i - 1] (List.getElem_mem _)
        rw [hnext _ hbyte] at hcontinues
        cases hcontinues
      · rw [Nat.not_lt] at hinside
        rw [List.length_append] at hi
        rw [List.getElem?_append_right hinside] at hnext
        obtain ⟨left, right, rfl, hleft⟩ := ih (by omega) hnext
        refine ⟨c :: left, right, rfl, ?_⟩
        rw [encode_cons, List.length_append, hleft]
        omega

/-- A byte of its own is a character, and what follows it is between characters. -/
theorem split_single {chars : List Char} {i : ℕ} {b : UInt8} (hb : (encode chars)[i]? = some b) (hsmall : b.toNat < 128) :
    ∃ left c right, chars = left ++ c :: right ∧ (encode left).length = i ∧ String.utf8EncodeChar c = [b] := by
  obtain ⟨hi, hget⟩ := List.getElem?_eq_some_iff.mp hb
  have hnext : ∀ other, (encode chars)[i]? = some other → isContinuation other = false := by
    intro other hother
    obtain rfl := Option.some.inj (hb.symm.trans hother)
    rw [Bool.eq_false_iff, ne_eq, isContinuation_eq_true]
    omega
  obtain ⟨left, right, rfl, hleft⟩ := split_boundary (Nat.le_of_lt hi) hnext
  cases right with
  | nil =>
    rw [List.append_nil] at hi
    omega
  | cons c right =>
    obtain ⟨first, rest, hc, _, hwidth⟩ := encodeChar_shape c
    rw [encode_append, List.getElem?_append_right (Nat.le_of_eq hleft), hleft, Nat.sub_self, encode_cons, hc] at hb
    obtain rfl : first = b := Option.some.inj hb
    have hrest : rest = [] := List.eq_nil_of_length_eq_zero (by omega)
    exact ⟨left, c, right, rfl, hleft, by rw [hc, hrest]⟩

/-- Bytes where some characters of a text are overwritten byte by byte. -/
inductive Overwrites (f : UInt8 → UInt8) : List Char → List UInt8 → Prop
  | nil : Overwrites f [] []
  | keep (c : Char) {chars : List Char} {out : List UInt8} :
      Overwrites f chars out → Overwrites f (c :: chars) (String.utf8EncodeChar c ++ out)
  | cover (c : Char) {chars : List Char} {out : List UInt8} :
      Overwrites f chars out → Overwrites f (c :: chars) ((String.utf8EncodeChar c).map f ++ out)

namespace Overwrites

variable {f : UInt8 → UInt8} {chars left middle right : List Char} {out : List UInt8}

/-- A text overwrites nothing of itself. -/
theorem refl (f : UInt8 → UInt8) (chars : List Char) : Overwrites f chars (encode chars) := by
  induction chars with
  | nil => exact .nil
  | cons c chars ih =>
    rw [encode_cons]
    exact .keep c ih

/-- Overwriting keeps the number of bytes. -/
theorem length_eq (h : Overwrites f chars out) : out.length = (encode chars).length := by
  induction h with
  | nil => rfl
  | keep c _ ih => rw [encode_cons, List.length_append, List.length_append, ih]
  | cover c _ ih => rw [encode_cons, List.length_append, List.length_append, List.length_map, ih]

/-- A byte is as it was, or overwritten. -/
theorem getElem?_eq (h : Overwrites f chars out) (i : ℕ) :
    out[i]? = (encode chars)[i]? ∨ out[i]? = (encode chars)[i]?.map f := by
  induction h generalizing i with
  | nil => exact .inl rfl
  | keep c _ ih =>
    rw [encode_cons, List.getElem?_append, List.getElem?_append]
    split
    · exact .inl rfl
    · exact ih _
  | cover c _ ih =>
    rw [encode_cons, List.getElem?_append, List.getElem?_append, List.length_map]
    split
    · exact .inr List.getElem?_map
    · exact ih _

/-- Overwritten texts one after the other. -/
theorem append (hleft : Overwrites f left out) {after : List UInt8} (hright : Overwrites f right after) :
    Overwrites f (left ++ right) (out ++ after) := by
  induction hleft with
  | nil => exact hright
  | keep c _ ih =>
    rw [List.append_assoc]
    exact .keep c ih
  | cover c _ ih =>
    rw [List.append_assoc]
    exact .cover c ih

/-- What overwrites a text one after the other is two overwritten texts. -/
theorem split (h : Overwrites f (left ++ right) out) :
    ∃ before after, out = before ++ after ∧ Overwrites f left before ∧ Overwrites f right after := by
  induction left generalizing out with
  | nil => exact ⟨[], out, rfl, .nil, h⟩
  | cons c left ih =>
    cases h with
    | keep _ h =>
      obtain ⟨before, after, rfl, hbefore, hafter⟩ := ih h
      exact ⟨_, after, (List.append_assoc ..).symm, .keep c hbefore, hafter⟩
    | cover _ h =>
      obtain ⟨before, after, rfl, hbefore, hafter⟩ := ih h
      exact ⟨_, after, (List.append_assoc ..).symm, .cover c hbefore, hafter⟩

/-- Everything may be overwritten, what already is too. -/
theorem map (hf : ∀ b, f (f b) = f b) (h : Overwrites f chars out) : Overwrites f chars (out.map f) := by
  induction h with
  | nil => exact .nil
  | keep c _ ih =>
    rw [List.map_append]
    exact .cover c ih
  | cover c _ ih =>
    have hagain : ((String.utf8EncodeChar c).map f).map f = (String.utf8EncodeChar c).map f := by
      rw [List.map_map]
      exact List.map_congr_left fun b _ => hf b
    rw [List.map_append, hagain]
    exact .cover c ih

/-- Whole characters in the middle may be overwritten. -/
theorem cover_middle (hf : ∀ b, f (f b) = f b) (h : Overwrites f (left ++ (middle ++ right)) out) :
    Overwrites f (left ++ (middle ++ right))
      (out.take (encode left).length ++
        ((out.take (encode (left ++ middle)).length).drop (encode left).length).map f ++
        out.drop (encode (left ++ middle)).length) := by
  obtain ⟨before, rest, rfl, hbefore, hrest⟩ := h.split
  obtain ⟨between, after, rfl, hbetween, hafter⟩ := hrest.split
  have hlength : (encode (left ++ middle)).length = (before ++ between).length := by
    rw [encode_append, List.length_append, List.length_append, hbefore.length_eq, hbetween.length_eq]
  rw [hlength, ← hbefore.length_eq, List.take_left, ← List.append_assoc before, List.take_left, List.drop_left,
    List.drop_left, List.append_assoc before]
  exact hbefore.append ((hbetween.map hf).append hafter)

/-- Where an overwritten character makes characters again, the bytes are those of a text. -/
theorem exists_encode (hf : ∀ c, ∃ made, (String.utf8EncodeChar c).map f = encode made) (h : Overwrites f chars out) :
    ∃ made, out = encode made := by
  induction h with
  | nil => exact ⟨[], rfl⟩
  | keep c _ ih =>
    obtain ⟨made, rfl⟩ := ih
    exact ⟨c :: made, (encode_cons c made).symm⟩
  | cover c _ ih =>
    obtain ⟨made, rfl⟩ := ih
    obtain ⟨first, hfirst⟩ := hf c
    exact ⟨first ++ made, by rw [encode_append, hfirst]⟩

end Overwrites

end Devkit.Library.Utf8
