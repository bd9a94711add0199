import Mathlib.Data.List.Basic

/-!
# Uuids

A uuid is kept as the text it is printed as, which is in lower case. A text in any case that fits
the pattern is read as one, and what is read prints as the text in lower case.
-/

namespace Devkit.Todos

/-- The characters `[0-9A-Fa-f]`. -/
def isHexDigit (c : Char) : Bool := c.isDigit || ('a' ≤ c && c ≤ 'f') || ('A' ≤ c && c ≤ 'F')

/-- The pattern `^[0-9A-Fa-f]{8}(-[0-9A-Fa-f]{4}){3}-[0-9A-Fa-f]{12}$`, character by character. -/
def uuidPattern : List (Char → Bool) :=
  let group (length : ℕ) : List (Char → Bool) := List.replicate length isHexDigit
  let dash : Char → Bool := (· == '-')
  group 8 ++ dash :: group 4 ++ dash :: group 4 ++ dash :: group 4 ++ dash :: group 12

/-- A text matches a pattern of one test for each character. -/
def matchesPattern (pattern : List (Char → Bool)) (text : List Char) : Bool :=
  text.length == pattern.length && (text.zip pattern).all fun (c, test) => test c

/-- The text in lower case. -/
def lower (text : String) : String := String.ofList (text.toList.map Char.toLower)

/-- A uuid, as the text it is printed as. -/
structure Uuid where
  text : String
  spelled : matchesPattern uuidPattern text.toList = true
  lowered : lower text = text
deriving DecidableEq

/-- Lower case moves the upper-case letters and nothing else. -/
theorem toNat_toLower (c : Char) :
    c.toLower.toNat = if 65 ≤ c.toNat ∧ c.toNat ≤ 90 then c.toNat + 32 else c.toNat := by
  have hupper : (c.val ≥ 'A'.val ∧ c.val ≤ 'Z'.val) ↔ (65 ≤ c.toNat ∧ c.toNat ≤ 90) := by
    rw [ge_iff_le, UInt32.le_iff_toNat_le, UInt32.le_iff_toNat_le]
    rfl
  unfold Char.toLower
  by_cases h : 65 ≤ c.toNat ∧ c.toNat ≤ 90
  · rw [dif_pos (hupper.mpr h), if_pos h]
    change (c.val + ('a'.val - 'A'.val)).toNat = c.val.toNat + 32
    have hbound : c.val.toNat ≤ 90 := h.2
    have hgap : ('a'.val - 'A'.val).toNat = 32 := by decide
    rw [UInt32.toNat_add, hgap]
    omega
  · rw [dif_neg fun hcond => h (hupper.mp hcond), if_neg h]

/-- A character in lower case stays. -/
theorem toLower_toLower (c : Char) : c.toLower.toLower = c.toLower := by
  apply Char.toNat_inj.mp
  rw [toNat_toLower, toNat_toLower]
  split
  · exact if_neg (by omega)
  · rfl

/-- A text in lower case stays. -/
theorem lower_lower (text : String) : lower (lower text) = lower text := by
  rw [lower, lower, String.toList_ofList, List.map_map]
  refine congrArg String.ofList (List.map_congr_left fun c _ => ?_)
  exact toLower_toLower c

/-- The hexadecimal digits by their code points. -/
theorem isHexDigit_iff (c : Char) : isHexDigit c = true ↔
    (48 ≤ c.toNat ∧ c.toNat ≤ 57) ∨ (97 ≤ c.toNat ∧ c.toNat ≤ 102) ∨ (65 ≤ c.toNat ∧ c.toNat ≤ 70) := by
  have hle : ∀ a b : Char, a ≤ b ↔ a.toNat ≤ b.toNat := fun a b => by
    rw [Char.le_def, UInt32.le_iff_toNat_le]
    rfl
  rw [isHexDigit, Char.isDigit]
  simp only [Bool.or_eq_true, Bool.and_eq_true, decide_eq_true_eq, hle, ge_iff_le, UInt32.le_iff_toNat_le,
    or_assoc]
  rfl

/-- A hexadecimal digit is one in lower case too. -/
theorem isHexDigit_toLower {c : Char} (h : isHexDigit c = true) : isHexDigit c.toLower = true := by
  rw [isHexDigit_iff] at h ⊢
  rw [toNat_toLower]
  split <;> omega

/-- A text that fits the pattern fits it in lower case too. -/
theorem matchesPattern_lower {text : String} (h : matchesPattern uuidPattern text.toList = true) :
    matchesPattern uuidPattern (lower text).toList = true := by
  have htests : ∀ test ∈ uuidPattern, ∀ c, test c = true → test c.toLower = true := by
    intro test htest c hc
    have hcases : test = isHexDigit ∨ test = (· == '-') := by
      simp only [uuidPattern, List.mem_append, List.mem_cons, List.mem_replicate] at htest
      tauto
    cases hcases with
    | inl heq =>
      rw [heq] at hc ⊢
      exact isHexDigit_toLower hc
    | inr heq =>
      rw [heq] at hc ⊢
      rw [beq_iff_eq.mp hc]
      rfl
  rw [matchesPattern, Bool.and_eq_true, List.all_eq_true] at h ⊢
  rw [lower, String.toList_ofList, List.length_map, List.zip_map_left]
  refine ⟨h.1, fun pair hpair => ?_⟩
  obtain ⟨⟨c, test⟩, hmem, rfl⟩ := List.mem_map.mp hpair
  exact htests test (List.of_mem_zip hmem).2 c (h.2 _ hmem)

namespace Uuid

/-- The uuid a text is cast to, where it fits the pattern. -/
def parse (text : String) : Option Uuid :=
  if h : matchesPattern uuidPattern text.toList = true then
    some ⟨lower text, matchesPattern_lower h, lower_lower text⟩
  else none

/-- Different uuids print differently. -/
@[simp] theorem text_inj {id other : Uuid} : id.text = other.text ↔ id = other := by
  constructor
  · intro htext
    cases id
    cases other
    cases htext
    rfl
  · exact congrArg text

/-- A text is read as the uuid printed as the text in lower case. -/
theorem parse_eq_some {text : String} {id : Uuid} :
    parse text = some id ↔ matchesPattern uuidPattern text.toList = true ∧ id.text = lower text := by
  unfold parse
  split
  · rename_i h
    rw [Option.some_inj, ← text_inj, eq_comm]
    exact (and_iff_right h).symm
  · rename_i h
    exact ⟨nofun, fun hparsed => absurd hparsed.1 h⟩

/-- What a uuid is printed as is read as it. -/
@[simp] theorem parse_text (id : Uuid) : parse id.text = some id :=
  parse_eq_some.mpr ⟨id.spelled, id.lowered.symm⟩

/-- The text the way the store writes it: a uuid in lower case, another text as it is. -/
def spelling (text : String) : String := ((parse text).map Uuid.text).getD text

/-- The spelling of a text is that of a uuid exactly when the text is read as it. -/
theorem spelling_eq_text {text : String} {id : Uuid} : spelling text = id.text ↔ parse text = some id := by
  unfold spelling
  cases hparse : parse text with
  | none =>
    constructor
    · intro heq
      rw [Option.map_none, Option.getD_none] at heq
      rw [heq, parse_text] at hparse
      cases hparse
    · nofun
  | some other => simp

end Uuid

end Devkit.Todos
