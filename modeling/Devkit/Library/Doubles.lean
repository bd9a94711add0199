import Mathlib.Data.Int.Log
import Mathlib.Data.List.TakeWhile
import Mathlib.Data.Rat.Floor

/-!
# Doubles as the numbers they hold

A number is rounded to the nearest of 53 binary digits, and from 2 ^ 1024 on to an infinity. A decimal text is read as
the double nearest to the number it spells. Rounding leaves an integer of 53 binary digits as it is and moves one of
64 by half of 1024 at most.
-/

namespace Devkit.Library

/-- The integer nearest to a number, the even one of two as near. -/
def roundHalfEven (q : ℚ) : ℤ :=
  if q - ⌊q⌋ < 1 / 2 then ⌊q⌋ else if 1 / 2 < q - ⌊q⌋ then ⌊q⌋ + 1 else ⌊q⌋ + ⌊q⌋ % 2

/-- The integer nearest to a number, the one further from zero of two as near. -/
def roundHalfAway (q : ℚ) : ℤ := if 0 ≤ q then ⌊q + 1 / 2⌋ else ⌈q - 1 / 2⌉

/-- The step from one double of a number's size to the next. -/
def doubleStep (q : ℚ) : ℚ := 2 ^ max (Int.log 2 |q| - 52) (-1074)

/-- The nearest multiple of the step of a number's size. -/
def nearestDouble (q : ℚ) : ℚ := roundHalfEven (q / doubleStep q) * doubleStep q

/-- What a double holds: a number, an infinity, or neither. -/
inductive Double
  | finite (value : ℚ)
  | infinite (negative : Bool)
  | nan

/-- The double a number is rounded to. -/
def Double.ofRat (q : ℚ) : Double :=
  if 2 ^ 1024 ≤ |nearestDouble q| then .infinite (decide (q < 0)) else .finite (nearestDouble q)

section Texts

/-- Whether a text starts with a minus sign, and what follows its sign. -/
def splitSign : List Char → Bool × List Char
  | '-' :: rest => (true, rest)
  | '+' :: rest => (false, rest)
  | rest => (false, rest)

/-- The exponent at the end of a decimal number, zero where there is none. -/
def parseExponent : List Char → Option ℤ
  | [] => some 0
  | c :: rest =>
    let (negative, digits) := splitSign rest
    let exponent : ℤ := Nat.ofDigitChars 10 digits 0
    if (c = 'e' ∨ c = 'E') ∧ digits ≠ [] ∧ digits.all Char.isDigit then some (if negative then -exponent else exponent)
    else none

/-- The number an unsigned decimal text spells. -/
def parseNumber (text : List Char) : Option ℚ :=
  let whole := text.takeWhile Char.isDigit
  let (fraction, rest) := match text.dropWhile Char.isDigit with
    | '.' :: rest => (rest.takeWhile Char.isDigit, rest.dropWhile Char.isDigit)
    | rest => ([], rest)
  if whole ++ fraction = [] then none
  else (parseExponent rest).map fun exponent : ℤ =>
    (Nat.ofDigitChars 10 (whole ++ fraction) 0 : ℚ) * 10 ^ (exponent - fraction.length)

/-- The double a text is read as. -/
def parseDouble (text : String) : Option Double :=
  let (negative, rest) := splitSign text.toList
  match parseNumber rest with
  | some value => some (Double.ofRat (if negative then -value else value))
  | none =>
    let word := String.ofList (rest.map Char.toLower)
    if word = "inf" ∨ word = "infinity" then some (.infinite negative)
    else if word = "nan" then some .nan
    else none

/-- Digits alone spell their number. -/
theorem parseNumber_digits {digits : List Char} (hne : digits ≠ []) (hall : ∀ c ∈ digits, c.isDigit = true) :
    parseNumber digits = some (Nat.ofDigitChars 10 digits 0 : ℚ) := by
  have htake : digits.takeWhile Char.isDigit = digits := List.takeWhile_eq_self_iff.mpr hall
  have hdrop : digits.dropWhile Char.isDigit = [] := List.dropWhile_eq_nil_iff.mpr hall
  rw [parseNumber, htake, hdrop]
  simp [hne, parseExponent]

/-- The text of an integer is read as the double nearest to it. -/
theorem parseDouble_repr (n : ℤ) : parseDouble n.repr = some (Double.ofRat n) := by
  have hdigits (key : ℕ) : ∀ c ∈ Nat.toDigits 10 key, c.isDigit = true := fun c hc =>
    Nat.isDigit_of_mem_toDigits (by decide) (by decide) hc
  have hnumber (key : ℕ) : parseNumber (Nat.toDigits 10 key) = some (key : ℚ) := by
    rw [parseNumber_digits Nat.toDigits_ne_nil (hdigits key), Nat.ofDigitChars_ten_toDigits]
  cases n with
  | ofNat key =>
    have hsplit : splitSign (Nat.toDigits 10 key) = (false, Nat.toDigits 10 key) := by
      unfold splitSign
      split
      · rename_i rest heq
        exact absurd (hdigits key '-' (heq ▸ List.mem_cons_self)) (by decide)
      · rename_i rest heq
        exact absurd (hdigits key '+' (heq ▸ List.mem_cons_self)) (by decide)
      · rfl
    change parseDouble key.repr = _
    rw [parseDouble, Nat.toList_repr, hsplit]
    dsimp only
    rw [hnumber]
    rfl
  | negSucc key =>
    have htext : (Int.negSucc key).repr.toList = '-' :: Nat.toDigits 10 (key + 1) := by
      change ("-" ++ (key + 1).repr).toList = _
      rw [String.toList_append, Nat.toList_repr]
      rfl
    rw [parseDouble, htext, splitSign]
    dsimp only
    rw [hnumber]
    dsimp only
    rw [if_pos rfl, Int.cast_negSucc]

end Texts

section Rounding

/-- Rounding moves a number by a half at most. -/
theorem roundHalfEven_near (q : ℚ) : |(roundHalfEven q : ℚ) - q| ≤ 1 / 2 := by
  have hlow := Int.floor_le q
  have hhigh := Int.lt_floor_add_one q
  rw [abs_le, roundHalfEven]
  split
  · constructor <;> linarith
  · split
    · push_cast
      constructor <;> linarith
    · have htie : q - ⌊q⌋ = 1 / 2 := le_antisymm (not_lt.mp ‹_›) (not_lt.mp ‹_›)
      push_cast
      rcases Int.emod_two_eq_zero_or_one ⌊q⌋ with hparity | hparity
      · rw [hparity]
        constructor <;> push_cast <;> linarith
      · rw [hparity]
        constructor <;> push_cast <;> linarith

/-- An integer is rounded to itself. -/
theorem roundHalfEven_intCast (n : ℤ) : roundHalfEven n = n := by
  rw [roundHalfEven, Int.floor_intCast, sub_self, if_pos one_half_pos]

/-- What an integer is not above it is not above once rounded. -/
theorem le_roundHalfAway {n : ℤ} {q : ℚ} (h : (n : ℚ) ≤ q) : n ≤ roundHalfAway q := by
  rw [roundHalfAway]
  split
  · exact Int.le_floor.mpr (h.trans (le_add_of_nonneg_right one_half_pos.le))
  · -- a number just above an integer is rounded up to no less
    refine Int.le_of_lt_add_one (Int.cast_lt (R := ℚ) |>.mp ?_)
    have hceil := Int.le_ceil (q - 1 / 2)
    push_cast
    linarith

/-- An integer is rounded away from zero to itself. -/
theorem roundHalfAway_intCast (n : ℤ) : roundHalfAway n = n := by
  rw [roundHalfAway]
  split
  · rw [Int.floor_eq_iff]
    constructor <;> linarith
  · rw [Int.ceil_eq_iff]
    constructor <;> linarith

/-- Steps are positive. -/
theorem doubleStep_pos (q : ℚ) : 0 < doubleStep q := zpow_pos two_pos _

/-- The nearest double is half a step away at most. -/
theorem nearestDouble_near (q : ℚ) : |nearestDouble q - q| ≤ doubleStep q / 2 := by
  have hstep := doubleStep_pos q
  have hscaled : nearestDouble q - q = (roundHalfEven (q / doubleStep q) - q / doubleStep q) * doubleStep q := by
    rw [nearestDouble, sub_mul, div_mul_cancel₀ q hstep.ne']
  rw [hscaled, abs_mul, abs_of_pos hstep]
  have hnear := mul_le_mul_of_nonneg_right (roundHalfEven_near (q / doubleStep q)) hstep.le
  linarith

/-- The binary digits of a number are fewer than those of a power of two past it. -/
theorem log_lt {q : ℚ} {bits : ℕ} (hbits : 0 < bits) (h : |q| < 2 ^ bits) : Int.log 2 |q| < bits := by
  rcases (abs_nonneg q).eq_or_lt with hzero | hpos
  · rw [← hzero, Int.log_zero_right]
    exact_mod_cast hbits
  · refine (Int.lt_zpow_iff_log_lt one_lt_two hpos).mp ?_
    rw [zpow_natCast]
    exact_mod_cast h

/-- Doubles below a power of two are as close as the digits beyond 53. -/
theorem doubleStep_le {q : ℚ} {digits : ℕ} (h : |q| < 2 ^ (digits + 53)) : doubleStep q ≤ 2 ^ digits := by
  have hlog := log_lt (Nat.add_pos_right digits (by decide)) h
  rw [doubleStep, ← zpow_natCast]
  refine zpow_le_zpow_right₀ one_le_two ?_
  push_cast at hlog
  omega

/-- No number of 64 binary digits is rounded to an infinity. -/
theorem Double.ofRat_eq_finite {q : ℚ} (h : |q| < 2 ^ 64) : Double.ofRat q = .finite (nearestDouble q) := by
  have hstep : doubleStep q ≤ 2 ^ 11 := doubleStep_le h
  have hnear := nearestDouble_near q
  have hsize : |nearestDouble q| ≤ |nearestDouble q - q| + |q| := by
    have htriangle := abs_add_le (nearestDouble q - q) q
    rwa [sub_add_cancel] at htriangle
  have hroom : (2 : ℚ) ^ 65 ≤ 2 ^ 1024 := pow_le_pow_right₀ one_le_two (by decide)
  have hlt : |nearestDouble q| < 2 ^ 65 := by linarith
  rw [Double.ofRat, if_neg (not_le.mpr (hlt.trans_le hroom))]

/-- An integer of 53 binary digits is a double. -/
theorem nearestDouble_intCast {n : ℤ} (h : n.natAbs < 2 ^ 53) : nearestDouble n = n := by
  have habs : |(n : ℚ)| < 2 ^ 53 := by
    rw [← Int.cast_abs, Int.abs_eq_natAbs]
    exact_mod_cast h
  have hlog := log_lt (by decide) habs
  push_cast at hlog
  obtain ⟨digits, hdigits⟩ := Int.exists_eq_neg_ofNat (a := max (Int.log 2 |(n : ℚ)| - 52) (-1074)) (by omega)
  have hscaled : (n : ℚ) / 2 ^ (-(digits : ℤ)) = (n * 2 ^ digits : ℤ) := by
    rw [zpow_neg, zpow_natCast, div_inv_eq_mul]
    push_cast
    rfl
  rw [nearestDouble, doubleStep, hdigits, hscaled, roundHalfEven_intCast, ← hscaled]
  exact div_mul_cancel₀ _ (zpow_pos two_pos _).ne'

end Rounding

end Devkit.Library
