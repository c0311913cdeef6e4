/-
# `Binary64.shortest` — few digits, and enough of them

The decimal that is chosen for a number is read as this number again
(`ofDecimal?_shortest`), and no decimal that is read as it has fewer digits
(`precision_shortest_le`), zeros at the end not counted (`Decimal.precision`).

The library tries two candidates only for each number of digits, the neighbours of the
number itself.  This is enough.  A decimal of so many digits does not lie strictly between
two neighbours (`Decimal.le_or_le_of_precision`), so one of them lies between it and the
number; and what lies between two decimals that are read as the number is read as it too.
-/
import Mathlib.Data.List.DropRight
import RegexEngine.Proofs.Number.Nearest

namespace RegexEngine

namespace Decimal

variable {d : Decimal} {m n : ℕ}

/-! ## Digits -/

/-- The number of digits, without the zeros at the end. -/
def precision (d : Decimal) : ℕ := (significant d.digits).length

/-- Only zeros are dropped. -/
theorem exists_significant (digits : List Char) :
    ∃ z, significant digits ++ List.replicate z '0' = digits := by
  have hzeros : ∀ c ∈ List.rtakeWhile (· == '0') digits, c = '0' := by
    intro c hc
    exact beq_iff_eq.mp (List.mem_rtakeWhile_imp (p := (· == '0')) hc)
  refine ⟨(List.rtakeWhile (· == '0') digits).length, ?_⟩
  rw [← List.eq_replicate_of_mem hzeros]
  exact List.rdropWhile_append_rtakeWhile

theorem significant_append_zeros (digits : List Char) (z : ℕ) :
    significant (digits ++ List.replicate z '0') = significant digits := by
  rw [significant, List.reverse_append, List.reverse_replicate, List.dropWhile_append_of_pos]
  · rfl
  · intro c hc
    exact beq_iff_eq.mpr (List.eq_of_mem_replicate hc)

theorem length_significant_le (digits : List Char) : (significant digits).length ≤ digits.length :=
  List.IsPrefix.length_le (List.rdropWhile_prefix _ digits)

/-- A power of ten behind a number is written as zeros. -/
theorem toDigits_mul_pow (hm : 0 < m) (z : ℕ) :
    Nat.toDigits 10 (m * 10 ^ z) = Nat.toDigits 10 m ++ List.replicate z '0' := by
  induction z with
  | zero => simp
  | succ z ih =>
      have hpos : 0 < m * 10 ^ z := Nat.mul_pos hm (Nat.pow_pos (by decide))
      have hshift : m * 10 ^ (z + 1) = 10 * (m * 10 ^ z) + 0 := by ring
      rw [hshift, ← Nat.toDigits_append_toDigits (by decide) hpos (by decide), ih,
        Nat.toDigits_zero, List.append_assoc, ← List.replicate_succ']

/-- A number has no more digits than fit, and no fewer. -/
theorem lt_pow_length_digits (d : Decimal) : d.coefficient.natAbs < 10 ^ d.digits.length :=
  (Nat.length_toDigits_le_iff (by decide) Nat.length_toDigits_pos).mp le_rfl

theorem pow_length_digits_le (hd : d.coefficient ≠ 0) :
    10 ^ (d.digits.length - 1) ≤ d.coefficient.natAbs := by
  refine Nat.le_of_not_lt fun hlt => ?_
  have hpos : 0 < d.digits.length := Nat.length_toDigits_pos
  have hcoefficient := Int.natAbs_pos.mpr hd
  by_cases hone : d.digits.length - 1 = 0
  · rw [hone, Nat.pow_zero] at hlt
    omega
  · have hle := (Nat.length_toDigits_le_iff (by decide) (Nat.pos_of_ne_zero hone)).mpr hlt
    have hdigits : (Nat.toDigits 10 d.coefficient.natAbs).length = d.digits.length := rfl
    omega

/-- The digits that count, and the power of ten that has been dropped. -/
theorem exists_natAbs_eq (d : Decimal) :
    ∃ z, d.digits = significant d.digits ++ List.replicate z '0' ∧
      d.coefficient.natAbs = Nat.ofDigitChars 10 (significant d.digits) 0 * 10 ^ z := by
  obtain ⟨z, hz⟩ := exists_significant d.digits
  refine ⟨z, hz.symm, ?_⟩
  calc d.coefficient.natAbs = Nat.ofDigitChars 10 d.digits 0 :=
        Nat.ofDigitChars_ten_toDigits.symm
    _ = Nat.ofDigitChars 10 (significant d.digits ++ List.replicate z '0') 0 := by rw [hz]
    _ = Nat.ofDigitChars 10 (significant d.digits) 0 * 10 ^ z := by
        rw [Nat.ofDigitChars_append, Nat.ofDigitChars_replicate_zero, Nat.mul_comm]

/-- A decimal has at most `n` digits if it is a number below `10 ^ n`, up to a power of
ten. -/
theorem precision_le_iff :
    d.precision ≤ n ↔ ∃ m z, d.coefficient.natAbs = m * 10 ^ z ∧ m < 10 ^ n := by
  constructor
  · intro hn
    obtain ⟨z, hdigits, hnatAbs⟩ := d.exists_natAbs_eq
    refine ⟨_, z, hnatAbs, ?_⟩
    have hlt := d.lt_pow_length_digits
    rw [hdigits, List.length_append, List.length_replicate, Nat.pow_add, hnatAbs] at hlt
    exact Nat.lt_of_lt_of_le (Nat.lt_of_mul_lt_mul_right hlt) (Nat.pow_le_pow_right (by decide) hn)
  · rintro ⟨m, z, hnatAbs, hm⟩
    rw [precision, digits, hnatAbs]
    rcases Nat.eq_zero_or_pos m with rfl | hpos
    · rw [Nat.zero_mul, Nat.toDigits_zero]
      exact Nat.zero_le n
    · have hn : 0 < n := by
        refine Nat.pos_of_ne_zero ?_
        rintro rfl
        omega
      rw [toDigits_mul_pow hpos, significant_append_zeros]
      exact (length_significant_le _).trans
        ((Nat.length_toDigits_le_iff (by decide) hn).mpr hm)

theorem precision_ne_zero (hd : d.coefficient ≠ 0) : d.precision ≠ 0 := by
  intro hzero
  obtain ⟨m, z, hnatAbs, hm⟩ := precision_le_iff.mp hzero.le
  obtain rfl : m = 0 := Nat.lt_one_iff.mp hm
  rw [Nat.zero_mul, Int.natAbs_eq_zero] at hnatAbs
  exact hd hnatAbs

/-! ## Neighbours -/

theorem value_eq_mul_zpow (d : Decimal) : d.value = d.coefficient * 10 ^ (-(d.places : ℤ)) := by
  have hscale : (d.scale : ℚ) = 10 ^ d.places := Nat.cast_pow 10 d.places
  rw [value, hscale, zpow_neg, zpow_natCast, div_eq_mul_inv]

theorem abs_value (d : Decimal) : |d.value| = d.coefficient.natAbs * 10 ^ (-(d.places : ℤ)) := by
  rw [value_eq_mul_zpow, abs_mul, Nat.cast_natAbs, Int.cast_abs,
    abs_of_pos (by positivity : (0 : ℚ) < 10 ^ (-(d.places : ℤ)))]

theorem value_eq_sign_mul_abs (d : Decimal) : d.value = d.coefficient.sign * |d.value| := by
  have hcoefficient : (d.coefficient.sign * d.coefficient.natAbs : ℚ) = d.coefficient := by
    rw [← Int.cast_natCast, ← Int.cast_mul, Int.sign_mul_natAbs]
  rw [abs_value, ← mul_assoc, hcoefficient, value_eq_mul_zpow]

theorem zpow_sub_places (shift : ℕ) (d : Decimal) :
    (10 ^ (shift - d.places : ℤ) : ℚ) = 10 ^ shift * 10 ^ (-(d.places : ℤ)) := by
  rw [sub_eq_add_neg, zpow_add₀ (by norm_num), zpow_natCast]

/-- A decimal of `n` digits is not strictly between two neighbouring multiples of a power
of ten that have `n` digits or more. -/
theorem le_or_le_of_precision {b : ℕ} (hd : d.precision ≤ n + 1) (hb : 10 ^ n ≤ b) (e : ℤ) :
    |d.value| ≤ b * 10 ^ e ∨ (b + 1) * 10 ^ e ≤ |d.value| := by
  obtain ⟨m, z, hnatAbs, hm⟩ := precision_le_iff.mp hd
  have hvalue : |d.value| = m * 10 ^ (z - d.places : ℤ) := by
    rw [abs_value, hnatAbs, zpow_sub_places]
    push_cast
    ring
  rw [hvalue]
  rcases Int.lt_or_le (z - d.places) e with hfine | hcoarse
  · -- The digits do not reach the power of ten.
    left
    have hm' : (m : ℚ) ≤ 10 ^ (n + 1) := by exact_mod_cast hm.le
    have hb' : (10 ^ n : ℚ) ≤ b := by exact_mod_cast hb
    have hpow : (10 ^ (z - d.places : ℤ) : ℚ) ≤ 10 ^ (e - 1) :=
      zpow_le_zpow_right₀ (by norm_num) (Int.le_sub_one_of_lt hfine)
    calc (m * 10 ^ (z - d.places : ℤ) : ℚ) ≤ 10 ^ (n + 1) * 10 ^ (e - 1) :=
          mul_le_mul hm' hpow (by positivity) (by positivity)
      _ = 10 ^ n * 10 ^ e := by
          rw [zpow_sub_one₀ (by norm_num), pow_succ]
          ring
      _ ≤ b * 10 ^ e := by gcongr
  · -- The decimal is itself a multiple of the power of ten.
    obtain ⟨k, hk⟩ := Int.le.dest hcoarse
    have hmultiple : (m * 10 ^ (z - d.places : ℤ) : ℚ) = (m * 10 ^ k : ℕ) * 10 ^ e := by
      rw [← hk, zpow_add₀ (by norm_num), zpow_natCast]
      push_cast
      ring
    rw [hmultiple]
    rcases Nat.lt_or_ge b (m * 10 ^ k) with hlt | hle
    · right
      gcongr
      exact_mod_cast hlt
    · left
      gcongr

/-- A decimal lies between the multiples of a power of ten that division gives. -/
theorem abs_value_between (d : Decimal) (shift : ℕ) :
    ((d.coefficient.natAbs / 10 ^ shift : ℕ) * 10 ^ (shift - d.places : ℤ) : ℚ) ≤ |d.value| ∧
      |d.value| ≤ ((d.coefficient.natAbs / 10 ^ shift : ℕ) + 1) * 10 ^ (shift - d.places : ℤ) := by
  have hnext : d.coefficient.natAbs < 10 ^ shift * (d.coefficient.natAbs / 10 ^ shift + 1) :=
    Nat.lt_mul_div_succ _ (Nat.pow_pos (by decide))
  rw [zpow_sub_places, abs_value, ← mul_assoc, ← mul_assoc, mul_comm (_ + 1 : ℚ)]
  constructor <;> gcongr
  · exact_mod_cast Nat.div_mul_le_self _ _
  · exact_mod_cast hnext.le

/-- Next to a decimal, in the direction of another one of `n + 1` digits, there is such a
multiple, and it does not lie behind the other one. -/
theorem exists_multiple_between {d' : Decimal} {shift : ℕ} (hd' : d'.precision ≤ n + 1)
    (hb : 10 ^ n ≤ d.coefficient.natAbs / 10 ^ shift) :
    ∃ k, (k = d.coefficient.natAbs / 10 ^ shift ∨ k = d.coefficient.natAbs / 10 ^ shift + 1) ∧
      (|d'.value| ≤ k * 10 ^ (shift - d.places : ℤ) ∧
          k * 10 ^ (shift - d.places : ℤ) ≤ |d.value| ∨
        |d.value| ≤ k * 10 ^ (shift - d.places : ℤ) ∧
          k * 10 ^ (shift - d.places : ℤ) ≤ |d'.value|) := by
  obtain ⟨hlow, hhigh⟩ := d.abs_value_between shift
  rcases le_or_le_of_precision hd' hb (shift - d.places) with hle | hle
  · exact ⟨_, Or.inl rfl, Or.inl ⟨hle, hlow⟩⟩
  · exact ⟨_, Or.inr rfl, Or.inr ⟨by exact_mod_cast hhigh, by exact_mod_cast hle⟩⟩

/-- A multiple of a power of ten has the sign and the places of the decimal that it is a
rounding of. -/
theorem value_rounding (d : Decimal) (k shift : ℕ) :
    (⟨d.coefficient.sign * (k * 10 ^ shift : ℕ), d.places⟩ : Decimal).value =
      d.coefficient.sign * (k * 10 ^ (shift - d.places : ℤ)) := by
  rw [value_eq_mul_zpow, zpow_sub_places]
  push_cast
  ring

/-- The roundings to multiples of `unit` are the two multiples next to the coefficient. -/
theorem mem_roundings {unit : ℕ} {r : Decimal} :
    r ∈ d.roundings unit ↔ ∃ k, (k = d.coefficient.natAbs / unit ∨
      k = d.coefficient.natAbs / unit + 1) ∧
      r = ⟨d.coefficient.sign * (k * unit : ℕ), d.places⟩ := by
  -- Which of the two is nearer decides on their order only.
  have hnear : roundDiv d.coefficient.natAbs unit = d.coefficient.natAbs / unit ∨
      roundDiv d.coefficient.natAbs unit = d.coefficient.natAbs / unit + 1 := by
    rw [roundDiv]
    exact ite_eq_or_eq _ _ _
  simp only [roundings, List.map_cons, List.map_nil, List.mem_cons, List.not_mem_nil, or_false]
  rcases hnear with hnear | hnear
  · rw [hnear, if_pos rfl]
    simp
  · rw [hnear, if_neg (Nat.succ_ne_self _)]
    simp [or_comm]

/-- The rounding that comes first is the nearest one. -/
theorem abs_sub_head_roundings_le {unit : ℕ} {near far r : Decimal} (hunit : 0 < unit)
    (h : d.roundings unit = [near, far]) (hr : r ∈ d.roundings unit) :
    |d.value - near.value| ≤ |d.value - r.value| := by
  have hdistance : ∀ k : ℕ,
      |d.value - (⟨d.coefficient.sign * (k * unit : ℕ), d.places⟩ : Decimal).value| =
        |(d.coefficient.natAbs / unit : ℚ) - k| *
          |(d.coefficient.sign * unit * 10 ^ (-(d.places : ℤ)) : ℚ)| := by
    intro k
    rw [← abs_mul, d.value_eq_sign_mul_abs, abs_value, value_eq_mul_zpow]
    congr 1
    push_cast
    field_simp
  obtain ⟨k, _, rfl⟩ := mem_roundings.mp hr
  obtain rfl := (List.cons.inj h).1
  rw [hdistance, hdistance]
  exact mul_le_mul_of_nonneg_right (abs_div_sub_roundDiv_le_abs_sub _ hunit k) (abs_nonneg _)

/-- The roundings to `n + 1` digits. -/
def roundingsTo (d : Decimal) (n : ℕ) : List Decimal :=
  d.roundings (10 ^ (d.digits.length - (n + 1)))

section Roundings

variable (hn : n < d.digits.length)

include hn

/-- A decimal that has more than `n` digits is cut to so many by division. -/
theorem natAbs_div_lt : d.coefficient.natAbs / 10 ^ (d.digits.length - (n + 1)) < 10 ^ (n + 1) := by
  rw [Nat.div_lt_iff_lt_mul (Nat.pow_pos (by decide)), ← Nat.pow_add,
    Nat.add_sub_cancel' hn]
  exact d.lt_pow_length_digits

theorem le_natAbs_div (hd : d.coefficient ≠ 0) :
    10 ^ n ≤ d.coefficient.natAbs / 10 ^ (d.digits.length - (n + 1)) := by
  have hsum : n + (d.digits.length - (n + 1)) = d.digits.length - 1 := by omega
  rw [Nat.le_div_iff_mul_le (Nat.pow_pos (by decide)), ← Nat.pow_add, hsum]
  exact pow_length_digits_le hd

/-- A rounding to so many digits has no more. -/
theorem precision_of_mem_roundingsTo {r : Decimal}
    (hr : r ∈ d.roundingsTo n) : r.precision ≤ n + 1 := by
  obtain ⟨k, hk, rfl⟩ := mem_roundings.mp hr
  have hlt := natAbs_div_lt hn
  rw [precision_le_iff]
  by_cases hd : d.coefficient = 0
  · exact ⟨0, 0, by simp [hd], Nat.pow_pos (by decide)⟩
  have hnatAbs : (d.coefficient.sign * (k * 10 ^ (d.digits.length - (n + 1)) : ℕ)).natAbs =
      k * 10 ^ (d.digits.length - (n + 1)) := by
    rw [Int.natAbs_mul, Int.natAbs_sign_of_ne_zero hd, Nat.one_mul, Int.natAbs_natCast]
  rcases Nat.lt_or_ge k (10 ^ (n + 1)) with hfits | hfull
  · exact ⟨k, _, hnatAbs, hfits⟩
  · -- All digits are nines, and the rounding up is a power of ten.
    have hpower : k = 1 * 10 ^ (n + 1) := by omega
    refine ⟨1, n + 1 + (d.digits.length - (n + 1)), ?_, Nat.one_lt_pow (by omega) (by decide)⟩
    rw [hnatAbs, hpower, Nat.mul_assoc, ← Nat.pow_add]

/-- Between a decimal and another one of so many digits there is a rounding, if both have
the same sign. -/
theorem exists_rounding {d' : Decimal} (hd : d.coefficient ≠ 0) (hprecision : d'.precision ≤ n + 1)
    (hsign : d'.coefficient.sign = d.coefficient.sign) :
    ∃ r ∈ d.roundingsTo n,
      d'.value ≤ r.value ∧ r.value ≤ d.value ∨ d.value ≤ r.value ∧ r.value ≤ d'.value := by
  obtain ⟨k, hk, hbetween⟩ := exists_multiple_between hprecision (le_natAbs_div hn hd)
  refine ⟨_, mem_roundings.mpr ⟨k, hk, rfl⟩, ?_⟩
  rw [value_rounding, d.value_eq_sign_mul_abs, d'.value_eq_sign_mul_abs, hsign]
  rcases Int.lt_or_gt_of_ne hd with hneg | hpos
  · -- Below zero the order of the values is the other one.
    rw [Int.sign_eq_neg_one_of_neg hneg]
    push_cast
    exact hbetween.symm.imp (fun h => ⟨by linarith [h.2], by linarith [h.1]⟩)
      fun h => ⟨by linarith [h.2], by linarith [h.1]⟩
  · rw [Int.sign_eq_one_of_pos hpos, Int.cast_one, one_mul, one_mul, one_mul]
    exact hbetween

end Roundings

end Decimal

namespace Binary64

variable {d d' r : Decimal} {v : Binary64}

/-! ## The fewest digits -/

/-- The decimal of a number is exact. -/
theorem value_toDecimal (v : Binary64) : v.toDecimal.value = v.value := by
  have hdenominator : (v.denominator : ℚ) = 2 ^ (-v.exponent).toNat := by
    rw [denominator, Nat.one_shiftLeft, Nat.cast_pow, Nat.cast_ofNat]
  have hscale : (v.toDecimal.scale : ℚ) = v.denominator * 5 ^ (-v.exponent).toNat := by
    rw [hdenominator, ← mul_pow]
    norm_num [Decimal.scale, toDecimal]
  have hcoefficient : (v.toDecimal.coefficient : ℚ) = v.numerator * 5 ^ (-v.exponent).toNat := by
    norm_num [toDecimal]
  rw [value_eq, Decimal.value, hscale, hcoefficient, mul_div_mul_right _ _ (by positivity)]

/-- What is found in a range is found at the first number that gives something. -/
theorem exists_of_findSome?_range {α : Type} {f : ℕ → Option α} {k : ℕ} {item : α}
    (h : (List.range k).findSome? f = some item) :
    ∃ n < k, f n = some item ∧ ∀ m < n, f m = none := by
  obtain ⟨before, n, behind, hrange, hitem, hbefore⟩ := List.findSome?_eq_some_iff.mp h
  have hn : n ∈ List.range k := hrange ▸ List.mem_append_right _ List.mem_cons_self
  have hsorted : (before ++ n :: behind).Pairwise (· < ·) := hrange ▸ List.pairwise_lt_range
  refine ⟨n, List.mem_range.mp hn, hitem, fun m hm => hbefore m ?_⟩
  have hmem : m ∈ before ++ n :: behind :=
    hrange ▸ List.mem_range.mpr (hm.trans (List.mem_range.mp hn))
  refine (List.mem_append.mp hmem).resolve_right fun hright => ?_
  rcases List.mem_cons.mp hright with rfl | hbehind
  · exact Nat.lt_irrefl _ hm
  · have hlt := (List.pairwise_cons.mp (List.pairwise_append.mp hsorted).2.1).1 m hbehind
    exact Nat.lt_asymm hm hlt

/-- No rounding of the number to `n + 1` digits is read as the number. -/
def TooShort (v : Binary64) (n : ℕ) : Prop :=
  ∀ r ∈ v.toDecimal.roundingsTo n, ofDecimal? r ≠ some v

theorem tooShort_of_find?_eq_none {n : ℕ}
    (h : (v.toDecimal.roundingsTo n).find? (fun d => ofDecimal? d = some v) = none) :
    v.TooShort n := fun r hr hread =>
  List.find?_eq_none.mp h r hr (decide_eq_true hread)

/-- A number is written by the first rounding that is read as it, with the least number of
digits for which there is one; or by itself, if there is none. -/
theorem shortest_cases (v : Binary64) :
    (∃ n < v.toDecimal.digits.length,
      (v.toDecimal.roundingsTo n).find? (fun d => ofDecimal? d = some v) = some v.shortest ∧
        ∀ m < n, v.TooShort m) ∨
      v.shortest = v.toDecimal ∧ ∀ m < v.toDecimal.digits.length, v.TooShort m := by
  rw [shortest]
  cases hfound : (List.range v.toDecimal.digits.length).findSome? _ with
  | none =>
      refine Or.inr ⟨rfl, fun m hm => tooShort_of_find?_eq_none ?_⟩
      exact List.findSome?_eq_none_iff.mp hfound m (List.mem_range.mpr hm)
  | some d =>
      obtain ⟨n, hn, hfind, hearlier⟩ := exists_of_findSome?_range hfound
      exact Or.inl ⟨n, hn, hfind, fun m hm => tooShort_of_find?_eq_none (hearlier m hm)⟩

/-- The decimal that a number is written by is read as the number. -/
theorem ofDecimal?_shortest (v : Binary64) : ofDecimal? v.shortest = some v := by
  rcases v.shortest_cases with ⟨n, _, hfind, _⟩ | ⟨hexact, _⟩
  · have hread := List.find?_some hfind
    exact of_decide_eq_true hread
  · rw [hexact]
    exact ofDecimal?_of_value v.value_toDecimal

/-- What lies between two decimals that are read as a number is read as it too. -/
theorem ofDecimal?_of_between (h : ofDecimal? d = some v) (h' : ofDecimal? d' = some v)
    (hle : d.value ≤ r.value) (hle' : r.value ≤ d'.value) : ofDecimal? r = some v := by
  rw [← Number.ofDecimal_eq_finite_iff] at *
  have hlow := Number.ofDecimal_mono hle
  have hhigh := Number.ofDecimal_mono hle'
  rw [h] at hlow
  rw [h'] at hhigh
  exact hhigh.antisymm hlow

theorem eq_zero_of_significand (h : v.significand = 0) : v = zero := by
  refine value_injective ?_
  rw [value_zero, value, h, Int.cast_zero, zero_mul]

/-- What is not zero has the sign of what is read as it. -/
theorem sign_eq_of_ofDecimal? (h : ofDecimal? d = some v) (hv : v ≠ zero) :
    d.coefficient.sign = v.significand.sign := by
  have hsignificand : v.significand ≠ 0 := fun h0 => hv (eq_zero_of_significand h0)
  rcases Int.lt_trichotomy d.coefficient 0 with hneg | hzero | hpos
  · rw [ofDecimal?_of_neg hneg, Option.map_eq_some_iff] at h
    obtain ⟨u, hnearest, rfl⟩ := h
    have hu := (nearest?_eq_some_iff.mp hnearest).significand_eq
    have hnegated : u.neg.significand = -u.significand := rfl
    rw [Int.sign_eq_neg_one_of_neg hneg, Int.sign_eq_neg_one_of_neg]
    omega
  · have hvalue : d.value = zero.value := by
      rw [value_zero, Decimal.value, hzero, Int.cast_zero, zero_div]
    exact absurd (Option.some.inj (h.symm.trans (ofDecimal?_of_value hvalue))) hv
  · rw [ofDecimal?_of_nonneg hpos.le] at h
    have hu := (nearest?_eq_some_iff.mp h).significand_eq
    rw [Int.sign_eq_one_of_pos hpos, Int.sign_eq_one_of_pos]
    omega

theorem coefficient_ne_zero_of_ofDecimal? (h : ofDecimal? d = some v) (hv : v ≠ zero) :
    d.coefficient ≠ 0 := by
  intro hzero
  have hsign := sign_eq_of_ofDecimal? h hv
  rw [hzero, Int.sign_zero] at hsign
  exact hv (eq_zero_of_significand (Int.sign_eq_zero_iff_zero.mp hsign.symm))

/-- Where another decimal of so many digits is read as a number, a rounding is too, and it
is not farther away. -/
theorem exists_rounding_of_ofDecimal? {n : ℕ} (h : ofDecimal? d = some v) (hv : v ≠ zero)
    (hn : d.precision ≤ n + 1) (hlength : n < v.toDecimal.digits.length) :
    ∃ r ∈ v.toDecimal.roundingsTo n, ofDecimal? r = some v ∧
      |v.value - r.value| ≤ |v.value - d.value| := by
  have hexact := ofDecimal?_of_value v.value_toDecimal
  have hsign := (sign_eq_of_ofDecimal? h hv).trans (sign_eq_of_ofDecimal? hexact hv).symm
  have hcoefficient := coefficient_ne_zero_of_ofDecimal? hexact hv
  obtain ⟨r, hr, ⟨hle, hle'⟩ | ⟨hle, hle'⟩⟩ :=
    Decimal.exists_rounding hlength hcoefficient hn hsign
  · refine ⟨r, hr, ofDecimal?_of_between h hexact hle hle', ?_⟩
    rw [value_toDecimal] at hle'
    rw [abs_of_nonneg (sub_nonneg.mpr hle'), abs_of_nonneg (sub_nonneg.mpr (hle.trans hle'))]
    exact sub_le_sub_left hle _
  · refine ⟨r, hr, ofDecimal?_of_between hexact h hle hle', ?_⟩
    rw [value_toDecimal] at hle
    rw [abs_of_nonpos (sub_nonpos.mpr hle), abs_of_nonpos (sub_nonpos.mpr (hle.trans hle'))]
    exact neg_le_neg (sub_le_sub_left hle' _)

theorem shortest_zero : zero.shortest = ⟨0, 1074⟩ := by decide +kernel

/-- Of the decimals that are read as a number, none has fewer digits than the one that the
number is written by. -/
theorem precision_shortest_le (h : ofDecimal? d = some v) :
    v.shortest.precision ≤ d.precision := by
  by_cases hv : v = zero
  · rw [hv, shortest_zero]
    exact Nat.zero_le _
  obtain ⟨n, hn⟩ := Nat.exists_eq_succ_of_ne_zero
    (Decimal.precision_ne_zero (coefficient_ne_zero_of_ofDecimal? h hv))
  have hcandidate : n < v.toDecimal.digits.length → ¬ v.TooShort n := by
    intro hlength hshort
    obtain ⟨r, hr, hread, _⟩ := exists_rounding_of_ofDecimal? h hv hn.le hlength
    exact hshort r hr hread
  rw [hn]
  rcases v.shortest_cases with ⟨m, hm, hfind, hshort⟩ | ⟨hexact, hshort⟩
  · have hprecision := Decimal.precision_of_mem_roundingsTo hm (List.mem_of_find?_eq_some hfind)
    have hle : m ≤ n := Nat.le_of_not_lt fun hlt => hcandidate (hlt.trans hm) (hshort n hlt)
    exact hprecision.trans (Nat.succ_le_succ hle)
  · have hlength : v.toDecimal.digits.length ≤ n :=
      Nat.le_of_not_lt fun hlt => hcandidate hlt (hshort n hlt)
    rw [hexact]
    exact (Decimal.length_significant_le _).trans (hlength.trans (Nat.le_succ n))

/-- Of those that have no more digits, none is nearer to the number. -/
theorem abs_sub_shortest_le (h : ofDecimal? d = some v)
    (hprecision : d.precision ≤ v.shortest.precision) :
    |v.value - v.shortest.value| ≤ |v.value - d.value| := by
  by_cases hv : v = zero
  · have hvalue : v.value = v.shortest.value := by
      rw [hv, shortest_zero, value_zero, Decimal.value, Int.cast_zero, zero_div]
    rw [hvalue, sub_self, abs_zero]
    exact abs_nonneg _
  rcases v.shortest_cases with ⟨n, hn, hfind, _⟩ | ⟨hexact, _⟩
  · have hshort := Decimal.precision_of_mem_roundingsTo hn (List.mem_of_find?_eq_some hfind)
    obtain ⟨r, hr, hread, hle⟩ := exists_rounding_of_ofDecimal? h hv (hprecision.trans hshort) hn
    refine le_trans ?_ hle
    obtain ⟨near, far, hpair⟩ : ∃ near far, v.toDecimal.roundingsTo n = [near, far] := ⟨_, _, rfl⟩
    by_cases hnear : ofDecimal? near = some v
    · have hhead := Decimal.abs_sub_head_roundings_le (Nat.pow_pos (by decide)) hpair hr
      simp only [hpair, List.find?_cons, hnear, decide_true, Option.some.injEq] at hfind
      rwa [value_toDecimal, hfind] at hhead
    · -- Only the farther one is left for both.
      have hfar : ∀ r' ∈ v.toDecimal.roundingsTo n, ofDecimal? r' = some v → r' = far := by
        intro r' hr' hread'
        rw [hpair] at hr'
        rcases List.mem_cons.mp hr' with rfl | hr'
        · exact absurd hread' hnear
        · exact List.mem_singleton.mp hr'
      rw [hfar r hr hread,
        hfar v.shortest (List.mem_of_find?_eq_some hfind) v.ofDecimal?_shortest]
  · rw [hexact, value_toDecimal, sub_self, abs_zero]
    exact abs_nonneg _

-- Where two decimals of so many digits are equally near, the even one is taken.
example : (Number.ofDecimal ⟨298023223876953125, 25⟩).layout = "2.9802322387695312e-8" := by
  decide +kernel

end Binary64

end RegexEngine
