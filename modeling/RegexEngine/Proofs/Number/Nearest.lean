/-
# `Binary64.ofDecimal?` — a decimal is read as the number nearest to it

The library rounds on grids: the multiples of `2 ^ q`, from the finest grid on which the
nearest multiple has a significand's size.  Told without the grids, the result is the
nearest number (`ofDecimal?_nearest`), and only the value of the decimal counts
(`Number.ofDecimal_congr`): a number is read back from every decimal of its value
(`ofDecimal?_of_value`), and reading keeps the order (`Number.ofDecimal_mono`).

Everything comes down to one fact about rounded quotients, that they keep the order of
the quotients (`roundDiv_mono`).  So the nearest multiples get fewer from one grid to a
coarser one, and the grid that is used is known from the number found on it (`RoundsTo`).
-/
import Mathlib.Algebra.Order.Field.Power
import Mathlib.Data.Fin.Tuple.Basic
import Mathlib.Tactic.FieldSimp
import Mathlib.Tactic.GCongr
import Mathlib.Tactic.Linarith
import Mathlib.Tactic.NormNum
import Mathlib.Tactic.Positivity
import RegexEngine.Proofs.Number.Value

namespace RegexEngine

/-! ## Rounded quotients -/

/-- Halfway between two integers the even one is taken. -/
theorem roundDiv_of_half {a b k : ℕ} (hb : 0 < b) (h : 2 * a = b * (2 * k + 1)) :
    roundDiv a b = k + k % 2 := by
  have hsum : 2 * a = 2 * (b * k) + b := by rw [h]; ring
  have hdiv : a / b = k := by
    refine Nat.div_eq_of_lt_le ?_ ?_
    · rw [Nat.mul_comm]
      omega
    · rw [Nat.mul_comm, Nat.mul_succ]
      omega
  have hparts := Nat.div_add_mod a b
  rw [hdiv] at hparts
  have hmod : 2 * (a % b) = b := by omega
  rw [roundDiv, hdiv, hmod]
  split <;> omega

/-- Rounding keeps the order of quotients. -/
theorem roundDiv_mono {a b a' b' : ℕ} (hb : 0 < b) (hb' : 0 < b') (h : a * b' ≤ a' * b) :
    roundDiv a b ≤ roundDiv a' b' := by
  refine Nat.le_of_not_lt fun hlt => ?_
  obtain ⟨k, hk⟩ : ∃ k, roundDiv a b = k + 1 := ⟨roundDiv a b - 1, by omega⟩
  have hle : roundDiv a' b' ≤ k := by omega
  have hlow := two_mul_roundDiv_le a b
  have hhigh := le_two_mul_roundDiv a' hb'
  rw [hk] at hlow
  have hbelow : b * (2 * k + 1) ≤ 2 * a := by
    rw [Nat.mul_add, Nat.mul_left_comm]
    rw [Nat.mul_add] at hlow
    omega
  have habove : 2 * a' ≤ b' * (2 * k + 1) := by
    have := Nat.mul_le_mul_left b' hle
    rw [Nat.mul_add, Nat.mul_left_comm]
    omega
  -- So both quotients lie halfway between `k` and `k + 1`, as they are in this order.
  have hupper : 2 * (a' * b) ≤ b * (b' * (2 * k + 1)) := calc
    2 * (a' * b) = b * (2 * a') := by ring
    _ ≤ b * (b' * (2 * k + 1)) := Nat.mul_le_mul_left b habove
  have hlower : b * (b' * (2 * k + 1)) ≤ 2 * (a * b') := calc
    b * (b' * (2 * k + 1)) = b' * (b * (2 * k + 1)) := Nat.mul_left_comm _ _ _
    _ ≤ b' * (2 * a) := Nat.mul_le_mul_left b' hbelow
    _ = 2 * (a * b') := by ring
  have hhalf : 2 * a = b * (2 * k + 1) := by
    refine Nat.eq_of_mul_eq_mul_left hb' ?_
    calc b' * (2 * a) = 2 * (a * b') := by ring
      _ = b * (b' * (2 * k + 1)) := by omega
      _ = b' * (b * (2 * k + 1)) := Nat.mul_left_comm _ _ _
  have hhalf' : 2 * a' = b' * (2 * k + 1) := by
    refine Nat.eq_of_mul_eq_mul_left hb ?_
    calc b * (2 * a') = 2 * (a' * b) := by ring
      _ = b * (b' * (2 * k + 1)) := by omega
  rw [roundDiv_of_half hb hhalf, roundDiv_of_half hb' hhalf'] at hlt
  exact Nat.lt_irrefl _ hlt

/-- The rounded quotient is at most one half away from the quotient. -/
theorem abs_div_sub_roundDiv_le (a : ℕ) {b : ℕ} (hb : 0 < b) :
    |(a / b : ℚ) - roundDiv a b| ≤ 1 / 2 := by
  have hpos : (0 : ℚ) < b := Nat.cast_pos.mpr hb
  have hlow : (2 * (b * roundDiv a b) : ℚ) ≤ 2 * a + b := by
    exact_mod_cast two_mul_roundDiv_le a b
  have hhigh : (2 * a : ℚ) ≤ 2 * (b * roundDiv a b) + b := by
    exact_mod_cast le_two_mul_roundDiv a hb
  have hparts : (a / b : ℚ) - roundDiv a b = (a - b * roundDiv a b) / b := by
    rw [sub_div, mul_div_cancel_left₀ _ hpos.ne']
  rw [hparts, abs_div, abs_of_pos hpos, div_le_iff₀ hpos, abs_le]
  constructor <;> linarith

/-- No integer is nearer to the quotient. -/
theorem abs_div_sub_roundDiv_le_abs_sub (a : ℕ) {b : ℕ} (hb : 0 < b) (n : ℤ) :
    |(a / b : ℚ) - roundDiv a b| ≤ |(a / b : ℚ) - n| := by
  have hhalf := abs_div_sub_roundDiv_le a hb
  by_cases heq : (roundDiv a b : ℤ) = n
  · rw [← heq, Int.cast_natCast]
  · -- Two integers are one apart, so the other one is at least one half away.
    have hone : (1 : ℚ) ≤ |(roundDiv a b : ℚ) - n| := by
      exact_mod_cast Int.one_le_abs (sub_ne_zero.mpr heq)
    have htriangle := abs_sub_le (roundDiv a b : ℚ) (a / b) n
    rw [abs_sub_comm (roundDiv a b : ℚ) (a / b)] at htriangle
    linarith

namespace Binary64

variable {a b a' b' : ℕ} {p q q' : ℤ} {v w : Binary64} {d : Decimal}

/-! ## Multiples on a grid -/

/-- The fraction that is rounded on a grid is the fraction in units of the grid. -/
theorem shiftLeft_div_shiftLeft (a b : ℕ) (q : ℤ) :
    ((a <<< (-q).toNat : ℕ) : ℚ) / (b <<< q.toNat : ℕ) = a / b / 2 ^ q := by
  rw [Nat.shiftLeft_eq, Nat.shiftLeft_eq]
  push_cast
  obtain ⟨n, rfl | rfl⟩ := Int.eq_nat_or_neg q
  · simp [div_div]
  · simp [div_mul_eq_mul_div]

theorem shiftLeft_pos (hb : 0 < b) (n : ℕ) : 0 < b <<< n := by
  rw [Nat.shiftLeft_eq]
  exact Nat.mul_pos hb (Nat.two_pow_pos n)

/-- A greater fraction, or a finer grid, has no smaller multiple next to it. -/
theorem multiple_mono (hb : 0 < b) (hb' : 0 < b')
    (h : (a / b / 2 ^ q : ℚ) ≤ a' / b' / 2 ^ q') : multiple a b q ≤ multiple a' b' q' := by
  have hpos := shiftLeft_pos hb q.toNat
  have hpos' := shiftLeft_pos hb' q'.toNat
  refine roundDiv_mono hpos hpos' ?_
  rw [← shiftLeft_div_shiftLeft, ← shiftLeft_div_shiftLeft,
    div_le_div_iff₀ (Nat.cast_pos.mpr hpos) (Nat.cast_pos.mpr hpos')] at h
  exact_mod_cast h

theorem multiple_anti (hb : 0 < b) (h : p ≤ q) : multiple a b q ≤ multiple a b p := by
  refine multiple_mono hb hb ?_
  gcongr
  norm_num

/-- A multiple on the grid is nearest to itself. -/
theorem multiple_eq {k : ℕ} (hb : 0 < b) (h : (a / b : ℚ) = k * 2 ^ q) : multiple a b q = k := by
  have hunit : (a / b / 2 ^ q : ℚ) = (k : ℕ) / (1 : ℕ) / 2 ^ (0 : ℤ) := by
    rw [h, mul_div_assoc, div_self (by positivity)]
    simp
  have hk : multiple k 1 0 = k := by
    have hlow := two_mul_roundDiv_le k 1
    have hhigh := le_two_mul_roundDiv k (b := 1) (by decide)
    show roundDiv k 1 = k
    omega
  exact (Nat.le_antisymm (multiple_mono hb Nat.one_pos hunit.le)
    (multiple_mono Nat.one_pos hb hunit.ge)).trans hk

/-- Distances on a grid are distances of rounded quotients, in units of the grid. -/
theorem abs_sub_mul_zpow (a b : ℕ) (q : ℤ) (k : ℚ) :
    |(a / b : ℚ) - k * 2 ^ q| =
      |((a <<< (-q).toNat : ℕ) : ℚ) / (b <<< q.toNat : ℕ) - k| * 2 ^ q := by
  have hunit : (0 : ℚ) < 2 ^ q := by positivity
  rw [shiftLeft_div_shiftLeft, ← abs_of_pos hunit, ← abs_mul, sub_mul, abs_of_pos hunit,
    div_mul_cancel₀ _ hunit.ne']

/-- The nearest multiple is at most half the width of the grid away. -/
theorem abs_sub_multiple_le (hb : 0 < b) :
    |(a / b : ℚ) - multiple a b q * 2 ^ q| ≤ 1 / 2 * 2 ^ q := by
  rw [abs_sub_mul_zpow]
  gcongr
  exact abs_div_sub_roundDiv_le _ (shiftLeft_pos hb q.toNat)

/-- No other multiple on the grid is nearer. -/
theorem abs_sub_multiple_le_abs_sub (hb : 0 < b) (n : ℤ) :
    |(a / b : ℚ) - multiple a b q * 2 ^ q| ≤ |(a / b : ℚ) - n * 2 ^ q| := by
  rw [abs_sub_mul_zpow, abs_sub_mul_zpow]
  exact mul_le_mul_of_nonneg_right
    (abs_div_sub_roundDiv_le_abs_sub _ (shiftLeft_pos hb q.toNat) n) (by positivity)

/-! ## Numbers by their values -/

theorem value_zero : zero.value = 0 := by
  have hsignificand : zero.significand = 0 := rfl
  rw [value, hsignificand, Int.cast_zero, zero_mul]

theorem value_neg (v : Binary64) : v.neg.value = -v.value := by
  rw [value, value, neg]
  push_cast
  ring

protected theorem neg_neg (v : Binary64) : v.neg.neg = v := by
  cases v
  simp only [neg, Int.neg_neg]

theorem abs_value (v : Binary64) : |v.value| = v.significand.natAbs * 2 ^ v.exponent := by
  rw [value, abs_mul, abs_of_pos (by positivity : (0 : ℚ) < 2 ^ v.exponent), Nat.cast_natAbs,
    Int.cast_abs]

/-- What has a greater exponent is farther away from zero, as only the significands of the
least exponent are short of digits. -/
theorem abs_value_lt (h : v.exponent < w.exponent) : |v.value| < |w.value| := by
  have hv : (v.significand.natAbs : ℚ) < 2 ^ 53 := by exact_mod_cast v.significand_lt
  have hw : (2 ^ 52 : ℚ) ≤ w.significand.natAbs := by
    have hleast := v.exponent_ge
    exact_mod_cast w.normal.resolve_left (by omega)
  rw [abs_value, abs_value]
  calc (v.significand.natAbs * 2 ^ v.exponent : ℚ)
      < 2 ^ 53 * 2 ^ v.exponent := by gcongr
    _ = 2 ^ 52 * 2 ^ (v.exponent + 1) := by rw [zpow_add_one₀ (by norm_num)]; ring
    _ ≤ 2 ^ 52 * 2 ^ w.exponent := by gcongr <;> [norm_num; omega]
    _ ≤ w.significand.natAbs * 2 ^ w.exponent := by gcongr

/-- Each number has one form. -/
theorem value_injective : Function.Injective value := by
  intro v w h
  have hexponent : v.exponent = w.exponent := by
    rcases lt_trichotomy v.exponent w.exponent with hlt | heq | hgt
    · exact absurd (congrArg abs h) (abs_value_lt hlt).ne
    · exact heq
    · exact absurd (congrArg abs h) (abs_value_lt hgt).ne'
  have hunit : (2 ^ w.exponent : ℚ) ≠ 0 := by positivity
  have hsignificand : v.significand = w.significand := by
    rw [value, value, hexponent] at h
    exact_mod_cast mul_right_cancel₀ hunit h
  cases v
  cases w
  cases hexponent
  cases hsignificand
  rfl

/-! ## The grid that is used -/

/-- The number that a fraction is rounded to: the multiple next to it on a grid, if the
multiples on the finer grids are too large for a significand. -/
structure RoundsTo (a b : ℕ) (v : Binary64) : Prop where
  significand_eq : v.significand = multiple a b v.exponent
  too_fine : ∀ p, -1074 ≤ p → p < v.exponent → 2 ^ 53 ≤ multiple a b p

theorem RoundsTo.multiple_lt (h : RoundsTo a b v) : multiple a b v.exponent < 2 ^ 53 := by
  have hlt : v.significand.natAbs < 2 ^ 53 := v.significand_lt
  rwa [h.significand_eq, Int.natAbs_natCast] at hlt

theorem RoundsTo.value_nonneg (h : RoundsTo a b v) : 0 ≤ v.value := by
  rw [value, h.significand_eq]
  positivity

/-- The search for a grid ends with the number that the fraction rounds to, or where even
the coarsest grid is too fine. -/
theorem nearestFrom_spec (hb : 0 < b) (q : ℤ) (least : -1074 ≤ q)
    (fine : q = -1074 ∨ 1 <<< 53 ≤ multiple a b (q - 1)) :
    (∃ v, nearestFrom a b hb q least fine = some v ∧ RoundsTo a b v) ∨
      nearestFrom a b hb q least fine = none ∧ 2 ^ 53 ≤ multiple a b 971 := by
  fun_induction nearestFrom a b hb q least fine with
  | case1 q least fine most fits =>
      refine Or.inl ⟨_, rfl, rfl, fun p hp hlt => ?_⟩
      have hfiner : p ≤ q - 1 := Int.le_sub_one_of_lt hlt
      exact Nat.le_trans (fine.resolve_left (by omega)) (multiple_anti hb hfiner)
  | case2 q least fine most fits ih => exact ih
  | case3 q least fine high =>
      refine Or.inr ⟨rfl, ?_⟩
      exact Nat.le_trans (fine.resolve_left (by omega)) (multiple_anti hb (by omega))

theorem nearest?_spec (a : ℕ) (hb : 0 < b) :
    (∃ v, nearest? a b hb = some v ∧ RoundsTo a b v) ∨
      nearest? a b hb = none ∧ 2 ^ 53 ≤ multiple a b 971 := by
  rw [nearest?]
  split
  · exact nearestFrom_spec hb _ _ _
  · rename_i hzero
    have hmultiple : multiple a b zero.exponent = 0 := by
      refine multiple_eq hb ?_
      rw [Nat.eq_zero_of_not_pos hzero]
      simp
    refine Or.inl ⟨zero, rfl, ?_, fun p hp hlt => ?_⟩
    · rw [hmultiple]
      rfl
    · exact absurd hlt (Int.not_lt.mpr hp)

/-- Rounding keeps the order of fractions. -/
theorem RoundsTo.value_le (h : RoundsTo a b v) (h' : RoundsTo a' b' w) (hb : 0 < b)
    (hb' : 0 < b') (hle : (a / b : ℚ) ≤ a' / b') : v.value ≤ w.value := by
  have hmultiple : ∀ q, multiple a b q ≤ multiple a' b' q := fun q =>
    multiple_mono hb hb' (by gcongr)
  rcases lt_trichotomy v.exponent w.exponent with hlt | heq | hgt
  · have hlt := abs_value_lt hlt
    rw [abs_of_nonneg h.value_nonneg, abs_of_nonneg h'.value_nonneg] at hlt
    exact hlt.le
  · rw [value, value, h.significand_eq, h'.significand_eq, heq]
    gcongr
    exact_mod_cast hmultiple w.exponent
  · -- The greater fraction would have a grid that is too fine for the smaller one.
    have htoo := h.too_fine w.exponent w.exponent_ge hgt
    exact absurd h'.multiple_lt (Nat.not_lt.mpr (Nat.le_trans htoo (hmultiple w.exponent)))

/-- A fraction rounds to one number. -/
theorem RoundsTo.unique (h : RoundsTo a b v) (h' : RoundsTo a b w) (hb : 0 < b) : v = w :=
  value_injective (le_antisymm (h.value_le h' hb hb le_rfl) (h'.value_le h hb hb le_rfl))

/-- A number is what its own value rounds to. -/
theorem roundsTo_of_value (hb : 0 < b) (h : (a / b : ℚ) = v.value) : RoundsTo a b v := by
  obtain ⟨k, hk⟩ : ∃ k : ℕ, v.significand = k := by
    refine Int.eq_ofNat_of_zero_le ?_
    have hnonneg : 0 ≤ v.value := h ▸ div_nonneg a.cast_nonneg b.cast_nonneg
    exact_mod_cast nonneg_of_mul_nonneg_left hnonneg (by positivity)
  rw [value, hk] at h
  refine ⟨?_, fun p hp hlt => ?_⟩
  · rw [hk, multiple_eq hb (by exact_mod_cast h)]
  · have hlarge : 2 ^ 52 ≤ k := by
      have hnormal := v.normal.resolve_left (by omega)
      rwa [hk, Int.natAbs_natCast] at hnormal
    have hhalf : (a / b : ℚ) = (2 * k : ℕ) * 2 ^ (v.exponent - 1) := by
      rw [h, zpow_sub_one₀ (by norm_num)]
      push_cast
      ring
    have hle := multiple_anti (a := a) hb (Int.le_sub_one_of_lt hlt)
    rw [multiple_eq hb hhalf] at hle
    omega

/-- What has a smaller exponent than `v` does not reach the numbers of its grid. -/
theorem value_le_of_exponent_lt (h : w.exponent < v.exponent) :
    w.value ≤ (2 ^ 53 - 1) * 2 ^ (v.exponent - 1) := by
  have hsmall : (w.significand.natAbs : ℚ) ≤ 2 ^ 53 - 1 := by
    have hsize : w.significand.natAbs + 1 ≤ 2 ^ 53 := w.significand_lt
    rw [le_sub_iff_add_le]
    exact_mod_cast hsize
  have hexponent : w.exponent ≤ v.exponent - 1 := Int.le_sub_one_of_lt h
  calc w.value ≤ |w.value| := le_abs_self _
    _ = w.significand.natAbs * 2 ^ w.exponent := abs_value w
    _ ≤ (2 ^ 53 - 1) * 2 ^ (v.exponent - 1) := by gcongr; norm_num

/-- What is rounded on a grid does, but for half a step on the finer grid. -/
theorem RoundsTo.le_fraction (h : RoundsTo a b v) (hb : 0 < b) (hfiner : -1074 < v.exponent) :
    ((2 ^ 53 - 1 / 2) * 2 ^ (v.exponent - 1) : ℚ) ≤ a / b := by
  have hlarge : (2 ^ 53 : ℚ) ≤ multiple a b (v.exponent - 1) := by
    exact_mod_cast h.too_fine _ (Int.le_sub_one_of_lt hfiner) (sub_one_lt _)
  have hmany : (2 ^ 53 * 2 ^ (v.exponent - 1) : ℚ) ≤
      multiple a b (v.exponent - 1) * 2 ^ (v.exponent - 1) :=
    mul_le_mul_of_nonneg_right hlarge (by positivity)
  have hclose := (abs_le.mp (abs_sub_multiple_le (a := a) (q := v.exponent - 1) hb)).1
  linarith

/-- The number that a fraction rounds to is the nearest one. -/
theorem RoundsTo.nearest (h : RoundsTo a b v) (hb : 0 < b) (w : Binary64) :
    |(a / b : ℚ) - v.value| ≤ |(a / b : ℚ) - w.value| := by
  have hgrid : ∀ n : ℤ, |(a / b : ℚ) - v.value| ≤ |(a / b : ℚ) - n * 2 ^ v.exponent| := by
    intro n
    rw [value, h.significand_eq, Int.cast_natCast]
    exact abs_sub_multiple_le_abs_sub hb n
  rcases Int.lt_or_le w.exponent v.exponent with hlt | hle
  · -- The other number is below the grid, and farther away than what the grid begins with.
    have hother := value_le_of_exponent_lt hlt
    have hfraction := h.le_fraction hb (lt_of_le_of_lt w.exponent_ge hlt)
    have hunit : (0 : ℚ) < 2 ^ (v.exponent - 1) := by positivity
    have htwice : (2 ^ v.exponent : ℚ) = 2 * 2 ^ (v.exponent - 1) := by
      rw [mul_comm, ← zpow_add_one₀ (by norm_num), sub_add_cancel]
    calc |(a / b : ℚ) - v.value| ≤ |(a / b : ℚ) - (2 ^ 52 : ℤ) * 2 ^ v.exponent| := hgrid _
      _ ≤ (a / b : ℚ) - (2 ^ 53 - 1) * 2 ^ (v.exponent - 1) := by
          rw [htwice, abs_le]
          push_cast
          constructor <;> linarith
      _ ≤ (a / b : ℚ) - w.value := by linarith
      _ ≤ |(a / b : ℚ) - w.value| := le_abs_self _
  · -- The other number is on the grid as well.
    obtain ⟨k, hk⟩ := Int.le.dest hle
    have hvalue : w.value = (w.significand * 2 ^ k : ℤ) * 2 ^ v.exponent := by
      rw [value, ← hk, zpow_add₀ (by norm_num), zpow_natCast]
      push_cast
      ring
    rw [hvalue]
    exact hgrid _

/-- A fraction that rounds to a number is not too large for the coarsest grid. -/
theorem RoundsTo.not_too_large (h : RoundsTo a b v) (hb : 0 < b) : multiple a b 971 < 2 ^ 53 :=
  Nat.lt_of_le_of_lt (multiple_anti hb v.exponent_le) h.multiple_lt

theorem nearest?_eq_some_iff {hb : 0 < b} : nearest? a b hb = some v ↔ RoundsTo a b v := by
  rcases nearest?_spec a hb with ⟨w, hnearest, hrounds⟩ | ⟨hnearest, hlarge⟩
  · rw [hnearest, Option.some.injEq]
    constructor
    · rintro rfl
      exact hrounds
    · intro h
      exact hrounds.unique h hb
  · rw [hnearest]
    exact iff_of_false nofun fun h => absurd (h.not_too_large hb) (Nat.not_lt.mpr hlarge)

/-- What is not above a fraction that has a nearest number has one too. -/
theorem exists_nearest?_of_le (hb : 0 < b) {hb' : 0 < b'} (h : nearest? a' b' hb' = some w)
    (hle : (a / b : ℚ) ≤ a' / b') : ∃ v, nearest? a b hb = some v ∧ v.value ≤ w.value := by
  have hrounds' := nearest?_eq_some_iff.mp h
  rcases nearest?_spec a hb with ⟨v, hnearest, hrounds⟩ | ⟨_, hlarge⟩
  · exact ⟨v, hnearest, hrounds.value_le hrounds' hb hb' hle⟩
  · have hmono : multiple a b 971 ≤ multiple a' b' 971 := multiple_mono hb hb' (by gcongr)
    exact absurd (hrounds'.not_too_large hb') (Nat.not_lt.mpr (Nat.le_trans hlarge hmono))

end Binary64

/-! ## Decimals -/

/-- The rational number that is meant. -/
def Decimal.value (d : Decimal) : ℚ := d.coefficient / d.scale

theorem Decimal.value_of_nonneg {d : Decimal} (h : 0 ≤ d.coefficient) :
    d.value = d.coefficient.natAbs / d.scale := by
  rw [value, Nat.cast_natAbs, abs_of_nonneg h]

theorem Decimal.value_of_neg {d : Decimal} (h : d.coefficient < 0) :
    d.value = -(d.coefficient.natAbs / d.scale) := by
  rw [value, Nat.cast_natAbs, abs_of_neg h, Int.cast_neg, neg_div, neg_neg]

theorem Decimal.value_nonneg_iff {d : Decimal} : 0 ≤ d.value ↔ 0 ≤ d.coefficient := by
  rw [value, le_div_iff₀ (Nat.cast_pos.mpr d.scale_pos), zero_mul, Int.cast_nonneg_iff]

namespace Binary64

theorem ofDecimal?_of_nonneg (h : 0 ≤ d.coefficient) :
    ofDecimal? d = nearest? d.coefficient.natAbs d.scale d.scale_pos := by
  simp only [ofDecimal?, Int.not_lt.mpr h, if_false, Option.map_id']

theorem ofDecimal?_of_neg (h : d.coefficient < 0) :
    ofDecimal? d = (nearest? d.coefficient.natAbs d.scale d.scale_pos).map neg := by
  simp only [ofDecimal?, h, if_true]

/-- A number is read from every decimal that has its value. -/
theorem ofDecimal?_of_value (h : d.value = v.value) : ofDecimal? d = some v := by
  rcases Int.lt_or_le d.coefficient 0 with hneg | hnonneg
  · have hvalue : (d.coefficient.natAbs / d.scale : ℚ) = v.neg.value := by
      rw [value_neg, ← h, Decimal.value_of_neg hneg, neg_neg]
    rw [ofDecimal?_of_neg hneg, nearest?_eq_some_iff.mpr (roundsTo_of_value d.scale_pos hvalue),
      Option.map_some, v.neg_neg]
  · have hvalue : (d.coefficient.natAbs / d.scale : ℚ) = v.value := by
      rw [← h, Decimal.value_of_nonneg hnonneg]
    rw [ofDecimal?_of_nonneg hnonneg]
    exact nearest?_eq_some_iff.mpr (roundsTo_of_value d.scale_pos hvalue)

/-- No number is nearer to a decimal than the one that is read from it. -/
theorem ofDecimal?_nearest (h : ofDecimal? d = some v) (w : Binary64) :
    |d.value - v.value| ≤ |d.value - w.value| := by
  rcases Int.lt_or_le d.coefficient 0 with hneg | hnonneg
  · rw [ofDecimal?_of_neg hneg, Option.map_eq_some_iff] at h
    obtain ⟨u, hnearest, rfl⟩ := h
    have hle := (nearest?_eq_some_iff.mp hnearest).nearest d.scale_pos w.neg
    rw [value_neg, sub_neg_eq_add] at hle
    rwa [Decimal.value_of_neg hneg, value_neg, neg_sub_neg, abs_sub_comm, ← neg_add', abs_neg]
  · rw [ofDecimal?_of_nonneg hnonneg] at h
    rw [Decimal.value_of_nonneg hnonneg]
    exact (nearest?_eq_some_iff.mp h).nearest d.scale_pos w

end Binary64

namespace Number

variable {d d' : Decimal} {m n : Number}

theorem ofDecimal_eq_finite_iff {v : Binary64} :
    ofDecimal d = .finite v ↔ Binary64.ofDecimal? d = some v := by
  rw [ofDecimal]
  cases Binary64.ofDecimal? d with
  | some w => simp
  | none =>
      refine iff_of_false ?_ nofun
      dsimp only
      split <;> nofun

theorem AtMost.antisymm (h : n.AtMost m) (h' : m.AtMost n) : n = m := by
  cases h with
  | refl => rfl
  | negativeInfinity => cases h' <;> rfl
  | finite hle =>
      cases h' with
      | refl => rfl
      | finite hle' => rw [Binary64.value_injective (le_antisymm hle hle')]
  | infinity => cases h' <;> rfl

theorem ofDecimal_of_nonneg (h : 0 ≤ d.coefficient) : ofDecimal d =
    (Binary64.nearest? d.coefficient.natAbs d.scale d.scale_pos).elim .infinity .finite := by
  rw [ofDecimal, Binary64.ofDecimal?_of_nonneg h]
  cases Binary64.nearest? d.coefficient.natAbs d.scale d.scale_pos with
  | none => exact if_neg (Int.not_lt.mpr h)
  | some v => rfl

theorem ofDecimal_of_neg (h : d.coefficient < 0) : ofDecimal d =
    (Binary64.nearest? d.coefficient.natAbs d.scale d.scale_pos).elim .negativeInfinity
      fun v => .finite v.neg := by
  rw [ofDecimal, Binary64.ofDecimal?_of_neg h]
  cases Binary64.nearest? d.coefficient.natAbs d.scale d.scale_pos with
  | none => exact if_pos h
  | some v => rfl

/-- Reading keeps the order of decimals. -/
theorem ofDecimal_mono (h : d.value ≤ d'.value) : (ofDecimal d).AtMost (ofDecimal d') := by
  rcases Int.lt_or_le d.coefficient 0 with hneg | hnonneg
  · rw [ofDecimal_of_neg hneg]
    cases hd : Binary64.nearest? d.coefficient.natAbs d.scale d.scale_pos with
    | none => exact .negativeInfinity
    | some v =>
      rcases Int.lt_or_le d'.coefficient 0 with hneg' | hnonneg'
      · rw [Decimal.value_of_neg hneg, Decimal.value_of_neg hneg', neg_le_neg_iff] at h
        obtain ⟨w, hd', hle⟩ := Binary64.exists_nearest?_of_le d'.scale_pos hd h
        rw [ofDecimal_of_neg hneg', hd']
        refine .finite ?_
        rw [v.value_neg, w.value_neg]
        exact neg_le_neg hle
      · rw [ofDecimal_of_nonneg hnonneg']
        cases hd' : Binary64.nearest? d'.coefficient.natAbs d'.scale d'.scale_pos with
        | none => exact .infinity
        | some w =>
          have hv := (Binary64.nearest?_eq_some_iff.mp hd).value_nonneg
          have hw := (Binary64.nearest?_eq_some_iff.mp hd').value_nonneg
          refine .finite ?_
          rw [v.value_neg]
          exact le_trans (neg_nonpos.mpr hv) hw
  · have hnonneg' : 0 ≤ d'.coefficient := by
      rw [← Decimal.value_nonneg_iff] at hnonneg ⊢
      exact le_trans hnonneg h
    rw [ofDecimal_of_nonneg hnonneg']
    cases hd' : Binary64.nearest? d'.coefficient.natAbs d'.scale d'.scale_pos with
    | none => exact .infinity
    | some w =>
      rw [Decimal.value_of_nonneg hnonneg, Decimal.value_of_nonneg hnonneg'] at h
      obtain ⟨v, hd, hle⟩ := Binary64.exists_nearest?_of_le d.scale_pos hd' h
      rw [ofDecimal_of_nonneg hnonneg, hd]
      exact .finite hle

/-- Decimals of the same value are read as the same number. -/
theorem ofDecimal_congr (h : d.value = d'.value) : ofDecimal d = ofDecimal d' :=
  (ofDecimal_mono h.le).antisymm (ofDecimal_mono h.ge)

end Number

end RegexEngine
