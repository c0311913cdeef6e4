/-
# `Binary64.ofDecimal?` — the number nearest to a decimal

For each exponent `q` the multiples of `2 ^ q` form a grid.  A positive fraction
is rounded on the finest grid that is allowed: the one of the least `q` at which
the nearest multiple has at most 53 binary digits.  On the grid below it that
multiple has more digits, so on its own it has no fewer than 53
(`le_multiple_of_double`), unless it is the grid of the least exponent.

The search for the exponent starts at one read off the sizes of numerator and
denominator, which is never too large (`startExponent_low`) and at most two
steps too small.  A fraction beyond the largest exponent has no nearest number.
-/
import RegexEngine.Number.Binary64

namespace RegexEngine

namespace Binary64

/-- The multiple of `2 ^ q` nearest to `a / b`, as a count of `2 ^ q`. -/
def multiple (a b : Nat) (q : Int) : Nat :=
  roundDiv (a <<< (-q).toNat) (b <<< q.toNat)

/-- From one grid to the next the nearest multiple at most halves. -/
theorem le_multiple_of_double {a b k : Nat} {q : Int} (positive : 0 < b)
    (h : 2 * k ≤ multiple a b (q - 1)) : k ≤ multiple a b q := by
  unfold multiple at h ⊢
  have scaled (e : Nat) : 0 < b <<< e := by
    rw [Nat.shiftLeft_eq]
    exact Nat.mul_pos positive (Nat.two_pow_pos e)
  by_cases low : q ≤ 0
  · have up : (-(q - 1)).toNat = (-q).toNat + 1 := by omega
    have same : (q - 1).toNat = q.toNat := by omega
    rw [up, same, Nat.shiftLeft_succ] at h
    exact le_roundDiv_of_double (scaled _) h
  · have up : q.toNat = (q - 1).toNat + 1 := by omega
    have same : (-(q - 1)).toNat = (-q).toNat := by omega
    rw [same] at h
    rw [up, Nat.shiftLeft_succ]
    exact le_roundDiv_double (scaled _) h

/-- The exponent at which the search for that of `a / b` starts. -/
def startExponent (a b : Nat) : Int := max (-1074) ((a.log2 : Int) - b.log2 - 53)

/-- The search does not start too high: below the start the nearest multiple has more
than 53 digits. -/
theorem startExponent_low {a b : Nat} (ha : 0 < a) (hb : 0 < b) :
    startExponent a b = -1074 ∨ 1 <<< 53 ≤ multiple a b (startExponent a b - 1) := by
  by_cases least : startExponent a b = -1074
  · exact .inl least
  have size : startExponent a b = (a.log2 : Int) - b.log2 - 53 := by
    unfold startExponent at least ⊢
    omega
  generalize hp : startExponent a b - 1 = p
  have large := Nat.log2_self_le (Nat.ne_of_gt ha)
  have small : b ≤ _ := Nat.le_of_lt Nat.lt_log2_self
  refine .inr (le_roundDiv ?_ ?_) <;> simp only [Nat.shiftLeft_eq, Nat.one_mul]
  · exact Nat.mul_pos hb (Nat.two_pow_pos _)
  · refine Nat.le_trans ?_ (Nat.mul_le_mul_right _ large)
    rw [Nat.mul_left_comm]
    refine Nat.le_trans (Nat.mul_le_mul_right _ small) (Nat.le_of_eq ?_)
    rw [← Nat.pow_add, ← Nat.pow_add, ← Nat.pow_add]
    congr 1
    omega

/-- Rounds `a / b` on the first grid from `q` on that has a number for it. -/
def nearestFrom (a b : Nat) (positive : 0 < b) (q : Int) (least : -1074 ≤ q)
    (fine : q = -1074 ∨ 1 <<< 53 ≤ multiple a b (q - 1)) : Option Binary64 :=
  if most : q ≤ 971 then
    if fits : multiple a b q < 1 <<< 53 then
      some ⟨multiple a b q, q, fits, least, most, fine.imp_right (le_multiple_of_double positive)⟩
    else
      nearestFrom a b positive (q + 1) (by omega)
        (.inr ((Int.add_sub_cancel q 1).symm ▸ Nat.le_of_not_lt fits))
  else none
termination_by (972 - q).toNat

/-- The number nearest to `a / b`, unless that is too large. -/
def nearest? (a b : Nat) (hb : 0 < b) : Option Binary64 :=
  if ha : 0 < a then
    nearestFrom a b hb (startExponent a b) (Int.le_max_left ..) (startExponent_low ha hb)
  else some zero

/-- The number nearest to a decimal, unless that is too large. -/
def ofDecimal? (d : Decimal) : Option Binary64 :=
  (nearest? d.coefficient.natAbs d.scale d.scale_pos).map fun v =>
    if d.coefficient < 0 then v.neg else v

end Binary64

end RegexEngine
