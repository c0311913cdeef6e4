/-
# `Number.ofText` — what is written reads back

A written number is read in the usual way: a sign, digits around a point, and a power of
ten behind an `e`.  Every number is read back from its written form (`ofText_layout`), so
no two numbers are written alike (`layout_injective`), and the text of an error tells which
limit it was raised for.

The layout of the digits is one of five, and each of them means the digits times a power
of ten that only the place of the point decides (`LaidOut.value_eq`):

    digits, zeros                 the point stands behind the digits
    digits, point, digits         it stands inside of them
    zero, point, zeros, digits    it stands a little in front of them
    digit, power                  it stands far away, and there is one digit
    digit, point, digits, power   it stands far away
-/
import RegexEngine.Proofs.Number.Shortest

namespace RegexEngine

namespace Decimal

/-! ## Reading -/

/-- What stands in front of the first mark and what stands behind it. -/
def cutAt (mark : Char) (cs : List Char) : List Char × List Char :=
  (cs.takeWhile (· != mark), (cs.dropWhile (· != mark)).tail)

/-- A power of ten, with its sign. -/
def readPower : List Char → ℤ
  | [] => 0
  | sign :: digits =>
      if sign = '-' then -(Nat.ofDigitChars 10 digits 0) else Nat.ofDigitChars 10 digits 0

/-- The digits of a written number without sign, and the power of ten that they are
multiplied by: the places behind the point are taken from the one that is written. -/
def readUnsigned (cs : List Char) : ℕ × ℤ :=
  let (mantissa, power) := cutAt 'e' cs
  let (whole, fraction) := cutAt '.' mantissa
  (Nat.ofDigitChars 10 (whole ++ fraction) 0, readPower power - fraction.length)

/-- An integer times a power of ten. -/
def ofScaled (m : ℤ) (e : ℤ) : Decimal := ⟨m * (10 ^ e.toNat : ℕ), (-e).toNat⟩

/-- The decimal that is written. -/
def ofText : List Char → Decimal
  | '-' :: cs => .ofScaled (-(readUnsigned cs).1) (readUnsigned cs).2
  | cs => .ofScaled (readUnsigned cs).1 (readUnsigned cs).2

theorem value_ofScaled (m e : ℤ) : (ofScaled m e).value = m * 10 ^ e := by
  rw [value_eq_mul_zpow, ofScaled]
  push_cast
  obtain ⟨n, rfl | rfl⟩ := Int.eq_nat_or_neg e
  · simp
  · simp

variable {mark : Char} {l r digits whole fraction : List Char} {point : ℤ}

theorem cutAt_of_not_mem (h : mark ∉ l) : cutAt mark l = (l, []) := by
  have hall : ∀ c ∈ l, (c != mark) = true := fun c hc =>
    bne_iff_ne.mpr (ne_of_mem_of_not_mem hc h)
  rw [cutAt, List.takeWhile_eq_self_iff.mpr hall, List.dropWhile_eq_nil_iff.mpr hall, List.tail_nil]

theorem cutAt_append_cons (h : mark ∉ l) : cutAt mark (l ++ mark :: r) = (l, r) := by
  have hall : ∀ c ∈ l, (c != mark) = true := fun c hc =>
    bne_iff_ne.mpr (ne_of_mem_of_not_mem hc h)
  rw [cutAt, List.takeWhile_append_of_pos hall, List.dropWhile_append_of_pos hall,
    List.takeWhile_cons_of_neg (by simp), List.dropWhile_cons_of_neg (by simp), List.append_nil,
    List.tail_cons]

/-- A power is read from the text that is written for it. -/
theorem readPower_exponentText (e : ℤ) : readPower (exponentText e) = e := by
  rw [exponentText, readPower, Nat.ofDigitChars_ten_toDigits]
  split <;> split
  · omega
  · contradiction
  · contradiction
  · omega

/-- No mark is a digit. -/
theorem not_mem_of_digits (h : ∀ c ∈ l, c.isDigit = true) (hmark : mark.isDigit = false) :
    mark ∉ l := by
  intro hmem
  rw [h mark hmem] at hmark
  contradiction

theorem readUnsigned_whole (hwhole : ∀ c ∈ whole, c.isDigit = true) :
    readUnsigned whole = (Nat.ofDigitChars 10 whole 0, 0) := by
  rw [readUnsigned, cutAt_of_not_mem (not_mem_of_digits hwhole rfl)]
  dsimp only
  rw [cutAt_of_not_mem (not_mem_of_digits hwhole rfl), List.append_nil]
  rfl

theorem not_mem_point (hwhole : ∀ c ∈ whole, c.isDigit = true)
    (hfraction : ∀ c ∈ fraction, c.isDigit = true) : 'e' ∉ whole ++ '.' :: fraction := by
  rw [List.mem_append, List.mem_cons]
  rintro (hmem | heq | hmem)
  · exact not_mem_of_digits hwhole rfl hmem
  · exact absurd heq (by decide)
  · exact not_mem_of_digits hfraction rfl hmem

theorem readUnsigned_point (hwhole : ∀ c ∈ whole, c.isDigit = true)
    (hfraction : ∀ c ∈ fraction, c.isDigit = true) :
    readUnsigned (whole ++ '.' :: fraction) =
      (Nat.ofDigitChars 10 (whole ++ fraction) 0, -(fraction.length : ℤ)) := by
  rw [readUnsigned, cutAt_of_not_mem (not_mem_point hwhole hfraction)]
  dsimp only
  rw [cutAt_append_cons (not_mem_of_digits hwhole rfl), readPower, zero_sub]

theorem readUnsigned_power (h : 'e' ∉ l) (e : ℤ) :
    readUnsigned (l ++ 'e' :: exponentText e) =
      ((readUnsigned l).1, (readUnsigned l).2 + e) := by
  rw [readUnsigned, readUnsigned, cutAt_append_cons h, cutAt_of_not_mem h]
  dsimp only
  rw [readPower_exponentText, readPower, zero_sub, neg_add_eq_sub]

/-! ## The five layouts -/

/-- A layout of digits, as the number `0.d₁d₂… × 10 ^ point`. -/
inductive LaidOut (digits : List Char) (point : ℤ) : List Char → Prop
  | behind {z : ℕ} : point = digits.length + z →
      LaidOut digits point (digits ++ List.replicate z '0')
  | inside {whole fraction : List Char} : whole ++ fraction = digits → whole ≠ [] →
      point = whole.length → LaidOut digits point (whole ++ '.' :: fraction)
  | inFront {z : ℕ} : point = -z →
      LaidOut digits point ('0' :: '.' :: (List.replicate z '0' ++ digits))
  | single {d : Char} : digits = [d] →
      LaidOut digits point (d :: 'e' :: exponentText (point - 1))
  | power {d : Char} {rest : List Char} : digits = d :: rest →
      LaidOut digits point (d :: '.' :: (rest ++ 'e' :: exponentText (point - 1)))

theorem laidOut_place (hnonempty : digits ≠ []) (point : ℤ) :
    LaidOut digits point (place digits point) := by
  unfold place
  dsimp only
  split
  · exact .behind (by omega)
  split
  · rename_i hbehind hinside
    have hlength : point.toNat ≤ digits.length := by omega
    refine .inside (List.take_append_drop point.toNat digits) ?_ ?_
    · rw [Ne, List.take_eq_nil_iff]
      rintro (hzero | hnil)
      · omega
      · exact hnonempty hnil
    · rw [List.length_take_of_le hlength]
      omega
  split
  · exact .inFront (by omega)
  cases digits with
  | nil => exact absurd rfl hnonempty
  | cons d rest =>
      cases rest with
      | nil => exact .single rfl
      | cons d' rest => exact .power rfl

variable {body : List Char}

/-- Every layout begins with a digit. -/
theorem LaidOut.exists_eq_cons (h : LaidOut digits point body) (hnonempty : digits ≠ [])
    (hdigits : ∀ c ∈ digits, c.isDigit = true) : ∃ c rest, body = c :: rest ∧ c.isDigit = true := by
  cases h with
  | behind _ =>
      obtain ⟨d, rest, rfl⟩ := List.exists_cons_of_ne_nil hnonempty
      exact ⟨d, _, rfl, hdigits d List.mem_cons_self⟩
  | inside hsplit hwhole _ =>
      obtain ⟨d, rest, rfl⟩ := List.exists_cons_of_ne_nil hwhole
      exact ⟨d, _, rfl, hdigits d (hsplit ▸ List.mem_cons_self)⟩
  | inFront _ => exact ⟨'0', _, rfl, rfl⟩
  | single heq => exact ⟨_, _, rfl, hdigits _ (heq ▸ List.mem_cons_self)⟩
  | power heq => exact ⟨_, _, rfl, hdigits _ (heq ▸ List.mem_cons_self)⟩

/-- Every layout means the digits times the power of ten that brings the point to its
place. -/
theorem LaidOut.value_eq (h : LaidOut digits point body)
    (hdigits : ∀ c ∈ digits, c.isDigit = true) :
    ((readUnsigned body).1 * 10 ^ (readUnsigned body).2 : ℚ) =
      Nat.ofDigitChars 10 digits 0 * 10 ^ (point - digits.length) := by
  have hzeros : ∀ z, ∀ c ∈ List.replicate z '0', c.isDigit = true := fun z c hc => by
    rw [List.eq_of_mem_replicate hc]
    rfl
  cases h with
  | @behind z hpoint =>
      rw [readUnsigned_whole (List.forall_mem_append.mpr ⟨hdigits, hzeros z⟩),
        Nat.ofDigitChars_append, Nat.ofDigitChars_replicate_zero, hpoint, add_sub_cancel_left,
        zpow_natCast]
      push_cast
      ring
  | @inside whole fraction hsplit _ hpoint =>
      have hboth := List.forall_mem_append.mp (hsplit ▸ hdigits)
      have hexponent : point - digits.length = -(fraction.length : ℤ) := by
        rw [← hsplit, List.length_append, hpoint]
        push_cast
        ring
      rw [readUnsigned_point hboth.1 hboth.2, hsplit, hexponent]
  | @inFront z hpoint =>
      have hfraction := List.forall_mem_append.mpr ⟨hzeros z, hdigits⟩
      have hwhole : ∀ c ∈ ['0'], c.isDigit = true := List.forall_mem_singleton.mpr rfl
      have hexponent : point - digits.length =
          -((List.replicate z '0' ++ digits).length : ℤ) := by
        rw [List.length_append, List.length_replicate, hpoint]
        push_cast
        ring
      have hvalue : Nat.ofDigitChars 10 (['0'] ++ (List.replicate z '0' ++ digits)) 0 =
          Nat.ofDigitChars 10 digits 0 := by
        rw [Nat.ofDigitChars_append, Nat.ofDigitChars_append, Nat.ofDigitChars_replicate_zero]
        rfl
      have hread := readUnsigned_point hwhole hfraction
      rw [List.singleton_append] at hread
      rw [hread, hvalue, hexponent]
  | @single d heq =>
      subst heq
      have hread := readUnsigned_power (not_mem_of_digits hdigits rfl) (point - 1)
      rw [List.singleton_append, readUnsigned_whole hdigits] at hread
      rw [hread, zero_add, List.length_singleton, Nat.cast_one]
  | @power d rest heq =>
      subst heq
      have hd : ∀ c ∈ [d], c.isDigit = true :=
        List.forall_mem_singleton.mpr (hdigits d List.mem_cons_self)
      have hrest : ∀ c ∈ rest, c.isDigit = true := fun c hc => hdigits c (List.mem_cons_of_mem d hc)
      have hread : readUnsigned (d :: '.' :: (rest ++ 'e' :: exponentText (point - 1))) = _ :=
        readUnsigned_power (not_mem_point hd hrest) (point - 1)
      rw [readUnsigned_point hd hrest, List.singleton_append] at hread
      have hexponent : -(rest.length : ℤ) + (point - 1) = point - (d :: rest).length := by
        rw [List.length_cons]
        push_cast
        ring
      rw [hread, hexponent]

/-! ## Reading back -/

/-- The layout of a decimal is that of its digits, behind a sign. -/
theorem exists_layout_eq {d : Decimal} (hd : d.coefficient ≠ 0) :
    ∃ body, LaidOut (significant d.digits) (d.digits.length - d.places) body ∧
      d.layout.toList = if d.coefficient < 0 then '-' :: body else body := by
  have hnonempty : significant d.digits ≠ [] :=
    List.ne_nil_of_length_pos (Nat.pos_of_ne_zero (precision_ne_zero hd))
  refine ⟨_, laidOut_place hnonempty _, ?_⟩
  rw [layout, if_neg hd, String.toList_ofList]

theorem isDigit_of_mem_significant {d : Decimal} :
    ∀ c ∈ significant d.digits, c.isDigit = true := by
  intro c hc
  have hmem : c ∈ Nat.toDigits 10 d.coefficient.natAbs :=
    (List.rdropWhile_prefix _ d.digits).sublist.mem hc
  exact Nat.isDigit_of_mem_toDigits (by decide) (by decide) hmem

theorem ofText_of_isDigit {c : Char} {rest : List Char} (hc : c.isDigit = true) :
    ofText (c :: rest) =
      .ofScaled (readUnsigned (c :: rest)).1 (readUnsigned (c :: rest)).2 := by
  unfold ofText
  split
  · rename_i heq
    cases heq
    exact absurd hc (by decide)
  · rfl

/-- A decimal is read from its layout, up to its form. -/
theorem value_ofText_layout (d : Decimal) : (ofText d.layout.toList).value = d.value := by
  by_cases hd : d.coefficient = 0
  · have hzero : ofText "0".toList = ⟨0, 0⟩ := by decide
    rw [layout, if_pos hd, hzero, value_eq_mul_zpow, value_eq_mul_zpow, hd, Int.cast_zero, zero_mul,
      zero_mul]
  obtain ⟨body, hbody, hlayout⟩ := exists_layout_eq hd
  have hvalue : ((readUnsigned body).1 * 10 ^ (readUnsigned body).2 : ℚ) = |d.value| := by
    obtain ⟨z, hdigits, hnatAbs⟩ := d.exists_natAbs_eq
    have hlength : d.digits.length = (significant d.digits).length + z := by
      rw [congrArg List.length hdigits, List.length_append, List.length_replicate]
    have hexponent : (d.digits.length - d.places - (significant d.digits).length : ℤ) =
        z + -d.places := by
      rw [hlength]
      push_cast
      ring
    rw [hbody.value_eq isDigit_of_mem_significant, hexponent, zpow_add₀ (by norm_num), abs_value,
      hnatAbs, zpow_natCast]
    push_cast
    ring
  rw [hlayout, d.value_eq_sign_mul_abs]
  split
  · rename_i hneg
    rw [ofText, value_ofScaled, Int.sign_eq_neg_one_of_neg hneg]
    push_cast
    rw [neg_mul, hvalue, neg_one_mul]
  · rename_i hnonneg
    obtain ⟨c, rest, rfl, hc⟩ := hbody.exists_eq_cons
      (List.ne_nil_of_length_pos (Nat.pos_of_ne_zero (precision_ne_zero hd)))
      isDigit_of_mem_significant
    rw [ofText_of_isDigit hc, value_ofScaled, Int.sign_eq_one_of_pos (by omega)]
    push_cast
    rw [hvalue, one_mul]

example : layout ⟨15, 7⟩ = "0.0000015" ∧ ofText "0.0000015".toList = ⟨15, 7⟩ := by cbv
example : layout ⟨-15, 8⟩ = "-1.5e-7" ∧ ofText "-1.5e-7".toList = ⟨-15, 8⟩ := by cbv

/-- A layout begins with a digit, or with a sign and a digit. -/
theorem exists_layout_eq_cons (d : Decimal) : ∃ c rest, c.isDigit = true ∧
    (d.layout.toList = c :: rest ∨ d.layout.toList = '-' :: c :: rest) := by
  by_cases hd : d.coefficient = 0
  · refine ⟨'0', [], rfl, Or.inl ?_⟩
    rw [layout, if_pos hd]
    rfl
  obtain ⟨body, hbody, hlayout⟩ := exists_layout_eq hd
  obtain ⟨c, rest, rfl, hc⟩ := hbody.exists_eq_cons
    (List.ne_nil_of_length_pos (Nat.pos_of_ne_zero (precision_ne_zero hd)))
    isDigit_of_mem_significant
  rw [hlayout]
  split
  · exact ⟨c, rest, hc, Or.inr rfl⟩
  · exact ⟨c, rest, hc, Or.inl rfl⟩

end Decimal

namespace Number

/-- The number that is written. -/
def ofText (text : String) : Number :=
  match text.toList with
  | 'N' :: _ => .notANumber
  | 'I' :: _ => .infinity
  | '-' :: 'I' :: _ => .negativeInfinity
  | cs => .ofDecimal (.ofText cs)

/-- A layout is not read as one of the names: they have a letter where it has a digit. -/
theorem ofText_decimal_layout (d : Decimal) :
    ofText d.layout = .ofDecimal (.ofText d.layout.toList) := by
  obtain ⟨c, rest, hc, hlayout | hlayout⟩ := d.exists_layout_eq_cons
  · rw [ofText, hlayout]
    split
    case h_4 => rfl
    all_goals
      rename_i heq
      obtain ⟨rfl, _⟩ := List.cons.inj heq
      exact absurd hc (by decide)
  · rw [ofText, hlayout]
    split
    case h_4 => rfl
    case h_3 heq =>
      obtain ⟨rfl, _⟩ := List.cons.inj (List.cons.inj heq).2
      exact absurd hc (by decide)
    all_goals
      rename_i heq
      exact absurd (List.cons.inj heq).1 (by decide)

/-- What is written for a number is read as the number. -/
theorem ofText_layout (n : Number) : ofText n.layout = n := by
  cases n with
  | notANumber => rfl
  | negativeInfinity => rfl
  | infinity => rfl
  | finite v =>
      calc ofText v.shortest.layout = .ofDecimal (.ofText v.shortest.layout.toList) :=
            ofText_decimal_layout v.shortest
        _ = .ofDecimal v.shortest := ofDecimal_congr v.shortest.value_ofText_layout
        _ = .finite v := ofDecimal_eq_finite_iff.mpr v.ofDecimal?_shortest

example : ofText "3e-324" = ofText "5e-324" ∧ (ofText "3e-324").layout = "5e-324" := by
  decide +kernel

/-- No two numbers are written alike. -/
theorem layout_injective : Function.Injective layout :=
  Function.LeftInverse.injective ofText_layout

end Number

end RegexEngine
