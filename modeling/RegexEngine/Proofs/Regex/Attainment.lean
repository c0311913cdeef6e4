/-
# `Regex.Attains` — the bounds on the length of a match are met

That no match is shorter than `Regex.minLength` or longer than `Regex.maxLength?` holds
of every expression (`Spans.minLength_le`, `Spans.le_maxLength`).  The bounds cannot be
improved where nothing but the shape of the expression decides how long a match is:
there is no anchor, and every set takes a symbol that can be written anywhere.

Then an expression *generates* sequences of symbols, which it matches wherever they
stand, and *attains* the lengths of these.  The least length is attained, by induction on
the expression; so is the greatest one, and if there is none, lengths beyond every number
are (`attains_minLength`, `attainsBound_maxLength`).  The two go together: to make one
factor of a chain long, the others need some match.  A repetition attains the multiples
of a length, which is what makes it unbounded unless that length is always zero.

The symbols are scalars, not halves of surrogate pairs, since two halves in a row would
be read as one symbol.
-/
import RegexEngine.Proofs.Automaton.Blocks
import RegexEngine.Proofs.Automaton.Consumption
import RegexEngine.Proofs.Regex.Bounds
import RegexEngine.Proofs.Text.Occurrence
import RegexEngine.Proofs.Unicode.Folding

namespace RegexEngine

/-! ## Symbols that can be written anywhere -/

namespace Symbol

/-- The symbol is no surrogate. -/
def Scalar (c : Nat) : Prop := c ≤ last ∧ ¬ (0xD800 ≤ c ∧ c ≤ 0xDFFF)

instance (c : Nat) : Decidable (Scalar c) :=
  inferInstanceAs (Decidable (c ≤ last ∧ ¬ (0xD800 ≤ c ∧ c ≤ 0xDFFF)))

theorem apart_of_scalars {cs : List Nat} (h : ∀ c ∈ cs, Scalar c) : Apart cs := by
  have hpairwise : cs.Pairwise fun c d => ¬ Joins c d :=
    List.Pairwise.imp_of_mem (R := fun _ _ => True)
      (fun hc _ _ hjoins => (h _ hc).2 ⟨hjoins.1.1, Nat.le_trans hjoins.1.2 (by decide)⟩)
      (List.pairwise_of_forall fun _ _ => trivial)
  exact hpairwise.isChain

end Symbol

/-! ## Sets and expressions -/

/-- The set takes a scalar; a single symbol is one itself. -/
def SymbolSet.TakesScalar (flags : Flags) : SymbolSet → Prop
  | .single c => Symbol.Scalar c
  | .any => True
  | .among k => ∃ c, Symbol.Scalar c ∧
      ((SymbolSet.among k).normalize flags).acceptsSymbol flags c = true

/-- A single symbol takes itself, with or without regard to case. -/
theorem SymbolSet.takes_single_self (flags : Flags) (c : Nat) :
    (SymbolSet.single c).Takes flags c := by
  show if flags.caseInsensitive then Unicode.foldCase c ∈ flags.variants c else c = c
  unfold Flags.variants
  split
  · exact Unicode.foldCase_mem_caseVariants c
  · rfl

theorem SymbolSet.TakesScalar.exists_takes {s : SymbolSet} {flags : Flags}
    (h : s.TakesScalar flags) : ∃ c, Symbol.Scalar c ∧ s.Takes flags c := by
  cases s with
  | single c => exact ⟨c, h, takes_single_self flags c⟩
  | any => exact ⟨0, by decide, trivial⟩
  | among k =>
      obtain ⟨c, hc, haccepts⟩ := h
      exact ⟨c, hc, (acceptsSymbol_normalize _ flags c).mp haccepts⟩

namespace Regex

/-- There is no anchor in the expression, and each of its sets takes a scalar. -/
def Productive (flags : Flags) : Regex → Prop
  | .empty => True
  | .symbol s => s.TakesScalar flags
  | .anchor _ => False
  | .concat l r | .alternate l r => l.Productive flags ∧ r.Productive flags
  | .star r | .plus r | .optional r => r.Productive flags

variable {flags : Flags} {l r : Regex} {cs ds : List Nat} {m n : Nat}

/-! ## Generated sequences -/

/-- The expression matches the symbols wherever they stand. -/
def Generates (r : Regex) (flags : Flags) (cs : List Nat) : Prop :=
  ∀ (x : Text) (i j : Nat), x.Stands cs i j → r.Spans flags x i j

theorem generates_empty : Generates .empty flags [] := fun _ _ _ h => h

theorem generates_symbol {s : SymbolSet} {c : Nat} (h : s.Takes flags c) :
    Generates (.symbol s) flags [c] := by
  rintro x i j ⟨k, hread, rfl⟩
  exact ⟨c, hread, h⟩

theorem Generates.concat (hl : l.Generates flags cs) (hr : r.Generates flags ds) :
    Generates (.concat l r) flags (cs ++ ds) := by
  intro x i j h
  obtain ⟨k, hcs, hds⟩ := Text.stands_append.mp h
  exact ⟨k, hl x i k hcs, hr x k j hds⟩

theorem Generates.left (hl : l.Generates flags cs) : Generates (.alternate l r) flags cs :=
  fun x i j h => Or.inl (hl x i j h)

theorem Generates.right (hr : r.Generates flags cs) : Generates (.alternate l r) flags cs :=
  fun x i j h => Or.inr (hr x i j h)

theorem generates_star_nil : Generates (.star r) flags [] := by
  rintro x i _ rfl
  exact .refl

theorem Generates.star (hr : r.Generates flags cs) (hrest : Generates (.star r) flags ds) :
    Generates (.star r) flags (cs ++ ds) := by
  intro x i j h
  obtain ⟨k, hcs, hds⟩ := Text.stands_append.mp h
  exact .head (hr x i k hcs) (hrest x k j hds)

theorem Generates.plus (hr : r.Generates flags cs) (hrest : Generates (.star r) flags ds) :
    Generates (.plus r) flags (cs ++ ds) := by
  intro x i j h
  obtain ⟨k, hcs, hds⟩ := Text.stands_append.mp h
  exact Relation.TransGen.head' (hr x i k hcs) (hrest x k j hds)

theorem generates_optional_nil : Generates (.optional r) flags [] := by
  rintro x i _ rfl
  exact .refl

theorem Generates.optional (hr : r.Generates flags cs) : Generates (.optional r) flags cs :=
  fun x i j h => .single (hr x i j h)

/-! ## Attained lengths -/

/-- The expression generates a sequence of `n` scalars. -/
def Attains (r : Regex) (flags : Flags) (n : Nat) : Prop :=
  ∃ cs, cs.length = n ∧ (∀ c ∈ cs, Symbol.Scalar c) ∧ r.Generates flags cs

theorem attains_zero (h : r.Generates flags []) : r.Attains flags 0 :=
  ⟨[], rfl, fun _ hc => absurd hc List.not_mem_nil, h⟩

/-- What generates the sequences of another expression attains its lengths. -/
theorem Attains.of_generates (h : l.Attains flags n)
    (hgen : ∀ cs, l.Generates flags cs → r.Generates flags cs) : r.Attains flags n := by
  obtain ⟨cs, hlength, hscalar, hcs⟩ := h
  exact ⟨cs, hlength, hscalar, hgen cs hcs⟩

/-- What generates the sequences of two expressions one behind the other attains the sums
of their lengths. -/
theorem Attains.add {t : Regex} (hl : l.Attains flags m) (hr : r.Attains flags n)
    (hgen : ∀ cs ds, l.Generates flags cs → r.Generates flags ds → t.Generates flags (cs ++ ds)) :
    t.Attains flags (m + n) := by
  obtain ⟨cs, rfl, hcs, hlgen⟩ := hl
  obtain ⟨ds, rfl, hds, hrgen⟩ := hr
  refine ⟨cs ++ ds, List.length_append, ?_, hgen cs ds hlgen hrgen⟩
  exact fun c hc => (List.mem_append.mp hc).elim (hcs c) (hds c)

theorem attains_symbol {s : SymbolSet} (h : s.TakesScalar flags) :
    Attains (.symbol s) flags 1 := by
  obtain ⟨c, hc, htakes⟩ := h.exists_takes
  refine ⟨[c], rfl, ?_, generates_symbol htakes⟩
  intro d hd
  rwa [List.mem_singleton.mp hd]

/-- A repetition attains every multiple of a length. -/
theorem Attains.star (h : r.Attains flags m) (k : Nat) : Attains (.star r) flags (k * m) := by
  induction k with
  | zero =>
      rw [Nat.zero_mul]
      exact attains_zero generates_star_nil
  | succ k ih =>
      rw [Nat.succ_mul, Nat.add_comm]
      exact h.add ih fun _ _ => .star

theorem Attains.plus (h : r.Attains flags m) (k : Nat) :
    Attains (.plus r) flags (m + k * m) :=
  h.add (h.star k) fun _ _ => .plus

/-- The least length is attained. -/
theorem attains_minLength (h : r.Productive flags) : r.Attains flags r.minLength := by
  induction r with
  | empty => exact attains_zero generates_empty
  | symbol s => exact attains_symbol h
  | anchor a => exact h.elim
  | concat l r ihl ihr => exact (ihl h.1).add (ihr h.2) fun _ _ => .concat
  | alternate l r ihl ihr =>
      show Attains _ flags (min l.minLength r.minLength)
      rcases Nat.le_total l.minLength r.minLength with hle | hle
      · rw [Nat.min_eq_left hle]
        exact (ihl h.1).of_generates fun _ => .left
      · rw [Nat.min_eq_right hle]
        exact (ihr h.2).of_generates fun _ => .right
  | star r => exact attains_zero generates_star_nil
  | plus r ih =>
      have hplus := (ih h).plus 0
      rwa [Nat.zero_mul] at hplus
  | optional r => exact attains_zero generates_optional_nil

/-- A bound on lengths is attained; where there is none, lengths from every number on
are. -/
def AttainsBound (r : Regex) (flags : Flags) : Option Nat → Prop
  | some n => r.Attains flags n
  | none => ∀ n, ∃ m, n ≤ m ∧ r.Attains flags m

theorem AttainsBound.of_generates {bound : Option Nat} (h : l.AttainsBound flags bound)
    (hgen : ∀ cs, l.Generates flags cs → r.Generates flags cs) : r.AttainsBound flags bound := by
  cases bound with
  | some n => exact Attains.of_generates h hgen
  | none =>
      intro n
      obtain ⟨m, hle, hm⟩ := h n
      exact ⟨m, hle, hm.of_generates hgen⟩

/-- Unless the bound is zero, some length that is not zero is attained. -/
theorem AttainsBound.exists_pos {bound : Option Nat} (h : r.AttainsBound flags bound)
    (hbound : bound ≠ some 0) : ∃ m, 0 < m ∧ r.Attains flags m := by
  cases bound with
  | none => exact h 1
  | some n =>
      have hn : n ≠ 0 := fun hn => hbound (congrArg some hn)
      exact ⟨n, Nat.pos_of_ne_zero hn, h⟩

/-- Rounds of a length that is not zero exceed every number. -/
theorem AttainsBound.repeated {t : Regex} {bound : Option Nat} (h : r.AttainsBound flags bound)
    (hzero : r.Attains flags 0 → t.Attains flags 0)
    (hrounds : ∀ m, r.Attains flags m → ∀ k, ∃ n, k * m ≤ n ∧ t.Attains flags n) :
    t.AttainsBound flags (repeatedLength? bound) := by
  unfold repeatedLength?
  split
  · exact hzero h
  · rename_i hbound
    intro k
    obtain ⟨m, hm, hattains⟩ := h.exists_pos hbound
    obtain ⟨n, hn, ht⟩ := hrounds m hattains k
    exact ⟨n, Nat.le_trans (Nat.le_mul_of_pos_right k hm) hn, ht⟩

/-- The greatest length is attained, or lengths from every number on are. -/
theorem attainsBound_maxLength (h : r.Productive flags) :
    r.AttainsBound flags r.maxLength? := by
  induction r with
  | empty => exact attains_zero generates_empty
  | symbol s => exact attains_symbol h
  | anchor a => exact h.elim
  | concat l r ihl ihr =>
      have hl := ihl h.1
      have hr := ihr h.2
      rw [maxLength?]
      cases hmax : l.maxLength? with
      | none =>
          rw [hmax] at hl
          intro n
          obtain ⟨m, hle, hm⟩ := hl n
          have hsum := hm.add (attains_minLength h.2) fun _ _ => .concat
          exact ⟨_, Nat.le_add_right_of_le hle, hsum⟩
      | some m =>
          rw [hmax] at hl
          cases hmax' : r.maxLength? with
          | none =>
              rw [hmax'] at hr
              intro n
              obtain ⟨m', hle, hm'⟩ := hr n
              have hsum := (attains_minLength h.1).add hm' fun _ _ => .concat
              exact ⟨_, Nat.le_add_left_of_le hle, hsum⟩
          | some n =>
              rw [hmax'] at hr
              exact Attains.add hl hr fun _ _ => .concat
  | alternate l r ihl ihr =>
      have hl := ihl h.1
      have hr := ihr h.2
      rw [maxLength?]
      cases hmax : l.maxLength? with
      | none =>
          rw [hmax] at hl
          exact hl.of_generates fun _ => .left
      | some m =>
          rw [hmax] at hl
          cases hmax' : r.maxLength? with
          | none =>
              rw [hmax'] at hr
              exact hr.of_generates fun _ => .right
          | some n =>
              rw [hmax'] at hr
              show Attains _ flags (max m n)
              rcases Nat.le_total m n with hle | hle
              · rw [Nat.max_eq_right hle]
                exact Attains.of_generates hr fun _ => .right
              · rw [Nat.max_eq_left hle]
                exact Attains.of_generates hl fun _ => .left
  | star r ih =>
      exact (ih h).repeated (fun _ => attains_zero generates_star_nil)
        fun m hm k => ⟨k * m, Nat.le_refl _, hm.star k⟩
  | plus r ih =>
      exact (ih h).repeated (fun hzero => by simpa using hzero.plus 0)
        fun m hm k => ⟨m + k * m, Nat.le_add_left _ _, hm.plus k⟩
  | optional r ih => exact (ih h).of_generates fun _ => .optional

/-- A length that is attained is that of a text which the expression spans. -/
theorem Attains.exists_text (h : r.Attains flags n) :
    ∃ x : Text, r.Spans flags x 0 x.length ∧ x.symbolCount = n := by
  obtain ⟨cs, rfl, hscalar, hgen⟩ := h
  have hsymbols : (Text.ofSymbols cs).symbolsFrom 0 = cs :=
    Text.symbols_ofSymbols (fun c hc => (hscalar c hc).1) (Symbol.apart_of_scalars hscalar)
  refine ⟨.ofSymbols cs, hgen _ _ _ (Text.stands_of_symbolsFrom (Nat.zero_le _) hsymbols), ?_⟩
  rw [Text.symbolCount_eq, hsymbols]

end Regex

/-! ## Accepted lengths -/

namespace Automaton

/-- **The bounds on the length of a match are sound, and exact where they can be.**  An
accepted text has no fewer symbols than the least length, and no more than the greatest
one if there is one.  If there is no anchor and every set takes a scalar, then both are
lengths of accepted texts; and if there is no greatest one, some accepted texts are
longer than any number. -/
theorem accepted_lengths (r : Regex) (flags : Flags) :
    (∀ x : Text, (ofRegex r flags).accepts x .unlimited = .ok true →
      r.minLength ≤ x.symbolCount ∧ ∀ n, r.maxLength? = some n → x.symbolCount ≤ n) ∧
    (r.Productive flags →
      (∃ x : Text, (ofRegex r flags).accepts x .unlimited = .ok true ∧
        x.symbolCount = r.minLength) ∧
      (∀ n, r.maxLength? = some n →
        ∃ x : Text, (ofRegex r flags).accepts x .unlimited = .ok true ∧ x.symbolCount = n) ∧
      (r.isUnbounded = true →
        ∀ n, ∃ x : Text, (ofRegex r flags).accepts x .unlimited = .ok true ∧
          n ≤ x.symbolCount)) := by
  have hattained : ∀ n, r.Attains flags n →
      ∃ x : Text, (ofRegex r flags).accepts x .unlimited = .ok true ∧ x.symbolCount = n := by
    intro n h
    obtain ⟨x, hspans, hcount⟩ := h.exists_text
    exact ⟨x, accepts_iff_spans.mpr hspans, hcount⟩
  constructor
  · intro x haccepts
    have hspans := accepts_iff_spans.mp haccepts
    have hend : x.symbolsFrom x.length = [] := Text.symbolsFrom_of_ge (Nat.le_refl _)
    rw [Text.symbolCount_eq]
    constructor
    · have hmin := hspans.minLength_le
      rwa [hend] at hmin
    · intro n hn
      have hmax := hspans.le_maxLength hn
      rwa [hend] at hmax
  · intro hr
    have hbound := Regex.attainsBound_maxLength hr
    refine ⟨hattained _ (Regex.attains_minLength hr), ?_, ?_⟩
    · intro n hn
      rw [hn] at hbound
      exact hattained n hbound
    · intro hunbounded n
      rw [Option.isNone_iff_eq_none.mp hunbounded] at hbound
      obtain ⟨m, hle, hm⟩ := hbound n
      obtain ⟨x, haccepts, rfl⟩ := hattained m hm
      exact ⟨x, haccepts, hle⟩

/-- The expression of `(|[^a])+b`. -/
def paddedLetter : Regex :=
  .concat (.plus (.alternate .empty (.symbol (.among ⟨true, #[⟨0x61, 0x61⟩]⟩)))) (.literal 0x62)

/-- Without regard to case, `(|[^a])+b` takes a text of one symbol and texts of any length;
`b?` takes a text of one symbol, which is as long as its texts are. -/
theorem paddedLetter_accepted_lengths :
    1 ≤ (Text.ofString "😀B").symbolCount ∧
    (∃ x : Text, (ofRegex paddedLetter ⟨true, false⟩).accepts x .unlimited = .ok true ∧
      x.symbolCount = 1) ∧
    (∀ n, ∃ x : Text, (ofRegex paddedLetter ⟨true, false⟩).accepts x .unlimited = .ok true ∧
      n ≤ x.symbolCount) ∧
    ∃ x : Text, (ofRegex (.optional (.literal 0x62)) ⟨true, false⟩).accepts x .unlimited =
      .ok true ∧ x.symbolCount = 1 := by
  have haccepts : (ofRegex paddedLetter ⟨true, false⟩).accepts (.ofString "😀B") .unlimited =
      .ok true := by
    decide +kernel
  have hliteral : Symbol.Scalar 0x62 := by decide
  have hclass : (SymbolSet.among ⟨true, #[⟨0x61, 0x61⟩]⟩).TakesScalar ⟨true, false⟩ :=
    ⟨0x62, hliteral, by decide +kernel⟩
  obtain ⟨hsound, hexact⟩ := accepted_lengths paddedLetter ⟨true, false⟩
  obtain ⟨hleast, _, hlong⟩ := hexact ⟨⟨trivial, hclass⟩, hliteral⟩
  obtain ⟨_, hoptional⟩ := accepted_lengths (.optional (.literal 0x62)) ⟨true, false⟩
  obtain ⟨_, hgreatest, _⟩ := hoptional hliteral
  exact ⟨(hsound _ haccepts).1, hleast, hlong rfl, hgreatest 1 rfl⟩

end Automaton

end RegexEngine
