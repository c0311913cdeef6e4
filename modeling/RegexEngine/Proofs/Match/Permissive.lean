/-
# Flags only add matches

A flag can be seen in two places only: in the symbols that a set takes, and in the
positions where an anchor holds.  What an expression spans depends on them monotonically,
as nothing in an expression asks that something does not match (`Spans.widen`).  So a flag
under which sets take more and anchors hold more often adds matches and takes none away.

* In multiline mode, anchors hold next to line feeds in addition.
* Without regard to case, a single symbol still takes itself, and a class still takes its
  members, as each symbol is one of its own variants.

A negated class is the exception.  It turns down a symbol on account of any of its
variants, so without regard to case it takes less: `[^a]` no longer takes `A`.
-/
import RegexEngine.Proofs.Match.Meaning
import RegexEngine.Proofs.Regex.Attainment

namespace RegexEngine

/-- The set is no negated class. -/
def SymbolSet.Positive : SymbolSet → Prop
  | .among k => k.negated = false
  | _ => True

instance : DecidablePred SymbolSet.Positive
  | .single _ | .any => inferInstanceAs (Decidable True)
  | .among k => inferInstanceAs (Decidable (k.negated = false))

/-- There is no negated class in the expression. -/
def Regex.Positive (r : Regex) : Prop := ∀ s ∈ r.sets, s.Positive

instance (r : Regex) : Decidable r.Positive :=
  inferInstanceAs (Decidable (∀ s ∈ r.sets, s.Positive))

/-- The second automaton matches the text if the first one does, as a whole or in part. -/
structure Automaton.Widens (a b : Automaton) (x : Text) : Prop where
  accepts : a.accepts x .unlimited = .ok true → b.accepts x .unlimited = .ok true
  test : a.test x .unlimited = .ok true → b.test x .unlimited = .ok true

variable {flags flags' : Flags} {x : Text} {r : Regex} {i j : Nat}

/-! ## From symbols and anchors to expressions -/

/-- Where sets take more and anchors hold more often, an expression spans more. -/
theorem Regex.Spans.widen (hset : ∀ s ∈ r.sets, ∀ c, s.Takes flags c → s.Takes flags' c)
    (hanchor : ∀ (a : Anchor) i, a.holds x i flags = true → a.holds x i flags' = true)
    (h : r.Spans flags x i j) : r.Spans flags' x i j := by
  induction r generalizing i j with
  | empty => exact h
  | symbol s =>
      obtain ⟨c, hread, htakes⟩ := h
      exact ⟨c, hread, hset s List.mem_cons_self c htakes⟩
  | anchor a => exact ⟨h.1, hanchor a i h.2⟩
  | concat l r ihl ihr =>
      obtain ⟨k, hl, hr⟩ := h
      exact ⟨k, ihl (fun s hs => hset s (List.mem_append_left _ hs)) hl,
        ihr (fun s hs => hset s (List.mem_append_right _ hs)) hr⟩
  | alternate l r ihl ihr =>
      rcases h with hl | hr
      · exact Or.inl (ihl (fun s hs => hset s (List.mem_append_left _ hs)) hl)
      · exact Or.inr (ihr (fun s hs => hset s (List.mem_append_right _ hs)) hr)
  | star r ih => exact Relation.ReflTransGen.mono (fun _ _ => ih hset) _ _ h
  | plus r ih => exact Relation.TransGen.mono (fun _ _ => ih hset) _ _ h
  | optional r ih => exact Relation.ReflGen.mono (fun _ _ => ih hset) _ _ h

/-- What an expression spans decides both calls. -/
theorem Automaton.widens_ofRegex (h : ∀ i j, r.Spans flags x i j → r.Spans flags' x i j) :
    (ofRegex r flags).Widens (ofRegex r flags') x where
  accepts haccepts := accepts_iff_spans.mpr (h _ _ (accepts_iff_spans.mp haccepts))
  test htest := by
    obtain ⟨i, j, hi, hspans⟩ := test_ofRegex_iff.mp htest
    exact test_ofRegex_iff.mpr ⟨i, j, hi, h i j hspans⟩

/-! ## The two flags -/

/-- In multiline mode, an anchor holds where it holds otherwise. -/
theorem Anchor.holds_multiline (a : Anchor) (caseInsensitive : Bool)
    (h : a.holds x i ⟨caseInsensitive, false⟩ = true) :
    a.holds x i ⟨caseInsensitive, true⟩ = true := by
  cases a with
  | start =>
      have hzero : (i == 0) = true := (Bool.or_false _).symm.trans h
      exact Bool.or_eq_true_iff.mpr (Or.inl hzero)
  | stop =>
      have hend : (i == x.length) = true := (Bool.or_false _).symm.trans h
      exact Bool.or_eq_true_iff.mpr (Or.inl hend)

/-- Without regard to case, a set that is no negated class takes what it takes otherwise. -/
theorem SymbolSet.Positive.takes_caseInsensitive {s : SymbolSet} {c : Nat} (hs : s.Positive)
    (multiline : Bool) (h : s.Takes ⟨false, multiline⟩ c) : s.Takes ⟨true, multiline⟩ c := by
  cases s with
  | single d =>
      obtain rfl : c = d := h
      exact takes_single_self _ c
  | any => trivial
  | among k =>
      have hnegated : ¬ k.negated = true := Bool.eq_false_iff.mp hs
      rw [Takes, if_neg hnegated] at h ⊢
      obtain ⟨v, hv, hholds⟩ := h
      obtain rfl : v = c := List.mem_singleton.mp hv
      exact ⟨v, Unicode.mem_caseVariants_self v, hholds⟩

/-- The multiline flag adds matches to every expression, and disregarding case adds
matches to an expression without negated classes, whatever the other flag is. -/
theorem Automaton.flags_only_add (r : Regex) (x : Text) :
    (∀ caseInsensitive, (ofRegex r ⟨caseInsensitive, false⟩).Widens
        (ofRegex r ⟨caseInsensitive, true⟩) x) ∧
      (r.Positive → ∀ multiline, (ofRegex r ⟨false, multiline⟩).Widens
        (ofRegex r ⟨true, multiline⟩) x) := by
  constructor
  · intro caseInsensitive
    refine widens_ofRegex fun i j => Regex.Spans.widen ?_ ?_
    · exact fun s _ c htakes => htakes
    · exact fun a i => a.holds_multiline caseInsensitive
  · intro hpositive multiline
    refine widens_ofRegex fun i j => Regex.Spans.widen ?_ ?_
    · exact fun s hs c => (hpositive s hs).takes_caseInsensitive multiline
    · exact fun a i hholds => hholds

/-- The expression of `^(K[ſ-ƀ])+$` with the Kelvin sign, which is kept as a small `k`
where case is disregarded, and with a long s in the class. -/
def kelvinLine : Regex :=
  .concat (.concat (.anchor .start)
    (.plus (.concat (.literal 0x212A) (.symbol (.among ⟨false, #[⟨0x17F, 0x180⟩]⟩)))))
    (.anchor .stop)

/-- A Kelvin sign and a long s, twice. -/
def kelvinText : Text := .ofString "\u212Aſ\u212Aſ"

theorem kelvinLine_flags_only_add :
    kelvinLine.Positive ∧
      (Automaton.ofRegex kelvinLine ⟨false, false⟩).accepts kelvinText .unlimited = .ok true ∧
      (Automaton.ofRegex kelvinLine ⟨false, true⟩).accepts kelvinText .unlimited = .ok true ∧
      (Automaton.ofRegex kelvinLine ⟨true, false⟩).accepts kelvinText .unlimited = .ok true ∧
      (Automaton.ofRegex kelvinLine ⟨true, true⟩).test kelvinText .unlimited = .ok true := by
  have hpositive : kelvinLine.Positive := by decide
  have haccepts : (Automaton.ofRegex kelvinLine ⟨false, false⟩).accepts kelvinText .unlimited =
      .ok true := by decide +kernel
  have htest : (Automaton.ofRegex kelvinLine ⟨false, false⟩).test kelvinText .unlimited =
      .ok true := by decide +kernel
  obtain ⟨hmultiline, hcaseless⟩ := Automaton.flags_only_add kelvinLine kelvinText
  exact ⟨hpositive, haccepts, (hmultiline false).accepts haccepts,
    (hcaseless hpositive false).accepts haccepts,
    (hcaseless hpositive true).test ((hmultiline false).test htest)⟩

-- A negated class loses a match: `[^a]` takes `A` only as long as case is regarded.
example : (Automaton.ofRegex (.symbol (.among ⟨true, #[⟨'a'.toNat, 'a'.toNat⟩]⟩)) {}).accepts
      (.ofString "A") .unlimited = .ok true ∧
    (Automaton.ofRegex (.symbol (.among ⟨true, #[⟨'a'.toNat, 'a'.toNat⟩]⟩)) ⟨true, false⟩).accepts
      (.ofString "A") .unlimited = .ok false := by
  decide +kernel

end RegexEngine
