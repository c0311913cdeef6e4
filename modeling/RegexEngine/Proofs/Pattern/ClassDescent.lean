/-
# Glyphs under a cursor

The library cuts the whole source into glyphs before it reads a class; `Descent` reads
the class symbol by symbol.  The two are compared at an offset: the glyphs that are left
there are `Glyph.scanFrom`, the first of them is the one that lies under the cursor
(`Glyph.Under`), and a reader with a cursor *delivers* what becomes of the glyphs
(`Delivers`), which says in particular that it does not trap.

One item of a class is one round of both readers (`delivers_readItem`).  Each item moves
the cursor on, so the loop over the items never stalls.
-/
import RegexEngine.Proofs.Pattern.Class
import RegexEngine.Proofs.Pattern.Descent

namespace RegexEngine

variable {source : Text} {p q c s : Nat}

/-! ## Glyphs -/

namespace Glyph

/-- The glyphs from an offset on. -/
def scanFrom (source : Text) (p : Nat) : List (Placed Glyph) := scan p (source.symbolsFrom p)

/-- The glyph under the cursor, and the offset behind it. -/
inductive Under (source : Text) (p : Nat) : Glyph → Nat → Prop
  | plain {c q : Nat} : source.Reads p c q → c ≠ '\\'.toNat → Under source p (.plain c) q
  | escaped {c q : Nat} : source.Reads p '\\'.toNat (p + 1) → source.Reads (p + 1) c q →
      Under source p (.escaped c) q
  | lone : source.Reads p '\\'.toNat (p + 1) → source.length ≤ p + 1 →
      Under source p .loneBackslash (p + 1)

variable {g : Glyph}

theorem exists_under (inside : p < source.length) : ∃ g q, Under source p g q := by
  have hread := Text.reads_symbolAt inside
  by_cases hc : source.symbolAt p inside = '\\'.toNat
  · rw [hc] at hread
    rcases Nat.lt_or_ge (p + 1) source.length with hlt | hend
    · exact ⟨_, _, .escaped hread (Text.reads_symbolAt hlt)⟩
    · exact ⟨_, _, .lone hread hend⟩
  · exact ⟨_, _, .plain hread hc⟩

theorem Under.lt (h : Under source p g q) : p < q := by
  cases h with
  | plain hread _ => exact hread.lt
  | escaped hread hread' => exact Nat.lt_trans hread.lt hread'.lt
  | lone hread _ => exact hread.lt

theorem Under.le_length (h : Under source p g q) : q ≤ source.length := by
  cases h with
  | plain hread _ => exact hread.le_length
  | escaped _ hread => exact hread.le_length
  | lone hread _ => exact hread.le_length

theorem Under.stop_eq (h : Under source p g q) : (Placed.mk p g).stop = q := by
  cases h with
  | plain hread _ => exact hread.stop_eq.symm
  | escaped _ hread =>
      rw [hread.stop_eq, Nat.add_assoc]
      rfl
  | lone _ _ => rfl

/-- The glyphs from an offset on begin with the one under the cursor. -/
theorem Under.scanFrom_eq (h : Under source p g q) :
    scanFrom source p = ⟨p, g⟩ :: scanFrom source q := by
  have hstop : p + g.width = q := h.stop_eq
  unfold scanFrom
  rw [← hstop]
  cases h with
  | @plain c q hread hc =>
      have hbegins : Begins (source.symbolsFrom p) (.plain c) (source.symbolsFrom q) :=
        hread.symbolsFrom.symm ▸ .plain hc
      rw [hbegins.scan_eq, hstop]
  | @escaped c q hread hread' =>
      have hbegins : Begins (source.symbolsFrom p) (.escaped c) (source.symbolsFrom q) := by
        rw [hread.symbolsFrom, hread'.symbolsFrom]
        exact .escaped
      rw [hbegins.scan_eq, hstop]
  | lone hread hend =>
      have hnil := Text.symbolsFrom_of_ge hend
      have hbegins : Begins (source.symbolsFrom p) .loneBackslash [] := by
        rw [hread.symbolsFrom, hnil]
        exact .lone
      rw [hbegins.scan_eq, hstop, hnil]

theorem scanFrom_of_ge (h : source.length ≤ p) : scanFrom source p = [] := by
  rw [scanFrom, Text.symbolsFrom_of_ge h, scan]

/-- A sign under the cursor is the glyph there. -/
theorem Under.eq_plain_iff (h : Under source p g q) (hs : s < 0xD800) (hescape : s ≠ '\\'.toNat) :
    g = .plain s ↔ source.unitAt? p = some s := by
  rw [Text.unitAt?_eq_some_iff hs]
  cases h with
  | plain hread _ =>
      rw [Glyph.plain.injEq]
      constructor
      · intro heq
        have hwidth : Symbol.width s = 1 := if_neg (by omega)
        have hstop := hread.stop_eq
        rw [heq, hwidth] at hstop
        rwa [hstop, heq] at hread
      · intro h
        exact (hread.unique h).1
  | escaped hread _ | lone hread _ =>
      constructor
      · nofun
      · intro h
        exact absurd (hread.unique h).1.symm hescape

/-- A sign under the cursor is one glyph of one unit. -/
theorem under_plain (hs : s < 0xD800) (hescape : s ≠ '\\'.toNat)
    (hunit : source.unitAt? p = some s) : Under source p (.plain s) (p + 1) :=
  .plain ((Text.unitAt?_eq_some_iff hs).mp hunit) hescape

end Glyph

open Glyph (Under scanFrom)

/-! ## Readers -/

/-- A reader does not trap.  It throws the error that is the outcome, or it reads what is
due. -/
inductive Delivers {α β : Type} (outcome : Except SyntaxError β) (due : α → Nat → Prop) :
    Except Thrown (α × Nat) → Prop
  | fault {e : SyntaxError} : outcome = .error e → Delivers outcome due (.error (.fault e))
  | read {a : α} {q : Nat} : due a q → Delivers outcome due (.ok (a, q))

namespace Delivers

variable {α β γ : Type} {outcome outcome' : Except SyntaxError β} {due due' : α → Nat → Prop}
  {owed : γ → Nat → Prop} {reader : Except Thrown (α × Nat)}

theorem of_ok {a : α} (h : Delivers outcome due reader) (hread : reader = .ok (a, q)) :
    due a q := by
  cases h with
  | fault _ => cases hread
  | read hdue =>
      cases hread
      exact hdue

/-- What a reader throws, a reader throws that calls it. -/
theorem of_error {e : Thrown} (h : Delivers outcome due reader) (he : reader = .error e) :
    Delivers outcome owed (.error e) := by
  cases h with
  | fault hfault =>
      cases he
      exact .fault hfault
  | read _ => cases he

/-- A reader that delivers the outcome later delivers it now, if the outcome stays. -/
theorem later (h : Delivers outcome' due reader) (heq : outcome = outcome')
    (hdue : ∀ a q, due a q → due' a q) : Delivers outcome due' reader := by
  cases h with
  | fault hfault => exact .fault (heq.trans hfault)
  | read hread => exact .read (hdue _ _ hread)

end Delivers

namespace Descent

open Pattern (rangeBetween readMembers)

/-! ## Symbols and escapes -/

theorem readSymbol_eq (h : source.Reads p c q) : readSymbol source p = .ok (c, q) := by
  rw [readSymbol, h.readAt, h.stop_eq]

theorem controlEscape?_of_ge (h : 0x80 ≤ c) : controlEscape? c = none := by
  unfold controlEscape?
  repeat rw [if_neg (by rintro rfl; revert h; decide)]

theorem shorthand?_of_ge (h : 0x80 ≤ c) : SymbolClass.shorthand? c = none := by
  unfold SymbolClass.shorthand?
  repeat rw [if_neg (by rintro rfl; revert h; decide)]

/-- The letter that is looked up is the unit, and the meaning is that of the symbol. -/
theorem readEscape_eq (h : source.Reads (p + 1) c q) :
    readEscape source p = .ok (Escape.ofSymbol c, q) := by
  have hlt := h.lt
  have hle := h.le_length
  rw [readEscape, if_neg (by omega), Escape.ofSymbol, readSymbol_eq h]
  obtain ⟨u, hu, hcases⟩ := h.exists_unit
  rw [hu, Option.bind_some, Option.bind_some]
  rcases hcases with ⟨rfl, rfl⟩ | ⟨hhigh, hpair⟩
  · cases controlEscape? u with
    | some control => rfl
    | none => cases SymbolClass.shorthand? u <;> rfl
  · rw [controlEscape?_of_ge (by omega), controlEscape?_of_ge (by omega),
      shorthand?_of_ge (by omega), shorthand?_of_ge (by omega)]

theorem readEscape_lone (h : source.length ≤ p + 1) :
    readEscape source p = .error (.fault (.ofUnit .trailingEscape p)) := if_pos h

/-! ## Classes -/

/-- A member of a class is the glyph under the cursor. -/
theorem readMember_eq {g : Glyph} (h : Under source p g q) :
    readMember source p = match ClassMember.ofGlyph ⟨p, g⟩ with
      | .error e => .error (.fault e)
      | .ok m => .ok (m, q) := by
  have hstop : p + g.width = q := h.stop_eq
  unfold readMember
  cases h with
  | plain hread hc =>
      have hunit : source.unitAt? p ≠ some '\\'.toNat := by
        rw [ne_eq, Text.unitAt?_eq_some_iff (by decide)]
        exact fun hread' => hc (hread.unique hread').1
      rw [if_neg hunit, readSymbol_eq hread]
      rfl
  | @escaped c q hread hread' =>
      rw [if_pos (hread.unitAt? (by decide)), readEscape_eq hread']
      have hwidth : q - p = (Glyph.escaped c).width := by omega
      simp only [ClassMember.ofGlyph]
      cases Escape.ofSymbol c with
      | symbol meant => rfl
      | shorthand k =>
          dsimp only
          rw [hwidth]
          split <;> rfl
  | lone hread hend =>
      rw [if_pos (hread.unitAt? (by decide)), readEscape_lone hend]
      rfl

/-- A hyphen under the cursor joins exactly if the first two glyphs say so. -/
theorem joinsAt_iff : joinsAt source q = true ↔ ∃ high stop,
    source.unitAt? q = some '-'.toNat ∧ Under source (q + 1) high stop ∧
      high ≠ .plain ']'.toNat := by
  simp only [joinsAt, Bool.and_eq_true, beq_iff_eq, bne_iff_ne, decide_eq_true_eq]
  constructor
  · rintro ⟨⟨hhyphen, inside⟩, hbracket⟩
    obtain ⟨high, stop, hhigh⟩ := Glyph.exists_under inside
    exact ⟨high, stop, hhyphen, hhigh,
      mt (hhigh.eq_plain_iff (by decide) (by decide)).mp hbracket⟩
  · rintro ⟨high, stop, hhyphen, hhigh, hbracket⟩
    have := hhigh.lt
    have := hhigh.le_length
    exact ⟨⟨hhyphen, by omega⟩, mt (hhigh.eq_plain_iff (by decide) (by decide)).mpr hbracket⟩

/-- A hyphen that joins is one glyph, and what it joins to the next. -/
theorem joinsAt_of_scanFrom {hyphen high : Placed Glyph} {behind : List (Placed Glyph)}
    (hscan : scanFrom source q = hyphen :: high :: behind) (h : Pattern.Joins hyphen high) :
    joinsAt source q = true := by
  obtain ⟨hhyphen, hbracket⟩ := Pattern.joins_iff.mp h
  rcases Nat.lt_or_ge q source.length with inside | hend
  · obtain ⟨g, mid, hg⟩ := Glyph.exists_under inside
    rw [hg.scanFrom_eq] at hscan
    obtain ⟨rfl, hrest⟩ := List.cons.inj hscan
    obtain rfl : g = .plain '-'.toNat := hhyphen
    have hunit := (hg.eq_plain_iff (by decide) (by decide)).mp rfl
    have hmid : mid = q + 1 := hg.stop_eq.symm
    rw [hmid] at hrest
    rcases Nat.lt_or_ge (q + 1) source.length with inside' | hend
    · obtain ⟨g', stop, hg'⟩ := Glyph.exists_under inside'
      rw [hg'.scanFrom_eq] at hrest
      obtain ⟨rfl, _⟩ := List.cons.inj hrest
      exact joinsAt_iff.mpr ⟨g', stop, hunit, hg', hbracket⟩
    · rw [Glyph.scanFrom_of_ge hend] at hrest
      cases hrest
  · rw [Glyph.scanFrom_of_ge hend] at hscan
    cases hscan

/-- The end of a range is the glyph under the cursor. -/
theorem readRangeEnd_eq {g high : Glyph} {start low : Nat} (h : Under source p high q) :
    readRangeEnd source start low p = match rangeBetween source ⟨start, g⟩ ⟨p, high⟩ low with
      | .error e => .error (.fault e)
      | .ok r => .ok (r, q) := by
  rw [readRangeEnd, rangeBetween, readMember_eq h, h.stop_eq]
  cases ClassMember.ofGlyph ⟨p, high⟩ with
  | error e => rfl
  | ok m =>
      cases m with
      | shorthand ranges => rfl
      | symbol c =>
          dsimp only
          split <;> rfl

section Items

variable (opened : Nat) (ranges : Array SymbolRange) {first : Bool}

/-- An item of a class is what the reader of glyphs reads in one round. -/
theorem delivers_readItem (inside : p < source.length)
    (hopen : ¬ (source.unitAt? p = some ']'.toNat ∧ first = false)) :
    Delivers (readMembers source opened ranges first (scanFrom source p))
      (fun more q => p < q ∧ q ≤ source.length ∧
        readMembers source opened ranges first (scanFrom source p) =
          readMembers source opened (ranges ++ more) false (scanFrom source q))
      (readItem source p) := by
  obtain ⟨g, q, hg⟩ := Glyph.exists_under inside
  have hopen' : first = true ∨ g ≠ .plain ']'.toNat := by
    cases first with
    | true => exact .inl rfl
    | false =>
        refine .inr fun heq => ?_
        exact hopen ⟨(hg.eq_plain_iff (by decide) (by decide)).mp heq, rfl⟩
  rw [readItem, readMember_eq hg, hg.scanFrom_eq]
  cases hm : ClassMember.ofGlyph ⟨p, g⟩ with
  | error e => exact .fault (Pattern.readMembers_fault hopen' hm)
  | ok m =>
      cases m with
      | shorthand more =>
          exact .read ⟨hg.lt, hg.le_length, Pattern.readMembers_shorthand hopen' hm⟩
      | symbol low =>
          dsimp only
          by_cases hjoins : joinsAt source q = true
          · obtain ⟨high, stop, hhyphen, hhigh, hbracket⟩ := joinsAt_iff.mp hjoins
            have hunder := Glyph.under_plain (by decide) (by decide) hhyphen
            have hboth : Pattern.Joins ⟨q, .plain '-'.toNat⟩ ⟨q + 1, high⟩ :=
              Pattern.joins_iff.mpr ⟨rfl, hbracket⟩
            rw [if_pos hjoins, readRangeEnd_eq hhigh, hunder.scanFrom_eq, hhigh.scanFrom_eq]
            cases hr : rangeBetween source ⟨p, g⟩ ⟨q + 1, high⟩ low with
            | error e => exact .fault (Pattern.readMembers_rangeFault hopen' hm hboth hr)
            | ok r =>
                have hlt := Nat.lt_trans hg.lt (Nat.lt_of_succ_lt hhigh.lt)
                refine .read ⟨hlt, hhigh.le_length, ?_⟩
                rw [Pattern.readMembers_range hopen' hm hboth hr, Array.push_eq_append]
          · rw [if_neg hjoins]
            refine .read ⟨hg.lt, hg.le_length, ?_⟩
            rw [Pattern.readMembers_single hopen' hm, Array.push_eq_append]
            intro hyphen high behind hscan hboth
            exact hjoins (joinsAt_of_scanFrom hscan hboth)

/-- What is listed up to the bracket that closes the class. -/
theorem delivers_readItems (first : Bool) (p : Nat) :
    Delivers (readMembers source opened ranges first (scanFrom source p))
      (fun result q => p < q ∧ q ≤ source.length ∧
        readMembers source opened ranges first (scanFrom source p) =
          .ok (result, scanFrom source q))
      (readItems source opened ranges first p) := by
  fun_induction readItems source opened ranges first p with
  | case1 ranges first p inside hclose =>
      obtain ⟨hunit, rfl⟩ := hclose
      have hunder := Glyph.under_plain (by decide) (by decide) hunit
      refine .read ⟨hunder.lt, hunder.le_length, ?_⟩
      rw [hunder.scanFrom_eq, Pattern.readMembers_close rfl]
  | case2 ranges first p inside hopen e he =>
      exact (delivers_readItem opened ranges inside hopen).of_error he
  | case3 ranges first p inside hopen more q hread hlt ih =>
      obtain ⟨_, _, heq⟩ := (delivers_readItem opened ranges inside hopen).of_ok hread
      refine ih.later heq fun result stop hrest => ?_
      exact ⟨Nat.lt_trans hlt hrest.1, hrest.2.1, heq.trans hrest.2.2⟩
  | case4 ranges first p inside hopen more q hread hstalled =>
      exact absurd ((delivers_readItem opened ranges inside hopen).of_ok hread).1 hstalled
  | case5 ranges first p outside =>
      refine .fault ?_
      rw [Glyph.scanFrom_of_ge (Nat.le_of_not_lt outside), readMembers]

end Items

/-- A class is read from behind its bracket. -/
theorem delivers_readClass (source : Text) (p : Nat) :
    Delivers (Pattern.readClass source p (scanFrom source (p + 1)))
      (fun k q => p < q ∧ q ≤ source.length ∧
        Pattern.readClass source p (scanFrom source (p + 1)) = .ok (k, scanFrom source q))
      (readClass source p) := by
  have hnegated : (scanFrom source (p + 1)).head?.any (·.item == .plain '^'.toNat) =
      (source.unitAt? (p + 1) == some '^'.toNat) := by
    rcases Nat.lt_or_ge (p + 1) source.length with inside | hend
    · obtain ⟨g, q, hg⟩ := Glyph.exists_under inside
      rw [hg.scanFrom_eq, List.head?_cons, Option.any_some, Bool.eq_iff_iff, beq_iff_eq, beq_iff_eq]
      exact hg.eq_plain_iff (by decide) (by decide)
    · rw [Glyph.scanFrom_of_ge hend, Text.unitAt?_eq_none_iff.mpr hend]
      rfl
  have hmembers : (if source.unitAt? (p + 1) == some '^'.toNat then (scanFrom source (p + 1)).tail
      else scanFrom source (p + 1)) = scanFrom source
        (if source.unitAt? (p + 1) == some '^'.toNat then p + 2 else p + 1) := by
    split
    · rename_i hcaret
      have hunder := Glyph.under_plain (by decide) (by decide) (beq_iff_eq.mp hcaret)
      rw [hunder.scanFrom_eq, List.tail_cons]
    · rfl
  unfold readClass Pattern.readClass
  dsimp only
  rw [hnegated, hmembers]
  have hitems : Delivers _ _ (readItems source p #[] true
      (if source.unitAt? (p + 1) == some '^'.toNat then p + 2 else p + 1)) :=
    delivers_readItems p #[] true _
  generalize readItems source p #[] true _ = result at hitems
  cases hitems with
  | fault hfault =>
      refine .fault ?_
      rw [hfault]
  | read hdue =>
      obtain ⟨hlt, hle, heq⟩ := hdue
      refine .read ⟨?_, hle, ?_⟩
      · split at hlt <;> omega
      · rw [heq]

end Descent

end RegexEngine
