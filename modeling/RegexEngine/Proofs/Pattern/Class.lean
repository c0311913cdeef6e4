/-
# Reading a class

Glyphs carry positions, which matter for errors only.  Here the reading of glyphs and
of classes is related to the symbols that it reads and nothing else: `Glyph.Begins`
says how a sequence of symbols begins with a glyph.

The reader of a class looks two glyphs ahead, past the end of the class if need be.
That it never needs to is what `Members.opensRange_append` says: the grammar looks at
the class alone and comes to the same answer.  So a class is read to its end whatever
stands behind it (`ClassBody.readClass`), and what is read as a class is one
(`classBody_of_readClass`).
-/
import Mathlib.Data.List.Basic
import RegexEngine.Proofs.Pattern.Grammar

namespace RegexEngine

variable {pos opened : Nat} {source : Text} {cs ds rest w : List Nat}

/-! ## Glyphs -/

namespace Glyph

/-- The symbols begin with a glyph and go on with the rest. -/
inductive Begins : List Nat → Glyph → List Nat → Prop
  | plain {c : Nat} {rest : List Nat} : c ≠ '\\'.toNat → Begins (c :: rest) (.plain c) rest
  | escaped {c : Nat} {rest : List Nat} : Begins ('\\'.toNat :: c :: rest) (.escaped c) rest
  | lone : Begins ['\\'.toNat] .loneBackslash []

theorem Begins.scan_eq {g : Glyph} (h : Begins cs g rest) (pos : Nat) :
    scan pos cs = ⟨pos, g⟩ :: scan (pos + g.width) rest := by
  cases h with
  | plain hc =>
      rw [scan.eq_def]
      exact if_neg hc
  | escaped => rfl
  | lone => rfl

theorem exists_begins (c : Nat) (cs : List Nat) : ∃ g rest, Begins (c :: cs) g rest := by
  by_cases hc : c = '\\'.toNat
  · subst hc
    cases cs with
    | nil => exact ⟨_, _, .lone⟩
    | cons d rest => exact ⟨_, _, .escaped⟩
  · exact ⟨_, _, .plain hc⟩

/-- What the first glyph of a reading says about the symbols. -/
theorem begins_of_scan {g : Placed Glyph} {glyphs : List (Placed Glyph)}
    (h : scan pos cs = g :: glyphs) :
    ∃ rest, Begins cs g.item rest ∧ glyphs = scan (pos + g.item.width) rest := by
  cases cs with
  | nil => cases h
  | cons c cs =>
      obtain ⟨item, rest, hbegins⟩ := exists_begins c cs
      rw [hbegins.scan_eq] at h
      cases h
      exact ⟨rest, hbegins, rfl⟩

theorem Begins.cons_of_plain {c : Nat} (h : Begins cs (.plain c) rest) : cs = c :: rest := by
  cases h
  rfl

/-- An ordinary symbol in front is a glyph. -/
theorem Begins.eq_plain {c : Nat} {g : Glyph} (hc : c ≠ '\\'.toNat)
    (h : Begins (c :: cs) g rest) : g = .plain c ∧ cs = rest := by
  cases h with
  | plain _ => exact ⟨rfl, rfl⟩
  | escaped => exact absurd rfl hc
  | lone => exact absurd rfl hc

end Glyph

open Glyph (Begins)

namespace Pattern

/-! ## Members of a class -/

theorem Member.ofGlyph {m : ClassMember} (h : Member w m) :
    ∃ g : Glyph, (∀ rest, Begins (w ++ rest) g rest) ∧
      (∀ pos, ClassMember.ofGlyph ⟨pos, g⟩ = .ok m) ∧
      (g = .plain ']'.toNat ↔ w = [']'.toNat]) := by
  cases h with
  | @plain c hc => exact ⟨.plain c, fun _ => .plain hc, fun _ => rfl, by simp⟩
  | @escape c d hmeans =>
      refine ⟨.escaped c, fun _ => .escaped, fun _ => ?_, by simp⟩
      simp only [ClassMember.ofGlyph, Escape.means_iff.mp hmeans]
  | @shorthand c ranges hmeans =>
      refine ⟨.escaped c, fun _ => .escaped, fun _ => ?_, by simp⟩
      simp only [ClassMember.ofGlyph, Escape.means_iff.mp hmeans]
      rfl

theorem member_of_ofGlyph {g : Placed Glyph} {m : ClassMember} (hg : Begins cs g.item rest)
    (h : ClassMember.ofGlyph g = .ok m) :
    ∃ w, cs = w ++ rest ∧ Member w m ∧ (w = [']'.toNat] → g.item = .plain ']'.toNat) := by
  obtain ⟨position, item⟩ := g
  cases hg with
  | @plain c _ hc =>
      cases h
      exact ⟨[c], rfl, .plain hc, by simp⟩
  | @escaped c _ =>
      refine ⟨['\\'.toNat, c], rfl, ?_, by simp⟩
      simp only [ClassMember.ofGlyph] at h
      cases hmeans : Escape.ofSymbol c with
      | symbol d =>
          rw [hmeans] at h
          cases h
          exact .escape (Escape.means_iff.mpr hmeans)
      | shorthand k =>
          obtain ⟨negated, ranges⟩ := k
          rw [hmeans] at h
          cases negated with
          | true => cases h
          | false =>
              cases h
              exact .shorthand (Escape.means_iff.mpr hmeans)
  | lone => cases h

theorem rangeBetween_eq_ok {low high : Placed Glyph} {c : Nat} {r : SymbolRange} :
    rangeBetween source low high c = .ok r ↔
      ∃ d, ClassMember.ofGlyph high = .ok (.symbol d) ∧ c ≤ d ∧ r = ⟨c, d⟩ := by
  unfold rangeBetween
  cases ClassMember.ofGlyph high with
  | error e => simp
  | ok m =>
      cases m with
      | shorthand ranges => simp
      | symbol d =>
          dsimp only
          split
          · rename_i hlt
            simp [Nat.not_le.mpr hlt]
          · rename_i hge
            simp [Nat.not_lt.mp hge, eq_comm]

/-! ## Looking ahead -/

/-- A hyphen that joins, and what it joins to, as the reader sees them. -/
def Joins (hyphen high : Placed Glyph) : Prop :=
  (hyphen.item == .plain '-'.toNat && high.item != .plain ']'.toNat) = true

theorem joins_iff {hyphen high : Placed Glyph} :
    Joins hyphen high ↔ hyphen.item = .plain '-'.toNat ∧ high.item ≠ .plain ']'.toNat := by
  simp [Joins]

theorem opensRange_iff : OpensRange cs ↔ ∃ hyphen high behind,
    Glyph.scan pos cs = hyphen :: high :: behind ∧ Joins hyphen high := by
  constructor
  · rintro ⟨c, rest, rfl, hc⟩
    have hhyphen : Begins ('-'.toNat :: c :: rest) (.plain '-'.toNat) (c :: rest) :=
      .plain (by decide)
    obtain ⟨g, behind, hg⟩ := Glyph.exists_begins c rest
    rw [hhyphen.scan_eq, hg.scan_eq]
    refine ⟨_, _, _, rfl, joins_iff.mpr ⟨rfl, ?_⟩⟩
    rintro rfl
    exact hc (List.cons.inj hg.cons_of_plain).1
  · rintro ⟨hyphen, high, behind, hscan, hjoins⟩
    obtain ⟨hhyphen, hhigh⟩ := joins_iff.mp hjoins
    obtain ⟨rest, hbegins, hrest⟩ := Glyph.begins_of_scan hscan
    rw [hhyphen] at hbegins
    obtain ⟨rest', hbegins', _⟩ := Glyph.begins_of_scan hrest.symm
    obtain rfl := hbegins.cons_of_plain
    cases rest with
    | nil => cases hbegins'
    | cons c tail =>
        refine ⟨c, tail, rfl, ?_⟩
        rintro rfl
        exact hhigh (hbegins'.eq_plain (by decide)).1

theorem Member.length_pos {m : ClassMember} (h : Member w m) : 0 < w.length := by
  cases h <;> exact Nat.succ_pos _

/-- A shorthand class is not written as a bracket. -/
theorem Member.ne_bracket {more : Array SymbolRange} (h : Member w (.shorthand more)) :
    w ≠ [']'.toNat] := by
  cases h
  exact fun heq => List.cons_ne_nil _ _ (List.cons.inj heq).2

theorem Members.length_pos {first : Bool} {ranges : List SymbolRange}
    (h : Members first cs ranges) : 0 < cs.length := by
  cases h with
  | close => exact Nat.succ_pos _
  | single _ hm _ _ | range _ hm _ _ _ _ | shorthand hm _ =>
      have := hm.length_pos
      rw [List.length_append]
      omega

/-- A single symbol closes a class only if it is a bracket. -/
theorem Members.eq_bracket {first : Bool} {c : Nat} {ranges : List SymbolRange}
    (h : Members first [c] ranges) : c = ']'.toNat := by
  generalize hcs : [c] = cs at h
  have hlen := congrArg List.length hcs
  cases h with
  | close => exact (List.cons.inj hcs).1
  | single _ hm _ hrest | shorthand hm hrest =>
      have := hm.length_pos
      have := hrest.length_pos
      rw [List.length_append, List.length_singleton] at hlen
      omega
  | range _ hm _ _ _ hrest =>
      have := hm.length_pos
      rw [List.length_append, List.length_cons, List.length_cons, List.length_nil] at hlen
      omega

/-- Whether a range is opened is decided inside the class. -/
theorem Members.opensRange_append {first : Bool} {ranges : List SymbolRange}
    (h : Members first cs ranges) (hopens : OpensRange (cs ++ rest)) : OpensRange cs := by
  obtain ⟨c, tail, heq, hc⟩ := hopens
  cases cs with
  | nil => exact absurd h.length_pos (Nat.lt_irrefl 0)
  | cons d cs =>
      have heq := List.cons.inj heq
      obtain rfl := heq.1
      cases cs with
      | nil => exact absurd h.eq_bracket (by decide)
      | cons d cs =>
          obtain ⟨rfl, _⟩ := List.cons.inj heq.2
          exact ⟨d, cs, rfl, hc⟩

/-! ## Reading a class -/

section Reading

variable {ranges : Array SymbolRange} {first : Bool} {g : Placed Glyph}
  {glyphs behind : List (Placed Glyph)} {low : Nat}

theorem not_closes_iff : ¬ (!first && g.item == .plain ']'.toNat) = true ↔
    first = true ∨ g.item ≠ .plain ']'.toNat := by
  cases first with
  | true => exact iff_of_true Bool.false_ne_true (Or.inl rfl)
  | false =>
      rw [Bool.not_false, Bool.true_and, beq_iff_eq]
      exact ⟨Or.inr, fun h => h.resolve_left Bool.false_ne_true⟩

theorem readMembers_close (hg : g.item = .plain ']'.toNat) :
    readMembers source opened ranges false (g :: glyphs) = .ok (ranges, glyphs) := by
  rw [readMembers.eq_def]
  dsimp only
  rw [hg]
  rfl

theorem readMembers_shorthand {more : Array SymbolRange}
    (hopen : first = true ∨ g.item ≠ .plain ']'.toNat)
    (hg : ClassMember.ofGlyph g = .ok (.shorthand more)) :
    readMembers source opened ranges first (g :: glyphs) =
      readMembers source opened (ranges ++ more) false glyphs := by
  rw [readMembers.eq_def]
  dsimp only
  rw [if_neg (not_closes_iff.mpr hopen), hg]

theorem readMembers_single (hopen : first = true ∨ g.item ≠ .plain ']'.toNat)
    (hg : ClassMember.ofGlyph g = .ok (.symbol low))
    (hno : ∀ hyphen high behind, glyphs = hyphen :: high :: behind → ¬ Joins hyphen high) :
    readMembers source opened ranges first (g :: glyphs) =
      readMembers source opened (ranges.push (.single low)) false glyphs := by
  rw [readMembers.eq_def]
  dsimp only
  rw [if_neg (not_closes_iff.mpr hopen), hg]
  cases glyphs with
  | nil => rfl
  | cons hyphen tail =>
      cases tail with
      | nil => rfl
      | cons high behind => exact if_neg (hno hyphen high behind rfl)

theorem readMembers_range {hyphen high : Placed Glyph} {r : SymbolRange}
    (hopen : first = true ∨ g.item ≠ .plain ']'.toNat)
    (hg : ClassMember.ofGlyph g = .ok (.symbol low)) (hjoins : Joins hyphen high)
    (hr : rangeBetween source g high low = .ok r) :
    readMembers source opened ranges first (g :: hyphen :: high :: behind) =
      readMembers source opened (ranges.push r) false behind := by
  rw [readMembers.eq_def]
  dsimp only
  rw [if_neg (not_closes_iff.mpr hopen), hg]
  exact (if_pos hjoins).trans (by rw [hr])

/-- What is no member ends the class with its error. -/
theorem readMembers_fault {e : SyntaxError} (hopen : first = true ∨ g.item ≠ .plain ']'.toNat)
    (hg : ClassMember.ofGlyph g = .error e) :
    readMembers source opened ranges first (g :: glyphs) = .error e := by
  rw [readMembers.eq_def]
  dsimp only
  rw [if_neg (not_closes_iff.mpr hopen), hg]

/-- What is no range ends the class with its error. -/
theorem readMembers_rangeFault {hyphen high : Placed Glyph} {e : SyntaxError}
    (hopen : first = true ∨ g.item ≠ .plain ']'.toNat)
    (hg : ClassMember.ofGlyph g = .ok (.symbol low)) (hjoins : Joins hyphen high)
    (hr : rangeBetween source g high low = .error e) :
    readMembers source opened ranges first (g :: hyphen :: high :: behind) = .error e := by
  rw [readMembers.eq_def]
  dsimp only
  rw [if_neg (not_closes_iff.mpr hopen), hg]
  exact (if_pos hjoins).trans (by rw [hr])

/-- The members of a class are read, whatever stands behind the class. -/
theorem Members.readMembers {more : List SymbolRange} (h : Members first cs more)
    (ranges : Array SymbolRange) (pos : Nat) (rest : List Nat) :
    ∃ stop, Pattern.readMembers source opened ranges first (Glyph.scan pos (cs ++ rest)) =
      .ok (ranges ++ more.toArray, Glyph.scan stop rest) := by
  induction h generalizing ranges pos with
  | close =>
      have hbegins : Begins ([']'.toNat] ++ rest) (.plain ']'.toNat) rest := .plain (by decide)
      rw [hbegins.scan_eq, readMembers_close rfl, Array.append_empty]
      exact ⟨_, rfl⟩
  | single hopen hm hno hrest ih =>
      obtain ⟨g, hbegins, hg, hbracket⟩ := hm.ofGlyph
      obtain ⟨stop, hread⟩ := ih (ranges.push (.single _)) (pos + g.width)
      have hopen' : _ ∨ g ≠ _ := hopen.imp_right fun hw heq => hw (hbracket.mp heq)
      refine ⟨stop, ?_⟩
      rw [List.append_assoc, (hbegins _).scan_eq, readMembers_single hopen' (hg pos), hread]
      · simp
      · intro hyphen high behind hscan hjoins
        exact hno (hrest.opensRange_append (opensRange_iff.mpr ⟨_, _, _, hscan, hjoins⟩))
  | range hopen hm hv hm' hle _ ih =>
      obtain ⟨g, hbegins, hg, hbracket⟩ := hm.ofGlyph
      obtain ⟨g', hbegins', hg', hbracket'⟩ := hm'.ofGlyph
      have hhyphen : ∀ cs, Begins ('-'.toNat :: cs) (.plain '-'.toNat) cs := fun _ =>
        .plain (by decide)
      have hopen' : _ ∨ g ≠ _ := hopen.imp_right fun hw heq => hw (hbracket.mp heq)
      obtain ⟨stop, hread⟩ := ih (ranges.push ⟨_, _⟩)
        (pos + g.width + (Glyph.plain '-'.toNat).width + g'.width)
      refine ⟨stop, ?_⟩
      rw [List.append_assoc, List.cons_append, List.append_assoc, (hbegins _).scan_eq,
        (hhyphen _).scan_eq, (hbegins' _).scan_eq,
        readMembers_range hopen' (hg pos) (joins_iff.mpr ⟨rfl, fun heq => hv (hbracket'.mp heq)⟩)
          (rangeBetween_eq_ok.mpr ⟨_, hg' _, hle, rfl⟩), hread]
      simp
  | shorthand hm _ ih =>
      obtain ⟨g, hbegins, hg, hbracket⟩ := hm.ofGlyph
      have hw := hm.ne_bracket
      have hopen : g ≠ .plain ']'.toNat := fun heq => hw (hbracket.mp heq)
      obtain ⟨stop, hread⟩ := ih (ranges ++ _) (pos + g.width)
      refine ⟨stop, ?_⟩
      rw [List.append_assoc, (hbegins _).scan_eq, readMembers_shorthand (Or.inr hopen) (hg pos),
        hread, Array.append_assoc, ← List.append_toArray, Array.toArray_toList]

/-- The symbols begin with members that add to the ranges what the result has more, and
what is behind is read from where they end. -/
def BeginsWithMembers (first : Bool) (cs : List Nat) (ranges result : Array SymbolRange)
    (behind : List (Placed Glyph)) : Prop :=
  ∃ body rest stop more, cs = body ++ rest ∧ behind = Glyph.scan stop rest ∧
    result = ranges ++ more.toArray ∧ Members first body more

theorem BeginsWithMembers.single {result : Array SymbolRange} (hbegins : Begins cs g.item ds)
    (hopen : first = true ∨ g.item ≠ .plain ']'.toNat)
    (hg : ClassMember.ofGlyph g = .ok (.symbol low)) (hno : ¬ OpensRange ds)
    (h : BeginsWithMembers false ds (ranges.push (.single low)) result behind) :
    BeginsWithMembers first cs ranges result behind := by
  obtain ⟨w, rfl, hm, hbracket⟩ := member_of_ofGlyph hbegins hg
  obtain ⟨body, rest, stop, more, rfl, hbehind, hresult, hbody⟩ := h
  refine ⟨w ++ body, rest, stop, .single low :: more, (List.append_assoc _ _ _).symm, hbehind,
    by rw [hresult]; simp, .single (hopen.imp_right fun hne hw => hne (hbracket hw)) hm ?_ hbody⟩
  rintro ⟨c, tail, rfl, hc⟩
  exact hno ⟨c, tail ++ rest, rfl, hc⟩

theorem BeginsWithMembers.range {es : List Nat} {high : Placed Glyph} {r : SymbolRange}
    {result : Array SymbolRange} (hbegins : Begins cs g.item ('-'.toNat :: ds))
    (hopen : first = true ∨ g.item ≠ .plain ']'.toNat)
    (hg : ClassMember.ofGlyph g = .ok (.symbol low)) (hbegins' : Begins ds high.item es)
    (hhigh : high.item ≠ .plain ']'.toNat) (hr : rangeBetween source g high low = .ok r)
    (h : BeginsWithMembers false es (ranges.push r) result behind) :
    BeginsWithMembers first cs ranges result behind := by
  obtain ⟨d, hd, hle, rfl⟩ := rangeBetween_eq_ok.mp hr
  obtain ⟨w, rfl, hm, hbracket⟩ := member_of_ofGlyph hbegins hg
  obtain ⟨v, rfl, hm', hbracket'⟩ := member_of_ofGlyph hbegins' hd
  obtain ⟨body, rest, stop, more, rfl, hbehind, hresult, hbody⟩ := h
  refine ⟨w ++ '-'.toNat :: (v ++ body), rest, stop, ⟨low, d⟩ :: more, by simp, hbehind,
    by rw [hresult]; simp, ?_⟩
  exact .range (hopen.imp_right fun hne hw => hne (hbracket hw)) hm
    (fun hv => hhigh (hbracket' hv)) hm' hle hbody

theorem BeginsWithMembers.shorthand {more result : Array SymbolRange}
    (hbegins : Begins cs g.item ds) (hg : ClassMember.ofGlyph g = .ok (.shorthand more))
    (h : BeginsWithMembers false ds (ranges ++ more) result behind) :
    BeginsWithMembers first cs ranges result behind := by
  obtain ⟨w, rfl, hm, _⟩ := member_of_ofGlyph hbegins hg
  obtain ⟨body, rest, stop, others, rfl, hbehind, hresult, hbody⟩ := h
  refine ⟨w ++ body, rest, stop, more.toList ++ others, (List.append_assoc _ _ _).symm, hbehind,
    ?_, .shorthand hm hbody⟩
  rw [hresult, Array.append_assoc, ← List.append_toArray, Array.toArray_toList]

/-- What is read as the members of a class are members of a class. -/
theorem beginsWithMembers_of_readMembers {result : Array SymbolRange}
    (h : readMembers source opened ranges first (Glyph.scan pos cs) = .ok (result, behind)) :
    BeginsWithMembers first cs ranges result behind := by
  generalize hscan : Glyph.scan pos cs = glyphs at h
  fun_induction readMembers source opened ranges first glyphs generalizing pos cs with
  | case1 => cases h
  | case2 ranges first g rest hclose =>
      cases h
      obtain ⟨hfirst, hitem⟩ := Bool.and_eq_true_iff.mp hclose
      obtain ⟨ds, hbegins, rfl⟩ := Glyph.begins_of_scan hscan
      rw [beq_iff_eq.mp hitem] at hbegins
      cases first with
      | true => cases hfirst
      | false => exact ⟨[']'.toNat], ds, _, [], hbegins.cons_of_plain, rfl, by simp, .close⟩
  | case3 => cases h
  | case4 ranges first g rest hopen more hg ih =>
      obtain ⟨ds, hbegins, hrest⟩ := Glyph.begins_of_scan hscan
      exact .shorthand hbegins hg (ih hrest.symm h)
  | case5 => cases h
  | case6 ranges first g hopen low hg hyphen high behind hjoins r hr ih =>
      obtain ⟨hhyphen, hhigh⟩ := joins_iff.mp hjoins
      obtain ⟨ds, hbegins, hrest⟩ := Glyph.begins_of_scan hscan
      obtain ⟨es, hbegins', hrest'⟩ := Glyph.begins_of_scan hrest.symm
      obtain ⟨fs, hbegins'', hrest''⟩ := Glyph.begins_of_scan hrest'.symm
      rw [hhyphen] at hbegins'
      obtain rfl := hbegins'.cons_of_plain
      exact .range hbegins (not_closes_iff.mp hopen) hg hbegins'' hhigh hr (ih hrest''.symm h)
  | case7 ranges first g hopen low hg hyphen high behind hjoins ih =>
      obtain ⟨ds, hbegins, hrest⟩ := Glyph.begins_of_scan hscan
      refine .single hbegins (not_closes_iff.mp hopen) hg ?_ (ih hrest.symm h)
      intro hopens
      obtain ⟨_, _, _, hscan', hjoins'⟩ := opensRange_iff.mp hopens
      rw [← hrest] at hscan'
      cases hscan'
      exact hjoins hjoins'
  | case8 ranges first g hopen low hg short hshort ih =>
      obtain ⟨ds, hbegins, hrest⟩ := Glyph.begins_of_scan hscan
      refine .single hbegins (not_closes_iff.mp hopen) hg ?_ (ih hrest.symm h)
      intro hopens
      obtain ⟨_, _, _, hscan', _⟩ := opensRange_iff.mp hopens
      exact hshort _ _ _ (hrest.trans hscan')

/-- Whether a class is negated shows in its first symbol. -/
theorem caret_iff : (Glyph.scan pos cs).head?.any (·.item == .plain '^'.toNat) = true ↔
    cs.head? = some '^'.toNat := by
  cases cs with
  | nil => simp [Glyph.scan]
  | cons c cs =>
      obtain ⟨g, ds, hbegins⟩ := Glyph.exists_begins c cs
      rw [hbegins.scan_eq, List.head?_cons, Option.any_some, beq_iff_eq, List.head?_cons,
        Option.some_inj]
      constructor
      · rintro rfl
        exact (List.cons.inj hbegins.cons_of_plain).1
      · rintro rfl
        exact (hbegins.eq_plain (by decide)).1

/-- A class is read, whatever stands behind it. -/
theorem ClassBody.readClass {k : SymbolClass} (h : ClassBody cs k) (pos : Nat)
    (rest : List Nat) :
    ∃ stop, Pattern.readClass source opened (Glyph.scan pos (cs ++ rest)) =
      .ok (k, Glyph.scan stop rest) := by
  unfold Pattern.readClass
  cases h with
  | positive hhead hmembers =>
      obtain ⟨stop, hread⟩ := hmembers.readMembers #[] pos rest
      have hne := List.ne_nil_of_length_pos hmembers.length_pos
      have hcaret : ¬ (Glyph.scan pos (cs ++ rest)).head?.any
          (·.item == .plain '^'.toNat) = true := by
        rwa [caret_iff, List.head?_append_of_ne_nil _ hne]
      refine ⟨stop, ?_⟩
      rw [Bool.eq_false_iff.mpr hcaret]
      dsimp only
      rw [if_neg Bool.false_ne_true, hread, Array.empty_append]
  | negative hmembers =>
      have hbegins : ∀ cs, Begins ('^'.toNat :: cs) (.plain '^'.toNat) cs := fun _ =>
        .plain (by decide)
      obtain ⟨stop, hread⟩ := hmembers.readMembers #[] (pos + (Glyph.plain '^'.toNat).width) rest
      refine ⟨stop, ?_⟩
      rw [caret_iff.mpr rfl, List.cons_append, (hbegins _).scan_eq]
      dsimp only
      rw [if_pos rfl, List.tail_cons, hread, Array.empty_append]

/-- What is read as a class is a class. -/
theorem classBody_of_readClass {k : SymbolClass}
    (h : readClass source opened (Glyph.scan pos cs) = .ok (k, behind)) :
    ∃ body rest stop, cs = body ++ rest ∧ behind = Glyph.scan stop rest ∧ ClassBody body k := by
  unfold readClass at h
  dsimp only at h
  by_cases hcaret : (Glyph.scan pos cs).head?.any (·.item == .plain '^'.toNat) = true
  · rw [if_pos hcaret, hcaret] at h
    obtain ⟨tail, rfl⟩ := List.head?_eq_some_iff.mp (caret_iff.mp hcaret)
    have hbegins : Begins ('^'.toNat :: tail) (.plain '^'.toNat) tail := .plain (by decide)
    rw [hbegins.scan_eq, List.tail_cons] at h
    split at h
    · cases h
    · rename_i ranges rest hread
      cases h
      obtain ⟨body, rest, stop, more, rfl, hbehind, hresult, hmembers⟩ :=
        beginsWithMembers_of_readMembers hread
      rw [Array.empty_append] at hresult
      exact ⟨'^'.toNat :: body, rest, stop, rfl, hbehind, hresult ▸ .negative hmembers⟩
  · rw [if_neg hcaret, Bool.eq_false_iff.mpr hcaret] at h
    split at h
    · cases h
    · rename_i ranges rest hread
      cases h
      obtain ⟨body, rest, stop, more, rfl, hbehind, hresult, hmembers⟩ :=
        beginsWithMembers_of_readMembers hread
      have hne := List.ne_nil_of_length_pos hmembers.length_pos
      rw [caret_iff, List.head?_append_of_ne_nil _ hne] at hcaret
      rw [Array.empty_append] at hresult
      exact ⟨body, rest, stop, rfl, hbehind, hresult ▸ .positive hcaret hmembers⟩

end Reading

end Pattern

end RegexEngine
