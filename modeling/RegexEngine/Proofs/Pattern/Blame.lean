/-
# `SyntaxError.PointsInto` — where a syntax error points

A syntax error carries the stretch of the source to blame.  The stretch is never empty
and never leaves the source, it begins with the sign that the kind of the error is
about, and it reaches to the end of the source where something is missing there
(`SyntaxError.PointsInto`).

Positions enter in one place: glyphs lie in the source one behind the other, each over
the symbols that it was read from (`Glyph.Tiles`).  Everything else passes them on.  A
class blames its own bracket or one of its members, a token keeps the position of its
sign (`Token.Placed`), and a frame remembers where its group was opened and where its
last bar is (`Frame.Placed`), because an error of the structure may point back to one
of these when it is noticed much later.
-/
import RegexEngine.Proofs.Pattern.Soundness
import RegexEngine.Proofs.Text.Cursor

namespace RegexEngine

variable {source : Text} {i j c pos opened : Nat}

/-! ## What an error points at -/

namespace ErrorCode

/-- The units that an error of this kind may point at.  A range begins with any
symbol. -/
def Blames : ErrorCode → Nat → Prop
  | .unclosedGroup, c | .nestingLimit, c => c = '('.toNat
  | .unmatchedParen, c => c = ')'.toNat
  | .unclosedClass, c => c = '['.toNat
  | .emptyBranch, c => c = '|'.toNat
  | .danglingQuantifier, c => c = '*'.toNat ∨ c = '+'.toNat ∨ c = '?'.toNat
  | .trailingEscape, c | .invalidEscape, c => c = '\\'.toNat
  | .invalidRange, _ => True

/-- Errors of this kind say that something is missing at the end of the source. -/
def ReachesEnd (code : ErrorCode) : Prop :=
  code = .unclosedGroup ∨ code = .unclosedClass ∨ code = .trailingEscape

/-- Errors of this kind are about a member of a class. -/
def InClass (code : ErrorCode) : Prop := code = .invalidRange ∨ code = .invalidEscape

instance : DecidablePred ReachesEnd := fun code =>
  inferInstanceAs (Decidable (code = _ ∨ code = _ ∨ code = _))

instance : DecidablePred InClass := fun code =>
  inferInstanceAs (Decidable (code = _ ∨ code = _))

end ErrorCode

/-- The stretch of an error lies in the source and begins with what is to blame. -/
structure SyntaxError.PointsInto (source : Text) (e : SyntaxError) : Prop where
  length_pos : 0 < e.length
  inside : e.position + e.length ≤ source.length
  blames : ∃ c, source.unitAt? e.position = some c ∧ e.code.Blames c
  reaches_end : e.code.ReachesEnd → e.position + e.length = source.length
  behind_bracket : e.code.InClass → ∃ i < e.position, source.unitAt? i = some '['.toNat

open SyntaxError (PointsInto)

/-- An error points into the source, and what is read otherwise is as `Q` says. -/
def InPlace {α : Type} (source : Text) (Q : α → Prop) : Except SyntaxError α → Prop
  | .error e => PointsInto source e
  | .ok a => Q a

/-- An error of one unit, at a sign outside of classes. -/
theorem SyntaxError.pointsInto_ofUnit {fault : Fault} (hunit : source.unitAt? pos = some c)
    (hblames : fault.code.Blames c) (hend : ¬ fault.code.ReachesEnd)
    (hclass : ¬ fault.code.InClass) : PointsInto source (.ofUnit fault pos) where
  length_pos := Nat.one_pos
  inside := Text.lt_length_of_unitAt? hunit
  blames := ⟨c, hunit, hblames⟩
  reaches_end := fun h => absurd h hend
  behind_bracket := fun h => absurd h hclass

/-- An error that reaches from a sign to the end of the source. -/
theorem SyntaxError.pointsInto_rest (fault : Fault) (hunit : source.unitAt? pos = some c)
    (hblames : fault.code.Blames c) (hclass : ¬ fault.code.InClass) :
    PointsInto source ⟨fault, pos, source.length - pos⟩ := by
  have hlt := Text.lt_length_of_unitAt? hunit
  have hend : pos + (source.length - pos) = source.length := by omega
  exact {
    length_pos := Nat.sub_pos_of_lt hlt
    inside := Nat.le_of_eq hend
    blames := ⟨c, hunit, hblames⟩
    reaches_end := fun _ => hend
    behind_bracket := fun h => absurd h hclass }

/-! ## Glyphs in their places -/

namespace Glyph

variable {g : Placed Glyph} {glyphs : List (Placed Glyph)}

/-- A glyph lies over the symbols that it was read from. -/
def Lies (source : Text) (g : Placed Glyph) : Prop :=
  match g.item with
  | .plain c => source.Reads g.position c g.stop
  | .escaped c => source.Reads g.position '\\'.toNat (g.position + 1) ∧
      source.Reads (g.position + 1) c g.stop
  | .loneBackslash => source.Reads g.position '\\'.toNat g.stop ∧ g.stop = source.length

/-- The glyphs cover the source from an offset to its end, without gaps. -/
inductive Tiles (source : Text) : Nat → List (Placed Glyph) → Prop
  | nil : Tiles source source.length []
  | cons {g : Placed Glyph} {glyphs : List (Placed Glyph)} : Lies source g →
      Tiles source g.stop glyphs → Tiles source g.position (g :: glyphs)

theorem Lies.lt_stop (h : Lies source g) : g.position < g.stop := by
  obtain ⟨position, item⟩ := g
  cases item with
  | plain c => exact Text.Reads.lt h
  | escaped c => exact Nat.lt_trans (Text.Reads.lt h.1) (Text.Reads.lt h.2)
  | loneBackslash => exact Text.Reads.lt h.1

theorem Lies.stop_le_length (h : Lies source g) : g.stop ≤ source.length := by
  obtain ⟨position, item⟩ := g
  cases item with
  | plain c => exact Text.Reads.le_length h
  | escaped c => exact Text.Reads.le_length h.2
  | loneBackslash => exact Nat.le_of_eq h.2

/-- Where a glyph lies there is a unit, and an escape lies over its backslash. -/
theorem Lies.exists_unitAt? (h : Lies source g) : ∃ c, source.unitAt? g.position = some c := by
  have hlt : g.position < source.units.size := Nat.lt_of_lt_of_le h.lt_stop h.stop_le_length
  exact ⟨_, by rw [Text.unitAt?, Array.getElem?_eq_getElem hlt, Option.map_some]⟩

theorem Tiles.inv (h : Tiles source pos (g :: glyphs)) :
    g.position = pos ∧ Lies source g ∧ Tiles source g.stop glyphs := by
  cases h with
  | cons hg hrest => exact ⟨rfl, hg, hrest⟩

/-- A glyph that the symbols from an offset on begin with lies there, and they go on
behind it. -/
theorem Begins.lies {item : Glyph} {cs rest : List Nat} (h : Begins cs item rest)
    (hcs : source.symbolsFrom pos = cs) :
    Lies source ⟨pos, item⟩ ∧ source.symbolsFrom (pos + item.width) = rest := by
  cases h with
  | plain hc =>
      obtain ⟨j, hreads, hrest⟩ := Text.exists_reads_of_symbolsFrom hcs
      obtain rfl := hreads.stop_eq
      exact ⟨hreads, hrest⟩
  | @escaped d _ =>
      obtain ⟨j, hreads, hnext⟩ := Text.exists_reads_of_symbolsFrom hcs
      obtain ⟨k, hreads', hrest⟩ := Text.exists_reads_of_symbolsFrom hnext
      obtain rfl : j = pos + 1 := hreads.stop_eq
      have hk : k = pos + (Glyph.escaped d).width := hreads'.stop_eq.trans (Nat.add_assoc _ _ _)
      subst hk
      exact ⟨⟨hreads, hreads'⟩, hrest⟩
  | lone =>
      obtain ⟨j, hreads, hrest⟩ := Text.exists_reads_of_symbolsFrom hcs
      obtain rfl : j = pos + 1 := hreads.stop_eq
      exact ⟨⟨hreads, (Text.symbolsFrom_eq_nil_iff hreads.le_length).mp hrest⟩, hrest⟩

/-- A reading of the source covers it. -/
theorem tiles_scan (h : pos ≤ source.length) :
    Tiles source pos (scan pos (source.symbolsFrom pos)) := by
  induction hlen : source.length - pos using Nat.strongRecOn generalizing pos with
  | ind left ih =>
      cases hcs : source.symbolsFrom pos with
      | nil =>
          obtain rfl := (Text.symbolsFrom_eq_nil_iff h).mp hcs
          exact .nil
      | cons c cs =>
          obtain ⟨g, rest, hbegins⟩ := exists_begins c cs
          obtain ⟨hlies, rfl⟩ := hbegins.lies hcs
          have hlt : pos < pos + g.width := hlies.lt_stop
          have hle : pos + g.width ≤ source.length := hlies.stop_le_length
          have htiles := ih _ (by omega) hle rfl
          rw [hbegins.scan_eq]
          exact .cons hlies htiles

end Glyph

open Glyph (Lies Tiles)

/-! ## Classes -/

namespace Pattern

variable {g low high : Placed Glyph} {glyphs behind : List (Placed Glyph)} {e : SyntaxError}
  {ranges result : Array SymbolRange} {first : Bool} {k : SymbolClass}

/-- An error inside a class, over a stretch that a glyph begins. -/
theorem pointsInto_member (fault : Fault) {stop : Nat} (hg : Lies source g)
    (hopened : source.unitAt? opened = some '['.toNat) (hbehind : opened < g.position)
    (hlt : g.position < stop) (hle : stop ≤ source.length)
    (hblames : ∀ c, source.unitAt? g.position = some c → fault.code.Blames c)
    (hend : fault.code.ReachesEnd → stop = source.length) :
    PointsInto source ⟨fault, g.position, stop - g.position⟩ := by
  have hstop : g.position + (stop - g.position) = stop := by omega
  obtain ⟨c, hc⟩ := hg.exists_unitAt?
  exact {
    length_pos := Nat.sub_pos_of_lt hlt
    inside := hstop.symm ▸ hle
    blames := ⟨c, hc, hblames c hc⟩
    reaches_end := fun h => hstop.trans (hend h)
    behind_bracket := fun _ => ⟨opened, hbehind, hopened⟩ }

/-- A glyph that is no member of a class is to blame itself. -/
theorem inPlace_ofGlyph (hg : Lies source g) (hopened : source.unitAt? opened = some '['.toNat)
    (hbehind : opened < g.position) : InPlace source (fun _ => True) (ClassMember.ofGlyph g) := by
  obtain ⟨position, item⟩ := g
  have hstop : (Placed.mk position item).stop = position + item.width := rfl
  have hlt := hg.lt_stop
  have hle := hg.stop_le_length
  cases item with
  | plain c => trivial
  | escaped c =>
      have hunit := hg.1.unitAt? (by decide)
      simp only [ClassMember.ofGlyph]
      split
      · trivial
      · split
        · have hmember := pointsInto_member .negatedShorthand hg hopened hbehind hlt hle
            (fun d hd => Option.some.inj (hd.symm.trans hunit))
            (fun hend => absurd hend (by decide))
          rwa [hstop, Nat.add_sub_cancel_left] at hmember
        · trivial
  | loneBackslash =>
      have hunit := hg.1.unitAt? (by decide)
      have hmember := pointsInto_member .trailingEscape hg hopened hbehind hlt hle
        (fun d hd => Option.some.inj (hd.symm.trans hunit)) (fun _ => hg.2)
      rwa [hstop, Nat.add_sub_cancel_left] at hmember

/-- A range that is none is to blame from its first member to its last. -/
theorem inPlace_rangeBetween (hlow : Lies source low) (hhigh : Lies source high)
    (hopened : source.unitAt? opened = some '['.toNat) (hbehind : opened < low.position)
    (hlt : low.position < high.position) (lowest : Nat) :
    InPlace source (fun _ => True) (rangeBetween source low high lowest) := by
  have hstretch : ∀ fault : Fault, fault.code = .invalidRange →
      PointsInto source ⟨fault, low.position, high.stop - low.position⟩ := by
    intro fault hcode
    refine pointsInto_member fault hlow hopened hbehind (Nat.lt_trans hlt hhigh.lt_stop)
      hhigh.stop_le_length (fun _ _ => ?_) (fun hend => ?_)
    · rw [hcode]
      trivial
    · rw [hcode] at hend
      exact absurd hend (by decide)
  have hmember := inPlace_ofGlyph hhigh hopened (Nat.lt_trans hbehind hlt)
  unfold rangeBetween
  split
  · rename_i e he
    rwa [he] at hmember
  · exact hstretch _ rfl
  · split
    · exact hstretch _ rfl
    · trivial

/-- What is left behind the members of a class covers the rest of the source. -/
theorem inPlace_readMembers (hopened : source.unitAt? opened = some '['.toNat)
    (htiles : Tiles source pos glyphs) (hpos : opened < pos) :
    InPlace source (fun read => ∃ stop, Tiles source stop read.2)
      (readMembers source opened ranges first glyphs) := by
  fun_induction readMembers source opened ranges first glyphs generalizing pos with
  | case1 => exact SyntaxError.pointsInto_rest .unclosedClass hopened rfl (by decide)
  | case2 ranges first g rest hclose =>
      obtain ⟨_, _, hrest⟩ := htiles.inv
      exact ⟨_, hrest⟩
  | case3 ranges first g rest hopen e he =>
      obtain ⟨rfl, hg, _⟩ := htiles.inv
      have hmember := inPlace_ofGlyph hg hopened hpos
      rwa [he] at hmember
  | case4 ranges first g rest hopen more hg ih =>
      obtain ⟨rfl, hlies, hrest⟩ := htiles.inv
      exact ih hrest (Nat.lt_trans hpos hlies.lt_stop)
  | case5 ranges first g hopen low hg hyphen high behind hjoins e he =>
      obtain ⟨rfl, hlies, hrest⟩ := htiles.inv
      obtain ⟨hat, hlies', hrest'⟩ := hrest.inv
      obtain ⟨hat', hlies'', _⟩ := hrest'.inv
      have hlt := hlies.lt_stop
      have hlt' := hlies'.lt_stop
      have hrange := inPlace_rangeBetween hlies hlies'' hopened hpos (by omega) low
      rwa [he] at hrange
  | case6 ranges first g hopen low hg hyphen high behind hjoins r hr ih =>
      obtain ⟨rfl, hlies, hrest⟩ := htiles.inv
      obtain ⟨hat, hlies', hrest'⟩ := hrest.inv
      obtain ⟨hat', hlies'', hrest''⟩ := hrest'.inv
      have hlt := hlies.lt_stop
      have hlt' := hlies'.lt_stop
      have hlt'' := hlies''.lt_stop
      exact ih hrest'' (by omega)
  | case7 ranges first g hopen low hg hyphen high behind hjoins ih =>
      obtain ⟨rfl, hlies, hrest⟩ := htiles.inv
      exact ih hrest (Nat.lt_trans hpos hlies.lt_stop)
  | case8 ranges first g hopen low hg short hshort ih =>
      obtain ⟨rfl, hlies, hrest⟩ := htiles.inv
      exact ih hrest (Nat.lt_trans hpos hlies.lt_stop)

/-- What is left behind a class covers the rest of the source. -/
theorem inPlace_readClass (hopened : source.unitAt? opened = some '['.toNat)
    (htiles : Tiles source pos glyphs) (hpos : opened < pos) :
    InPlace source (fun read => ∃ stop, Tiles source stop read.2)
      (readClass source opened glyphs) := by
  have hmembers : ∃ pos', opened < pos' ∧ Tiles source pos'
      (if glyphs.head?.any (·.item == .plain '^'.toNat) then glyphs.tail else glyphs) := by
    split
    · cases htiles with
      | nil => exact ⟨_, hpos, .nil⟩
      | cons hg hrest => exact ⟨_, Nat.lt_trans hpos hg.lt_stop, hrest⟩
    · exact ⟨pos, hpos, htiles⟩
  obtain ⟨pos', hpos', htiles'⟩ := hmembers
  have hread : InPlace source _ (readMembers source opened #[] true _) :=
    inPlace_readMembers hopened htiles' hpos'
  unfold readClass
  dsimp only
  split
  · rename_i e he
    rwa [he] at hread
  · rename_i result rest hok
    rw [hok] at hread
    exact hread

end Pattern

/-! ## Tokens in their places -/

namespace Token

open Pattern (quantifierSign readClass inPlace_readClass)

/-- A sign lies where it was read, and a fault points into the source. -/
def Lies (source : Text) (t : Placed Token) : Prop :=
  match t.item with
  | .bar => source.unitAt? t.position = some '|'.toNat
  | .groupOpen => source.unitAt? t.position = some '('.toNat
  | .groupClose => source.unitAt? t.position = some ')'.toNat
  | .quantifier q => source.unitAt? t.position = some (quantifierSign q)
  | .atom _ => True
  | .fault e => PointsInto source e

theorem lies_ofSymbol (hclass : c ≠ '['.toNat) (hreads : source.Reads pos c j) :
    Lies source ⟨pos, ofSymbol c⟩ := by
  by_cases hc : c = '\\'.toNat
  · subst hc
    trivial
  have hdenotes := denotes_ofSymbol hc hclass
  cases ht : ofSymbol c with
  | bar | groupOpen | groupClose =>
      rw [ht] at hdenotes
      obtain rfl := List.singleton_inj.mp hdenotes
      exact hreads.unitAt? (by decide)
  | quantifier q =>
      rw [ht] at hdenotes
      obtain rfl := List.singleton_inj.mp hdenotes
      exact hreads.unitAt? (by cases q <;> decide)
  | atom r => trivial
  | fault e =>
      rw [ht] at hdenotes
      exact hdenotes.elim

/-- The tokens of glyphs that cover the source lie in it. -/
theorem lies_of_mem_scan {glyphs : List (Placed Glyph)} (htiles : Tiles source pos glyphs) :
    ∀ t ∈ scan source glyphs, Lies source t := by
  induction hlen : glyphs.length using Nat.strongRecOn generalizing pos glyphs with
  | ind n ih =>
      subst hlen
      cases htiles with
      | nil => simp [scan]
      | @cons g glyphs hg hrest =>
          obtain ⟨position, item⟩ := g
          have hbehind := ih _ (Nat.lt_succ_self _) hrest rfl
          cases item with
          | escaped c =>
              rw [scan_escaped]
              exact List.forall_mem_cons.mpr ⟨trivial, hbehind⟩
          | loneBackslash =>
              have hunit := hg.1.unitAt? (by decide)
              have hpoints := SyntaxError.pointsInto_rest .trailingEscape hunit rfl
                (by decide)
              have hone : source.length - position = 1 := by
                rw [← hg.2]
                exact Nat.add_sub_cancel_left position 1
              rw [hone] at hpoints
              rw [scan_lone]
              exact List.forall_mem_singleton.mpr hpoints
          | plain c =>
              by_cases hopen : c = '['.toNat
              · subst hopen
                have hunit := hg.unitAt? (by decide)
                have hplaces := inPlace_readClass hunit hrest hg.lt
                cases hread : readClass source position glyphs with
                | error e =>
                    rw [hread] at hplaces
                    rw [scan_class_fault hread]
                    exact List.forall_mem_singleton.mpr hplaces
                | ok result =>
                    obtain ⟨k, behind⟩ := result
                    rw [hread] at hplaces
                    obtain ⟨stop, htiles'⟩ := hplaces
                    have hlt := Nat.lt_succ_of_lt (Pattern.length_of_readClass hread)
                    rw [scan_class hread]
                    exact List.forall_mem_cons.mpr ⟨trivial, ih _ hlt htiles' rfl⟩
              · rw [scan_symbol hopen]
                exact List.forall_mem_cons.mpr ⟨lies_ofSymbol hopen hg, hbehind⟩

/-- The tokens of a source lie in it. -/
theorem lies_of_mem_ofSource {t : Placed Token} (ht : t ∈ ofSource source) : Lies source t :=
  lies_of_mem_scan (Glyph.tiles_scan (Nat.zero_le source.length)) t ht

end Token

/-! ## Frames in their places -/

namespace Pattern

variable {f f' : Frame} {enclosing : List Frame} {p p' : Progress} {e : SyntaxError} {r : Regex}

/-- The last bar of a frame is where the frame says. -/
def Frame.Lies (source : Text) (f : Frame) : Prop :=
  ∀ l bar, f.branches = some (l, bar) → source.unitAt? bar = some '|'.toNat

/-- The frames are where they say, and so are the parentheses of their groups. -/
inductive Progress.Lies (source : Text) : Frame → List Frame → Prop
  | outermost {f : Frame} : f.Lies source → Lies source f []
  | group {outer f : Frame} {enclosing : List Frame} : Lies source outer enclosing →
      source.unitAt? f.opened = some '('.toNat → f.Lies source → Lies source f (outer :: enclosing)

namespace Frame

theorem lies_fresh (source : Text) (opened : Nat) : (fresh opened).Lies source :=
  fun _ _ h => nomatch h

theorem Lies.atom (h : f.Lies source) (r : Regex) : (f.atom r).Lies source := h

/-- What closes a branch that has nothing in it blames the bar in front. -/
theorem Lies.emptyBranchAfter {l : Regex} {bar : Nat} (h : f.Lies source)
    (hbar : f.branches = some (l, bar)) : PointsInto source (.ofUnit .emptyBranchAfter bar) :=
  SyntaxError.pointsInto_ofUnit (h l bar hbar) rfl (by decide) (by decide)

theorem Lies.quantify {q : Quantifier} (h : f.Lies source)
    (hunit : source.unitAt? pos = some (quantifierSign q)) :
    InPlace source (fun f' => f'.Lies source ∧ f'.opened = f.opened) (f.quantify q pos) := by
  have hblames : ErrorCode.danglingQuantifier.Blames (quantifierSign q) := by
    cases q with
    | star => exact .inl rfl
    | plus => exact .inr (.inl rfl)
    | optional => exact .inr (.inr rfl)
  unfold Frame.quantify
  split
  · exact SyntaxError.pointsInto_ofUnit hunit hblames (by decide) (by decide)
  · split
    · exact SyntaxError.pointsInto_ofUnit hunit hblames (by decide) (by decide)
    · exact ⟨h, rfl⟩

theorem Lies.bar (h : f.Lies source) (hunit : source.unitAt? pos = some '|'.toNat) :
    InPlace source (fun f' => f'.Lies source ∧ f'.opened = f.opened) (f.bar pos) := by
  unfold Frame.bar
  split
  · refine ⟨?_, rfl⟩
    rintro l bar heq
    cases heq
    exact hunit
  · exact SyntaxError.pointsInto_ofUnit hunit rfl (by decide) (by decide)
  · rename_i hbranches
    exact h.emptyBranchAfter hbranches

theorem Lies.finish (h : f.Lies source) : InPlace source (fun _ => True) f.finish := by
  unfold Frame.finish
  split
  · trivial
  · trivial
  · rename_i hbranches
    exact h.emptyBranchAfter hbranches

end Frame

namespace Progress

theorem Lies.frame (h : Lies source f enclosing) : f.Lies source := by
  cases h with
  | outermost hf => exact hf
  | group _ _ hf => exact hf

/-- The current frame reads on. -/
theorem Lies.replace (h : Lies source f enclosing) (hf : f'.Lies source)
    (hopened : f'.opened = f.opened) : Lies source f' enclosing := by
  cases h with
  | outermost _ => exact .outermost hf
  | group houter hunit _ => exact .group houter (hopened ▸ hunit) hf

/-- One token that lies in the source leaves all frames in their places. -/
theorem Lies.step {t : Placed Token} (h : Lies source p.current p.enclosing)
    (ht : Token.Lies source t) :
    InPlace source (fun p' => Lies source p'.current p'.enclosing) (p.step t) := by
  obtain ⟨current, enclosing⟩ := p
  obtain ⟨pos, item⟩ := t
  unfold Progress.step
  cases item with
  | atom r => exact h.replace (h.frame.atom r) rfl
  | quantifier q =>
      have hframe := h.frame.quantify ht
      dsimp only
      split
      · rename_i e he
        rwa [he] at hframe
      · rename_i next hnext
        rw [hnext] at hframe
        exact h.replace hframe.1 hframe.2
  | bar =>
      have hframe := h.frame.bar ht
      dsimp only
      split
      · rename_i e he
        rwa [he] at hframe
      · rename_i next hnext
        rw [hnext] at hframe
        exact h.replace hframe.1 hframe.2
  | groupOpen =>
      dsimp only
      split
      · exact SyntaxError.pointsInto_ofUnit ht rfl (by decide) (by decide)
      · exact .group h ht (Frame.lies_fresh source pos)
  | groupClose =>
      have hframe := h.frame.finish
      dsimp only
      split
      · rename_i e he
        rwa [he] at hframe
      · exact SyntaxError.pointsInto_ofUnit ht rfl (by decide) (by decide)
      · rename_i r outer enclosing _
        cases h with
        | group houter _ _ => exact houter.replace (houter.frame.atom r) rfl
  | fault e => exact ht

/-- A run of tokens that lie in the source leaves all frames in their places. -/
theorem Lies.run {tokens : List (Placed Token)} (h : Lies source p.current p.enclosing)
    (htokens : ∀ t ∈ tokens, Token.Lies source t) :
    InPlace source (fun p' => Lies source p'.current p'.enclosing) (p.run tokens) := by
  induction tokens generalizing p with
  | nil => exact h
  | cons t rest ih =>
      obtain ⟨ht, hrest⟩ := List.forall_mem_cons.mp htokens
      have hstep := h.step ht
      rw [Progress.run]
      split
      · rename_i e he
        rwa [he] at hstep
      · rename_i next hnext
        rw [hnext] at hstep
        exact ih hstep hrest

/-- A group that is never closed is to blame from its parenthesis to the end. -/
theorem Lies.finish (h : Lies source p.current p.enclosing) :
    InPlace source (fun _ => True) (p.finish source) := by
  have hframe := h.frame.finish
  unfold Progress.finish
  split
  · rename_i e he
    rwa [he] at hframe
  · trivial
  · rename_i henclosing
    rw [henclosing] at h
    cases h with
    | group _ hunit _ => exact SyntaxError.pointsInto_rest .unclosedGroup hunit rfl (by decide)

end Progress

theorem inPlace_parseRegex (source : Text) :
    InPlace source (fun _ => True) (parseRegex source) := by
  have hinitial : Progress.Lies source Progress.initial.current Progress.initial.enclosing :=
    .outermost (Frame.lies_fresh source 0)
  have hrun := hinitial.run fun t ht => Token.lies_of_mem_ofSource ht
  unfold parseRegex
  split
  · rename_i e he
    rwa [he] at hrun
  · rename_i p hp
    rw [hp] at hrun
    exact hrun.finish

/-- Every syntax error points into the source, at the construct to blame: its stretch is
not empty and lies in the source, and begins with the sign that the kind of the error is
about; an unclosed group or class and a lone backslash reach to the end of the source;
and what is wrong with a range or an escape is behind the bracket of a class. -/
theorem parse_error_pointsInto {flags : Flags} (h : parse source flags = .error e) :
    e.PointsInto source := by
  have hplaces := inPlace_parseRegex source
  unfold parse at h
  split at h
  · rename_i e' he
    cases h
    rwa [he] at hplaces
  · cases h

/-- A range that ends in a negated shorthand class, in a class behind a symbol of two
units: the backslash is to blame, three units behind the bracket. -/
theorem rangeToNegated_pointsInto :
    parse (.ofString "(😀[a-\\D]") {} = .error ⟨.negatedShorthand, 6, 2⟩ ∧
      SyntaxError.PointsInto (.ofString "(😀[a-\\D]") ⟨.negatedShorthand, 6, 2⟩ := by
  have herror : parse (.ofString "(😀[a-\\D]") {} = .error ⟨.negatedShorthand, 6, 2⟩ := by
    decide +kernel
  exact ⟨herror, parse_error_pointsInto herror⟩

end Pattern

end RegexEngine
