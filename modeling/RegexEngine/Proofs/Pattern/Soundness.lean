/-
# What is parsed is a pattern

The parser reads tokens over a stack of frames.  A frame is described by the symbols
that it has read since it was opened (`Frame.HasRead`): branches up to the last bar,
then a sequence, then an atom that may still be quantified.  Every step of the parser
adds the spelling of one token to these symbols.

The frames around the current one have read what stands in front of their groups, and
their budgets grow outward by one (`Progress.HasRead`), so that the outermost frame
has the whole budget.  Closing a group makes an atom of what its frame has read.
-/
import RegexEngine.Pattern.Parse
import RegexEngine.Proofs.Pattern.Lexing

namespace RegexEngine

open Pattern (Phrase Derives Frame Progress quantifierSign signs maxNesting)

variable {budget pos : Nat} {cs ds w : List Nat} {r l : Regex} {t : Token}

/-! ## Tokens and what they stand for -/

namespace Token

/-- What the symbols of a token are good for in the grammar. -/
def Denotes (w : List Nat) : Token → Prop
  | .bar => w = ['|'.toNat]
  | .groupOpen => w = ['('.toNat]
  | .groupClose => w = [')'.toNat]
  | .quantifier q => w = [quantifierSign q]
  | .atom r => ∀ budget, Derives .atom budget w r
  | .fault _ => False

/-- A symbol that is no sign stands for itself. -/
theorem ofSymbol_eq_literal {c : Nat} (h : c ∉ signs) : ofSymbol c = .atom (.literal c) := by
  simp only [signs, List.map_cons, List.map_nil, List.mem_cons, List.not_mem_nil, or_false,
    not_or] at h
  obtain ⟨hbar, hopen, hclose, hstar, hplus, hoptional, hany, hstart, hstop, -, -⟩ := h
  rw [ofSymbol, if_neg hbar, if_neg hopen, if_neg hclose, if_neg hstar, if_neg hplus,
    if_neg hoptional, if_neg hany, if_neg hstart, if_neg hstop]

theorem Spells.literal {c : Nat} (h : c ∉ signs) : Spells [c] (.atom (.literal c)) := by
  have hne : ∀ d ∈ signs, c ≠ d := by
    rintro _ hd rfl
    exact h hd
  have hspells := Spells.symbol (hne '\\'.toNat (by decide)) (hne '['.toNat (by decide))
  rwa [ofSymbol_eq_literal h] at hspells

theorem denotes_ofSymbol {c : Nat} (hc : c ≠ '\\'.toNat) (hclass : c ≠ '['.toNat) :
    (ofSymbol c).Denotes [c] := by
  by_cases hsign : c ∈ signs
  · simp only [signs, List.map_cons, List.map_nil, List.mem_cons, List.not_mem_nil,
      or_false] at hsign
    rcases hsign with rfl | rfl | rfl | rfl | rfl | rfl | rfl | rfl | rfl | rfl | rfl
    · exact rfl
    · exact rfl
    · exact rfl
    · exact rfl
    · exact rfl
    · exact rfl
    · exact fun _ => .any
    · exact fun _ => .start
    · exact fun _ => .stop
    · exact absurd rfl hclass
    · exact absurd rfl hc
  · rw [ofSymbol_eq_literal hsign]
    exact fun _ => .literal hsign

theorem Spells.denotes (h : Spells w t) : t.Denotes w := by
  cases h with
  | symbol hc hopen => exact denotes_ofSymbol hc hopen
  | escape hmeans => exact fun _ => .escape hmeans
  | symbolClass hbody => exact fun _ => .symbolClass hbody

end Token

/-! ## Frames -/

namespace Pattern

/-- The symbols of an expression that may be missing. -/
def ReadAs (phrase : Phrase) (budget : Nat) (cs : List Nat) : Option Regex → Prop
  | none => cs = []
  | some r => Derives phrase budget cs r

theorem ReadAs.once {r? : Option Regex} (h : ReadAs .atom budget cs r?) :
    ReadAs .repetition budget cs r? := by
  cases r? with
  | none => exact h
  | some r => exact Derives.once h

namespace Frame

variable {f f' : Frame} {front mid last : List Nat}

/-- The symbols up to the last bar. -/
def ReadBars (budget : Nat) (front : List Nat) (f : Frame) : Prop :=
  match f.branches with
  | none => front = []
  | some (l, _) => ∃ cs, front = cs ++ ['|'.toNat] ∧ Derives .branches budget cs l

/-- The symbols that a frame has read. -/
inductive HasRead (budget : Nat) (f : Frame) : List Nat → Prop
  | mk {front mid last : List Nat} : f.ReadBars budget front →
      ReadAs .sequence budget mid f.branch → ReadAs .atom budget last f.pending →
      HasRead budget f (front ++ (mid ++ last))

theorem readAs_none (phrase : Phrase) (budget : Nat) : ReadAs phrase budget [] none := rfl

theorem hasRead_fresh (budget pos : Nat) : (fresh pos).HasRead budget [] := by
  have hbars : (fresh pos).ReadBars budget [] := rfl
  exact .mk hbars (readAs_none .sequence budget) (readAs_none .atom budget)

/-- What is pending ends the branch. -/
theorem readAs_wholeBranch (hmid : ReadAs .sequence budget mid f.branch)
    (hlast : ReadAs .repetition budget last f.pending) :
    ReadAs .sequence budget (mid ++ last) f.wholeBranch := by
  obtain ⟨opened, branches, branch, pending⟩ := f
  cases pending with
  | none =>
      obtain rfl : last = [] := hlast
      rwa [List.append_nil]
  | some r =>
      cases branch with
      | none =>
          obtain rfl : mid = [] := hmid
          exact .single hlast
      | some l => exact .append hmid hlast

/-- A branch behind all bars makes the frame's branches complete. -/
theorem ReadBars.joined (h : f.ReadBars budget front) (hr : Derives .sequence budget mid r) :
    Derives .branches budget (front ++ mid) (f.joined r) := by
  obtain ⟨opened, branches, branch, pending⟩ := f
  cases branches with
  | none =>
      obtain rfl : front = [] := h
      exact .branch hr
  | some bars =>
      obtain ⟨cs, rfl, hl⟩ := h
      rw [List.append_assoc]
      exact .bar hl hr

theorem HasRead.atom (h : f.HasRead budget cs) (hr : Derives .atom budget w r) :
    (f.atom r).HasRead budget (cs ++ w) := by
  obtain ⟨hfront, hmid, hlast⟩ := h
  rw [List.append_assoc]
  exact .mk hfront (readAs_wholeBranch hmid hlast.once) hr

theorem HasRead.quantify {q : Quantifier} (h : f.HasRead budget cs)
    (hq : f.quantify q pos = .ok f') : f'.HasRead budget (cs ++ [quantifierSign q]) := by
  obtain ⟨hfront, hmid, hlast⟩ := h
  obtain ⟨opened, branches, branch, pending⟩ := f
  cases pending with
  | none => cases hq
  | some r =>
      unfold Frame.quantify at hq
      dsimp only at hq
      split at hq
      · cases hq
      · rename_i hanchor
        cases hq
        have hrepeat := Derives.quantified q hlast (Bool.eq_false_iff.mpr hanchor)
        have hwhole := readAs_wholeBranch (f := ⟨opened, branches, branch, some (q.apply r)⟩)
          hmid hrepeat
        have hread := HasRead.mk (f := ⟨opened, branches, Frame.wholeBranch _, none⟩) hfront
          hwhole (readAs_none .atom budget)
        rw [List.append_nil] at hread
        rwa [List.append_assoc, List.append_assoc]

theorem HasRead.bar (h : f.HasRead budget cs) (hbar : f.bar pos = .ok f') :
    f'.HasRead budget (cs ++ ['|'.toNat]) := by
  obtain ⟨hfront, hmid, hlast⟩ := h
  have hwhole := readAs_wholeBranch hmid hlast.once
  unfold Frame.bar at hbar
  split at hbar
  · rename_i r hr
    cases hbar
    rw [hr] at hwhole
    have hfront' : ReadBars budget _ ⟨f.opened, some (f.joined r, pos), none, none⟩ :=
      ⟨_, rfl, hfront.joined hwhole⟩
    have hread := HasRead.mk hfront' (readAs_none .sequence budget) (readAs_none .atom budget)
    rwa [List.append_nil, List.append_nil] at hread
  · cases hbar
  · cases hbar

theorem HasRead.finish (h : f.HasRead budget cs) (hfinish : f.finish = .ok r) :
    Derives .alternation budget cs r := by
  obtain ⟨hfront, hmid, hlast⟩ := h
  have hwhole := readAs_wholeBranch hmid hlast.once
  unfold Frame.finish at hfinish
  split at hfinish
  · rename_i r' hr
    cases hfinish
    rw [hr] at hwhole
    exact .alternation (hfront.joined hwhole)
  · rename_i hnone hbranches
    cases hfinish
    rw [hnone] at hwhole
    rw [ReadBars, hbranches] at hfront
    obtain rfl := hfront
    rw [List.nil_append, hwhole]
    exact .empty
  · cases hfinish

end Frame

/-! ## The stack of frames -/

/-- The symbols that have been read, those of the current frame and the openings of
its group and of the groups around it included. -/
inductive Progress.HasRead : Nat → Frame → List Frame → List Nat → Prop
  | outermost {f : Frame} {cs : List Nat} : f.HasRead maxNesting cs →
      HasRead maxNesting f [] cs
  | group {budget : Nat} {outer f : Frame} {enclosing : List Frame} {front cs : List Nat} :
      HasRead (budget + 1) outer enclosing front → f.HasRead budget cs →
      HasRead budget f (outer :: enclosing) (front ++ '('.toNat :: cs)

namespace Progress

variable {f f' : Frame} {enclosing : List Frame} {p p' : Progress}

/-- What is left of the budget is what has not been opened. -/
theorem HasRead.budget_eq (h : HasRead budget f enclosing cs) :
    budget + enclosing.length = maxNesting := by
  induction h with
  | outermost _ => rfl
  | group _ _ ih =>
      rw [List.length_cons]
      omega

/-- Without open groups all has been read by the current frame. -/
theorem HasRead.outermost_hasRead (h : HasRead budget f [] cs) : f.HasRead maxNesting cs := by
  cases h with
  | outermost hf => exact hf

/-- The current frame reads on. -/
theorem HasRead.extend (h : HasRead budget f enclosing cs)
    (hf : ∀ ds, f.HasRead budget ds → f'.HasRead budget (ds ++ w)) :
    HasRead budget f' enclosing (cs ++ w) := by
  cases h with
  | outermost h => exact .outermost (hf _ h)
  | group houter h =>
      rw [List.append_assoc]
      exact .group houter (hf _ h)

/-- One token adds its spelling to what has been read. -/
theorem HasRead.step {pos : Nat} (h : HasRead budget p.current p.enclosing cs)
    (ht : t.Denotes w) (hstep : p.step ⟨pos, t⟩ = .ok p') :
    ∃ budget', HasRead budget' p'.current p'.enclosing (cs ++ w) := by
  obtain ⟨current, enclosing⟩ := p
  cases t with
  | atom r =>
      cases hstep
      exact ⟨budget, h.extend fun ds hf => hf.atom (ht budget)⟩
  | quantifier q =>
      obtain rfl : w = [quantifierSign q] := ht
      unfold Progress.step at hstep
      dsimp only at hstep
      split at hstep
      · cases hstep
      · rename_i next hnext
        cases hstep
        exact ⟨budget, h.extend fun ds hf => hf.quantify hnext⟩
  | bar =>
      obtain rfl : w = ['|'.toNat] := ht
      unfold Progress.step at hstep
      dsimp only at hstep
      split at hstep
      · cases hstep
      · rename_i next hnext
        cases hstep
        exact ⟨budget, h.extend fun ds hf => hf.bar hnext⟩
  | groupOpen =>
      obtain rfl : w = ['('.toNat] := ht
      unfold Progress.step at hstep
      dsimp only at hstep
      split at hstep
      · cases hstep
      · rename_i hdepth
        cases hstep
        have hbudget := h.budget_eq
        obtain ⟨inner, rfl⟩ : ∃ inner, budget = inner + 1 := ⟨budget - 1, by
          dsimp only at hbudget
          omega⟩
        exact ⟨inner, .group h (Frame.hasRead_fresh inner pos)⟩
  | groupClose =>
      obtain rfl : w = [')'.toNat] := ht
      unfold Progress.step at hstep
      dsimp only at hstep
      split at hstep
      · cases hstep
      · cases hstep
      · rename_i r outer enclosing hr
        cases hstep
        cases h with
        | group houter hf =>
            refine ⟨budget + 1, ?_⟩
            have hgroup := houter.extend fun ds hd => hd.atom (.group (hf.finish hr))
            rwa [List.append_assoc, List.cons_append]
  | fault e => exact ht.elim

/-- A run adds the spellings of all tokens to what has been read. -/
theorem HasRead.run {tokens : List (Placed Token)}
    (h : HasRead budget p.current p.enclosing cs) (hlex : Token.Lex ds (tokens.map (·.item)))
    (hrun : p.run tokens = .ok p') :
    ∃ budget', HasRead budget' p'.current p'.enclosing (cs ++ ds) := by
  induction tokens generalizing p budget cs ds with
  | nil =>
      cases hlex
      cases hrun
      rw [List.append_nil]
      exact ⟨budget, h⟩
  | cons t rest ih =>
      cases hlex with
      | cons hw hlex =>
          rw [Progress.run] at hrun
          split at hrun
          · cases hrun
          · rename_i next hnext
            obtain ⟨budget', hread⟩ := h.step hw.denotes hnext
            rw [← List.append_assoc]
            exact ih hread hlex hrun

/-- A run to the end has met no fault. -/
theorem fault_not_mem_of_run {tokens : List (Placed Token)} (hrun : p.run tokens = .ok p')
    (e : SyntaxError) : .fault e ∉ tokens.map (·.item) := by
  induction tokens generalizing p with
  | nil => exact List.not_mem_nil
  | cons t rest ih =>
      rw [Progress.run] at hrun
      split at hrun
      · cases hrun
      · rename_i next hnext
        intro hmem
        rcases List.mem_cons.mp hmem with heq | hmem
        · have hitem : t.item = .fault e := heq.symm
          rw [Progress.step, hitem] at hnext
          cases hnext
        · exact ih hrun hmem

end Progress

/-- What is parsed is a pattern, and denotes what it is parsed to. -/
theorem derives_of_parseRegex {source : Text} (h : parseRegex source = .ok r) :
    Derives .alternation maxNesting source.symbols r := by
  unfold parseRegex at h
  split at h
  · cases h
  · rename_i p hrun
    have hlex := Token.Lex.of_items source 0 source.symbols (Progress.fault_not_mem_of_run hrun)
    have hinitial : Progress.HasRead maxNesting Progress.initial.current
        Progress.initial.enclosing [] := .outermost (Frame.hasRead_fresh maxNesting 0)
    obtain ⟨budget, hread⟩ := hinitial.run hlex hrun
    obtain ⟨current, enclosing⟩ := p
    unfold Progress.finish at h
    split at h
    · cases h
    · rename_i r' hr henclosing
      cases h
      dsimp only at henclosing
      subst henclosing
      exact hread.outermost_hasRead.finish hr
    · cases h

end Pattern

end RegexEngine
