/-
# Every pattern is parsed

A derivation cuts its symbols into tokens, and these tokens, read from any frame that
has budget enough for their groups, leave the frames around untouched and extend the
current one by the phrase.  What that means depends on the kind of the phrase
(`Phrase.Extends`): an atom is left pending, a repetition is the end of the branch, a
sequence is the branch of a frame that had none, and so on up to the alternation,
which is what the frame is finished to.

With the soundness of the parser this makes parsing and deriving the same, and the
expression of a pattern unique.
-/
import RegexEngine.Proofs.Pattern.Soundness

namespace RegexEngine

open Token (Lex Spells)

namespace Pattern

variable {budget : Nat} {cs ds w : List Nat} {r l : Regex} {ts us : List Token} {f f' : Frame}
  {enclosing : List Frame}

/-! ## Runs of tokens, wherever they are placed -/

/-- The tokens, placed anywhere, are read to the end, and within the frames around.
What becomes of the current frame is in `Q`. -/
def Runs (ts : List Token) (f : Frame) (enclosing : List Frame) (Q : Frame → Prop) : Prop :=
  ∀ placed : List (Placed Token), placed.map (·.item) = ts →
    ∃ f', Progress.run ⟨f, enclosing⟩ placed = .ok ⟨f', enclosing⟩ ∧ Q f'

theorem Runs.mono {Q Q' : Frame → Prop} (h : Runs ts f enclosing Q) (hQ : ∀ f', Q f' → Q' f') :
    Runs ts f enclosing Q' := by
  intro placed hplaced
  obtain ⟨f', hrun, hf'⟩ := h placed hplaced
  exact ⟨f', hrun, hQ f' hf'⟩

theorem Runs.append {Q Q' : Frame → Prop} (h : Runs ts f enclosing Q)
    (h' : ∀ f', Q f' → Runs us f' enclosing Q') : Runs (ts ++ us) f enclosing Q' := by
  intro placed hplaced
  obtain ⟨front, back, rfl, hfront, hback⟩ := List.map_eq_append_iff.mp hplaced
  obtain ⟨f', hrun, hf'⟩ := h front hfront
  obtain ⟨f'', hrun', hf''⟩ := h' f' hf' back hback
  refine ⟨f'', ?_, hf''⟩
  rw [Progress.run_append, hrun]
  exact hrun'

/-- One token that stays in its frame. -/
theorem Runs.single {t : Token} {Q : Frame → Prop}
    (h : ∀ pos, ∃ f', Progress.step ⟨f, enclosing⟩ ⟨pos, t⟩ = .ok ⟨f', enclosing⟩ ∧ Q f') :
    Runs [t] f enclosing Q := by
  intro placed hplaced
  obtain ⟨⟨pos, item⟩, rest, rfl, hitem, hrest⟩ := List.map_eq_cons_iff.mp hplaced
  obtain rfl : item = t := hitem
  obtain rfl := List.map_eq_nil_iff.mp hrest
  obtain ⟨f', hstep, hf'⟩ := h pos
  refine ⟨f', ?_, hf'⟩
  rw [Progress.run, hstep]
  rfl

theorem Runs.nil : Runs [] f enclosing (· = f) := by
  intro placed hplaced
  obtain rfl := List.map_eq_nil_iff.mp hplaced
  exact ⟨f, rfl, rfl⟩

theorem Runs.atom : Runs [.atom r] f enclosing (· = f.atom r) :=
  .single fun _ => ⟨_, rfl, rfl⟩

/-- A group is an atom of the frame around it. -/
theorem Runs.group (hdepth : enclosing.length < maxNesting)
    (h : ∀ pos, Runs ts (.fresh pos) (f :: enclosing) fun f' => f'.finish = .ok r) :
    Runs (.groupOpen :: (ts ++ [.groupClose])) f enclosing (· = f.atom r) := by
  intro placed hplaced
  obtain ⟨⟨pos, item⟩, tail, rfl, hitem, htail⟩ := List.map_eq_cons_iff.mp hplaced
  obtain rfl : item = .groupOpen := hitem
  obtain ⟨inner, back, rfl, hinner, hback⟩ := List.map_eq_append_iff.mp htail
  obtain ⟨⟨pos', item'⟩, rest, rfl, hitem', hrest⟩ := List.map_eq_cons_iff.mp hback
  obtain rfl : item' = .groupClose := hitem'
  obtain rfl := List.map_eq_nil_iff.mp hrest
  obtain ⟨f', hrun, hfinish⟩ := h pos inner hinner
  refine ⟨f.atom r, ?_, rfl⟩
  have hopen : Progress.step ⟨f, enclosing⟩ ⟨pos, .groupOpen⟩ =
      .ok ⟨.fresh pos, f :: enclosing⟩ := if_neg (Nat.not_le.mpr hdepth)
  have hclose : Progress.step ⟨f', f :: enclosing⟩ ⟨pos', .groupClose⟩ =
      .ok ⟨f.atom r, enclosing⟩ := by
    rw [Progress.step]
    dsimp only
    rw [hfinish]
  rw [Progress.run, hopen]
  dsimp only
  rw [Progress.run_append, hrun]
  dsimp only
  rw [Progress.run, hclose]
  rfl

/-! ## What a phrase does to a frame -/

/-- The current branch, with a repetition at its end. -/
def Frame.extended (f : Frame) (r : Regex) : Regex :=
  match f.wholeBranch with
  | none => r
  | some l => .concat l r

/-- Where a phrase can begin. -/
def Phrase.BeginsIn (f : Frame) : Phrase → Prop
  | .atom | .repetition => True
  | .sequence => f.wholeBranch = none
  | .branches | .alternation => f.branches = none ∧ f.wholeBranch = none

/-- What reading a phrase makes of a frame. -/
def Phrase.Extends (r : Regex) (f f' : Frame) : Phrase → Prop
  | .atom => f' = f.atom r
  | .repetition => f'.branches = f.branches ∧ f'.wholeBranch = some (f.extended r)
  | .sequence => f'.branches = f.branches ∧ f'.wholeBranch = some r
  | .branches => ∃ last, f'.wholeBranch = some last ∧ f'.joined last = r
  | .alternation => f'.finish = .ok r

theorem wholeBranch_atom (f : Frame) (r : Regex) :
    (f.atom r).wholeBranch = some (f.extended r) := by
  unfold Frame.extended Frame.atom
  cases f.wholeBranch <;> rfl

theorem spells_quantifier (q : Quantifier) : Spells [quantifierSign q] (.quantifier q) := by
  cases q with
  | star => exact .symbol (by decide) (by decide)
  | plus => exact .symbol (by decide) (by decide)
  | optional => exact .symbol (by decide) (by decide)

/-- A quantifier behind an atom closes the atom to further quantifiers. -/
theorem Runs.quantifier (q : Quantifier) (hanchor : r.isAnchor = false) :
    Runs [.quantifier q] (f.atom r) enclosing fun f' =>
      Phrase.Extends (q.apply r) f f' .repetition := by
  refine .single fun pos => ⟨⟨f.opened, f.branches, (f.atom (q.apply r)).wholeBranch, none⟩, ?_,
    rfl, wholeBranch_atom f (q.apply r)⟩
  have hpending : (f.atom r).pending = some r := rfl
  rw [Progress.step]
  dsimp only
  rw [Frame.quantify, hpending]
  dsimp only
  rw [hanchor, if_neg Bool.false_ne_true]
  rfl

/-- A bar behind a branch. -/
theorem Runs.bar {last : Regex} (hlast : f.wholeBranch = some last) :
    Runs [.bar] f enclosing fun f' =>
      f'.wholeBranch = none ∧ ∀ r, f'.joined r = .alternate (f.joined last) r := by
  refine .single fun pos => ⟨⟨f.opened, some (f.joined last, pos), none, none⟩, ?_, rfl,
    fun _ => rfl⟩
  rw [Progress.step]
  dsimp only
  rw [Frame.bar, hlast]

theorem Frame.joined_congr (h : f'.branches = f.branches) : f'.joined = f.joined := by
  funext r
  rw [Frame.joined, h]
  rfl

theorem Frame.finish_eq_ok {last : Regex} (h : f.wholeBranch = some last) :
    f.finish = .ok (f.joined last) := by
  rw [Frame.finish, h]

/-! ## From derivations to runs -/

/-- A phrase is cut into tokens that are read as the phrase. -/
def Phrase.IsRead (phrase : Phrase) (budget : Nat) (cs : List Nat) (r : Regex) : Prop :=
  ∃ ts, Lex cs ts ∧ ∀ f enclosing, enclosing.length + budget ≤ maxNesting → phrase.BeginsIn f →
    Runs ts f enclosing fun f' => phrase.Extends r f f'

namespace Phrase.IsRead

theorem of_spells (h : Spells cs (.atom r)) : Phrase.atom.IsRead budget cs r :=
  ⟨[.atom r], .of_spells h, fun _ _ _ _ => .atom⟩

/-- The frame of the group is one more to count, which the budget of the atom allows. -/
theorem group (h : Phrase.alternation.IsRead budget cs r) :
    Phrase.atom.IsRead (budget + 1) ('('.toNat :: (cs ++ [')'.toNat])) r := by
  obtain ⟨ts, hlex, hruns⟩ := h
  have hopen : Spells ['('.toNat] .groupOpen := .symbol (by decide) (by decide)
  have hclose : Spells [')'.toNat] .groupClose := .symbol (by decide) (by decide)
  refine ⟨_, .cons hopen (hlex.append (.of_spells hclose)), ?_⟩
  intro f enclosing hbudget _
  refine .group (by omega) ?_
  intro pos
  refine hruns (.fresh pos) (f :: enclosing) ?_ ⟨rfl, rfl⟩
  rw [List.length_cons]
  omega

theorem once (h : Phrase.atom.IsRead budget cs r) : Phrase.repetition.IsRead budget cs r := by
  obtain ⟨ts, hlex, hruns⟩ := h
  refine ⟨ts, hlex, ?_⟩
  intro f enclosing hbudget hbegin
  refine (hruns f enclosing hbudget hbegin).mono ?_
  rintro _ rfl
  exact ⟨rfl, wholeBranch_atom f r⟩

theorem quantified (q : Quantifier) (h : Phrase.atom.IsRead budget cs r)
    (hanchor : r.isAnchor = false) :
    Phrase.repetition.IsRead budget (cs ++ [quantifierSign q]) (q.apply r) := by
  obtain ⟨ts, hlex, hruns⟩ := h
  refine ⟨_, hlex.append (.of_spells (spells_quantifier q)), ?_⟩
  intro f enclosing hbudget hbegin
  refine (hruns f enclosing hbudget hbegin).append ?_
  rintro _ rfl
  exact .quantifier q hanchor

theorem single (h : Phrase.repetition.IsRead budget cs r) :
    Phrase.sequence.IsRead budget cs r := by
  obtain ⟨ts, hlex, hruns⟩ := h
  refine ⟨ts, hlex, ?_⟩
  intro f enclosing hbudget hnone
  refine (hruns f enclosing hbudget trivial).mono ?_
  rintro f' ⟨hbranches, hwhole⟩
  rw [Frame.extended, hnone] at hwhole
  exact ⟨hbranches, hwhole⟩

theorem append (hl : Phrase.sequence.IsRead budget cs l)
    (hr : Phrase.repetition.IsRead budget ds r) :
    Phrase.sequence.IsRead budget (cs ++ ds) (.concat l r) := by
  obtain ⟨ts, hlex, hruns⟩ := hl
  obtain ⟨us, hlex', hruns'⟩ := hr
  refine ⟨ts ++ us, hlex.append hlex', ?_⟩
  intro f enclosing hbudget hbegin
  refine (hruns f enclosing hbudget hbegin).append ?_
  rintro f' ⟨hbranches, hwhole⟩
  refine (hruns' f' enclosing hbudget trivial).mono ?_
  rintro g ⟨hbranches', hwhole'⟩
  rw [Frame.extended, hwhole] at hwhole'
  exact ⟨hbranches'.trans hbranches, hwhole'⟩

theorem branch (h : Phrase.sequence.IsRead budget cs r) : Phrase.branches.IsRead budget cs r := by
  obtain ⟨ts, hlex, hruns⟩ := h
  refine ⟨ts, hlex, ?_⟩
  intro f enclosing hbudget hbegin
  refine (hruns f enclosing hbudget hbegin.2).mono ?_
  rintro f' ⟨hbranches, hwhole⟩
  refine ⟨r, hwhole, ?_⟩
  rw [Frame.joined, hbranches, hbegin.1]

theorem bar (hl : Phrase.branches.IsRead budget cs l) (hr : Phrase.sequence.IsRead budget ds r) :
    Phrase.branches.IsRead budget (cs ++ '|'.toNat :: ds) (.alternate l r) := by
  obtain ⟨ts, hlex, hruns⟩ := hl
  obtain ⟨us, hlex', hruns'⟩ := hr
  have hbar : Spells ['|'.toNat] .bar := .symbol (by decide) (by decide)
  refine ⟨_, hlex.append (.cons hbar hlex'), ?_⟩
  intro f enclosing hbudget hbegin
  refine (hruns f enclosing hbudget hbegin).append ?_
  rintro f' ⟨last, hwhole, hjoined⟩
  refine (Runs.bar hwhole).append ?_
  rintro g ⟨hnone, hjoined'⟩
  refine (hruns' g enclosing hbudget hnone).mono ?_
  rintro g' ⟨hbranches, hwhole'⟩
  refine ⟨r, hwhole', ?_⟩
  rw [Frame.joined_congr hbranches, hjoined', hjoined]

theorem empty : Phrase.alternation.IsRead budget [] .empty := by
  refine ⟨[], .nil, ?_⟩
  intro f enclosing _ hbegin
  refine Runs.nil.mono ?_
  rintro _ rfl
  show Frame.finish _ = _
  rw [Frame.finish, hbegin.1, hbegin.2]

theorem alternation (h : Phrase.branches.IsRead budget cs r) :
    Phrase.alternation.IsRead budget cs r := by
  obtain ⟨ts, hlex, hruns⟩ := h
  refine ⟨ts, hlex, ?_⟩
  intro f enclosing hbudget hbegin
  refine (hruns f enclosing hbudget hbegin).mono ?_
  rintro f' ⟨last, hwhole, hjoined⟩
  rw [← hjoined]
  exact Frame.finish_eq_ok hwhole

end Phrase.IsRead

/-- Every phrase is read, in any frame where it can begin. -/
theorem Derives.isRead {phrase : Phrase} (h : Derives phrase budget cs r) :
    phrase.IsRead budget cs r := by
  induction h with
  | any => exact .of_spells (.symbol (by decide) (by decide))
  | start => exact .of_spells (.symbol (by decide) (by decide))
  | stop => exact .of_spells (.symbol (by decide) (by decide))
  | symbolClass hbody => exact .of_spells (.symbolClass hbody)
  | escape hmeans => exact .of_spells (.escape hmeans)
  | literal hc => exact .of_spells (.literal hc)
  | group _ ih => exact .group ih
  | once _ ih => exact .once ih
  | quantified q _ hanchor ih => exact .quantified q ih hanchor
  | single _ ih => exact .single ih
  | append _ _ ihl ihr => exact .append ihl ihr
  | branch _ ih => exact .branch ih
  | bar _ _ ihl ihr => exact .bar ihl ihr
  | empty => exact .empty
  | alternation _ ih => exact .alternation ih

/-- Every pattern is parsed, and to what it denotes. -/
theorem parseRegex_of_derives {source : Text}
    (h : Derives .alternation maxNesting source.symbols r) : parseRegex source = .ok r := by
  obtain ⟨ts, hlex, hruns⟩ := h.isRead
  have hbudget : ([] : List Frame).length + maxNesting ≤ maxNesting := Nat.le_of_eq (Nat.zero_add _)
  obtain ⟨f', hrun, hfinish⟩ :=
    hruns (.fresh 0) [] hbudget ⟨rfl, rfl⟩ (Token.ofSource source) (hlex.items_eq source 0)
  have hfinish' : f'.finish = .ok r := hfinish
  rw [parseRegex, Progress.initial, hrun]
  dsimp only
  rw [Progress.finish, hfinish']

/-- The parser accepts the patterns of the grammar, each with the expression that it
denotes, and a pattern denotes no other expression. -/
theorem parseRegex_iff_derives (source : Text) :
    (∀ r, parseRegex source = .ok r ↔ Derives .alternation 500 source.symbols r) ∧
      ∀ r r', Derives .alternation 500 source.symbols r →
        Derives .alternation 500 source.symbols r' → r = r' := by
  refine ⟨fun r => ⟨derives_of_parseRegex, parseRegex_of_derives⟩, ?_⟩
  intro r r' h h'
  exact Except.ok.inj ((parseRegex_of_derives h).symm.trans (parseRegex_of_derives h'))

end Pattern

end RegexEngine
