/-
# `Descent.parse` — the descent reads the same patterns

The library reads tokens onto a stack of frames; `Descent` calls one reader from within
another.  What both have still to do at an offset is the outcome of the tokens from there
on (`Progress.outcome`), and each reader is described by what it does to that outcome:

    throws an error     the outcome is this error
    reads on to `q`     the outcome is that of another frame, from `q` on
    traps               never

The other frame differs from the one before by the phrase that was read and nothing else.
A frame may keep its last atom pending, but only where a quantifier could follow does it
matter (`Frame.Settled`); everywhere else a reader needs to know no more of a frame than
its branch.

The readers of one group agree with the tokens if the readers of the groups in it do, so
agreement goes up along the nesting budget (`readsGroups_readGroup`), and `parse_eq` is the
whole source.
-/
import RegexEngine.Proofs.Pattern.ClassDescent
import RegexEngine.Proofs.Pattern.Completeness

namespace RegexEngine

open Glyph (Under)
open Pattern (Frame Progress maxNesting quantifierSign)

variable {source : Text} {p q c s : Nat}

/-! ## Tokens under a cursor -/

namespace Token

/-- The tokens from an offset on. -/
def scanFrom (source : Text) (p : Nat) : List (Placed Token) :=
  scan source (Glyph.scanFrom source p)

theorem scanFrom_of_ge (h : source.length ≤ p) : scanFrom source p = [] := by
  rw [scanFrom, Glyph.scanFrom_of_ge h, scan]

theorem scanFrom_symbol (h : Under source p (.plain c) q) (hc : c ≠ '['.toNat) :
    scanFrom source p = ⟨p, ofSymbol c⟩ :: scanFrom source q := by
  rw [scanFrom, h.scanFrom_eq, scan_symbol hc, scanFrom]

theorem scanFrom_sign (hs : s < 0xD800) (hescape : s ≠ '\\'.toNat) (hopen : s ≠ '['.toNat)
    (hunit : source.unitAt? p = some s) :
    scanFrom source p = ⟨p, ofSymbol s⟩ :: scanFrom source (p + 1) :=
  scanFrom_symbol (Glyph.under_plain hs hescape hunit) hopen

theorem scanFrom_escaped (h : Under source p (.escaped c) q) :
    scanFrom source p = ⟨p, .atom (.symbol (Escape.ofSymbol c).toSet)⟩ :: scanFrom source q := by
  rw [scanFrom, h.scanFrom_eq, scan_escaped, scanFrom]

theorem scanFrom_lone (h : Under source p .loneBackslash q) :
    scanFrom source p = [⟨p, .fault (.ofUnit .trailingEscape p)⟩] := by
  rw [scanFrom, h.scanFrom_eq, scan_lone]

end Token

open Token (scanFrom)

namespace Pattern

/-! ## Outcomes -/

/-- What comes of the tokens from an offset on. -/
def Progress.outcome (source : Text) (p : Nat) (progress : Progress) : Except SyntaxError Regex :=
  match progress.run (scanFrom source p) with
  | .error e => .error e
  | .ok after => after.finish source

variable {f f' : Frame} {enclosing : List Frame} {progress next : Progress} {e : SyntaxError}
  {t : Token} {r : Regex}

theorem Progress.outcome_of_ge (h : source.length ≤ p) :
    progress.outcome source p = progress.finish source := by
  rw [outcome, Token.scanFrom_of_ge h, run]

/-- A token that is read leaves the outcome to what it makes of the frames. -/
theorem Progress.outcome_of_step (h : scanFrom source p = ⟨p, t⟩ :: scanFrom source q)
    (hstep : progress.step ⟨p, t⟩ = .ok next) :
    progress.outcome source p = next.outcome source q := by
  rw [outcome, h, run, hstep, outcome]

theorem Progress.outcome_of_step_error {rest : List (Placed Token)}
    (h : scanFrom source p = ⟨p, t⟩ :: rest) (hstep : progress.step ⟨p, t⟩ = .error e) :
    progress.outcome source p = .error e := by
  rw [outcome, h, run, hstep]

theorem Progress.step_quantifier (f : Frame) (enclosing : List Frame) (sign : Quantifier) :
    step ⟨f, enclosing⟩ ⟨p, .quantifier sign⟩ = (f.quantify sign p).map (⟨·, enclosing⟩) := by
  rw [step]
  dsimp only
  cases f.quantify sign p <;> rfl

theorem Progress.step_bar (f : Frame) (enclosing : List Frame) :
    step ⟨f, enclosing⟩ ⟨p, .bar⟩ = (f.bar p).map (⟨·, enclosing⟩) := by
  rw [step]
  dsimp only
  cases f.bar p <;> rfl

theorem Progress.step_groupClose (f : Frame) (enclosing : List Frame) :
    step ⟨f, enclosing⟩ ⟨p, .groupClose⟩ = f.finish.bind fun r =>
      match enclosing with
      | [] => .error (.ofUnit .unmatchedParen p)
      | outer :: rest => .ok ⟨outer.atom r, rest⟩ := by
  rw [step]
  dsimp only
  cases f.finish with
  | error e => rfl
  | ok r => cases enclosing <;> rfl

/-- No quantifier under the cursor can reach an atom of the frame. -/
def Frame.Settled (source : Text) (p : Nat) (f : Frame) : Prop :=
  f.pending = none ∨ Descent.quantifierAt? source p = none

end Pattern

namespace Descent

open Pattern (Frame.Settled)

variable {f f' : Frame} {enclosing : List Frame} {group : Nat → Except Thrown (Regex × Nat)}
  {sign : Quantifier} {r : Regex}

theorem quantifierAt?_eq_some_iff :
    quantifierAt? source p = some sign ↔ source.unitAt? p = some (quantifierSign sign) := by
  unfold quantifierAt?
  constructor
  · intro h
    split at h
    · cases h
      assumption
    · split at h
      · cases h
        assumption
      · split at h
        · cases h
          assumption
        · cases h
  · intro h
    rw [h]
    cases sign <;> rfl

/-! ## Atoms -/

/-- The outcome behind an atom is that of the frame with the atom in it. -/
def AtomDue (source : Text) (p : Nat) (enclosing : List Frame) (f : Frame) (r : Regex) (q : Nat) :
    Prop :=
  p < q ∧ q ≤ source.length ∧
    Progress.outcome source p ⟨f, enclosing⟩ = Progress.outcome source q ⟨f.atom r, enclosing⟩

/-- Groups are read as atoms of any frame within the enclosing ones. -/
def ReadsGroups (source : Text) (enclosing : List Frame)
    (group : Nat → Except Thrown (Regex × Nat)) : Prop :=
  ∀ p, source.unitAt? p = some '('.toNat → ∀ f,
    Delivers (Progress.outcome source p ⟨f, enclosing⟩) (AtomDue source p enclosing f) (group p)

/-- One token that is an atom. -/
theorem atomDue_of_token {t : Token} (hp : p < q) (hq : q ≤ source.length)
    (h : scanFrom source p = ⟨p, t⟩ :: scanFrom source q) (ht : t = .atom r) :
    AtomDue source p enclosing f r q := by
  refine ⟨hp, hq, Progress.outcome_of_step h ?_⟩
  rw [ht]
  rfl

/-- A sign that is an atom of its own. -/
theorem atomDue_of_sign (hs : s < 0xD800) (hescape : s ≠ '\\'.toNat) (hopen : s ≠ '['.toNat)
    (hunit : source.unitAt? p = some s) (hr : Token.ofSymbol s = .atom r) :
    AtomDue source p enclosing f r (p + 1) :=
  atomDue_of_token (Nat.lt_succ_self p) (Text.lt_length_of_unitAt? hunit)
    (Token.scanFrom_sign hs hescape hopen hunit) hr

/-- A class under the cursor is an atom. -/
theorem delivers_class (hunit : source.unitAt? p = some '['.toNat) :
    Delivers (Progress.outcome source p ⟨f, enclosing⟩)
      (fun k q => AtomDue source p enclosing f (.symbol (.among k)) q) (readClass source p) := by
  have hunder := Glyph.under_plain (by decide) (by decide) hunit
  have hscan : scanFrom source p =
      Token.scan source (⟨p, .plain '['.toNat⟩ :: Glyph.scanFrom source (p + 1)) := by
    rw [scanFrom, hunder.scanFrom_eq]
  have hclass := delivers_readClass source p
  generalize readClass source p = result at hclass
  cases hclass with
  | fault hfault =>
      rw [Token.scan_class_fault hfault] at hscan
      exact .fault (Progress.outcome_of_step_error hscan rfl)
  | read hdue =>
      obtain ⟨hlt, hle, hread⟩ := hdue
      rw [Token.scan_class hread] at hscan
      exact .read (atomDue_of_token hlt hle hscan rfl)

/-- An escape under the cursor is an atom. -/
theorem delivers_escape (hunit : source.unitAt? p = some '\\'.toNat) :
    Delivers (Progress.outcome source p ⟨f, enclosing⟩)
      (fun escape q => AtomDue source p enclosing f (.symbol escape.toSet) q)
      (readEscape source p) := by
  obtain ⟨g, q, hg⟩ := Glyph.exists_under (Text.lt_length_of_unitAt? hunit)
  have hlt := hg.lt
  have hle := hg.le_length
  cases hg with
  | plain hread hc =>
      have hread' := (Text.unitAt?_eq_some_iff (by decide)).mp hunit
      exact absurd (hread.unique hread').1 hc
  | escaped hread hread' =>
      rw [readEscape_eq hread']
      exact .read (atomDue_of_token hlt hle (Token.scanFrom_escaped (.escaped hread hread')) rfl)
  | lone hread hend =>
      rw [readEscape_lone hend]
      exact .fault (Progress.outcome_of_step_error (Token.scanFrom_lone (.lone hread hend)) rfl)

/-- The symbol under the cursor, where it is a sign. -/
theorem unitAt?_of_mem_signs (h : Under source p (.plain c) q) (hc : c ∈ Pattern.signs) :
    source.unitAt? p = some c := by
  have hlow : ∀ s ∈ Pattern.signs, s < 0xD800 := by decide
  cases h with
  | plain hread _ => exact hread.unitAt? (Nat.le_of_lt_succ (Nat.lt_trans (hlow c hc) (by decide)))

/-- Where no sign is under the cursor, a symbol is that stands for itself. -/
theorem exists_under_literal (hbranch : ¬ branchEndsAt source p = true)
    (hsign : quantifierAt? source p = none)
    (hother : ∀ s ∈ ['('.toNat, '['.toNat, '.'.toNat, '^'.toNat, '$'.toNat, '\\'.toNat],
      source.unitAt? p ≠ some s) :
    ∃ c q, Under source p (.plain c) q ∧ c ∉ Pattern.signs := by
  obtain ⟨g, q, hg⟩ := Glyph.exists_under (lt_length_of_not_branchEndsAt hbranch)
  simp only [List.forall_mem_cons] at hother
  obtain ⟨hopen, hclass, hany, hstart, hstop, hescape, -⟩ := hother
  cases hg with
  | escaped hread _ | lone hread _ => exact absurd (hread.unitAt? (by decide)) hescape
  | @plain c q hread hc =>
      have hunder : Under source p (.plain c) q := .plain hread hc
      refine ⟨c, q, hunder, fun hmem => ?_⟩
      have hunit := unitAt?_of_mem_signs hunder hmem
      have hno : ∀ sign, c ≠ quantifierSign sign := by
        rintro sign rfl
        rw [quantifierAt?_eq_some_iff.mpr hunit] at hsign
        cases hsign
      simp only [Pattern.signs, List.map_cons, List.map_nil, List.mem_cons, List.not_mem_nil,
        or_false] at hmem
      rcases hmem with rfl | rfl | rfl | rfl | rfl | rfl | rfl | rfl | rfl | rfl | rfl
      · exact hbranch (by rw [branchEndsAt, hunit]; rfl)
      · exact hopen hunit
      · exact hbranch (by rw [branchEndsAt, hunit]; rfl)
      · exact hno .star rfl
      · exact hno .plus rfl
      · exact hno .optional rfl
      · exact hany hunit
      · exact hstart hunit
      · exact hstop hunit
      · exact hclass hunit
      · exact hescape hunit

/-- What is under the cursor is an atom where neither a branch ends nor a quantifier is. -/
theorem delivers_readAtom (hgroup : ReadsGroups source enclosing group)
    (hbranch : ¬ branchEndsAt source p = true) (hsign : quantifierAt? source p = none) :
    Delivers (Progress.outcome source p ⟨f, enclosing⟩) (AtomDue source p enclosing f)
      (readAtom source group p) := by
  unfold readAtom
  by_cases hopen : source.unitAt? p = some '('.toNat
  · rw [if_pos hopen]
    exact hgroup p hopen f
  rw [if_neg hopen]
  by_cases hclass : source.unitAt? p = some '['.toNat
  · rw [if_pos hclass]
    have h : Delivers (Progress.outcome source p ⟨f, enclosing⟩) _ _ := delivers_class hclass
    generalize readClass source p = result at h
    cases h with
    | fault hfault => exact .fault hfault
    | read hdue => exact .read hdue
  rw [if_neg hclass]
  by_cases hany : source.unitAt? p = some '.'.toNat
  · rw [if_pos hany]
    exact .read (atomDue_of_sign (by decide) (by decide) (by decide) hany rfl)
  rw [if_neg hany]
  by_cases hstart : source.unitAt? p = some '^'.toNat
  · rw [if_pos hstart]
    exact .read (atomDue_of_sign (by decide) (by decide) (by decide) hstart rfl)
  rw [if_neg hstart]
  by_cases hstop : source.unitAt? p = some '$'.toNat
  · rw [if_pos hstop]
    exact .read (atomDue_of_sign (by decide) (by decide) (by decide) hstop rfl)
  rw [if_neg hstop]
  by_cases hescape : source.unitAt? p = some '\\'.toNat
  · rw [if_pos hescape]
    have h : Delivers (Progress.outcome source p ⟨f, enclosing⟩) _ _ := delivers_escape hescape
    generalize readEscape source p = result at h
    cases h with
    | fault hfault => exact .fault hfault
    | read hdue => exact .read hdue
  rw [if_neg hescape]
  have hother : ∀ s ∈ ['('.toNat, '['.toNat, '.'.toNat, '^'.toNat, '$'.toNat, '\\'.toNat],
      source.unitAt? p ≠ some s := by
    simp only [List.forall_mem_cons]
    exact ⟨hopen, hclass, hany, hstart, hstop, hescape, List.forall_mem_nil _⟩
  obtain ⟨c, q, hunder, hc⟩ := exists_under_literal hbranch hsign hother
  have hne : c ≠ '['.toNat := by
    rintro rfl
    exact hc (by decide)
  have hscan := Token.scanFrom_symbol hunder hne
  have hlt := hunder.lt
  have hle := hunder.le_length
  cases hunder with
  | plain hread _ =>
      rw [readSymbol_eq hread]
      exact .read (atomDue_of_token hlt hle hscan (Token.ofSymbol_eq_literal hc))

/-! ## Repetitions -/

/-- The outcome behind a repetition is that of the frame with the repetition at the end of
its branch, which no quantifier reaches any more. -/
def RepetitionDue (source : Text) (p : Nat) (enclosing : List Frame) (f : Frame) (r : Regex)
    (q : Nat) : Prop :=
  p < q ∧ q ≤ source.length ∧ ∃ f' : Frame, f'.opened = f.opened ∧ f'.branches = f.branches ∧
    f'.wholeBranch = some (extend f.wholeBranch r) ∧ f'.Settled source q ∧
    Progress.outcome source p ⟨f, enclosing⟩ = Progress.outcome source q ⟨f', enclosing⟩

theorem scanFrom_quantifier (h : quantifierAt? source p = some sign) :
    scanFrom source p = ⟨p, .quantifier sign⟩ :: scanFrom source (p + 1) := by
  have hunit := quantifierAt?_eq_some_iff.mp h
  cases sign <;> exact Token.scanFrom_sign (by decide) (by decide) (by decide) hunit

theorem delivers_readRepetition (hgroup : ReadsGroups source enclosing group)
    (hbranch : ¬ branchEndsAt source p = true) (hf : f.Settled source p) :
    Delivers (Progress.outcome source p ⟨f, enclosing⟩) (RepetitionDue source p enclosing f)
      (readRepetition source group p) := by
  unfold readRepetition
  cases hsign : quantifierAt? source p with
  | some sign =>
      have hpending : f.pending = none :=
        hf.resolve_right (by rw [hsign]; exact Option.some_ne_none _)
      refine .fault (Progress.outcome_of_step_error (scanFrom_quantifier hsign) ?_)
      rw [Progress.step_quantifier, Frame.quantify, hpending]
      rfl
  | none =>
      have hatom : Delivers (Progress.outcome source p ⟨f, enclosing⟩) _ _ :=
        delivers_readAtom hgroup hbranch hsign
      dsimp only
      generalize readAtom source group p = result at hatom
      cases hatom with
      | fault hfault => exact .fault hfault
      | @read r q hdue =>
          obtain ⟨hlt, hle, heq⟩ := hdue
          have hwhole : ∀ r, (f.atom r).wholeBranch = some (extend f.wholeBranch r) :=
            Pattern.wholeBranch_atom f
          dsimp only
          cases hbehind : quantifierAt? source q with
          | none => exact .read ⟨hlt, hle, f.atom r, rfl, rfl, hwhole r, .inr hbehind, heq⟩
          | some sign =>
              have hscan := scanFrom_quantifier hbehind
              have inside := Text.lt_length_of_unitAt? (quantifierAt?_eq_some_iff.mp hbehind)
              have hquantify : Frame.quantify (f.atom r) sign q =
                  if r.isAnchor then .error (.ofUnit .repeatedAnchor q)
                  else .ok ⟨f.opened, f.branches, (f.atom (sign.apply r)).wholeBranch, none⟩ := rfl
              dsimp only
              cases hanchor : r.isAnchor with
              | true =>
                  rw [if_pos rfl]
                  refine .fault (heq.trans (Progress.outcome_of_step_error hscan ?_))
                  rw [Progress.step_quantifier, hquantify, hanchor, if_pos rfl]
                  rfl
              | false =>
                  let quantified : Frame :=
                    ⟨f.opened, f.branches, (f.atom (sign.apply r)).wholeBranch, none⟩
                  rw [if_neg Bool.false_ne_true]
                  refine .read ⟨Nat.lt_succ_of_lt hlt, inside, quantified, rfl, rfl,
                    hwhole (sign.apply r), .inl rfl, heq.trans (Progress.outcome_of_step hscan ?_)⟩
                  rw [Progress.step_quantifier, hquantify, hanchor, if_neg Bool.false_ne_true]
                  rfl

/-! ## Branches -/

theorem branchEndsAt_iff : branchEndsAt source p = true ↔
    source.length ≤ p ∨ source.unitAt? p = some '|'.toNat ∨ source.unitAt? p = some ')'.toNat := by
  rw [branchEndsAt, Bool.or_eq_true, Bool.or_eq_true, beq_iff_eq, beq_iff_eq, beq_iff_eq,
    Text.unitAt?_eq_none_iff, or_assoc]

theorem scanFrom_bar (h : source.unitAt? p = some '|'.toNat) :
    scanFrom source p = ⟨p, .bar⟩ :: scanFrom source (p + 1) :=
  Token.scanFrom_sign (by decide) (by decide) (by decide) h

theorem scanFrom_groupOpen (h : source.unitAt? p = some '('.toNat) :
    scanFrom source p = ⟨p, .groupOpen⟩ :: scanFrom source (p + 1) :=
  Token.scanFrom_sign (by decide) (by decide) (by decide) h

theorem scanFrom_groupClose (h : source.unitAt? p = some ')'.toNat) :
    scanFrom source p = ⟨p, .groupClose⟩ :: scanFrom source (p + 1) :=
  Token.scanFrom_sign (by decide) (by decide) (by decide) h

/-- The outcome behind a branch is that of a frame with this branch. -/
def BranchDue (source : Text) (p : Nat) (enclosing : List Frame) (f : Frame)
    (branch : Option Regex) (q : Nat) : Prop :=
  p ≤ q ∧ q ≤ source.length ∧ branchEndsAt source q = true ∧
    ∃ f' : Frame, f'.opened = f.opened ∧ f'.branches = f.branches ∧ f'.wholeBranch = branch ∧
      Progress.outcome source p ⟨f, enclosing⟩ = Progress.outcome source q ⟨f', enclosing⟩

theorem delivers_readBranch (hgroup : ReadsGroups source enclosing group) {branch : Option Regex}
    (hp : p ≤ source.length) (hf : f.Settled source p) (hbranch : f.wholeBranch = branch) :
    Delivers (Progress.outcome source p ⟨f, enclosing⟩) (BranchDue source p enclosing f)
      (readBranch source group branch p) := by
  fun_induction readBranch source group branch p generalizing f with
  | case1 branch p ends =>
      exact .read ⟨Nat.le_refl p, hp, ends, f, rfl, rfl, hbranch, rfl⟩
  | case2 branch p ends e he =>
      exact (delivers_readRepetition hgroup ends hf).of_error he
  | case3 branch p ends r q hread hlt _ ih =>
      obtain ⟨_, hle, f', hopened, hbranches, hwhole, hsettled, heq⟩ :=
        (delivers_readRepetition hgroup ends hf).of_ok hread
      refine (ih hle hsettled (hbranch ▸ hwhole)).later heq fun whole stop hdue => ?_
      obtain ⟨hlt', hle', ends', f'', hopened', hbranches', hwhole', heq'⟩ := hdue
      exact ⟨Nat.le_trans (Nat.le_of_lt hlt) hlt', hle', ends', f'', hopened'.trans hopened,
        hbranches'.trans hbranches, hwhole', heq.trans heq'⟩
  | case4 branch p ends r q hread hstalled =>
      exact absurd ((delivers_readRepetition hgroup ends hf).of_ok hread).1 hstalled

/-- Where a branch ends that has nothing in it, the bar in front of it is to blame. -/
theorem outcome_of_emptyBranch {l : Regex} {bar : Nat} (ends : branchEndsAt source p = true)
    (hwhole : f.wholeBranch = none) (hbranches : f.branches = some (l, bar)) :
    Progress.outcome source p ⟨f, enclosing⟩ = .error (.ofUnit .emptyBranchAfter bar) := by
  have hfinish : f.finish = .error (.ofUnit .emptyBranchAfter bar) := by
    rw [Frame.finish, hwhole, hbranches]
  rcases branchEndsAt_iff.mp ends with hend | hunit | hunit
  · rw [Progress.outcome_of_ge hend, Progress.finish, hfinish]
  · refine Progress.outcome_of_step_error (scanFrom_bar hunit) ?_
    rw [Progress.step_bar, Frame.bar, hwhole, hbranches]
    rfl
  · refine Progress.outcome_of_step_error (scanFrom_groupClose hunit) ?_
    rw [Progress.step_groupClose, hfinish]
    rfl

/-! ## Alternations -/

/-- The outcome at the end of an alternation is that of a frame that is finished to it. -/
def AlternationDue (source : Text) (p : Nat) (enclosing : List Frame) (f : Frame) (r : Regex)
    (q : Nat) : Prop :=
  p ≤ q ∧ q ≤ source.length ∧ (source.length ≤ q ∨ source.unitAt? q = some ')'.toNat) ∧
    ∃ f' : Frame, f'.opened = f.opened ∧ f'.finish = .ok r ∧
      Progress.outcome source p ⟨f, enclosing⟩ = Progress.outcome source q ⟨f', enclosing⟩

/-- What is due later in another frame of the same group is due now. -/
theorem AlternationDue.later {start : Nat} (h : AlternationDue source p enclosing f' r q)
    (hle : start ≤ p) (hopened : f'.opened = f.opened)
    (heq : Progress.outcome source start ⟨f, enclosing⟩ =
      Progress.outcome source p ⟨f', enclosing⟩) :
    AlternationDue source start enclosing f r q := by
  obtain ⟨hle', hlen, ends, f'', hopened', hfinish, heq'⟩ := h
  exact ⟨Nat.le_trans hle hle', hlen, ends, f'', hopened'.trans hopened, hfinish, heq.trans heq'⟩

/-- A branch behind a bar is the branch of a frame that has the branches in front of it. -/
theorem delivers_behindBar (hgroup : ReadsGroups source enclosing group) {l : Regex}
    (bar : source.unitAt? p = some '|'.toNat) (hleft : some l = f.wholeBranch.map f.joined) :
    Delivers (Progress.outcome source p ⟨f, enclosing⟩)
      (fun branch q => p < q ∧ q ≤ source.length ∧ branchEndsAt source q = true ∧
        ∃ f' : Frame, f'.opened = f.opened ∧ f'.branches = some (l, p) ∧ f'.wholeBranch = branch ∧
          Progress.outcome source p ⟨f, enclosing⟩ = Progress.outcome source q ⟨f', enclosing⟩)
      (readBranch source group none (p + 1)) := by
  let behind : Frame := ⟨f.opened, some (l, p), none, none⟩
  have hbar : Progress.outcome source p ⟨f, enclosing⟩ =
      Progress.outcome source (p + 1) ⟨behind, enclosing⟩ := by
    obtain ⟨r, hwhole, rfl⟩ := Option.map_eq_some_iff.mp hleft.symm
    refine Progress.outcome_of_step (scanFrom_bar bar) ?_
    rw [Progress.step_bar, Frame.bar, hwhole]
    rfl
  have hbranch : Delivers (Progress.outcome source (p + 1) ⟨behind, enclosing⟩)
      (BranchDue source (p + 1) enclosing behind) (readBranch source group none (p + 1)) :=
    delivers_readBranch hgroup (Text.lt_length_of_unitAt? bar) (.inl rfl) rfl
  refine hbranch.later hbar fun branch q hdue => ?_
  obtain ⟨hlt, hle, ends, f', hopened, hbranches, hwhole, heq⟩ := hdue
  exact ⟨hlt, hle, ends, f', hopened, hbranches, hwhole, hbar.trans heq⟩

theorem delivers_readBranches (hgroup : ReadsGroups source enclosing group)
    {left : Option Regex} (hp : p ≤ source.length) (ends : branchEndsAt source p = true)
    (hleft : left = f.wholeBranch.map f.joined)
    (hfirst : f.wholeBranch = none → f.branches = none) :
    Delivers (Progress.outcome source p ⟨f, enclosing⟩) (AlternationDue source p enclosing f)
      (readBranches source group left p) := by
  fun_induction readBranches source group left p generalizing f with
  | case1 p bar =>
      have hwhole : f.wholeBranch = none := Option.map_eq_none_iff.mp hleft.symm
      refine .fault (Progress.outcome_of_step_error (scanFrom_bar bar) ?_)
      rw [Progress.step_bar, Frame.bar, hwhole, hfirst hwhole]
      rfl
  | case2 p bar l e he =>
      exact (delivers_behindBar hgroup bar hleft).of_error he
  | case3 p bar l q hread =>
      obtain ⟨_, _, ends', f', _, hbranches, hwhole, heq⟩ :=
        (delivers_behindBar hgroup bar hleft).of_ok hread
      exact .fault (heq.trans (outcome_of_emptyBranch ends' hwhole hbranches))
  | case4 p bar l r q hread hlt _ ih =>
      obtain ⟨_, hle, ends', f', hopened, hbranches, hwhole, heq⟩ :=
        (delivers_behindBar hgroup bar hleft).of_ok hread
      have hjoined : some (.alternate l r) = f'.wholeBranch.map f'.joined := by
        rw [hwhole, Option.map_some, Frame.joined, hbranches]
      have hrest := ih hle ends' hjoined fun hnone => by cases hwhole.symm.trans hnone
      exact hrest.later heq fun _ _ hdue => hdue.later (Nat.le_of_lt hlt) hopened heq
  | case5 p bar l r q hread hstalled =>
      exact absurd ((delivers_behindBar hgroup bar hleft).of_ok hread).1 hstalled
  | case6 left p hbar =>
      refine .read ⟨Nat.le_refl p, hp, ?_, f, rfl, ?_, rfl⟩
      · exact (branchEndsAt_iff.mp ends).imp_right fun hunit => hunit.resolve_left hbar
      · cases hwhole : f.wholeBranch with
        | none =>
            rw [hwhole] at hleft
            rw [hleft, Frame.finish, hwhole, hfirst hwhole]
            rfl
        | some r =>
            rw [hwhole] at hleft
            rw [hleft, Frame.finish, hwhole]
            rfl

/-- An alternation is read into a frame of its own. -/
theorem delivers_readAlternation (hgroup : ReadsGroups source enclosing group)
    (hp : p ≤ source.length) (opened : Nat) :
    Delivers (Progress.outcome source p ⟨.fresh opened, enclosing⟩)
      (AlternationDue source p enclosing (.fresh opened)) (readAlternation source group p) := by
  have hbranch : Delivers (Progress.outcome source p ⟨.fresh opened, enclosing⟩)
      (BranchDue source p enclosing (.fresh opened)) (readBranch source group none p) :=
    delivers_readBranch hgroup hp (.inl rfl) rfl
  unfold readAlternation
  generalize readBranch source group none p = result at hbranch
  cases hbranch with
  | fault hfault => exact .fault hfault
  | @read left q hdue =>
      obtain ⟨hlt, hle, ends, f, hopened, hbranches, hwhole, heq⟩ := hdue
      have hbare : f.joined = fun r => r := by
        funext r
        rw [Frame.joined, hbranches]
        rfl
      have hleft : left = f.wholeBranch.map f.joined := by rw [hwhole, hbare, Option.map_id']
      have hrest := delivers_readBranches hgroup hle ends hleft (fun _ => hbranches)
      exact hrest.later heq fun _ _ hdue => hdue.later hlt hopened heq

/-! ## Groups -/

/-- Groups are read as far as the budget goes, which is what the enclosing frames leave of
it. -/
theorem readsGroups_readGroup (source : Text) {budget : Nat}
    (h : enclosing.length + budget = maxNesting) :
    ReadsGroups source enclosing (readGroup source budget) := by
  induction budget generalizing enclosing with
  | zero =>
      intro p hunit f
      refine .fault (Progress.outcome_of_step_error (scanFrom_groupOpen hunit) ?_)
      exact if_pos (Nat.le_of_eq h.symm)
  | succ budget ih =>
      intro p hunit f
      have hdepth : ¬ maxNesting ≤ enclosing.length := by omega
      have hopen : Progress.outcome source p ⟨f, enclosing⟩ =
          Progress.outcome source (p + 1) ⟨.fresh p, f :: enclosing⟩ :=
        Progress.outcome_of_step (scanFrom_groupOpen hunit) (if_neg hdepth)
      have hinside : ReadsGroups source (f :: enclosing) (readGroup source budget) :=
        ih (by rw [List.length_cons]; omega)
      have hread := delivers_readAlternation hinside (Text.lt_length_of_unitAt? hunit) p
      rw [readGroup]
      generalize readAlternation source (readGroup source budget) (p + 1) = result at hread
      cases hread with
      | fault hfault => exact .fault (hopen.trans hfault)
      | @read r q hdue =>
          obtain ⟨hlt, hle, ends, f', hopened, hfinish, heq⟩ := hdue
          dsimp only
          by_cases hclose : source.unitAt? q = some ')'.toNat
          · rw [if_pos hclose]
            refine .read ⟨by omega, Text.lt_length_of_unitAt? hclose, hopen.trans (heq.trans ?_)⟩
            refine Progress.outcome_of_step (scanFrom_groupClose hclose) ?_
            rw [Progress.step_groupClose, hfinish]
            rfl
          · rw [if_neg hclose]
            refine .fault (hopen.trans (heq.trans ?_))
            rw [Progress.outcome_of_ge (ends.resolve_right hclose), Progress.finish, hfinish,
              hopened]
            rfl

/-! ## The whole pattern -/

/-- The reader of a whole source does not trap, and reads what the library reads. -/
theorem readPattern_eq (source : Text) :
    readPattern source = match Pattern.parseRegex source with
      | .error e => .error (.fault e)
      | .ok r => .ok r := by
  have hgroups : ReadsGroups source [] (readGroup source maxNesting) :=
    readsGroups_readGroup source (Nat.zero_add maxNesting)
  have hread := delivers_readAlternation hgroups (Nat.zero_le source.length) 0
  have hparse : Pattern.parseRegex source = Progress.outcome source 0 ⟨.fresh 0, []⟩ := rfl
  rw [readPattern, hparse]
  generalize readAlternation source (readGroup source maxNesting) 0 = result at hread
  cases hread with
  | fault hfault => rw [hfault]
  | @read r q hdue =>
      obtain ⟨_, hle, ends, f', _, hfinish, heq⟩ := hdue
      dsimp only
      rw [heq]
      by_cases inside : q < source.length
      · have hclose := ends.resolve_left (Nat.not_le.mpr inside)
        have hstep : Progress.step ⟨f', []⟩ ⟨q, .groupClose⟩ =
            .error (.ofUnit .unmatchedParen q) := by
          rw [Progress.step_groupClose, hfinish]
          rfl
        rw [if_pos inside, Progress.outcome_of_step_error (scanFrom_groupClose hclose) hstep]
      · rw [if_neg inside, Progress.outcome_of_ge (Nat.le_of_not_lt inside), Progress.finish,
          hfinish]

/-- Reading a pattern by descent does not trap, and comes to the same pattern or the same
syntax error. -/
theorem parse_eq (source : Text) (flags : Flags) :
    parse source flags = .ok (Pattern.parse source flags) := by
  rw [parse, readPattern_eq, Pattern.parse]
  cases Pattern.parseRegex source <;> rfl

end Descent

end RegexEngine
