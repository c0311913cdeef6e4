/-
# `Pattern.nesting` — how deep the groups of a pattern are nested

The budget of a derivation bounds the nesting of groups from above.  Here the nesting
itself is counted, over the tokens of a source and without any grammar: an open
parenthesis adds one, a closing one takes one away, and the deepest level counts.
Parentheses inside a class or behind a backslash are part of other tokens.

In a pattern the two agree: a pattern derives with every budget that its nesting fits
into, and with no smaller one (`derives_iff_nesting`).  So a pattern can be put into a
group whenever one more level is allowed.

A group leaves no node, so whether it can be repeated is decided by the expression that
is left of it.  `parseRegex_repeatGroup` says for every pattern what becomes of its group
under a quantifier: it is repeated, except that the group of a bare anchor is refused as
if the quantifier stood right behind the anchor (`repeatGroup_caret`), however many
parentheses are between the two.
-/
import RegexEngine.Proofs.Pattern.Completeness
import RegexEngine.Proofs.Text.Writing

namespace RegexEngine

open Token (Lex Spells)

/-! ## Counting levels -/

/-- The deepest level of the tokens, when they begin at the given one. -/
def Token.deepest (level : Nat) : List Token → Nat
  | [] => level
  | .groupOpen :: rest => deepest (level + 1) rest
  | .groupClose :: rest => max level (deepest (level - 1) rest)
  | _ :: rest => deepest level rest

/-- The number of groups that are open at once, where they are most. -/
def Pattern.nesting (source : Text) : Nat :=
  Token.deepest 0 ((Token.ofSource source).map (·.item))

namespace Token

variable {t : Token} {ts us : List Token} {level m n : Nat}

/-- The token opens no group and closes none. -/
def Level (t : Token) : Prop := t ≠ .groupOpen ∧ t ≠ .groupClose

theorem Level.deepest_cons (h : t.Level) : deepest level (t :: ts) = deepest level ts := by
  cases t with
  | groupOpen => exact absurd rfl h.1
  | groupClose => exact absurd rfl h.2
  | bar | quantifier _ | atom _ | fault _ => rfl

theorem le_deepest (level : Nat) (ts : List Token) : level ≤ deepest level ts := by
  induction ts generalizing level with
  | nil => exact Nat.le_refl level
  | cons t rest ih =>
      cases t with
      | groupOpen => exact Nat.le_trans (Nat.le_succ level) (ih (level + 1))
      | groupClose => exact Nat.le_max_left _ _
      | bar | quantifier _ | atom _ | fault _ => exact ih level

/-- The tokens rise by `n` levels and come back, wherever they stand. -/
def Rises (ts : List Token) (n : Nat) : Prop :=
  ∀ level rest, deepest level (ts ++ rest) = max (level + n) (deepest level rest)

namespace Rises

theorem nil : Rises [] 0 := fun level rest => (Nat.max_eq_right (le_deepest level rest)).symm

theorem cons (ht : t.Level) (h : Rises ts n) : Rises (t :: ts) n := fun level rest =>
  ht.deepest_cons.trans (h level rest)

theorem single (ht : t.Level) : Rises [t] 0 := nil.cons ht

theorem append (h : Rises ts m) (h' : Rises us n) : Rises (ts ++ us) (max m n) := by
  intro level rest
  rw [List.append_assoc, h level, h' level]
  omega

/-- A group is one level above what is in it. -/
theorem group (h : Rises ts n) : Rises (.groupOpen :: (ts ++ [.groupClose])) (n + 1) := by
  intro level rest
  have hclose : deepest (level + 1) (.groupClose :: rest) =
      max (level + 1) (deepest level rest) := rfl
  show deepest (level + 1) (ts ++ [.groupClose] ++ rest) = _
  rw [List.append_assoc, h (level + 1), List.singleton_append, hclose]
  omega

theorem deepest_eq (h : Rises ts n) : deepest 0 ts = n := by
  have hend : deepest 0 (ts ++ []) = max (0 + n) 0 := h 0 []
  rw [List.append_nil] at hend
  omega

end Rises

end Token

open Token (Rises)

namespace Pattern

variable {budget m n : Nat} {cs ds : List Nat} {r l : Regex} {source : Text} {phrase : Phrase}

/-! ## Levels and budgets -/

/-- A larger budget allows for the same phrases. -/
theorem Derives.mono (h : Derives phrase n cs r) (hle : n ≤ m) : Derives phrase m cs r := by
  induction h generalizing m with
  | any => exact .any
  | start => exact .start
  | stop => exact .stop
  | symbolClass hbody => exact .symbolClass hbody
  | escape hmeans => exact .escape hmeans
  | literal hc => exact .literal hc
  | @group n _ _ _ ih =>
      obtain ⟨m, rfl⟩ : ∃ k, m = k + 1 := ⟨m - 1, by omega⟩
      exact .group (ih (Nat.le_of_succ_le_succ hle))
  | once _ ih => exact .once (ih hle)
  | quantified q _ hanchor ih => exact .quantified q (ih hle) hanchor
  | single _ ih => exact .single (ih hle)
  | append _ _ ihl ihr => exact .append (ihl hle) (ihr hle)
  | branch _ ih => exact .branch (ih hle)
  | bar _ _ ihl ihr => exact .bar (ihl hle) (ihr hle)
  | empty => exact .empty
  | alternation _ ih => exact .alternation (ih hle)

/-- A phrase whose tokens rise by `n` levels, and that needs no more budget. -/
def Phrase.Fits (phrase : Phrase) (n : Nat) (cs : List Nat) (r : Regex) : Prop :=
  Derives phrase n cs r ∧ ∃ ts, Lex cs ts ∧ Rises ts n

namespace Phrase.Fits

theorem of_spells (h : Spells cs (.atom r)) (hr : Derives .atom 0 cs r) :
    Phrase.atom.Fits 0 cs r :=
  ⟨hr, _, .of_spells h, .single ⟨nofun, nofun⟩⟩

/-- A phrase that is a phrase of another kind by itself. -/
theorem of_same {phrase' : Phrase} (h : phrase.Fits n cs r) (hr : Derives phrase' n cs r) :
    phrase'.Fits n cs r :=
  ⟨hr, h.2⟩

theorem group (h : Phrase.alternation.Fits n cs r) :
    Phrase.atom.Fits (n + 1) ('('.toNat :: (cs ++ [')'.toNat])) r := by
  obtain ⟨hr, ts, hlex, hrises⟩ := h
  have hopen : Spells ['('.toNat] .groupOpen := .symbol (by decide) (by decide)
  have hclose : Spells [')'.toNat] .groupClose := .symbol (by decide) (by decide)
  exact ⟨.group hr, _, .cons hopen (hlex.append (.of_spells hclose)), hrises.group⟩

theorem quantified (q : Quantifier) (h : Phrase.atom.Fits n cs r) (hanchor : r.isAnchor = false) :
    Phrase.repetition.Fits n (cs ++ [quantifierSign q]) (q.apply r) := by
  obtain ⟨hr, ts, hlex, hrises⟩ := h
  have hlevel := hrises.append (.single (t := .quantifier q) ⟨nofun, nofun⟩)
  rw [Nat.max_eq_left (Nat.zero_le n)] at hlevel
  exact ⟨.quantified q hr hanchor, _, hlex.append (.of_spells (spells_quantifier q)), hlevel⟩

theorem append (hl : Phrase.sequence.Fits m cs l) (hr : Phrase.repetition.Fits n ds r) :
    Phrase.sequence.Fits (max m n) (cs ++ ds) (.concat l r) := by
  obtain ⟨hl, ts, hlex, hrises⟩ := hl
  obtain ⟨hr, us, hlex', hrises'⟩ := hr
  exact ⟨.append (hl.mono (Nat.le_max_left m n)) (hr.mono (Nat.le_max_right m n)), _,
    hlex.append hlex', hrises.append hrises'⟩

theorem bar (hl : Phrase.branches.Fits m cs l) (hr : Phrase.sequence.Fits n ds r) :
    Phrase.branches.Fits (max m n) (cs ++ '|'.toNat :: ds) (.alternate l r) := by
  obtain ⟨hl, ts, hlex, hrises⟩ := hl
  obtain ⟨hr, us, hlex', hrises'⟩ := hr
  have hbar : Spells ['|'.toNat] .bar := .symbol (by decide) (by decide)
  exact ⟨.bar (hl.mono (Nat.le_max_left m n)) (hr.mono (Nat.le_max_right m n)), _,
    hlex.append (.cons hbar hlex'), hrises.append (hrises'.cons ⟨nofun, nofun⟩)⟩

end Phrase.Fits

/-- Every phrase fits into a budget that is the number of its levels. -/
theorem Derives.exists_fits (h : Derives phrase budget cs r) :
    ∃ n ≤ budget, phrase.Fits n cs r := by
  induction h with
  | any =>
      exact ⟨0, Nat.zero_le _, .of_spells (.symbol (by decide) (by decide)) .any⟩
  | start =>
      exact ⟨0, Nat.zero_le _, .of_spells (.symbol (by decide) (by decide)) .start⟩
  | stop =>
      exact ⟨0, Nat.zero_le _, .of_spells (.symbol (by decide) (by decide)) .stop⟩
  | symbolClass hbody =>
      exact ⟨0, Nat.zero_le _, .of_spells (.symbolClass hbody) (.symbolClass hbody)⟩
  | escape hmeans => exact ⟨0, Nat.zero_le _, .of_spells (.escape hmeans) (.escape hmeans)⟩
  | literal hc => exact ⟨0, Nat.zero_le _, .of_spells (.literal hc) (.literal hc)⟩
  | group _ ih =>
      obtain ⟨n, hn, hfits⟩ := ih
      exact ⟨n + 1, Nat.succ_le_succ hn, hfits.group⟩
  | once _ ih =>
      obtain ⟨n, hn, hfits⟩ := ih
      exact ⟨n, hn, hfits.of_same (.once hfits.1)⟩
  | quantified q _ hanchor ih =>
      obtain ⟨n, hn, hfits⟩ := ih
      exact ⟨n, hn, hfits.quantified q hanchor⟩
  | single _ ih =>
      obtain ⟨n, hn, hfits⟩ := ih
      exact ⟨n, hn, hfits.of_same (.single hfits.1)⟩
  | append _ _ ihl ihr =>
      obtain ⟨m, hm, hl⟩ := ihl
      obtain ⟨n, hn, hr⟩ := ihr
      exact ⟨max m n, Nat.max_le.mpr ⟨hm, hn⟩, hl.append hr⟩
  | branch _ ih =>
      obtain ⟨n, hn, hfits⟩ := ih
      exact ⟨n, hn, hfits.of_same (.branch hfits.1)⟩
  | bar _ _ ihl ihr =>
      obtain ⟨m, hm, hl⟩ := ihl
      obtain ⟨n, hn, hr⟩ := ihr
      exact ⟨max m n, Nat.max_le.mpr ⟨hm, hn⟩, hl.bar hr⟩
  | empty => exact ⟨0, Nat.zero_le _, .empty, [], .nil, .nil⟩
  | alternation _ ih =>
      obtain ⟨n, hn, hfits⟩ := ih
      exact ⟨n, hn, hfits.of_same (.alternation hfits.1)⟩

/-- A pattern derives with the budgets that its nesting fits into, and no others. -/
theorem derives_iff_nesting (hn : n ≤ maxNesting) : Derives .alternation n source.symbols r ↔
    parseRegex source = .ok r ∧ nesting source ≤ n := by
  have hnesting : ∀ {k ts}, Lex source.symbols ts → Rises ts k → nesting source = k := by
    intro k ts hlex hrises
    have hitems : (Token.ofSource source).map (·.item) = ts := hlex.items_eq source 0
    rw [nesting, hitems, hrises.deepest_eq]
  -- The tokens of a source are unique, so the levels of a derivation are those counted.
  constructor
  · intro h
    obtain ⟨k, hk, _, ts, hlex, hrises⟩ := h.exists_fits
    exact ⟨parseRegex_of_derives (h.mono hn), hnesting hlex hrises ▸ hk⟩
  · rintro ⟨hparse, hle⟩
    obtain ⟨k, _, h, ts, hlex, hrises⟩ := (derives_of_parseRegex hparse).exists_fits
    exact h.mono (hnesting hlex hrises ▸ hle)

/-! ## Groups under a quantifier -/

/-- The source in a group, with a quantifier behind it. -/
def repeatGroup (source : Text) (q : Quantifier) : Text :=
  .ofString "(" ++ source ++ .ofString ")" ++ .ofSymbols [quantifierSign q]

theorem symbols_repeatGroup (source : Text) (q : Quantifier) :
    (repeatGroup source q).symbols =
      '('.toNat :: (source.symbols ++ [')'.toNat]) ++ [quantifierSign q] := by
  have hsign : quantifierSign q < 0xD800 := by cases q <;> decide
  have hopen : Text.ofString "(" = .ofSymbols ['('.toNat] := rfl
  have hclose : Text.ofString ")" = .ofSymbols [')'.toNat] := rfl
  rw [repeatGroup, Text.symbols_append_ofSymbols _ hsign, hclose,
    Text.symbols_append_ofSymbols _ (by decide), hopen,
    Text.symbols_ofSymbols_append _ (by decide), List.cons_append]

/-- The group of a pattern is an atom, if the limit leaves room for it. -/
theorem derives_group (h : parseRegex source = .ok r) (hn : nesting source ≤ 499) :
    Derives .atom maxNesting ('('.toNat :: (source.symbols ++ [')'.toNat])) r :=
  .group ((derives_iff_nesting (by decide)).mpr ⟨h, hn⟩)

theorem parseRegex_repeatGroup_eq_ok (q : Quantifier) (h : parseRegex source = .ok r)
    (hn : nesting source ≤ 499) (hanchor : r.isAnchor = false) :
    parseRegex (repeatGroup source q) = .ok (q.apply r) := by
  refine parseRegex_of_derives ?_
  rw [symbols_repeatGroup]
  exact .alternation (.branch (.single (.quantified q (derives_group h hn) hanchor)))

theorem Frame.quantify_atom_of_isAnchor (f : Frame) (q : Quantifier) (position : Nat)
    (hanchor : r.isAnchor = true) :
    (f.atom r).quantify q position = .error (.ofUnit .repeatedAnchor position) := by
  have hpending : (f.atom r).pending = some r := rfl
  rw [Frame.quantify, hpending]
  exact if_pos hanchor

/-- The last token of a sequence is placed behind the others. -/
theorem exists_placed_last {placed : List (Placed Token)} {ts : List Token} {t : Token}
    (h : placed.map (·.item) = ts ++ [t]) :
    ∃ front position, placed = front ++ [⟨position, t⟩] ∧ front.map (·.item) = ts := by
  obtain ⟨front, back, rfl, hfront, hback⟩ := List.map_eq_append_iff.mp h
  obtain ⟨⟨position, item⟩, rest, rfl, hitem, hrest⟩ := List.map_eq_cons_iff.mp hback
  obtain rfl : item = t := hitem
  obtain rfl := List.map_eq_nil_iff.mp hrest
  exact ⟨front, position, rfl, hfront⟩

/-- The run comes to the quantifier with the anchor pending, as it does when the anchor
is not in a group. -/
theorem parseRegex_repeatGroup_eq_error (q : Quantifier) (h : parseRegex source = .ok r)
    (hn : nesting source ≤ 499) (hanchor : r.isAnchor = true) :
    ∃ position, parseRegex (repeatGroup source q) = .error (.ofUnit .repeatedAnchor position) := by
  obtain ⟨ts, hlex, hruns⟩ := (derives_group h hn).isRead
  have hlex' := hlex.append (.of_spells (spells_quantifier q))
  rw [← symbols_repeatGroup] at hlex'
  have htokens : (Token.ofSource (repeatGroup source q)).map (·.item) = ts ++ [.quantifier q] :=
    hlex'.items_eq (repeatGroup source q) 0
  obtain ⟨front, position, hsource, hfront⟩ := exists_placed_last htokens
  obtain ⟨f, hrun, hf⟩ := hruns (.fresh 0) [] (Nat.le_of_eq (Nat.zero_add _)) trivial front hfront
  obtain rfl : f = (Frame.fresh 0).atom r := hf
  have hstep : Progress.step ⟨(Frame.fresh 0).atom r, []⟩ ⟨position, .quantifier q⟩ =
      .error (.ofUnit .repeatedAnchor position) := by
    rw [Progress.step]
    dsimp only
    rw [Frame.quantify_atom_of_isAnchor _ q position hanchor]
  refine ⟨position, ?_⟩
  rw [parseRegex, hsource, Progress.run_append, Progress.initial, hrun]
  dsimp only
  rw [Progress.run, hstep]

/-- A quantifier takes the group of every pattern that is no bare anchor, and it is
refused behind the group of a bare anchor. -/
theorem parseRegex_repeatGroup (source : Text) (r : Regex) (q : Quantifier)
    (h : parseRegex source = .ok r) (hn : nesting source ≤ 499) :
    (r.isAnchor = false → parseRegex (repeatGroup source q) = .ok (q.apply r)) ∧
      (r.isAnchor = true → ∃ position, parseRegex (repeatGroup source q) =
        .error (.ofUnit .repeatedAnchor position)) :=
  ⟨parseRegex_repeatGroup_eq_ok q h hn, parseRegex_repeatGroup_eq_error q h hn⟩

/-- Groups inside of each other, beside parentheses that open none and close none. -/
def groupsWithin : Text := .ofString "((^)[(]+|\\)(x|y)*)"

/-- An anchor that is all there is in its group, and a branch of two symbols. -/
def groupsWithinRoot : Regex :=
  .alternate
    (.concat (.anchor .start) (.plus (.symbol (.among ⟨false, #[⟨'('.toNat, '('.toNat⟩]⟩))))
    (.concat (.literal ')'.toNat) (.star (.alternate (.literal 'x'.toNat) (.literal 'y'.toNat))))

theorem repeatGroup_groupsWithin :
    parseRegex groupsWithin = .ok groupsWithinRoot ∧ nesting groupsWithin = 2 ∧
      groupsWithinRoot.isAnchor = false ∧
      parseRegex (repeatGroup groupsWithin .star) = .ok (.star groupsWithinRoot) := by
  have hparse : parseRegex groupsWithin = .ok groupsWithinRoot := by decide +kernel
  have hnesting : nesting groupsWithin = 2 := by decide +kernel
  have hle : nesting groupsWithin ≤ 499 := hnesting ▸ by decide
  exact ⟨hparse, hnesting, rfl, (parseRegex_repeatGroup _ _ .star hparse hle).1 rfl⟩

/-- A start anchor is a pattern that opens no group, and still its group is refused
under a quantifier. -/
theorem repeatGroup_caret :
    parseRegex (.ofString "^") = .ok (.anchor .start) ∧ nesting (.ofString "^") = 0 ∧
      repeatGroup (.ofString "^") .star = .ofString "(^)*" ∧
      parseRegex (.ofString "(^)*") = .error (.ofUnit .repeatedAnchor 3) ∧
      ¬ ∀ source r q, parseRegex source = .ok r → nesting source ≤ 499 →
        parseRegex (repeatGroup source q) = .ok (q.apply r) := by
  have hparse : parseRegex (.ofString "^") = .ok (.anchor .start) := by decide +kernel
  have hnesting : nesting (.ofString "^") = 0 := by decide +kernel
  have hgroup : repeatGroup (.ofString "^") .star = .ofString "(^)*" := by decide +kernel
  have herror : parseRegex (.ofString "(^)*") = .error (.ofUnit .repeatedAnchor 3) := by
    decide +kernel
  refine ⟨hparse, hnesting, hgroup, herror, ?_⟩
  intro hall
  have hok := hall _ _ .star hparse (hnesting ▸ Nat.zero_le 499)
  rw [hgroup, herror] at hok
  cases hok

end Pattern

end RegexEngine
