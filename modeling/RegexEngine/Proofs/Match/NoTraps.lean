/-
# `no_traps` — no operation reads outside of a text or misses a state

Reading a pattern, every call of a compiled pattern, and the search for a witness, with
every access checked.  The reader descends with a cursor and reads a symbol at it; the
calls read the text and look states up; the search looks states up and makes symbols up.
None of them traps, and each gives what the library's function gives.  So a source is
read to a pattern or to a syntax error, whatever it is, and a call without ceilings has
an answer.

The library's functions have no such accesses to check: texts are cut into symbols at
once, a state that is none has no transitions, and a number that is no symbol is written
in some way.  This is what makes them plain, and it is what is shown here to be no
difference.
-/
import RegexEngine.Proofs.Automaton.CheckedWitness
import RegexEngine.Proofs.Match.CheckedCalls
import RegexEngine.Proofs.Pattern.DescentAgreement
import RegexEngine.Proofs.Pattern.Repertoire

namespace RegexEngine

/-- Reading any source does not trap and gives a pattern or a syntax error.  What compiles
names symbols only; and on any text, from any number as an offset, the calls of its
automaton without ceilings do not trap, nor does the search for a witness.  All give what
the library gives. -/
theorem no_traps :
    (∀ source flags, Descent.parse source flags = .ok (Pattern.parse source flags)) ∧
    ∀ source flags limits p, compile source flags limits = .ok p →
      (∀ s ∈ p.pattern.root.sets, s.Names) ∧
      (∀ x,
        Checked.Agree (Checked.accepts p.automaton x) (p.automaton.accepts x .unlimited) ∧
        (∀ offset, Checked.Agree (Checked.find p.automaton x offset)
          (p.automaton.find x offset .unlimited)) ∧
        Checked.Agree (Checked.findAll p.automaton x) (p.automaton.findAll x .unlimited) ∧
        Checked.Agree (Checked.test p.automaton x) (p.automaton.test x .unlimited)) ∧
      Checked.witness? p.automaton = .ok p.automaton.witness? := by
  refine ⟨Descent.parse_eq, fun source flags limits p h => ?_⟩
  have hwell := wellFormed_of_compile h
  refine ⟨names_of_compile h, fun x => ⟨?_, ?_, ?_, ?_⟩, ?_⟩
  · exact Checked.accepts_agree hwell x
  · exact Checked.find_agree hwell x
  · exact Checked.findAll_agree hwell x
  · exact Checked.test_agree hwell x
  · exact Checked.witness?_eq hwell (sorted_of_compile h)

/-- A pattern of a symbol of two units and a class. -/
def endingOutside : Pattern where
  source := .ofString "(😀|[^a-c])+$"
  root := .concat
    (.plus (.alternate (.literal '😀'.toNat) (.symbol (.among ⟨true, #[⟨0x61, 0x63⟩]⟩))))
    (.anchor .stop)
  flags := {}

/-- The text begins with half a pair and ends with a whole one, and the search starts
between its halves. -/
theorem endingOutside_no_traps :
    Descent.parse endingOutside.source {} = .ok (.ok endingOutside) ∧
    compile endingOutside.source {} .unlimited = .ok (endingOutside.compile .unlimited) ∧
    Checked.find endingOutside.automaton ⟨#[0xD83D, 0x62, 0xD83D, 0xDE00]⟩ (.ofNat 3) =
      .ok (some ⟨3, 4, ⟨#[0xDE00]⟩⟩) ∧
    Checked.findAll endingOutside.automaton ⟨#[0xD83D, 0x62, 0xD83D, 0xDE00]⟩ =
      .ok [⟨2, 4, .ofString "😀"⟩] ∧
    Checked.witness? endingOutside.automaton = .ok (some (.ofString "😀")) := by
  have hparse : Pattern.parse endingOutside.source {} = .ok endingOutside := by decide +kernel
  have hcompile : compile endingOutside.source {} .unlimited =
      .ok (endingOutside.compile .unlimited) := by
    rw [compile, hparse]
    rfl
  obtain ⟨_, hcalls, hwitness⟩ := no_traps.2 _ _ _ _ hcompile
  obtain ⟨_, hfinds, ⟨spans, hfindAll, hspans⟩, _⟩ := hcalls ⟨#[0xD83D, 0x62, 0xD83D, 0xDE00]⟩
  obtain ⟨found, hfind, hfound⟩ := hfinds (.ofNat 3)
  have hrun : endingOutside.automaton.find ⟨#[0xD83D, 0x62, 0xD83D, 0xDE00]⟩ (.ofNat 3) .unlimited =
      .ok (some ⟨3, 4, ⟨#[0xDE00]⟩⟩) := by decide +kernel
  have hscan : endingOutside.automaton.findAll ⟨#[0xD83D, 0x62, 0xD83D, 0xDE00]⟩ .unlimited =
      .ok [⟨2, 4, .ofString "😀"⟩] := by decide +kernel
  have hshortest : endingOutside.automaton.witness? = some (.ofString "😀") := by cbv
  obtain rfl := Except.ok.inj (hfound.symm.trans hrun)
  obtain rfl := Except.ok.inj (hspans.symm.trans hscan)
  exact ⟨hparse ▸ no_traps.1 _ _, hcompile, hfind, hfindAll, hshortest ▸ hwitness⟩

end RegexEngine
