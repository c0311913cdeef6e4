import RegexEngine.Proofs.Automaton.Assembly
import RegexEngine.Proofs.Automaton.CaselessEmptiness
import RegexEngine.Proofs.Match.Caseless
import RegexEngine.Proofs.Match.QuickRejection
import RegexEngine.Proofs.Match.Tiling
import RegexEngine.Proofs.Pattern.Completeness
import RegexEngine.Text.Offset
import RegexEngine.Proofs.Automaton.Size
import RegexEngine.Proofs.Match.Agreement
import RegexEngine.Proofs.Match.Ceilings
import RegexEngine.Proofs.Match.LinearWork
import RegexEngine.Proofs.Regex.Attainment
import RegexEngine.Proofs.Regex.Regrouping
import RegexEngine.Proofs.Automaton.Wiring
import RegexEngine.Proofs.Regex.Census
import RegexEngine.Proofs.Automaton.LinearSize
import RegexEngine.Proofs.Pattern.Grouping
import RegexEngine.Proofs.Match.Meaning
import RegexEngine.Proofs.Match.Verbatim
import RegexEngine.Proofs.Match.Permissive
import RegexEngine.Proofs.Symbol.CanonicalForm
import RegexEngine.Proofs.Pattern.Blame
import RegexEngine.Proofs.Match.ScanWork
import RegexEngine.Proofs.Match.NoTraps
import RegexEngine.Proofs.Text.Segmentation
import RegexEngine.Proofs.Automaton.ThreadLabels
import RegexEngine.Proofs.Automaton.SearchBounds
import RegexEngine.Proofs.Pattern.CallDepth
import RegexEngine.Proofs.Number.Layout
