/-
# `Automaton.find` — the leftmost longest match inside a text

A search moves over the text once, with one thread per state.  A thread is
started at every position until some thread accepts; when two threads meet in a
state, the one that started earlier goes on.  The first acceptance fixes the
start of the match, after which threads that started later are dropped, and every
later acceptance moves the end.

Threads are kept in ascending order of their starts, so the first of two that
meet is the earlier one.
-/
import RegexEngine.Automaton.Closure
import RegexEngine.Match.Limits

namespace RegexEngine

/-- A stretch of a text: the offset where it starts, the offset where it stops,
and what stands between. -/
structure Span where
  start : Nat
  stop : Nat
  text : Text
deriving DecidableEq, Inhabited, Repr

namespace Automaton

/-- The steps that one symbol costs a search with the given threads. -/
def threadCost (a : Automaton) (threads : List Thread) : Nat :=
  threads.foldr (fun t total => a.symbolDegree t.state + total) 0

/-- Where the threads are behind a symbol with the given variants. -/
def stepThreads (a : Automaton) (variants : List Nat) (threads : List Thread) : List Thread :=
  threads.flatMap fun t => (a.symbolTargets variants t.state).map (⟨·, t.start⟩)

/-- The best match known behind a position: an accepting thread that did not
start later than the match known before replaces it. -/
def improve (a : Automaton) (position : Nat) (threads : List Thread) (best : Option (Nat × Nat)) :
    Option (Nat × Nat) :=
  match threads.find? (·.state == a.accept), best with
  | none, best => best
  | some t, none => some (t.start, position)
  | some t, some (start, stop) =>
      if t.start ≤ start then some (t.start, position) else some (start, stop)

/-- The threads to close at a position: those that arrive there, and a new one
while no match is known. -/
def seedsAt (a : Automaton) (position : Nat) (threads : List Thread) (best : Option (Nat × Nat)) :
    List Thread :=
  if best.isNone then threads ++ [⟨a.start, position⟩] else threads

/-- The threads that can still improve on the best match known: those that did not
start later. -/
def contenders (best : Option (Nat × Nat)) (threads : List Thread) : List Thread :=
  match best with
  | none => threads
  | some (start, _) => threads.filter (·.start ≤ start)

/-- Search on from a position, with the threads that arrive there and the best
match known in front of it. -/
def searchFrom (a : Automaton) (x : Text) (position : Nat) (threads : List Thread)
    (best : Option (Nat × Nat)) (meter : Meter) :
    Except LimitError (Option (Nat × Nat) × Meter) :=
  let closed := a.closeThreads x position (a.seedsAt position threads best)
  let known := a.improve position closed best
  let alive := contenders known closed
  if known.isSome && alive.isEmpty then .ok (known, meter)
  else if inside : position < x.length then
    match meter.charge (a.threadCost alive) with
    | .error e => .error e
    | .ok charged =>
        have := Symbol.width_pos (x.symbolAt position inside)
        searchFrom a x (position + Symbol.width (x.symbolAt position inside))
          (a.stepThreads (a.flags.variants (x.symbolAt position inside)) alive) known charged
  else .ok (known, meter)
termination_by x.length - position

/-- The leftmost longest match at or behind an offset. -/
def findFrom (a : Automaton) (x : Text) (offset : Nat) (meter : Meter) :
    Except LimitError (Option Span × Meter) :=
  if x.length < offset then .ok (none, meter)
  else
    match a.searchFrom x offset [] none meter with
    | .error e => .error e
    | .ok (best, after) =>
        .ok (best.map fun (start, stop) => ⟨start, stop, x.slice start stop⟩, after)

/-- Where the search behind a match resumes: at its end, or one symbol further
when it is empty.  Behind an empty match at the end of the text nothing is left. -/
def resumeAfter? (x : Text) (span : Span) : Option Nat :=
  if span.start < span.stop then some span.stop
  else if inside : span.stop < x.length then
    some (span.stop + Symbol.width (x.symbolAt span.stop inside))
  else none

/-- The matches at or behind an offset, none overlapping another.  Each one but
the last moves the offset on, so `fuel` bounds their number. -/
def findAllFrom (a : Automaton) (x : Text) (fuel offset : Nat) (meter : Meter) :
    Except LimitError (List Span × Meter) :=
  match fuel with
  | 0 => .ok ([], meter)
  | fuel + 1 =>
      match a.findFrom x offset meter with
      | .error e => .error e
      | .ok (none, after) => .ok ([], after)
      | .ok (some span, after) =>
          match resumeAfter? x span with
          | none => .ok ([span], after)
          | some next =>
              match findAllFrom a x fuel next after with
              | .error e => .error e
              | .ok (spans, final) => .ok (span :: spans, final)

/-! ## Calls -/

/-- The leftmost longest match at or behind an offset that a caller gives. -/
def find (a : Automaton) (x : Text) (offset : Number) (limits : Limits) :
    Except LimitError (Option Span) :=
  match Meter.start limits x, offset.startOffset? with
  | .error e, _ => .error e
  | .ok _, none => .ok none
  | .ok meter, some start => (a.findFrom x start meter).map (·.1)

/-- All matches from left to right, none overlapping another; the steps of all
the searches count together. -/
def findAll (a : Automaton) (x : Text) (limits : Limits) : Except LimitError (List Span) :=
  match Meter.start limits x with
  | .error e => .error e
  | .ok meter => (a.findAllFrom x (x.length + 1) 0 meter).map (·.1)

/-- Whether any part of the text matches. -/
def test (a : Automaton) (x : Text) (limits : Limits) : Except LimitError Bool :=
  (a.find x (.ofNat 0) limits).map (·.isSome)

end Automaton

end RegexEngine
