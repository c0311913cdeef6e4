/-
# `Token.Lex` — a pattern cut into tokens

Tokens, like glyphs, carry positions that matter for errors only.  `Token.Lex` cuts a
pattern into tokens as the grammar sees them, each with its own spelling and without
its position.  A source either has a fault among its tokens or is cut as the grammar
says (`Lex.of_items`), and only in one way (`Lex.items_eq`).
-/
import RegexEngine.Pattern.Token
import RegexEngine.Proofs.Pattern.Class

namespace RegexEngine

namespace Token

open Glyph (Begins)
open Pattern (ClassBody)

/-- How a token is written. -/
inductive Spells : List Nat → Token → Prop
  | symbol {c : Nat} : c ≠ '\\'.toNat → c ≠ '['.toNat → Spells [c] (ofSymbol c)
  | escape {c : Nat} {e : Escape} : Escape.Means c e →
      Spells ['\\'.toNat, c] (.atom (.symbol e.toSet))
  | symbolClass {cs : List Nat} {k : SymbolClass} : ClassBody cs k →
      Spells ('['.toNat :: cs) (.atom (.symbol (.among k)))

/-- A sequence of symbols, cut into tokens. -/
inductive Lex : List Nat → List Token → Prop
  | nil : Lex [] []
  | cons {w cs : List Nat} {t : Token} {ts : List Token} : Spells w t → Lex cs ts →
      Lex (w ++ cs) (t :: ts)

variable {pos : Nat} {source : Text} {cs ds w : List Nat} {t : Token} {ts us : List Token}

theorem Lex.of_spells (h : Spells w t) : Lex w [t] := by
  have := Lex.cons h .nil
  rwa [List.append_nil] at this

theorem Lex.append (h : Lex cs ts) (h' : Lex ds us) : Lex (cs ++ ds) (ts ++ us) := by
  induction h with
  | nil => exact h'
  | cons hw _ ih =>
      rw [List.append_assoc]
      exact .cons hw ih

/-- The tokens that are read from a position on, without their own positions. -/
def items (source : Text) (pos : Nat) (cs : List Nat) : List Token :=
  (scan source (Glyph.scan pos cs)).map (·.item)

theorem scan_class {k : SymbolClass} {glyphs behind : List (Placed Glyph)}
    (h : Pattern.readClass source pos glyphs = .ok (k, behind)) :
    scan source (⟨pos, .plain '['.toNat⟩ :: glyphs) =
      ⟨pos, .atom (.symbol (.among k))⟩ :: scan source behind := by
  rw [scan.eq_def]
  dsimp only
  rw [if_pos rfl]
  split
  · rename_i e he
    rw [h] at he
    cases he
  · rename_i k' behind' hread
    rw [h] at hread
    cases hread
    rfl

theorem scan_class_fault {e : SyntaxError} {glyphs : List (Placed Glyph)}
    (h : Pattern.readClass source pos glyphs = .error e) :
    scan source (⟨pos, .plain '['.toNat⟩ :: glyphs) = [⟨pos, .fault e⟩] := by
  rw [scan.eq_def]
  dsimp only
  rw [if_pos rfl]
  split
  · rename_i e' he
    rw [h] at he
    cases he
    rfl
  · rename_i k behind hread
    rw [h] at hread
    cases hread

theorem scan_symbol {c : Nat} {glyphs : List (Placed Glyph)} (h : c ≠ '['.toNat) :
    scan source (⟨pos, .plain c⟩ :: glyphs) = ⟨pos, ofSymbol c⟩ :: scan source glyphs := by
  rw [scan.eq_def]
  exact if_neg h

theorem scan_escaped {c : Nat} {glyphs : List (Placed Glyph)} :
    scan source (⟨pos, .escaped c⟩ :: glyphs) =
      ⟨pos, .atom (.symbol (Escape.ofSymbol c).toSet)⟩ :: scan source glyphs := by
  rw [scan.eq_def]

theorem scan_lone {glyphs : List (Placed Glyph)} :
    scan source (⟨pos, .loneBackslash⟩ :: glyphs) =
      [⟨pos, .fault (.ofUnit .trailingEscape pos)⟩] := by
  rw [scan.eq_def]

/-- A token is read, whatever stands behind it. -/
theorem Spells.items_append (h : Spells w t) (source : Text) (pos : Nat) (rest : List Nat) :
    ∃ stop, items source pos (w ++ rest) = t :: items source stop rest := by
  unfold items
  cases h with
  | @symbol c hc hopen =>
      have hbegins : Begins (c :: rest) (.plain c) rest := .plain hc
      rw [List.singleton_append, hbegins.scan_eq, scan_symbol hopen]
      exact ⟨_, rfl⟩
  | @escape c e hmeans =>
      have hbegins : Begins ('\\'.toNat :: c :: rest) (.escaped c) rest := .escaped
      rw [List.cons_append, List.singleton_append, hbegins.scan_eq, scan_escaped,
        Escape.means_iff.mp hmeans]
      exact ⟨_, rfl⟩
  | @symbolClass cs k hbody =>
      have hbegins : Begins ('['.toNat :: (cs ++ rest)) (.plain '['.toNat) (cs ++ rest) :=
        .plain (by decide)
      obtain ⟨stop, hread⟩ := hbody.readClass (pos + (Glyph.plain '['.toNat).width) rest
      rw [List.cons_append, hbegins.scan_eq, scan_class hread]
      exact ⟨stop, rfl⟩

/-- A source that the grammar cuts into tokens is read as these tokens. -/
theorem Lex.items_eq (h : Lex cs ts) (source : Text) (pos : Nat) : items source pos cs = ts := by
  induction h generalizing pos with
  | nil => simp [items, Glyph.scan, scan]
  | cons hw _ ih =>
      obtain ⟨stop, hitems⟩ := hw.items_append source pos _
      rw [hitems, ih stop]

theorem Spells.length_pos (h : Spells w t) : 0 < w.length := by
  cases h <;> exact Nat.succ_pos _

/-- What the first token that is read says about the symbols, unless it is a fault. -/
theorem exists_spells (source : Text) (pos c : Nat) (cs : List Nat) :
    (∃ e, items source pos (c :: cs) = [.fault e]) ∨
      ∃ w rest t stop, c :: cs = w ++ rest ∧ Spells w t ∧
        items source pos (c :: cs) = t :: items source stop rest := by
  obtain ⟨g, rest, hbegins⟩ := Glyph.exists_begins c cs
  unfold items
  rw [hbegins.scan_eq]
  cases hbegins with
  | lone =>
      rw [scan_lone]
      exact Or.inl ⟨_, rfl⟩
  | @escaped d _ =>
      rw [scan_escaped]
      exact Or.inr ⟨['\\'.toNat, d], rest, _, _, rfl, .escape (Escape.means_ofSymbol d), rfl⟩
  | plain hc =>
      by_cases hopen : c = '['.toNat
      · subst hopen
        cases hread : Pattern.readClass source pos
            (Glyph.scan (pos + (Glyph.plain '['.toNat).width) cs) with
        | error e =>
            rw [scan_class_fault hread]
            exact Or.inl ⟨e, rfl⟩
        | ok result =>
            obtain ⟨k, behind⟩ := result
            obtain ⟨body, rest, stop, rfl, rfl, hbody⟩ := Pattern.classBody_of_readClass hread
            rw [scan_class hread]
            exact Or.inr ⟨'['.toNat :: body, rest, _, stop, rfl, .symbolClass hbody, rfl⟩
      · rw [scan_symbol hopen]
        exact Or.inr ⟨[c], cs, _, _, rfl, .symbol hc hopen, rfl⟩

/-- A source without faults among its tokens is cut by the grammar into these tokens. -/
theorem Lex.of_items (source : Text) (pos : Nat) (cs : List Nat)
    (h : ∀ e, .fault e ∉ items source pos cs) : Lex cs (items source pos cs) := by
  induction hlen : cs.length using Nat.strongRecOn generalizing pos cs with
  | ind n ih =>
      subst hlen
      cases cs with
      | nil => simpa [items, Glyph.scan, scan] using Lex.nil
      | cons c cs =>
          rcases exists_spells source pos c cs with ⟨e, hfault⟩ | ⟨w, rest, t, stop, hw, ht, hitems⟩
          · rw [hfault] at h
            exact absurd List.mem_cons_self (h e)
          · rw [hitems] at h ⊢
            rw [hw]
            have hlt : rest.length < (c :: cs).length := by
              rw [hw, List.length_append]
              exact Nat.lt_add_of_pos_left ht.length_pos
            exact .cons ht (ih _ hlt stop rest (fun e he => h e (List.mem_cons_of_mem t he)) rfl)

end Token

end RegexEngine
