/-
# `Text.Occurs` — where a text stands in another one

Symbols stand in a text from one offset to another when they are what reading steps give
on the way (`Text.Stands`).  So a text occurs in another one where its symbols stand.

The same can be said by units alone: the part between two boundaries has the units of the
text (`stands_iff_slice`).  Both boundaries are needed.  The units of a text can also be
found inside of a pair, at its start or at its end, and there the text does not occur.
-/
import RegexEngine.Proofs.Text.Slicing

namespace RegexEngine.Text

/-- The symbols stand in the text from offset `i` up to offset `j`. -/
def Stands (x : Text) : List Nat → Nat → Nat → Prop
  | [] => fun i j => i = j
  | c :: cs => fun i j => ∃ k, x.Reads i c k ∧ x.Stands cs k j

variable {w x : Text} {cs ds : List Nat} {i j k : Nat}

theorem stands_append : x.Stands (cs ++ ds) i j ↔ ∃ k, x.Stands cs i k ∧ x.Stands ds k j := by
  induction cs generalizing i with
  | nil => exact ⟨fun h => ⟨i, rfl, h⟩, fun ⟨k, (hik : i = k), h⟩ => hik ▸ h⟩
  | cons c cs ih =>
      constructor
      · rintro ⟨k, hread, h⟩
        obtain ⟨k', hcs, hds⟩ := ih.mp h
        exact ⟨k', ⟨k, hread, hcs⟩, hds⟩
      · rintro ⟨k', ⟨k, hread, hcs⟩, hds⟩
        exact ⟨k, hread, ih.mpr ⟨k', hcs, hds⟩⟩

/-- The symbols from an offset on stand there, up to the end. -/
theorem stands_of_symbolsFrom (hi : i ≤ x.length) (h : x.symbolsFrom i = cs) :
    x.Stands cs i x.length := by
  induction cs generalizing i with
  | nil => exact (symbolsFrom_eq_nil_iff hi).mp h
  | cons c cs ih =>
      obtain ⟨k, hread, hcs⟩ := exists_reads_of_symbolsFrom h
      exact ⟨k, hread, ih hread.le_length hcs⟩

theorem Stands.boundary (h : x.Stands cs i j) : x.Boundary i j := by
  induction cs generalizing i with
  | nil =>
      obtain rfl : i = j := h
      exact .refl
  | cons c cs ih =>
      obtain ⟨k, hread, hcs⟩ := h
      exact .head ⟨c, hread⟩ (ih hcs)

/-- Between two boundaries some symbols stand. -/
theorem Boundary.exists_stands (h : x.Boundary i j) : ∃ cs, x.Stands cs i j := by
  induction h with
  | refl => exact ⟨[], rfl⟩
  | tail _ hnext ih =>
      obtain ⟨cs, hcs⟩ := ih
      obtain ⟨c, hread⟩ := hnext
      exact ⟨cs ++ [c], stands_append.mpr ⟨_, hcs, _, hread, rfl⟩⟩

/-- The symbols of a part, from an offset in it on, are those that stand there. -/
theorem Stands.symbolsFrom_slice (hk : x.Boundary i (i + k)) (hj : j ≤ x.length)
    (h : x.Stands cs (i + k) j) : (x.slice i j).symbolsFrom k = cs := by
  have hij : x.Boundary i j := hk.trans h.boundary
  induction cs generalizing k with
  | nil =>
      have hend : i + k = j := h
      refine symbolsFrom_of_ge ?_
      rw [length_slice hj]
      omega
  | cons c cs ih =>
      obtain ⟨m, hread, hcs⟩ := h
      -- The symbol ends where the next ones begin, so the part holds it whole.
      have hlt := hread.lt
      obtain ⟨l, rfl⟩ : ∃ l, m = i + l := ⟨m - i, by omega⟩
      have hslice := (reads_slice_iff hk hij hj).mpr ⟨hread, hcs.boundary.le⟩
      rw [hslice.symbolsFrom, ih (hk.tail ⟨c, hread⟩) hcs]

/-- The symbols of a text stand between two offsets exactly if these are boundaries with
the units of the text between them. -/
theorem stands_iff_slice (hi : i ≤ x.length) :
    x.Stands w.symbols i j ↔ x.Boundary i j ∧ x.slice i j = w := by
  have hsymbols : ∀ {cs}, x.Stands cs i j → (x.slice i j).symbols = cs := fun h =>
    Stands.symbolsFrom_slice (k := 0) .refl (h.boundary.le_length hi) h
  constructor
  · intro h
    refine ⟨h.boundary, ?_⟩
    rw [← ofSymbols_symbols (x.slice i j), hsymbols h, ofSymbols_symbols]
  · rintro ⟨hij, hslice⟩
    obtain ⟨cs, hcs⟩ := hij.exists_stands
    rwa [← hslice, hsymbols hcs]

/-- The symbols of a text take up its length. -/
theorem Stands.stop_eq (hi : i ≤ x.length) (h : x.Stands w.symbols i j) : j = i + w.length := by
  obtain ⟨hij, hslice⟩ := (stands_iff_slice hi).mp h
  have hle := hij.le
  rw [← hslice, length_slice (hij.le_length hi)]
  omega

/-- The whole text is the only one that stands in all of it. -/
theorem stands_whole_iff : x.Stands w.symbols 0 x.length ↔ x = w := by
  rw [stands_iff_slice (Nat.zero_le _), slice_length]
  refine and_iff_right_of_imp ?_
  rintro rfl
  exact (stands_of_symbolsFrom (Nat.zero_le _) rfl).boundary

/-! ## Occurrences -/

/-- The text `w` occurs in `x` at offset `i`: its units are there, and it starts and ends
where symbols of `x` do. -/
def Occurs (w x : Text) (i : Nat) : Prop :=
  x.Boundary 0 i ∧ x.Boundary 0 (i + w.length) ∧ x.slice i (i + w.length) = w

theorem occurs_iff_stands :
    w.Occurs x i ↔ x.Boundary 0 i ∧ x.Stands w.symbols i (i + w.length) := by
  refine and_congr_right fun hi => ?_
  rw [stands_iff_slice (hi.le_length (Nat.zero_le _))]
  refine and_congr_left fun _ => ⟨fun hstop => ?_, hi.trans⟩
  exact hi.of_le hstop (Nat.le_add_right i _)

end RegexEngine.Text
