import Formulary.Proofs.Cursor.Position
/-!
Rows and columns are ordered like offsets. One more character moves a position ahead in the order in which
a text is read (`Position.precedes_next`), so of two offsets at which the text can be cut the one that comes
first has the earlier row, or the earlier column of the same row. And the offset is found again behind as
many newlines and then as many characters as the position says (`toOffset_ofOffset`). Main definitions:
`Position.Precedes` and `Position.toOffset`.
-/

set_option autoImplicit false
set_option relaxedAutoImplicit false

namespace Formulary.Text

/-! ### The order of reading -/

namespace Position

variable {position middle other : Position}

/-- A position comes before another one if its row does, or its column in the same row. -/
def Precedes (position other : Position) : Prop :=
  position.row < other.row ∨ position.row = other.row ∧ position.column < other.column

theorem Precedes.trans (hfirst : position.Precedes middle) (hsecond : middle.Precedes other) :
    position.Precedes other := by
  unfold Precedes at *
  omega

theorem Precedes.asymm (h : position.Precedes other) : ¬ other.Precedes position := by
  unfold Precedes at *
  omega

theorem precedes_next (position : Position) (character : Char) :
    position.Precedes (position.next character) := by
  rw [next]
  split
  · exact .inl (Nat.lt_succ_self _)
  · exact .inr ⟨rfl, Nat.lt_succ_self _⟩

/-- What is read between two positions moves ahead from the first to the second. -/
theorem precedes_foldl_next {passed : List Char} (h : passed ≠ []) (position : Position) :
    position.Precedes (passed.foldl next position) := by
  induction passed generalizing position with
  | nil => exact absurd rfl h
  | cons character passed ih =>
    have hnext := precedes_next position character
    by_cases hend : passed = []
    · rwa [hend, List.foldl_cons, List.foldl_nil]
    · rw [List.foldl_cons]
      exact hnext.trans (ih hend _)

/-- Of two places of a text the one with the smaller offset has the earlier position. -/
theorem precedes_of_lt {text : List Char} {first second : Nat} (hfirst : IsBoundary text first)
    (hsecond : IsBoundary text second) (h : first < second) :
    (ofOffset text first).Precedes (ofOffset text second) := by
  obtain ⟨before, rest, rfl, rfl⟩ := hfirst
  obtain ⟨longer, left, htext, rfl⟩ := hsecond
  have hlonger : before <+: longer := by
    have hprefix : before <+: longer ++ left := htext ▸ List.prefix_append before rest
    refine (List.prefix_or_prefix_of_prefix hprefix (List.prefix_append longer left)).resolve_right ?_
    rintro ⟨passed, rfl⟩
    rw [byteLength_append] at h
    omega
  obtain ⟨passed, rfl⟩ := hlonger
  have hpassed : passed ≠ [] := by
    rintro rfl
    rw [List.append_nil] at h
    exact Nat.lt_irrefl _ h
  rw [ofOffset_byteLength, htext, ofOffset_byteLength, after, after, List.foldl_append]
  exact precedes_foldl_next hpassed _

/-- Positions are ordered exactly as their offsets are. -/
theorem precedes_iff_lt {text : List Char} {first second : Nat} (hfirst : IsBoundary text first)
    (hsecond : IsBoundary text second) :
    (ofOffset text first).Precedes (ofOffset text second) ↔ first < second := by
  refine ⟨fun hprecedes ↦ ?_, precedes_of_lt hfirst hsecond⟩
  rcases Nat.lt_trichotomy first second with hless | rfl | hmore
  · exact hless
  · exact absurd hprecedes hprecedes.asymm
  · exact absurd hprecedes (precedes_of_lt hsecond hfirst hmore).asymm

end Position

/-! ### Back to the offset -/

/-- The place behind a number of newlines. -/
def Place.pastNewlines : Nat → Place → Place
  | 0, place => place
  | count + 1, place => ((place.skip (· != '\n')).past 1).pastNewlines count

/-- The offset that is reached past the newlines of the rows before a position, and then past the characters
of the columns before it. -/
def Position.toOffset (text : List Char) (position : Position) : Nat :=
  (((Place.start text).pastNewlines (position.row - 1)).past (position.column - 1)).offset

/-- Past as many newlines as some rows have is the place behind these rows. -/
theorem Place.pastNewlines_rows (rows rest : List Char) (offset : Nat) :
    pastNewlines (rows.count '\n' + 1) ⟨offset, rows ++ '\n' :: rest⟩ =
      ⟨offset + byteLength (rows ++ ['\n']), rest⟩ := by
  induction rows generalizing offset with
  | nil => simp [pastNewlines, Cursor.skip_cons, past]
  | cons character rows ih =>
    rw [List.cons_append, List.cons_append, byteLength_cons, ← Nat.add_assoc, ← ih]
    by_cases hnewline : character = '\n'
    · subst hnewline
      rw [List.count_cons_self, pastNewlines, Cursor.skip_cons, if_neg (by simp)]
      simp [past]
    · -- the character belongs to the first of the rows, so its newline is still to come
      rw [List.count_cons_of_ne hnewline, pastNewlines, pastNewlines, Cursor.skip_cons,
        if_pos (by simp [hnewline])]

/-- An offset is found again from its row and its column. -/
theorem Position.toOffset_ofOffset {text : List Char} {offset : Nat} (h : IsBoundary text offset) :
    (ofOffset text offset).toOffset text = offset := by
  obtain ⟨before, rest, rfl, rfl⟩ := h
  obtain ⟨rows, line, rfl, hline, -, hrows⟩ := Cursor.exists_line before
  have hbehind : (Place.start ((rows ++ line) ++ rest)).pastNewlines (rows.count '\n') =
      ⟨byteLength rows, line ++ rest⟩ := by
    rw [Place.start, List.append_assoc]
    obtain rfl | ⟨lines, rfl⟩ := hrows
    · rfl
    · have hpast := Place.pastNewlines_rows lines (line ++ rest) 0
      rw [Nat.zero_add] at hpast
      rw [List.count_append, List.count_singleton_self, List.append_assoc]
      exact hpast
  have hnone : line.count '\n' = 0 := List.count_eq_zero.mpr hline
  rw [ofOffset_byteLength, Cursor.after_eq_of_line hline hrows, toOffset, Nat.add_sub_cancel,
    Nat.add_sub_cancel, List.count_append, hnone, Nat.add_zero, hbehind, byteLength_append]
  simp [Place.past]

end Formulary.Text

namespace Formulary.Cursor

open Text

/-- The position of the beginning is the first column of the first row. Every offset at which a text can be
cut has a position, from which the offset is found again by going past newlines and characters; and of two
such offsets the first one has the position that comes before the other in the order of rows and columns. -/
theorem position?_precedes_iff (text : List Char) :
    position? text 0 = some ⟨1, 1⟩ ∧
      ∀ offset, IsBoundary text offset → ∃ position, position? text offset = some position ∧
        position = .ofOffset text offset ∧ position.toOffset text = offset ∧
          ∀ further, IsBoundary text further → ∃ other, position? text further = some other ∧
            (position.Precedes other ↔ offset < further) := by
  refine ⟨?_, fun offset hoffset ↦ ?_⟩
  · rw [position?_of_isBoundary (isBoundary_zero text)]
    exact congrArg some (Position.ofOffset_byteLength [] text)
  · refine ⟨_, position?_of_isBoundary hoffset, rfl, Position.toOffset_ofOffset hoffset,
      fun further hfurther ↦ ?_⟩
    exact ⟨_, position?_of_isBoundary hfurther, Position.precedes_iff_lt hoffset hfurther⟩

/-- Rows, columns and offsets differ where characters take several bytes. -/
theorem position?_precedes_iff_accented :
    let text := "\"é\n日\" x".toList
    IsBoundary text 3 ∧ IsBoundary text 8 ∧ position? text 3 = some ⟨1, 3⟩ ∧
      position? text 8 = some ⟨2, 3⟩ ∧ Position.Precedes ⟨1, 3⟩ ⟨2, 3⟩ ∧
        Position.toOffset text ⟨2, 3⟩ = 8 := by
  intro text
  have hfirst : IsBoundary text 3 := ⟨['"', 'é'], ['\n', '日', '"', ' ', 'x'], rfl, rfl⟩
  have hsecond : IsBoundary text 8 := ⟨['"', 'é', '\n', '日', '"'], [' ', 'x'], rfl, rfl⟩
  obtain ⟨position, hposition, -, -, hordered⟩ := (position?_precedes_iff text).2 3 hfirst
  obtain ⟨further, hfurther, hprecedes⟩ := hordered 8 hsecond
  obtain ⟨again, hagain, -, hoffset, -⟩ := (position?_precedes_iff text).2 8 hsecond
  have hleft : position? text 3 = some ⟨1, 3⟩ := by decide
  have hright : position? text 8 = some ⟨2, 3⟩ := by decide
  obtain rfl := Option.some.inj (hposition.symm.trans hleft)
  obtain rfl := Option.some.inj (hfurther.symm.trans hright)
  obtain rfl := Option.some.inj (hagain.symm.trans hright)
  exact ⟨hfirst, hsecond, hleft, hright, hprecedes.mpr (by decide), hoffset⟩

end Formulary.Cursor
