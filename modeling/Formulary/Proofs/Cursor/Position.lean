import Formulary.Proofs.Cursor.Machine
/-!
Where the text can be cut, and the rows and columns there. The position of an offset is made of slices
of the text, so it is found exactly where the text can be cut, and it is the one that is counted
character by character (`position?_of_isBoundary`).
-/

set_option autoImplicit false
set_option relaxedAutoImplicit false

namespace Formulary.Text

namespace Position

theorem foldl_next_of_not_mem {line : List Char} (h : '\n' ∉ line) (position : Position) :
    line.foldl next position = ⟨position.row, position.column + line.length⟩ := by
  induction line generalizing position with
  | nil => rfl
  | cons character line ih =>
    obtain ⟨hcharacter, hline⟩ := not_or.mp (mt List.mem_cons.mpr h)
    rw [List.foldl_cons, ih hline, next, if_neg (Ne.symm hcharacter), List.length_cons]
    simp only [Nat.add_assoc, Nat.add_comm 1]

theorem row_foldl_next (text : List Char) (position : Position) :
    (text.foldl next position).row = position.row + text.count '\n' := by
  induction text generalizing position with
  | nil => rfl
  | cons character text ih =>
    rw [List.foldl_cons, ih, List.count_cons, next]
    by_cases hnewline : character = '\n'
    · simp only [hnewline, if_true, beq_self_eq_true]
      omega
    · simp [hnewline]

/-- A row begins in column one. -/
theorem after_newline (lines : List Char) :
    after (lines ++ ['\n']) = ⟨(lines ++ ['\n']).count '\n' + 1, 1⟩ := by
  have hrow := row_foldl_next lines start
  rw [after, List.foldl_append, List.foldl_cons, List.foldl_nil, next, if_pos rfl, hrow,
    List.count_append, List.count_singleton_self]
  simp only [start, Nat.add_comm 1]

end Position

end Formulary.Text

namespace Formulary.Cursor

open Text Place

/-- What stands behind the last newline of a text is its last line. -/
theorem exists_line (text : List Char) :
    ∃ before line, text = before ++ line ∧ '\n' ∉ line ∧
      (lastNewline? text).elim 0 (· + 1) = byteLength before ∧
        (before = [] ∨ ∃ lines, before = lines ++ ['\n']) := by
  induction text with
  | nil => exact ⟨[], [], rfl, List.not_mem_nil, rfl, .inl rfl⟩
  | cons character text ih =>
    obtain ⟨before, line, htext, hline, hlength, hbefore⟩ := ih
    rw [lastNewline?]
    cases hlast : lastNewline? text with
    | some index =>
      rw [hlast, Option.elim_some] at hlength
      obtain rfl | ⟨lines, rfl⟩ := hbefore
      · exact absurd hlength (Nat.succ_ne_zero index)
      · refine ⟨character :: (lines ++ ['\n']), line, ?_, hline, ?_, .inr ⟨character :: lines, rfl⟩⟩
        · rw [htext, List.cons_append]
        · rw [byteLength_cons, ← hlength]
          exact Nat.add_assoc _ _ _
    | none =>
      rw [hlast, Option.elim_none] at hlength
      obtain rfl : before = [] := byteLength_eq_zero_iff.mp hlength.symm
      obtain rfl : text = line := htext
      by_cases hnewline : character = '\n'
      · subst hnewline
        exact ⟨['\n'], text, rfl, hline, rfl, .inr ⟨[], rfl⟩⟩
      · refine ⟨[], character :: text, rfl, ?_, ?_, .inl rfl⟩
        · exact List.not_mem_cons_of_ne_of_not_mem (Ne.symm hnewline) hline
        · simp [hnewline]

theorem after_eq_of_line {before line : List Char} (hline : '\n' ∉ line)
    (hbefore : before = [] ∨ ∃ lines, before = lines ++ ['\n']) :
    Position.after (before ++ line) = ⟨(before ++ line).count '\n' + 1, line.length + 1⟩ := by
  have hstart : Position.after before = ⟨before.count '\n' + 1, 1⟩ := by
    obtain rfl | ⟨lines, rfl⟩ := hbefore
    · rfl
    · exact Position.after_newline lines
  have hnone : line.count '\n' = 0 := List.count_eq_zero.mpr hline
  rw [Position.after] at hstart ⊢
  rw [List.foldl_append, hstart, Position.foldl_next_of_not_mem hline, List.count_append, hnone,
    Nat.add_comm 1]

/-- Where the text can be cut the cursor finds the position that is counted from its beginning. -/
theorem position?_of_isBoundary {text : List Char} {offset : Nat} (h : IsBoundary text offset) :
    position? text offset = some (.ofOffset text offset) := by
  obtain ⟨before, rest, rfl, rfl⟩ := h
  obtain ⟨lines, line, rfl, hline, hlength, hlines⟩ := exists_line before
  have hslice : slice? ((lines ++ line) ++ rest) 0 (byteLength (lines ++ line)) =
      some (lines ++ line) :=
    @slice?_of_leads _ (lines ++ line) (.start _) ⟨byteLength (lines ++ line), rest⟩
      (within_start _) rfl (Nat.zero_add _).symm
  have hrest : rest? (lines ++ line) (byteLength lines) = some line :=
    rest?_eq_some_iff.mpr ⟨lines, rfl, rfl⟩
  have hmin : min (byteLength (lines ++ line)) (byteLength ((lines ++ line) ++ rest)) =
      byteLength (lines ++ line) :=
    Nat.min_eq_left (IsBoundary.le ⟨_, _, rfl, rfl⟩)
  rw [position?, hmin, hslice, Option.bind_eq_bind, Option.bind_some, hlength, hrest,
    Position.ofOffset_byteLength, after_eq_of_line hline hlines]
  rfl

end Formulary.Cursor
