import Formulary.Proofs.Form.Standing
/-!
The end of a text. A text whose last character closes its first group still begins with the members of
the group when that character is missing (`ClosesAtEnd.unclosed`). If a line with something on it is
put behind a text, then the forms of the text stay the same, and what comes behind them is the line
(`Sequence.followedBy`). Main definitions: `ClosesAtEnd` and `followedBy`.
-/

set_option autoImplicit false
set_option relaxedAutoImplicit false

namespace Formulary

open Text Place

/-! ### The last parenthesis -/

/-- The last character of a text closes the first group of the text. -/
def ClosesAtEnd (text : List Char) : Prop :=
  ∃ inside members, dropSeparators text = '(' :: inside ∧
    Sequence (dropSeparators inside) members [')']

theorem startsToken_close (text : List Char) : StartsToken (')' :: text) :=
  ⟨List.cons_ne_nil _ _, dropSeparators_close text⟩

/-- Without the last character the members of the group are still there. -/
theorem ClosesAtEnd.unclosed {text : List Char} (h : ClosesAtEnd (text ++ [')'])) :
    ∃ inside members, dropSeparators text = '(' :: inside ∧
      Sequence (dropSeparators inside) members [] ∧
      Sequence (dropSeparators (text ++ [')'])) [.group members] [] := by
  obtain ⟨inside, members, htext, hmembers⟩ := h
  have hclose := startsToken_close []
  have hempty : dropSeparators [] = [] := rfl
  have hrest : Sequence (dropSeparators inside) members ([] ++ [')']) := hmembers
  obtain ⟨kept, hkept, hcut⟩ := hrest.replace
  obtain ⟨taken, rfl, -, htaken⟩ := exists_taken_of_dropSeparators hkept
  have hinside := htaken hclose hempty
  have htext' : dropSeparators (text ++ [')']) = '(' :: taken ++ [')'] := htext
  obtain ⟨before, hbefore, -, houtside⟩ := exists_taken_of_dropSeparators htext'
  obtain rfl := List.append_cancel_right hbefore
  have hopens := houtside hclose hempty
  rw [List.append_nil, List.append_nil] at hinside hopens
  refine ⟨taken, members, hopens, ?_, ?_⟩
  · rw [hinside]
    simpa using hcut [] ⟨hclose, rfl, .inr fun _ ↦ rfl⟩
  · rw [htext]
    exact .group hmembers (.done _)

/-! ### A further line -/

/-- What remains of a text behind which there is a further line: the line, if nothing remained. -/
def followedBy (line : List Char) : List Char → List Char
  | [] => line
  | character :: rest => character :: rest ++ '\n' :: line

theorem followedBy_of_ne_nil {text : List Char} (h : text ≠ []) (line : List Char) :
    followedBy line text = text ++ '\n' :: line := by
  obtain ⟨character, text, rfl⟩ := List.exists_cons_of_ne_nil h
  rfl

theorem isDelimited_append_newline {text : List Char} (h : isDelimited text = true)
    (line : List Char) : isDelimited (text ++ '\n' :: line) = true := by
  cases text with
  | nil => rfl
  | cons character text => exact h

section FollowedBy

variable {line : List Char} (hline : dropSeparators line = line)

include hline

/-- The end of a line ends a comment, so separators go on to the further line. -/
theorem drop_separatorLength_followedBy (inComment : Bool) (text : List Char) :
    (text ++ '\n' :: line).drop (separatorLength inComment (text ++ '\n' :: line)) =
      followedBy line (text.drop (separatorLength inComment text)) := by
  induction text generalizing inComment with
  | nil => cases inComment <;> exact hline
  | cons character text ih =>
    rw [List.cons_append, separatorLength, separatorLength]
    split_ifs
    · exact ih _
    · exact ih _
    · exact ih _
    · rfl

theorem dropSeparators_followedBy (text : List Char) :
    dropSeparators (text ++ '\n' :: line) = followedBy line (dropSeparators text) :=
  drop_separatorLength_followedBy hline false text

/-- The forms of a text are those that it has in front of a further line. -/
theorem Sequence.followedBy {text rest : List Char} {forms : List Form}
    (h : Sequence text forms rest) :
    Sequence (followedBy line text) forms (followedBy line rest) := by
  induction h with
  | done => exact .done _
  | @word word text rest forms hsome hword hends hrest ih =>
    rw [← dropSeparators_followedBy hline] at ih
    rw [followedBy_of_ne_nil (List.append_ne_nil_of_left_ne_nil hsome text), List.append_assoc]
    exact .word hsome hword (isDelimited_append_newline hends line) ih
  | @string quoted body text rest forms hbody hends hrest ih =>
    obtain ⟨taken, rfl, -, hnew⟩ := hbody.exists_taken
    have hbody' := hnew (text ++ '\n' :: line)
    rw [← List.append_assoc] at hbody'
    rw [← dropSeparators_followedBy hline] at ih
    exact .string hbody' (isDelimited_append_newline hends line) ih
  | @group inside text rest members forms hmembers hrest ihmembers ih =>
    rw [← dropSeparators_followedBy hline] at ihmembers ih
    exact .group ihmembers ih

end FollowedBy

end Formulary
