import Formulary.Proofs.Formula.Comparison
import Formulary.Proofs.Formula.Report
import Formulary.Proofs.Formula.Trace
import Formulary.Proofs.Reading.Shift
/-!
Formulas behind blanks and comments. Whatever is put in front of a formula, every slot is read in the same
way with all offsets greater by as much (`shifts_fill`). Blanks and complete comments are passed over before
the reading begins, so a formula behind them is read as the same outline, or refused with the same
complaints, and everything happens just as much further on (`parseFormula_behind_separators`). Main
definition: `IsSeparators`.
-/

set_option autoImplicit false
set_option relaxedAutoImplicit false

namespace Formulary

open Text Place Reading

/-! ### Blanks and comments in front -/

/-- A text of blanks and of comments, each of which is ended by a newline. -/
inductive IsSeparators : List Char → Prop
  | nil : IsSeparators []
  | blank {character : Char} {text : List Char} (hblank : isBlank character = true)
      (htext : IsSeparators text) : IsSeparators (character :: text)
  | comment {line text : List Char} (hline : '\n' ∉ line) (htext : IsSeparators text) :
      IsSeparators (';' :: line ++ '\n' :: text)

theorem separatorLength_line {line : List Char} (hline : '\n' ∉ line) (text : List Char) :
    separatorLength true (line ++ '\n' :: text) = line.length + 1 + separatorLength false text := by
  induction line with
  | nil => simp [separatorLength, Nat.add_comm]
  | cons character line ih =>
    rw [List.mem_cons, not_or] at hline
    have hother : (character != '\n') = true := bne_iff_ne.mpr (Ne.symm hline.1)
    rw [List.cons_append, separatorLength, if_pos rfl, hother, ih hline.2, List.length_cons]
    omega

/-- Blanks and comments in front are passed over, and then what was passed over before. -/
theorem separatorLength_append {front : List Char} (hfront : IsSeparators front) (text : List Char) :
    separatorLength false (front ++ text) = front.length + separatorLength false text := by
  induction hfront with
  | nil => exact (Nat.zero_add _).symm
  | blank hblank _ ih =>
    rw [List.cons_append, separatorLength, if_neg Bool.false_ne_true, if_pos hblank, ih,
      List.length_cons]
    omega
  | @comment line others hline _ ih =>
    have hmark : ¬ isBlank ';' = true := by decide
    have htext : ';' :: line ++ '\n' :: others ++ text = ';' :: (line ++ '\n' :: (others ++ text)) := by
      simp
    rw [htext, separatorLength, if_neg Bool.false_ne_true, if_neg hmark, if_pos rfl,
      separatorLength_line hline, ih, List.length_append, List.length_cons, List.length_cons]
    omega

theorem skipSeparators_start_append {front : List Char} (hfront : IsSeparators front)
    (text : List Char) :
    (Place.start (front ++ text)).skipSeparators =
      (Place.start text).skipSeparators.shifted (byteLength front) := by
  rw [skipSeparators, skipSeparators, Place.start, Place.start, separatorLength_append hfront, past,
    past, shifted, List.take_length_add_append, List.drop_length_add_append, byteLength_append]
  simp

/-! ### Slots -/

/-- All steps by which slots are read shift. -/
theorem shifts_conduct (amount : Nat) : Conduct fun step place ↦ Shifts amount step step place where
  pure := shifts_pure
  remaining := shifts_remaining
  fail := shifts_fail
  symbol := shifts_symbol
  word := shifts_word
  literal := shifts_literal
  atEnd := shifts_atEnd
  bind := Shifts.bind
  firstOf _ := shifts_firstOf
  optionally_firstOf h := (shifts_firstOf h).optionally

/-- A slot is read in the same way wherever it stands. -/
theorem shifts_fill (amount : Nat) (catalog : Catalog) (limit room : Nat) (slot : Slot)
    (place : Place) :
    Shifts amount (fill catalog limit room slot) (fill catalog limit room slot) place := by
  induction room generalizing slot place with
  | zero => exact (shifts_note (fun _ ↦ rfl) place).bind fun _ middle _ ↦ shifts_fail _ middle
  | succ room ih =>
    refine (shifts_note (fun _ ↦ rfl) place).bind fun _ middle _ ↦ ?_
    have hparts := (shifts_conduct amount).fillParts
      (fun _ hstep bound place ↦ shifts_repeatedly hstep bound place) catalog ih slot middle
    refine hparts.nested.bind fun outline after _ ↦ ?_
    exact (shifts_note (fun _ ↦ rfl) after).bind fun _ last _ ↦ shifts_pure outline last

/-! ### Reports -/

theorem complaintsAt_shifted (amount : Nat) (failures : List Failure) (offset : Nat) :
    complaintsAt (failures.map (Failure.shifted amount)) (amount + offset) =
      complaintsAt failures offset := by
  have hsame : (fun failure : Failure ↦ decide (failure.offset = amount + offset)) ∘
      Failure.shifted amount = fun failure ↦ decide (failure.offset = offset) := by
    funext failure
    simp [Failure.shifted]
  rw [complaintsAt, complaintsAt, List.filter_map, List.map_map, hsame]
  rfl

theorem frontier_shifted (amount : Nat) {failures : List Failure} (h : failures ≠ []) :
    frontier (failures.map (Failure.shifted amount)) = amount + frontier failures := by
  refine Nat.le_antisymm (frontier_le fun failure hfailure ↦ ?_) ?_
  · obtain ⟨own, hown, rfl⟩ := List.mem_map.mp hfailure
    exact Nat.add_le_add_left (le_frontier hown) amount
  · obtain ⟨furthest, hfurthest, hoffset⟩ := exists_failure_frontier h
    have hmem := List.mem_map_of_mem (f := Failure.shifted amount) hfurthest
    rw [← hoffset]
    exact le_frontier hmem

theorem Outcome.failures_shifted {α : Type} (amount : Nat) (outcome : Outcome α) :
    (outcome.shifted amount).failures = outcome.failures.map (Failure.shifted amount) := by
  rw [failures, failures, events_shifted, failuresOf, failuresOf, List.filterMap_map,
    List.map_filterMap]
  refine List.filterMap_congr fun event _ ↦ ?_
  cases event <;> rfl

theorem Outcome.shown_shifted {α : Type} (amount : Nat) (outcome : Outcome α) :
    (outcome.shifted amount).shown = outcome.shown.map (Event.shifted amount) := by
  rw [shown, shown, events_shifted, List.filter_map]
  refine congrArg _ (List.filter_congr fun event _ ↦ ?_)
  cases event <;> rfl

/-! ### Whole formulas -/

/-- Behind blanks and comments a whole formula is read in the same way. -/
theorem readFormula_append {operators : List Operator} {limit : Option Nat} {front : List Char}
    (hfront : IsSeparators front) (text : List Char) :
    readFormula (.ofList operators) limit (front ++ text) =
      (readFormula (.ofList operators) limit text).shifted (byteLength front) := by
  obtain ⟨bound, room, hread, hread'⟩ := exists_room operators operators limit (front ++ text) text
  rw [hread, hread', skipSeparators_start_append hfront]
  exact shifts_fill _ _ bound room _ _

/-- Blanks and comments in front of a formula only shift it. It is read as an outline if and only if it is
read as that outline without them. If it cannot be read, the complaints are the same in the same order, and
they are those at the offset that is greater by the length of what stands in front. So are the offsets of
everything that happens, and of what is shown of it. -/
theorem parseFormula_behind_separators {operators : List Operator} {limit : Option Nat}
    {front : String} (hfront : IsSeparators front.toList) (source : String) :
    (∀ outline, parseFormula (.ofList operators) limit (front ++ source) = .ok outline ↔
      parseFormula (.ofList operators) limit source = .ok outline) ∧
    (∀ report, parseFormula (.ofList operators) limit source = .error report →
      ∃ (last : Nat) (complaints : List Complaint),
        last = frontier (readFormula (.ofList operators) limit source.toList).failures ∧
        report = (complaints.map fun complaint ↦ ⟨.ofOffset source.toList last, complaint⟩) ∧
        parseFormula (.ofList operators) limit (front ++ source) =
          .error (complaints.map fun complaint ↦
            ⟨.ofOffset (front ++ source).toList (byteLength front.toList + last), complaint⟩)) ∧
    (readFormula (.ofList operators) limit (front ++ source).toList).events =
      (readFormula (.ofList operators) limit source.toList).events.map
        (Event.shifted (byteLength front.toList)) ∧
    (readFormula (.ofList operators) limit (front ++ source).toList).shown =
      (readFormula (.ofList operators) limit source.toList).shown.map
        (Event.shifted (byteLength front.toList)) := by
  have hread := @readFormula_append operators limit _ hfront source.toList
  rw [← String.toList_append] at hread
  refine ⟨fun outline ↦ ?_, fun report hreport ↦ ?_, ?_, ?_⟩
  · rw [parseFormula_eq_ok_iff, parseFormula_eq_ok_iff, hread, Outcome.shifted]
    cases (readFormula (.ofList operators) limit source.toList).result with
    | none => simp
    | some found => simp [Prod.ext_iff]
  · obtain ⟨hnone, rfl⟩ := parseFormula_eq_error_iff.mp hreport
    refine ⟨_, _, rfl, diagnostics_eq _ _, parseFormula_eq_error_iff.mpr ⟨?_, ?_⟩⟩
    · rw [hread, Outcome.shifted, hnone]
      rfl
    · rw [diagnostics_eq, hread, Outcome.failures_shifted,
        frontier_shifted _ (failures_readFormula_ne_nil hnone), complaintsAt_shifted]
  · rw [hread, Outcome.events_shifted]
  · rw [hread, Outcome.shown_shifted]

/-- A comment and a blank in front of a formula that cannot be read. -/
theorem parseFormula_behind_comment :
    IsSeparators "; no\n ".toList ∧
      ∃ (last : Nat) (complaints : List Complaint),
        neitherReport = (complaints.map fun complaint ↦ ⟨.ofOffset "(f #t)".toList last, complaint⟩) ∧
          parseFormula (.ofList [onIntegerOrString]) none ("; no\n " ++ "(f #t)") =
            .error (complaints.map fun complaint ↦
              ⟨.ofOffset ("; no\n " ++ "(f #t)").toList (6 + last), complaint⟩) := by
  have hfront : IsSeparators "; no\n ".toList := by
    have htext : "; no\n ".toList = ';' :: [' ', 'n', 'o'] ++ '\n' :: [' '] := by decide
    rw [htext]
    exact .comment (by decide) (.blank (by decide) .nil)
  have hreport : parseFormula (.ofList [onIntegerOrString]) none "(f #t)" = .error neitherReport := by
    decide +kernel
  obtain ⟨last, complaints, -, hbefore, hbehind⟩ :=
    (parseFormula_behind_separators hfront "(f #t)").2.1 neitherReport hreport
  exact ⟨hfront, last, complaints, hbefore, hbehind⟩

end Formulary
