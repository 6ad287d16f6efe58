import Formulary.Fault
import Formulary.Proofs.Formula.Quoting
/-!
The lines of a report. A report is written with a newline between its diagnostics, and a diagnostic has no
newline but those that its complaint quotes (`length_lines_message`). So every diagnostic is one line
exactly if no complaint of the report quotes a newline; where one does, it goes on over several lines, which
cannot be told from the diagnostics after it (`lines_of_parseFormula_error`). Main definition: `Text.lines`.
-/

set_option autoImplicit false
set_option relaxedAutoImplicit false

namespace Formulary

open Text

namespace Text

/-! ### Lines -/

/-- The lines of a text: what stands between its newlines. -/
def lines (text : List Char) : List (List Char) :=
  text.splitOn '\n'

theorem lines_of_not_mem {text : List Char} (h : '\n' ∉ text) : lines text = [text] :=
  List.splitOn_eq_singleton h

/-- A newline ends a line and begins the next one. -/
theorem lines_append_newline (first rest : List Char) :
    lines (first ++ '\n' :: rest) = lines first ++ lines rest := by
  simp only [lines, List.splitOn_eq_splitOnP]
  exact List.splitOnP_append_cons first rest rfl

/-- A text has one line more than it has newlines. -/
theorem length_lines (text : List Char) : (lines text).length = text.count '\n' + 1 := by
  induction text with
  | nil => rfl
  | cons character text ih =>
    by_cases hnewline : character = '\n'
    · have hlines := lines_append_newline [] text
      rw [hnewline, ← List.nil_append ('\n' :: text), hlines, List.length_append, ih,
        List.nil_append, List.count_cons_self, Nat.add_comm]
      rfl
    · rw [List.count_cons_of_ne hnewline, ← ih]
      simp only [lines, List.splitOn_eq_splitOnP, List.splitOnP_cons_eq_if_modifyHead, beq_iff_eq,
        if_neg hnewline, List.length_modifyHead]

/-- Texts with a newline between any two of them have the lines of each. -/
theorem lines_intercalate {texts : List (List Char)} (h : texts ≠ []) :
    lines (['\n'].intercalate texts) = texts.flatMap lines := by
  induction texts with
  | nil => exact absurd rfl h
  | cons text texts ih =>
    cases texts with
    | nil => simp
    | cons next texts =>
      rw [List.intercalate_cons_cons, List.append_assoc, List.singleton_append, lines_append_newline,
        ih (List.cons_ne_nil _ _), ← List.flatMap_cons]

end Text

/-! ### What a diagnostic shows -/

section Words

variable {words : String}

theorem count_newline_words (h : '\n' ∉ words.toList) (text : String) :
    (words ++ text).toList.count '\n' = text.toList.count '\n' := by
  rw [String.toList_append, List.count_append, List.count_eq_zero_of_not_mem h, Nat.zero_add]

theorem count_newline_before_words (h : '\n' ∉ words.toList) (text : String) :
    (text ++ words).toList.count '\n' = text.toList.count '\n' := by
  rw [String.toList_append, List.count_append, List.count_eq_zero_of_not_mem h, Nat.add_zero]

end Words

theorem newline_not_mem_repr (number : Nat) : '\n' ∉ (toString number).toList := by
  intro hnewline
  rw [Nat.toString_eq_repr, Nat.toList_repr] at hnewline
  exact absurd (Nat.isDigit_of_mem_toDigits (by decide) (by decide) hnewline) (by decide)

theorem Base.newline_not_mem_name (base : Base) : '\n' ∉ base.name.toList := by
  cases base with
  | series => decide
  | scalar kind => cases kind <;> decide

/-- The words of a complaint itself have no newline. -/
theorem Complaint.count_newline_message (complaint : Complaint) :
    complaint.message.toList.count '\n' = complaint.quoted.count '\n' := by
  cases complaint with
  | expecting what => exact count_newline_words (by decide +kernel) what
  | expectingInt | expectingFloat | expectingNumber | expectingEnd | unexpectedCharacter
  | seriesLiteral => exact List.count_eq_zero_of_not_mem (by decide +kernel)
  | expectingSymbol text | expectingKeyword text | duplicateKeyword text | invalidTimestamp text =>
    exact (count_newline_before_words (by decide) _).trans
      (count_newline_words (by decide +kernel) text)
  | noOperator base =>
    exact (count_newline_words (by decide +kernel) base.name).trans
      (List.count_eq_zero_of_not_mem base.newline_not_mem_name)
  | tooDeep limit =>
    exact (count_newline_words (by decide +kernel) (toString limit)).trans
      (List.count_eq_zero_of_not_mem (newline_not_mem_repr limit))

namespace Diagnostic

/-- A position has no newline, so a diagnostic has those that its complaint quotes. -/
theorem count_newline_message (diagnostic : Diagnostic) :
    diagnostic.message.toList.count '\n' = diagnostic.complaint.quoted.count '\n' := by
  obtain ⟨⟨row, column⟩, complaint⟩ := diagnostic
  calc (complaint.message ++ " at row:" ++ toString row ++ " col:" ++ toString column).toList.count '\n'
    _ = (complaint.message ++ " at row:" ++ toString row ++ " col:").toList.count '\n' :=
      count_newline_before_words (newline_not_mem_repr column) _
    _ = (complaint.message ++ " at row:" ++ toString row).toList.count '\n' :=
      count_newline_before_words (by decide) _
    _ = (complaint.message ++ " at row:").toList.count '\n' :=
      count_newline_before_words (newline_not_mem_repr row) _
    _ = complaint.message.toList.count '\n' := count_newline_before_words (by decide) _
    _ = complaint.quoted.count '\n' := complaint.count_newline_message

theorem length_lines_message (diagnostic : Diagnostic) :
    (lines diagnostic.message.toList).length = diagnostic.complaint.quoted.count '\n' + 1 := by
  rw [length_lines, count_newline_message]

theorem lines_message {diagnostic : Diagnostic} (h : '\n' ∉ diagnostic.complaint.quoted) :
    lines diagnostic.message.toList = [diagnostic.message.toList] := by
  refine lines_of_not_mem fun hnewline ↦ ?_
  rw [← List.count_pos_iff, count_newline_message, List.count_pos_iff] at hnewline
  exact h hnewline

end Diagnostic

/-! ### What a report shows -/

variable {report : List Diagnostic}

/-- The lines of a report are those of its diagnostics. -/
theorem lines_diagnosticText (h : report ≠ []) :
    lines (diagnosticText report).toList =
      report.flatMap fun diagnostic ↦ lines diagnostic.message.toList := by
  have hnewline : "\n".toList = ['\n'] := rfl
  rw [diagnosticText, String.toList_intercalate, hnewline, List.map_map,
    lines_intercalate (mt List.map_eq_nil_iff.mp h), List.flatMap_map]
  rfl

/-- Diagnostics take at least as many lines as they are, and more if one of them quotes a newline. -/
theorem length_le_lines_and_eq_iff (report : List Diagnostic) :
    report.length ≤ (report.flatMap fun diagnostic ↦ lines diagnostic.message.toList).length ∧
      ((report.flatMap fun diagnostic ↦ lines diagnostic.message.toList).length = report.length ↔
        ∀ diagnostic ∈ report, '\n' ∉ diagnostic.complaint.quoted) := by
  induction report with
  | nil => simp
  | cons diagnostic report ih =>
    obtain ⟨hle, heq⟩ := ih
    rw [List.flatMap_cons, List.length_append, List.length_cons, diagnostic.length_lines_message,
      List.forall_mem_cons, ← heq, ← List.count_eq_zero]
    omega

theorem flatMap_lines_eq_iff (report : List Diagnostic) :
    (report.flatMap fun diagnostic ↦ lines diagnostic.message.toList) =
        report.map (fun diagnostic ↦ diagnostic.message.toList) ↔
      ∀ diagnostic ∈ report, '\n' ∉ diagnostic.complaint.quoted := by
  refine ⟨fun h ↦ ?_, fun h ↦ ?_⟩
  · refine (length_le_lines_and_eq_iff report).2.mp ?_
    rw [h, List.length_map]
  · rw [List.map_eq_flatMap]
    exact List.flatMap_congr fun diagnostic hdiagnostic ↦
      Diagnostic.lines_message (h diagnostic hdiagnostic)

/-- What a diagnostic of a formula is about happened during the reading, and its position is the place of
that. -/
theorem exists_event_of_mem_report {catalog : Catalog} {limit : Option Nat} {source : String}
    (h : parseFormula catalog limit source = .error report) {diagnostic : Diagnostic}
    (hdiagnostic : diagnostic ∈ report) :
    ∃ offset, .failed ⟨offset, diagnostic.complaint⟩ ∈ (readFormula catalog limit source.toList).events ∧
      diagnostic.position = .ofOffset source.toList offset := by
  obtain ⟨-, rfl⟩ := parseFormula_eq_error_iff.mp h
  rw [diagnostics_eq] at hdiagnostic
  obtain ⟨complaint, hcomplaint, rfl⟩ := List.mem_map.mp hdiagnostic
  obtain ⟨failure, hfailure, rfl⟩ := List.mem_map.mp hcomplaint
  obtain ⟨hmember, hoffset⟩ := List.mem_filter.mp hfailure
  refine ⟨failure.offset, Outcome.mem_failures_iff.mp hmember, ?_⟩
  rw [of_decide_eq_true hoffset]

/-- The lines of a report are those of its diagnostics, one after the other, and each diagnostic has one
line more than its complaint quotes newlines. So there are as many lines as diagnostics, and then each line
is one of them, exactly if no newline is quoted. If one is, then a declared name has it, or it stands between
quotes in the formula, at the position of the report, where a timestamp is asked for and none is denoted. -/
theorem lines_of_parseFormula_error {operators : List Operator} {limit : Option Nat} {source : String}
    {report : List Diagnostic} (h : parseFormula (.ofList operators) limit source = .error report) :
    let shown := lines (Fault.unreadableFormula report).message.toList
    let isPlain := ∀ diagnostic ∈ report, '\n' ∉ diagnostic.complaint.quoted
    shown = report.flatMap (fun diagnostic ↦ lines diagnostic.message.toList) ∧
      (∀ diagnostic ∈ report,
        (lines diagnostic.message.toList).length = diagnostic.complaint.quoted.count '\n' + 1) ∧
      (shown.length = report.length ↔ isPlain) ∧
      (shown = report.map (fun diagnostic ↦ diagnostic.message.toList) ↔ isPlain) ∧
      ∀ diagnostic ∈ report, '\n' ∈ diagnostic.complaint.quoted →
        (∃ operator ∈ operators, operator.Brings diagnostic.complaint) ∨
          ∃ before quoted body rest, source.toList = before ++ '"' :: quoted ∧
            QuotedBody quoted body rest ∧ Timestamp.ofFormulaText? body = none ∧
            diagnostic = ⟨.after before, .invalidTimestamp (String.ofList body)⟩ := by
  intro shown isPlain
  -- nothing to report would still be one line, which is empty
  have hsome : report ≠ [] := by
    obtain ⟨hnone, rfl⟩ := parseFormula_eq_error_iff.mp h
    simpa [diagnostics_eq] using complaintsAt_frontier_ne_nil (failures_readFormula_ne_nil hnone)
  have hshown : shown = report.flatMap fun diagnostic ↦ lines diagnostic.message.toList :=
    lines_diagnosticText hsome
  refine ⟨hshown, fun diagnostic _ ↦ diagnostic.length_lines_message, ?_, ?_, ?_⟩
  · rw [hshown]
    exact (length_le_lines_and_eq_iff report).2
  · rw [hshown]
    exact flatMap_lines_eq_iff report
  · intro diagnostic hdiagnostic hnewline
    obtain ⟨offset, hevent, hposition⟩ := exists_event_of_mem_report h hdiagnostic
    refine (brings_or_noTimestampAt hevent hnewline).imp_right ?_
    rintro ⟨body, hcomplaint, quoted, rest, ⟨before, htext, hoffset⟩, hbody, hnone⟩
    dsimp only at htext hoffset
    refine ⟨before, quoted, body, rest, htext, hbody, hnone, ?_⟩
    rw [htext, hoffset, Position.ofOffset_byteLength] at hposition
    rw [← hposition, ← hcomplaint]

/-- An operator on a timestamp. -/
def onTimestamp : Operator :=
  { name := "f", result := .series, parameters := [.scalar .timestamp], keywords := [] }

/-- A newline between quotes is no timestamp: two diagnostics, three lines. -/
theorem lines_of_newlineForTimestamp :
    let report : List Diagnostic :=
      [⟨⟨1, 4⟩, .invalidTimestamp "\n"⟩, ⟨⟨1, 4⟩, .expectingSymbol "("⟩]
    let shown := lines (Fault.unreadableFormula report).message.toList
    (Catalog.ofList [onTimestamp]).fault? = none ∧
      parseFormula (.ofList [onTimestamp]) none "(f \"\\n\")" = .error report ∧
      shown.length = 3 ∧ shown ≠ report.map fun diagnostic ↦ diagnostic.message.toList := by
  intro report shown
  have hread : parseFormula (.ofList [onTimestamp]) none "(f \"\\n\")" = .error report := by
    decide +kernel
  obtain ⟨hlines, hlengths, -, hplain, -⟩ := lines_of_parseFormula_error hread
  have hbroken := hlengths _ List.mem_cons_self
  have hother := hlengths _ (List.mem_cons_of_mem _ List.mem_cons_self)
  refine ⟨by decide, hread, ?_, fun hsame ↦ ?_⟩
  · calc shown.length
      _ = (report.flatMap fun diagnostic ↦ lines diagnostic.message.toList).length :=
        congrArg List.length hlines
      _ = 2 + 1 := by
        rw [List.flatMap_cons, List.flatMap_cons, List.flatMap_nil, List.append_nil,
          List.length_append, hbroken, hother]
        rfl
  · exact hplain.mp hsame _ List.mem_cons_self (by decide)

end Formulary
