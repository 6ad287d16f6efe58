import Formulary.Proofs.Formula.Discipline
import Formulary.Proofs.Reading.Reach
/-!
The report of a formula that cannot be read. Every step by which a slot is read accounts for how far
it gets: whatever is tried and given up, some complaint stands at the furthest place that was
reached (`accounts_fill`). So the report names the furthest failures of the whole reading, in their
order, and there is always one (`exists_furthest_of_parseFormula_error`).
-/

set_option autoImplicit false
set_option relaxedAutoImplicit false

namespace Formulary

open Text Reading

/-- How far they get, all steps account for. -/
theorem accounts_discipline : Discipline Accounts where
  pure value _ := accounts_pure value
  reached _ := accounts_reached
  remaining _ := accounts_remaining
  fail complaint _ := accounts_fail complaint
  symbol text _ := accounts_symbol text
  word text _ := accounts_word text
  literal kind _ := accounts_literal kind
  atEnd _ := accounts_atEnd
  bind := accounts_bind
  firstOf := accounts_firstOf
  optionally_firstOf := accounts_optionally_firstOf
  optionally_trying h := accounts_optionally (accounts_trying h)

/-- The reading of a slot accounts for how far it gets. -/
theorem accounts_fill (catalog : Catalog) (limit room : Nat) (slot : Slot) (place : Place) :
    Accounts (fill catalog limit room slot) place := by
  induction room generalizing slot place with
  | zero =>
    exact accounts_bind (accounts_note rfl rfl) fun _ middle _ ↦ accounts_fail _
  | succ room ih =>
    refine accounts_bind (accounts_note rfl rfl) fun _ middle _ ↦ ?_
    have hparts := accounts_discipline.fillParts catalog ih slot middle
    refine accounts_bind hparts.nested fun outline after _ ↦ ?_
    exact accounts_bind (accounts_note rfl rfl) fun _ last _ ↦ accounts_pure outline

/-! ### The report -/

/-- The report of a reading that failed is made of its furthest failures. -/
theorem parseFormula_eq_error_iff {catalog : Catalog} {limit : Option Nat} {source : String}
    {report : List Diagnostic} :
    parseFormula catalog limit source = .error report ↔
      (readFormula catalog limit source.toList).result = none ∧
        diagnostics source.toList (readFormula catalog limit source.toList).failures = report := by
  simp only [parseFormula, Outcome.failures]
  cases (readFormula catalog limit source.toList).result with
  | none => simp
  | some found => simp

/-- The whole reading accounts for how far it gets. -/
theorem events_le_reach_readFormula (catalog : Catalog) (limit : Option Nat) (text : List Char) :
    ∀ event ∈ (readFormula catalog limit text).events,
      event.offset ≤ (readFormula catalog limit text).reach :=
  (accounts_fill catalog _ _ _ _).events

theorem failures_readFormula_ne_nil {catalog : Catalog} {limit : Option Nat} {text : List Char}
    (h : (readFormula catalog limit text).result = none) :
    (readFormula catalog limit text).failures ≠ [] :=
  (accounts_fill catalog _ _ _ _).fails h

/-- Where a formula cannot be read, some offset is the furthest at which there was a complaint, and
nothing happened beyond it. The report is not empty, and it gives all the complaints at that offset
in the order in which they arose, at the one position of that offset. -/
theorem exists_furthest_of_parseFormula_error {catalog : Catalog} {limit : Option Nat}
    {source : String} {report : List Diagnostic}
    (h : parseFormula catalog limit source = .error report) :
    ∃ last,
      (∃ failure ∈ (readFormula catalog limit source.toList).failures, failure.offset = last) ∧
      (∀ failure ∈ (readFormula catalog limit source.toList).failures, failure.offset ≤ last) ∧
      (∀ event ∈ (readFormula catalog limit source.toList).events, event.offset ≤ last) ∧
      report ≠ [] ∧
      report = (complaintsAt (readFormula catalog limit source.toList).failures last).map
        fun complaint ↦ ⟨.ofOffset source.toList last, complaint⟩ := by
  obtain ⟨hnone, rfl⟩ := parseFormula_eq_error_iff.mp h
  have hsome := failures_readFormula_ne_nil hnone
  have hevents := events_le_reach_readFormula catalog limit source.toList
  rw [Outcome.reach_of_none hnone] at hevents
  refine ⟨_, exists_failure_frontier hsome, fun _ ↦ le_frontier, hevents, ?_, ?_⟩
  · simpa [diagnostics_eq] using complaintsAt_frontier_ne_nil hsome
  · exact diagnostics_eq _ _

/-- An operator on an integer or a string. -/
def onIntegerOrString : Operator :=
  { name := "f", result := .series, parameters := [.union [.scalar .int, .scalar .string]],
    keywords := [] }

/-- Neither alternative can be read: the complaints of the literals and of the applications. -/
def neitherReport : List Diagnostic :=
  [.expectingInt, .expectingSymbol "(", .expecting "string", .expectingSymbol "("].map
    fun complaint ↦ ⟨⟨1, 4⟩, complaint⟩

theorem exists_furthest_of_neither :
    parseFormula (.ofList [onIntegerOrString]) none "(f #t)" = .error neitherReport ∧
      ∃ last,
        (∀ event ∈ (readFormula (.ofList [onIntegerOrString]) none "(f #t)".toList).events,
          event.offset ≤ last) ∧
        neitherReport =
          (complaintsAt (readFormula (.ofList [onIntegerOrString]) none "(f #t)".toList).failures
            last).map fun complaint ↦ ⟨.ofOffset "(f #t)".toList last, complaint⟩ := by
  have hread : parseFormula (.ofList [onIntegerOrString]) none "(f #t)" = .error neitherReport := by
    decide +kernel
  obtain ⟨last, -, -, hevents, -, hreport⟩ := exists_furthest_of_parseFormula_error hread
  exact ⟨hread, last, hevents, hreport⟩

end Formulary
