import Formulary.Proofs.Cursor.Agreement
import Formulary.Proofs.Formula.Report
/-!
Everything that happens during a reading happens where the text can be cut (`keeps_within`), since
symbols, words and literals are taken off as whole characters and are refused between two of them
(`isBoundary_of_readLiteral`). So the furthest failure stands where the text can be cut
(`isBoundary_furthest`).
-/

set_option autoImplicit false
set_option relaxedAutoImplicit false

namespace Formulary

open Text Place Reading

variable {text : List Char} {place : Place}

/-- An event at an offset where the text can be cut. -/
def Event.IsWithin (text : List Char) (event : Event) : Prop :=
  IsBoundary text event.offset

theorem ensures_within_move {advance : Place → Option Place} {complaint : Complaint}
    (hplace : Within text place) (hadvance : ∀ after, advance place = some after → Leads place after) :
    Ensures (move advance complaint) place (Event.IsWithin text) fun _ after ↦ Within text after :=
  ensures_move hplace.isBoundary fun after hafter ↦
    hplace.of_leads ((hadvance after hafter).trans (leads_skipSeparators after))

theorem ensures_within_literal (hplace : Within text place) (kind : Scalar) :
    Ensures (literal kind) place (Event.IsWithin text) fun _ after ↦ Within text after := by
  refine ensures_literal (fun failure hfailure ↦ Cursor.isBoundary_of_readLiteral hplace hfailure)
    fun value after hvalue ↦ ?_
  exact hplace.of_leads ((advances_of_readLiteral hvalue).1.trans (leads_skipSeparators after))

/-- A reading stays where the text can be cut. -/
theorem keeps_within (text : List Char) : Keeps (Event.IsWithin text) (Within text) where
  symbol _ _ hplace := ensures_within_move hplace fun _ heaten ↦ leads_of_eat? heaten
  word _ _ hplace :=
    ensures_within_move hplace fun _ hnamed ↦ leads_of_eat? (word?_eq_some_iff.mp hnamed).1
  literal kind _ hplace := ensures_within_literal hplace kind
  failed _ _ hplace := hplace.isBoundary
  backtracked hplace := hplace.isBoundary

theorem ensures_within_fill (catalog : Catalog) (limit room : Nat) (slot : Slot)
    (hplace : Within text place) :
    Ensures (fill catalog limit room slot) place (Event.IsWithin text)
      fun _ after ↦ Within text after := by
  induction room generalizing slot place with
  | zero => exact ensures_fill_zero hplace.isBoundary hplace.isBoundary
  | succ room ih =>
    exact ensures_fill_of_parts hplace.isBoundary
      (((keeps_within text).fillParts catalog (fun part _ _ ↦ ih part) slot hplace).mono
        fun _ _ hafter ↦ ⟨hafter.isBoundary, hafter⟩)

/-- Whatever happens while a formula is read happens where its text can be cut. -/
theorem isBoundary_of_mem_events {catalog : Catalog} {limit : Option Nat} {event : Event}
    (h : event ∈ (readFormula catalog limit text).events) : IsBoundary text event.offset :=
  (ensures_within_fill catalog _ _ _
    ((within_start text).of_leads (leads_skipSeparators _))).events event h

/-- The furthest of some failures stands where one of them does, or at the beginning. -/
theorem isBoundary_furthest {failures : List Failure}
    (h : ∀ failure ∈ failures, IsBoundary text failure.offset) :
    IsBoundary text (furthest failures).offset := by
  by_cases hnone : failures = []
  · rw [hnone]
    exact isBoundary_zero text
  · obtain ⟨failure, hfailure, hoffset⟩ := exists_failure_frontier hnone
    rw [frontier] at hoffset
    rw [← hoffset]
    exact h failure hfailure

end Formulary
