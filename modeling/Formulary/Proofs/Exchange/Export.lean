import Formulary.Exchange
import Formulary.Proofs.Catalog.Defaults
import Formulary.Proofs.Catalog.Operators
import Formulary.Proofs.Exchange.RoundTrip
/-!
Formulas that go across the exchange format and come back. The format has no infinite number, it scales
the digits of a number in double precision when it reads them, and it lets texts nest less deeply than
formulas may be nested; apart from that, a formula comes back as it was read (`exchange_of_parseFormula`).
-/

set_option autoImplicit false
set_option relaxedAutoImplicit false

namespace Formulary

open Json

/-- A formula that goes across the exchange format comes back as it was read exactly if no infinite number
was read, each of its numbers is read back from the text that is written for it, those in defaults included,
and its text does not nest beyond the limit of the format. If an infinite number was read or the text nests
too deeply, the text is refused. -/
theorem exchange_of_parseFormula {source formula : String} {catalog : Catalog}
    {outline : Outline} (hcatalog : Catalog.ofText source = .ok catalog)
    (hread : parseFormula catalog (some exchangeLimit) formula = .ok outline) :
    exportFormula catalog formula = .ok outline.exchangeText ∧
      (Outline.ofExchangeText? outline.exchangeText = some outline ↔
        ¬ outline.HoldsInfinity ∧ outline.KeepsNumbers ∧
          outline.encode.nesting ≤ exchangeNesting) ∧
      (Outline.ofExchangeText? outline.exchangeText = some outline →
        importFormula? outline.exchangeText = some outline.text) ∧
      (outline.HoldsInfinity ∨ exchangeNesting < outline.encode.nesting →
        Outline.ofExchangeText? outline.exchangeText = none ∧
          importFormula? outline.exchangeText = none) := by
  obtain ⟨operators, rfl, hoperators⟩ := exists_operators_of_ofText hcatalog
  obtain ⟨after, hfilled⟩ := parseFormula_eq_ok_iff.mp hread
  obtain ⟨hslot, hconforms⟩ := conforms_of_fill hfilled
  have hfinite : outline.isFinite = true ↔ ¬ outline.HoldsInfinity := by
    refine ⟨Outline.not_holdsInfinity_of_isFinite, fun hnone ↦ ?_⟩
    refine isFinite_of_conforms (fun base operator hoperator ↦ ?_) hconforms (hslot ▸ rfl) hnone
    exact hoperators operator (Catalog.mem_of_mem_operators hoperator)
  refine ⟨congrArg (Except.map Outline.exchangeText) hread, ?_, congrArg (Option.map Outline.text), ?_⟩
  · rw [Outline.ofExchangeText?_exchangeText_eq, Option.ite_none_right_eq_some,
      Outline.mapLiterals?_reread?_eq_self_iff, hfinite, and_comm, and_assoc]
  · intro hlost
    have hback : Outline.ofExchangeText? outline.exchangeText = none := by
      rw [Outline.ofExchangeText?_exchangeText_eq]
      rcases hlost with hinfinity | hdeep
      · rw [Outline.mapLiterals?_reread?_eq_none fun hall ↦ hfinite.mp hall hinfinity, ite_self]
      · exact if_neg (Nat.not_le_of_gt hdeep)
    exact ⟨hback, congrArg (Option.map Outline.text) hback⟩

-- a number that a formula may hold and that is read back as another one, since scaling rounds once more
example :
    (parseFormula (.ofList [⟨"f", .series, [.scalar .number], []⟩]) (some exchangeLimit)
      "(f 51.248178375505404)").toOption.map (fun outline ↦ decide outline.KeepsNumbers) =
      some false := by
  decide +kernel

/-- An operator on a series. -/
def onSeries : Operator :=
  { name := "f", result := .series, parameters := [.series], keywords := [] }

/-- An operator on nothing. -/
def onNothing : Operator :=
  { name := "g", result := .series, parameters := [], keywords := [] }

/-- A use of `onNothing` inside some uses of `onSeries`. -/
def chainOfCalls : Nat → Outline
  | 0 => .node (.call .series) none [.node (.operator onNothing) none []]
  | count + 1 => .node (.call .series) none [.node (.operator onSeries) none [chainOfCalls count]]

/-- The formula of a use of `onNothing` inside thirty uses of `onSeries`. -/
def chainOfThirty : Outline :=
  .node (.root .series) none [chainOfCalls 30]

/-- Thirty uses of an operator inside one another are far from the limit on formulas, and yet their
text is refused. -/
theorem exchange_of_chainOfThirty :
    Catalog.ofText "[[[\"f\", \"Series\", [\"Series\"]], [\"g\", \"Series\"]]]" =
        .ok (.ofList [onSeries, onNothing]) ∧
      parseFormula (.ofList [onSeries, onNothing]) (some exchangeLimit) chainOfThirty.text =
        .ok chainOfThirty ∧
      chainOfThirty.encode.nesting = 129 ∧ importFormula? chainOfThirty.exchangeText = none := by
  have hcatalog : Catalog.ofText "[[[\"f\", \"Series\", [\"Series\"]], [\"g\", \"Series\"]]]" =
      .ok (.ofList [onSeries, onNothing]) := by
    refine catalog_ofText_eq_ok ?_
    decide +kernel
  have hread : parseFormula (.ofList [onSeries, onNothing]) (some exchangeLimit) chainOfThirty.text =
      .ok chainOfThirty := by
    decide +kernel
  have hnesting : chainOfThirty.encode.nesting = 129 := by
    decide +kernel
  refine ⟨hcatalog, hread, hnesting, ?_⟩
  exact ((exchange_of_parseFormula hcatalog hread).2.2.2 (.inr (by rw [hnesting]; decide))).2

end Formulary
