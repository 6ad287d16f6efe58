import Formulary.Exchange.Decoder
import Formulary.Formula
import Formulary.Outline.Printer
/-!
Formulas across the exchange format. A formula goes out as the text of its outline, and the text
of an outline comes back as a formula; so that the other side cannot exhaust the reader, the
formula may not be nested too deeply. Main definitions: `exchangeLimit`, `exportFormula` and
`importFormula?`.
-/

set_option autoImplicit false
set_option relaxedAutoImplicit false

namespace Formulary

/-- How many slots of a formula may be read inside one another when it is exchanged. -/
def exchangeLimit : Nat := 512

/-- The outline of a formula in the exchange format, or why the formula cannot be read. -/
def exportFormula (catalog : Catalog) (source : String) : Except (List Diagnostic) String :=
  (parseFormula catalog (some exchangeLimit) source).map Outline.exchangeText

/-- The formula of an outline in the exchange format. -/
def importFormula? (text : String) : Option String :=
  (Outline.ofExchangeText? text).map Outline.text

end Formulary
