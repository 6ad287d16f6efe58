import Formulary.ArgType
import Formulary.ArgType.Reader
import Formulary.Catalog
import Formulary.Catalog.Document
import Formulary.Catalog.Validation
import Formulary.Decimal
import Formulary.Diagnostic
import Formulary.Exchange
import Formulary.Exchange.Decoder
import Formulary.Exchange.Encoder
import Formulary.Fault
import Formulary.Formula
import Formulary.Json
import Formulary.Json.Fields
import Formulary.Json.Printer
import Formulary.Json.Reader
import Formulary.Literal
import Formulary.Number
import Formulary.Number.Nearest
import Formulary.Number.Scaled
import Formulary.Number.Shortest
import Formulary.Number.Style
import Formulary.Operator
import Formulary.Outline
import Formulary.Outline.Edit
import Formulary.Outline.Printer
import Formulary.Outline.Skeleton
import Formulary.Proofs.Catalog.Operators
import Formulary.Proofs.Form.Acceptance
import Formulary.Proofs.Form.Agreement
import Formulary.Proofs.Form.Covering
import Formulary.Proofs.Form.Finiteness
import Formulary.Proofs.Form.Interpretation
import Formulary.Proofs.Form.Literal
import Formulary.Proofs.Form.Restoring
import Formulary.Proofs.Form.Sequence
import Formulary.Proofs.Form.Writing
import Formulary.Proofs.Form.Written
import Formulary.Proofs.Formula.Arrangement
import Formulary.Proofs.Formula.Conformity
import Formulary.Proofs.Formula.Limit
import Formulary.Proofs.Formula.Parts
import Formulary.Proofs.Formula.Progress
import Formulary.Proofs.Formula.Room
import Formulary.Proofs.Formula.RoundTrip
import Formulary.Proofs.Lists
import Formulary.Proofs.Number.Digits
import Formulary.Proofs.Number.Rounding
import Formulary.Proofs.Number.Shortest
import Formulary.Proofs.Number.Written
import Formulary.Proofs.Reading.Ensures
import Formulary.Proofs.Reading.Finds
import Formulary.Proofs.Text.Movement
import Formulary.Proofs.Timestamp.Written
import Formulary.Proofs.Token.Movement
import Formulary.Proofs.Token.Numeral
import Formulary.Proofs.Token.Quoted
import Formulary.Reading
import Formulary.Slot
import Formulary.Text.Alphanumeric
import Formulary.Text.Blank
import Formulary.Text.Place
import Formulary.Text.Position
import Formulary.Text.Scan
import Formulary.Timestamp
import Formulary.Timestamp.Printer
import Formulary.Timestamp.Reader
import Formulary.Token
import Formulary.Proofs.Reading.Reach
import Formulary.Proofs.Reading.Parallel
import Formulary.Proofs.Formula.Report
import Formulary.Proofs.Formula.Comparison
import Formulary.Proofs.Formula.DeclarationOrder
import Formulary.Proofs.Form.Confinement
import Formulary.Proofs.Form.Reordering
import Formulary.Proofs.Json.Numeral
import Formulary.Proofs.Json.Written
import Formulary.Proofs.Exchange.Limited
import Formulary.Proofs.Exchange.RoundTrip
import Formulary.Proofs.Catalog.Defaults
import Formulary.Proofs.Exchange.Export
import Formulary.Proofs.Formula.Slots
import Formulary.Proofs.Record.Basic
import Formulary.Proofs.Record.Reading
import Formulary.Proofs.Record.Selection
import Formulary.Proofs.Record.Writing
import Formulary.Proofs.Record.Groups
import Formulary.Proofs.Record.Depth
import Formulary.Proofs.Cursor.Parse
import Formulary.Proofs.Catalog.WrittenDefaults
import Formulary.Proofs.Formula.Depth
import Formulary.Proofs.Form.Argument
import Formulary.Proofs.Formula.KeywordOrder
import Formulary.Proofs.Formula.Shadowing
import Formulary.Proofs.Formula.Discipline
import Formulary.Proofs.Reading.Trace
import Formulary.Proofs.Formula.Trace
import Formulary.Proofs.Catalog.Loading
import Formulary.Proofs.Form.Edges
import Formulary.Proofs.Formula.Edges
import Formulary.Proofs.ArgType.Language
import Formulary.Proofs.ArgType.Written
import Formulary.Proofs.Engine.Alternatives
import Formulary.Proofs.Engine.Keywords
import Formulary.Proofs.Token.Language
import Formulary.Proofs.Token.Written
import Formulary.Proofs.Cursor.Language
import Formulary.Proofs.Engine.Extent
import Formulary.Proofs.Formula.Complaints
import Formulary.Proofs.Catalog.Fitting
import Formulary.Proofs.Record.Literals
import Formulary.Proofs.Formula.Shift
import Formulary.Proofs.Catalog.Groups
import Formulary.Proofs.Cursor.Ordering
import Formulary.Proofs.Engine.Elements
import Formulary.Proofs.Formula.Quoting
import Formulary.Proofs.Formula.Lines
