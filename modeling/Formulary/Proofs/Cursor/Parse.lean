import Formulary.Proofs.Cursor.Boundary
import Formulary.Proofs.Cursor.Position
import Formulary.Proofs.Cursor.TypeExpression
/-!
Formulas read with nothing but a cursor. The machine comes to the outline or the report that the reading
of places comes to. Two results follow. Every formula is read to its end, with no loop longer than the
formula and no more slots inside one another than its parentheses and the declared types allow
(`parse_unlimited`). And whatever the operators, the limit and the text are, the cursor always stands
where the text can be cut, in formulas as in type expressions (`exists_parse_isBoundary`).
-/

set_option autoImplicit false
set_option relaxedAutoImplicit false

namespace Formulary.Cursor

open Text Place

variable {text : List Char} {rounds nesting : Nat}

/-- The machine follows the reading of the whole formula. -/
theorem exists_ends_readFormula (operators : List Operator) (limit : Option Nat)
    (hrounds : text.length < rounds)
    (hnesting : limit = none → nestingBound (.ofList operators) text ≤ nesting) :
    ∃ stop, Ends text (readFormula (.ofList operators) limit rounds nesting text)
      (Formulary.readFormula (.ofList operators) limit text) stop := by
  have hstart := within_start text
  have hskip := leads_skipSeparators (.start text)
  have hplace := hstart.of_leads hskip
  have hshort : (Place.start text).skipSeparators.rest.length < rounds :=
    Nat.lt_of_le_of_lt hskip.suffix.length_le hrounds
  have hbegin : readFormula (.ofList operators) limit rounds nesting text =
      fill text rounds (.ofList operators) limit (limit.getD nesting) (.root .series)
        (Place.start text).skipSeparators.offset := by
    rw [readFormula]
    change (skipSeparators text rounds (Place.start text).offset).bind _ = _
    rw [skipSeparators_of_within hstart hrounds, Option.bind_some]
  rw [hbegin]
  cases limit with
  | some limit =>
    exact (follows_fill (.ofList operators) (.inl rfl) limit (.root .series)).ends _ hplace hshort
      fun _ _ ↦ trivial
  | none =>
    have hwide := @fill_eq_readFormula operators text nesting nesting (hnesting rfl)
    have hfollows : Follows text rounds (fun event ↦ event.isTooDeep = false)
        (fill text rounds (.ofList operators) none nesting (.root .series))
        (Formulary.fill (.ofList operators) nesting nesting (.root .series)) :=
      follows_fill _ (.inr ⟨rfl, fun _ ↦ id⟩) nesting _
    have hnever := not_isTooDeep_of_readFormula operators text
    rw [← hwide] at hnever ⊢
    exact hfollows.ends _ hplace hshort hnever

/-- The machine comes to what the formula is read as. -/
theorem parse_eq (operators : List Operator) (limit : Option Nat) {source : String}
    (hrounds : source.toList.length < rounds)
    (hnesting : limit = none → nestingBound (.ofList operators) source.toList ≤ nesting) :
    parse (.ofList operators) limit rounds nesting source =
      some (parseFormula (.ofList operators) limit source) := by
  obtain ⟨stop, hread⟩ := exists_ends_readFormula operators limit hrounds hnesting
  have hlast : IsBoundary source.toList
      (furthest (failuresOf (Formulary.readFormula (.ofList operators) limit source.toList).events)).offset :=
    isBoundary_furthest fun failure hfailure ↦
      isBoundary_of_mem_events (Outcome.mem_failures_iff.mp hfailure)
  rw [parse, hread.found, parseFormula]
  cases hresult : (Formulary.readFormula (.ofList operators) limit source.toList).result with
  | some found => rfl
  | none =>
    simp only [Option.map_none, Option.bind_eq_bind, Option.bind_some,
      position?_of_isBoundary hlast]
    rfl

/-- Every formula is read to its end without a limit, whatever the operators are. With `p` opening
parentheses and with declared types of no more than `D` constructors inside one another, no more than
`(p + 1) * (D + 6)` slots are read inside one another, and no loop is longer than the formula. -/
theorem parse_unlimited (operators : List Operator) (source : String) {rounds nesting : Nat}
    (hrounds : source.toList.length < rounds)
    (hnesting : (source.toList.count '(' + 1) * ((Catalog.ofList operators).depth + 6) ≤ nesting) :
    parse (.ofList operators) none rounds nesting source =
      some (parseFormula (.ofList operators) none source) :=
  parse_eq operators none hrounds fun _ ↦ hnesting

/-- An operator on a series, whose type first offers a choice that has no alternatives. -/
def onSeriesOrNothing : Operator :=
  { name := "f", result := .series, parameters := [.union [.union [], .series]], keywords := [] }

/-- An operator without arguments. -/
def constantSeries : Operator :=
  { name := "x", result := .series, parameters := [], keywords := [] }

theorem parse_unlimited_nested :
    "(f (f (x)))".toList.length < 12 ∧
      ("(f (f (x)))".toList.count '(' + 1) *
        ((Catalog.ofList [onSeriesOrNothing, constantSeries]).depth + 6) ≤ 32 ∧
      ∃ outline, parse (.ofList [onSeriesOrNothing, constantSeries]) none 12 32 "(f (f (x)))" =
        some (.ok outline) := by
  have hlength : "(f (f (x)))".toList.length < 12 := by decide
  have hbound : ("(f (f (x)))".toList.count '(' + 1) *
      ((Catalog.ofList [onSeriesOrNothing, constantSeries]).depth + 6) ≤ 32 := by
    decide
  have hread := parse_unlimited [onSeriesOrNothing, constantSeries] "(f (f (x)))" hlength hbound
  have hok : (parseFormula (.ofList [onSeriesOrNothing, constantSeries]) none "(f (f (x)))").isOk =
      true := by
    decide +kernel
  refine ⟨hlength, hbound, ?_⟩
  rw [hread]
  cases hfound : parseFormula (.ofList [onSeriesOrNothing, constantSeries]) none "(f (f (x)))" with
  | error report =>
    rw [hfound] at hok
    cases hok
  | ok outline => exact ⟨outline, rfl⟩

/-- Whatever the operators, the limit and the text are, a formula is read with the cursor where the text
can be cut, whenever something happens and where the reading stops, also where it fails. Every slice is
made, those for the position of a failure too, and so it is with every type expression. -/
theorem exists_parse_isBoundary (operators : List Operator) (limit : Option Nat)
    (source expression : String) :
    (∃ events outline stop,
      readFormula (.ofList operators) limit (source.toList.length + 1)
          (nestingBound (.ofList operators) source.toList) source.toList =
        some (events, outline, stop) ∧
      IsBoundary source.toList stop ∧ ∀ event ∈ events, IsBoundary source.toList event.offset) ∧
    parse (.ofList operators) limit (source.toList.length + 1)
        (nestingBound (.ofList operators) source.toList) source =
      some (parseFormula (.ofList operators) limit source) ∧
    typeOfText (expression.toList.length + 1) (expression.toList.length + 1) expression =
      some (ArgType.ofText expression) := by
  have hrounds := Nat.lt_succ_self source.toList.length
  obtain ⟨stop, hread⟩ := exists_ends_readFormula operators limit hrounds
    fun _ ↦ Nat.le_refl (nestingBound (.ofList operators) source.toList)
  refine ⟨⟨_, _, stop, hread.found, hread.isBoundary, fun event ↦ isBoundary_of_mem_events⟩,
    parse_eq operators limit hrounds fun _ ↦ Nat.le_refl _, ?_⟩
  exact typeOfText_eq (Nat.lt_succ_self _) (Nat.lt_succ_self _)

end Formulary.Cursor
