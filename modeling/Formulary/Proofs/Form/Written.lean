import Formulary.Proofs.Form.Covering
import Formulary.Proofs.Form.Writing
/-!
Literals that are written again. The form of a literal denotes the literal, unless it is an infinite
number (`Denotes.form`), and whatever form the literal was read from covers it (`covers_form`).
Main definitions: `IsPlainName` and `Literal.isFinite`.
-/

set_option autoImplicit false
set_option relaxedAutoImplicit false

namespace Formulary

open Text Place

/-- A name is plain if it is made of the characters of words and does not denote a number. -/
def IsPlainName (name : String) : Prop :=
  IsWordName name ∧ numeral? name.toList = none

instance (name : String) : Decidable (IsPlainName name) :=
  inferInstanceAs (Decidable (_ ∧ _))

/-- The names of an operator and of its keyword arguments are plain. -/
def Operator.HasPlainNames (operator : Operator) : Prop :=
  IsPlainName operator.name ∧ ∀ keyword ∈ operator.keywords, IsPlainName keyword.name

instance (operator : Operator) : Decidable operator.HasPlainNames :=
  inferInstanceAs (Decidable (_ ∧ _))

theorem Operator.HasPlainNames.hasWordNames {operator : Operator} (h : operator.HasPlainNames) :
    operator.HasWordNames :=
  ⟨h.1.1, fun keyword hkeyword ↦ (h.2 keyword hkeyword).1⟩

namespace Literal

/-- Whether a literal is neither an infinite number nor the NaN. -/
def isFinite : Literal → Bool
  | .number value => value.isFinite
  | .nan => false
  | .int _ | .string _ | .bool _ | .timestamp _ => true

end Literal

/-! ### Reading back -/

/-- A form denotes a literal. -/
inductive Denotes : Form → Literal → Prop
  | int {text : List Char} {numeral : Numeral} {value : Int64} (hnumeral : numeral? text = some numeral)
      (hinteger : numeral.isInteger = true) (hvalue : int64? numeral.toInt = some value) :
      Denotes (.word text) (.int value)
  | number {text : List Char} {numeral : Numeral} (hnumeral : numeral? text = some numeral) :
      Denotes (.word text) (.number numeral.toNumber)
  | string (body : List Char) : Denotes (.string body) (.string (String.ofList body))
  | yes : Denotes (.word ['#', 't']) (.bool true)
  | no : Denotes (.word ['#', 'f']) (.bool false)
  | timestamp {body : List Char} {value : Timestamp}
      (hvalue : Timestamp.ofFormulaText? body = some value) :
      Denotes (.string body) (.timestamp value)

/-- No form denotes the NaN. -/
theorem Denotes.ne_nan {form : Form} {value : Literal} (h : Denotes form value) : value ≠ .nan := by
  rintro rfl
  exact nomatch h

/-- The literal of a kind that a form denotes is a literal of the kind that it denotes. -/
theorem literal?_eq_some_iff {form : Form} {kind : Scalar} {value : Literal} :
    form.literal? kind = some value ↔ Denotes form value ∧ value.scalar = kind := by
  constructor
  · intro h
    cases form with
    | word text =>
      cases kind with
      | int =>
        obtain ⟨numeral, hnumeral, hvalue⟩ := Option.bind_eq_some_iff.mp h
        obtain ⟨hinteger, hvalue⟩ := Option.ite_none_right_eq_some.mp hvalue
        obtain ⟨found, hfound, rfl⟩ := Option.map_eq_some_iff.mp hvalue
        exact ⟨.int hnumeral hinteger hfound, rfl⟩
      | number =>
        obtain ⟨numeral, hnumeral, rfl⟩ := Option.map_eq_some_iff.mp h
        exact ⟨.number hnumeral, rfl⟩
      | bool =>
        simp only [Form.literal?] at h
        split at h
        · rename_i htext
          rw [htext, ← Option.some.inj h]
          exact ⟨.yes, rfl⟩
        · obtain ⟨htext, hvalue⟩ := Option.ite_none_right_eq_some.mp h
          rw [htext, ← Option.some.inj hvalue]
          exact ⟨.no, rfl⟩
      | string | timestamp => exact absurd h.symm (Option.some_ne_none _)
    | string body =>
      cases kind with
      | string =>
        rw [← Option.some.inj h]
        exact ⟨.string body, rfl⟩
      | timestamp =>
        obtain ⟨found, hfound, rfl⟩ := Option.map_eq_some_iff.mp h
        exact ⟨.timestamp hfound, rfl⟩
      | int | number | bool => exact absurd h.symm (Option.some_ne_none _)
    | group => exact absurd h.symm (Option.some_ne_none _)
  · rintro ⟨hdenotes, rfl⟩
    cases hdenotes with
    | int hnumeral hinteger hvalue =>
      simp [Form.literal?, Literal.scalar, hnumeral, hinteger, hvalue]
    | number hnumeral => simp [Form.literal?, Literal.scalar, hnumeral]
    | string body => rfl
    | yes | no => rfl
    | timestamp hvalue => simp [Form.literal?, Literal.scalar, hvalue]

theorem isSome_literal?_iff {form : Form} {kind : Scalar} :
    (form.literal? kind).isSome = true ↔ ∃ value, Denotes form value ∧ value.scalar = kind := by
  simp only [Option.isSome_iff_exists, literal?_eq_some_iff]

theorem Denotes.exists_numeral {text : List Char} {value : Int64}
    (h : Denotes (.word text) (.int value)) :
    ∃ numeral, numeral? text = some numeral ∧ numeral.isInteger = true := by
  cases h with
  | int hnumeral hinteger => exact ⟨_, hnumeral, hinteger⟩

theorem int64?_toInt (value : Int64) : int64? value.toInt = some value :=
  int64?_eq_some_iff.mpr rfl

theorem exists_numeral_of_number {value : Number} (h : value.isFinite = true) :
    ∃ numeral, numeral? (formulaStyle.write value) = some numeral ∧ numeral.isInteger = false ∧
      numeral.toNumber = value := by
  obtain ⟨whole, places, hwritten, hsome, hwhole, hplaces, hvalue⟩ := exists_numeral_of_write h
  refine ⟨_, ?_, rfl, hvalue⟩
  rw [hwritten]
  refine numeral?_writtenNumeral hsome hwhole ?_
  rintro found ⟨⟩
  exact hplaces

/-- The form of a literal denotes the literal, unless it is a number that is not finite or a timestamp
with a fraction of a second. -/
theorem Literal.denotes_form {value : Literal} (hfinite : value.isFinite = true)
    (hwhole : ∀ timestamp, value = .timestamp timestamp → timestamp.time.nanosecond = 0) :
    Denotes value.form value := by
  cases value with
  | int value =>
    obtain ⟨numeral, hnumeral, hinteger, hvalue⟩ := exists_numeral_of_signedDigitsOf value.toInt
    exact .int hnumeral hinteger (by rw [hvalue, int64?_toInt])
  | number value =>
    obtain ⟨numeral, hnumeral, -, hvalue⟩ := exists_numeral_of_number hfinite
    have hwritten := Denotes.number hnumeral
    rw [hvalue] at hwritten
    exact hwritten
  | nan => exact nomatch hfinite
  | string value =>
    have hwritten := Denotes.string value.toList
    rw [String.ofList_toList] at hwritten
    exact hwritten
  | bool value =>
    cases value with
    | true => exact .yes
    | false => exact .no
  | timestamp value => exact .timestamp (Timestamp.ofFormulaText?_formulaText (hwhole value rfl))

/-- The form of a literal that was read denotes the literal, unless it is a number that is not finite. -/
theorem Denotes.form {form : Form} {value : Literal} (h : Denotes form value)
    (hfinite : value.isFinite = true) : Denotes value.form value := by
  refine Literal.denotes_form hfinite ?_
  rintro timestamp rfl
  cases h with
  | timestamp hvalue => exact Timestamp.nanosecond_of_ofFormulaText? hvalue

/-! ### Covering -/

/-- A word that denotes a number is covered by one that denotes a literal of the same kinds, and is
not a name. -/
theorem covers_of_numeral {catalog : Catalog}
    (hcatalog : ∀ base, ∀ operator ∈ catalog.operators base, operator.HasPlainNames)
    {source text : List Char} {numeral written : Numeral} (hsource : numeral? source = some numeral)
    (hwritten : numeral? text = some written)
    (hint : ∀ value, Denotes (.word text) (.int value) →
      ((Form.word source).literal? .int).isSome = true) :
    Covers catalog (.word source) (.word text) := by
  have htrue : numeral? ['#', 't'] = none := rfl
  have hfalse : numeral? ['#', 'f'] = none := rfl
  refine covers_of_literals nofun (fun kind hkind ↦ ?_) fun {base} operator hoperator hsame ↦ ?_
  · obtain ⟨value, hdenotes, hscalar⟩ := isSome_literal?_iff.mp hkind
    cases hdenotes with
    | int hnumeral hinteger hvalue =>
      obtain rfl : .int = kind := hscalar
      exact hint _ (.int hnumeral hinteger hvalue)
    | number =>
      obtain rfl : .number = kind := hscalar
      exact isSome_literal?_iff.mpr ⟨_, .number hsource, rfl⟩
    | yes => exact nomatch htrue.symm.trans hwritten
    | no => exact nomatch hfalse.symm.trans hwritten
  · have hnone := (hcatalog base operator hoperator).1.2
    rw [← Form.word.inj hsame, hwritten] at hnone
    exact nomatch hnone

/-- Whatever a finite literal was read from covers the form of the literal. -/
theorem covers_form {catalog : Catalog}
    (hcatalog : ∀ base, ∀ operator ∈ catalog.operators base, operator.HasPlainNames)
    {form : Form} {value : Literal} (h : Denotes form value) (hfinite : value.isFinite = true) :
    Covers catalog form value.form := by
  cases h with
  | @int _ _ value hnumeral hinteger hvalue =>
    obtain ⟨written, hwritten, -⟩ := exists_numeral_of_signedDigitsOf value.toInt
    exact covers_of_numeral hcatalog hnumeral hwritten fun _ _ ↦
      isSome_literal?_iff.mpr ⟨_, .int hnumeral hinteger hvalue, rfl⟩
  | number hnumeral =>
    obtain ⟨written, hwritten, hfraction, -⟩ := exists_numeral_of_number hfinite
    refine covers_of_numeral hcatalog hnumeral hwritten fun value hdenotes ↦ ?_
    obtain ⟨numeral, hnumeral', hinteger⟩ := hdenotes.exists_numeral
    obtain rfl := Option.some.inj (hwritten.symm.trans hnumeral')
    exact Bool.noConfusion (hfraction.symm.trans hinteger)
  | string body =>
    have hsame : (Literal.string (String.ofList body)).form = .string body := by
      simp [Literal.form]
    rw [hsame]
    exact covers_refl _
  | yes | no => exact covers_refl _
  | timestamp hvalue =>
    refine covers_of_literals nofun (fun kind hkind ↦ ?_) fun _ _ hsame ↦ nomatch hsame
    obtain ⟨value, hdenotes, rfl⟩ := isSome_literal?_iff.mp hkind
    cases hdenotes with
    | string => exact isSome_literal?_iff.mpr ⟨_, .string _, rfl⟩
    | timestamp => exact isSome_literal?_iff.mpr ⟨_, .timestamp hvalue, rfl⟩

end Formulary
