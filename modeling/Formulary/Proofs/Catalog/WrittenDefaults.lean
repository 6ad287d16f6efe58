import Formulary.Proofs.Catalog.Defaults
import Formulary.Proofs.Catalog.Soundness
import Formulary.Proofs.Form.Argument
/-!
Defaults that are written out. A catalog chooses the kind of a default by itself: an integer before a
number and a timestamp before a text, where the type admits both. A formula tries the alternatives of a
type in their order. So a default that is written out is always read as a literal, and it is read as
itself unless the type tries the rival of its kind first (`reads_default_of_ofText`). Main definitions:
`Scalar.rival?` and `ArgType.triesFirst`.
-/

set_option autoImplicit false
set_option relaxedAutoImplicit false

namespace Formulary

open Text

/-- The other kind that every literal of a kind can be read as too, if there is one. -/
def Scalar.rival? : Scalar → Option Scalar
  | .int => some .number
  | .timestamp => some .string
  | .number | .string | .bool => none

/-- Whether a type tries a kind of literals before the rival of that kind. -/
def ArgType.triesFirst (type : ArgType) (kind : Scalar) : Bool :=
  type.kinds.find? (fun other ↦ other = kind || some other = kind.rival?) = some kind

/-! ### What a default looks like -/

/-- What is known of a default that comes from a JSON value. -/
structure Keyword.HoldsDefault (keyword : Keyword) (value : Literal) : Prop where
  isFinite : value.isFinite = true
  isWhole : ∀ timestamp, value = .timestamp timestamp → timestamp.time.nanosecond = 0
  /-- A text that is also a timestamp is kept as a text only where timestamps are not admitted. -/
  isText : ∀ text, value = .string text → keyword.type.admits .timestamp = true →
    Timestamp.ofFormulaText? text.toList = none

theorem Keyword.IsConverted.holdsDefault {keyword : Keyword} {value : Literal}
    (h : keyword.IsConverted) (hdefault : keyword.default = some value) :
    keyword.HoldsDefault value := by
  have hfinite := h.isFinite
  rw [Keyword.isFinite, hdefault] at hfinite
  obtain ⟨document, -, hconverted⟩ := h
  rw [hdefault] at hconverted
  refine ⟨hfinite, ?_, ?_⟩
  · rintro timestamp rfl
    cases document with
    | string text =>
      simp only [defaultOf] at hconverted
      split at hconverted
      · rename_i found hfound
        obtain rfl := Literal.timestamp.inj (Option.some.inj (Option.some.inj hconverted))
        exact Timestamp.nanosecond_of_ofFormulaText? (Option.filter_eq_some_iff.mp hfound).1
      · simp at hconverted
    | integer number =>
      simp only [defaultOf] at hconverted
      split at hconverted <;> simp at hconverted
    | null | bool | real | unreadable | array | object => simp [defaultOf] at hconverted
  · rintro text rfl hadmits
    cases document with
    | string given =>
      simp only [defaultOf] at hconverted
      split at hconverted
      · simp at hconverted
      · rename_i hnone
        obtain rfl := Literal.string.inj (Option.some.inj (Option.some.inj hconverted))
        simpa [Option.filter_eq_none_iff, hadmits, Option.eq_none_iff_forall_ne_some] using hnone
    | integer number =>
      simp only [defaultOf] at hconverted
      split at hconverted <;> simp at hconverted
    | null | bool | real | unreadable | array | object => simp [defaultOf] at hconverted

/-- Of the kinds that the type admits, the form of a default denotes a literal of its own kind and of
its rival, and of no other. -/
theorem Keyword.HoldsDefault.isSome_literal?_iff {keyword : Keyword} {value : Literal}
    (h : keyword.HoldsDefault value) {kind : Scalar} (hkind : keyword.type.admits kind = true) :
    (value.form.literal? kind).isSome = true ↔ kind = value.scalar ∨ some kind = value.scalar.rival? := by
  have hbool {text : List Char} {numeral : Numeral} (hnumeral : numeral? text = some numeral) :
      text ≠ ['#', 't'] ∧ text ≠ ['#', 'f'] := by
    constructor
    · rintro rfl
      exact nomatch hnumeral
    · rintro rfl
      exact nomatch hnumeral
  cases value with
  | int value =>
    obtain ⟨numeral, hnumeral, hinteger, hvalue⟩ := exists_numeral_of_signedDigitsOf value.toInt
    have hform : (Literal.int value).form = .word (signedDigitsOf value.toInt) := rfl
    rw [hform]
    cases kind <;>
      simp [Form.literal?, hnumeral, hinteger, hvalue, int64?_toInt, hbool hnumeral, Literal.scalar,
        Scalar.rival?]
  | number value =>
    obtain ⟨numeral, hnumeral, hinteger, -⟩ := exists_numeral_of_number h.isFinite
    have hform : (Literal.number value).form = .word (formulaStyle.write value) := rfl
    rw [hform]
    cases kind <;>
      simp [Form.literal?, hnumeral, hinteger, hbool hnumeral, Literal.scalar, Scalar.rival?]
  | nan => exact absurd h.isFinite Bool.false_ne_true
  | string text =>
    have hform : (Literal.string text).form = .string text.toList := rfl
    rw [hform]
    cases kind with
    | timestamp =>
      have hnone := h.isText text rfl hkind
      simp [Form.literal?, hnone, Literal.scalar, Scalar.rival?]
    | int | number | string | bool => simp [Form.literal?, Literal.scalar, Scalar.rival?]
  | bool value =>
    have hnumeral : numeral? (Literal.bool value).characters = none := by cases value <;> rfl
    have hform : (Literal.bool value).form = .word (Literal.bool value).characters := rfl
    rw [hform]
    cases kind <;> cases value <;>
      simp_all [Form.literal?, Literal.characters, Literal.scalar, Scalar.rival?]
  | timestamp value =>
    have hread := Timestamp.ofFormulaText?_formulaText (h.isWhole value rfl)
    have hform : (Literal.timestamp value).form = .string value.formulaText := rfl
    rw [hform]
    cases kind <;> simp [Form.literal?, hread, Literal.scalar, Scalar.rival?]

/-- Where the type of a default is asked for, the form of the default stands for some literal, and for
the default itself if its kind is tried before the rival. -/
theorem Keyword.HoldsDefault.exists_literal? {keyword : Keyword} {value : Literal}
    (h : keyword.HoldsDefault value) (haccepts : keyword.type.accepts value = true) :
    ∃ found, keyword.type.literal? value.form = some found ∧
      (found = value ↔ keyword.type.triesFirst value.scalar = true) := by
  have hdenotes := literal?_eq_some_iff.mpr ⟨Literal.denotes_form h.isFinite h.isWhole, rfl⟩
  have hmem := (ArgType.mem_kinds_iff keyword.type).mpr haccepts
  obtain ⟨found, hfound⟩ : ∃ found, keyword.type.literal? value.form = some found := by
    refine Option.isSome_iff_exists.mp (List.findSome?_isSome_iff.mpr ⟨_, hmem, ?_⟩)
    rw [hdenotes]
    rfl
  refine ⟨found, hfound, ?_⟩
  -- both searches stop at the same kind, the first one that the form denotes a literal of
  obtain ⟨earlier, kind, later, hkinds, hkind, hearlier⟩ := List.findSome?_eq_some_iff.mp hfound
  have hadmits (other : Scalar) (hother : other ∈ earlier ++ kind :: later) :
      keyword.type.admits other = true :=
    (ArgType.mem_kinds_iff keyword.type).mp (hkinds ▸ hother)
  have hfirst : keyword.type.kinds.find?
      (fun other ↦ other = value.scalar || some other = value.scalar.rival?) = some kind := by
    refine List.find?_eq_some_iff_append.mpr ⟨?_, earlier, later, hkinds, fun other hother ↦ ?_⟩
    · simpa [hkind] using h.isSome_literal?_iff (hadmits kind (by simp))
    · simpa [hearlier other hother] using h.isSome_literal?_iff (hadmits other (by simp [hother]))
  rw [ArgType.triesFirst, hfirst, decide_eq_true_eq, Option.some.injEq]
  constructor
  · rintro rfl
    exact (literal?_eq_some_iff.mp hkind).2.symm
  · rintro rfl
    exact Option.some.inj (hkind.symm.trans hdenotes)

/-! ### Catalogs -/

/-- A keyword argument that is left out stands for its default. -/
theorem Keyword.content_innermost_absent (keyword : Keyword) :
    keyword.absent.innermost.content = keyword.default := by
  obtain ⟨name, type, default⟩ := keyword
  cases type <;> rfl

/-- The defaults of a sound catalog fit their types. -/
theorem accepts_of_fault?_eq_none {operators : List Operator}
    (h : (Catalog.ofList operators).fault? = none) {operator : Operator}
    (hoperator : operator ∈ operators) {keyword : Keyword} (hkeyword : keyword ∈ operator.keywords)
    {value : Literal} (hdefault : keyword.default = some value) :
    keyword.type.accepts value = true := by
  refine (Catalog.fault?_eq_none_iff.mp h).fits operator ?_ keyword hkeyword value hdefault
  rwa [Catalog.declared_ofList]

/-- A default of a catalog that was read from a document is what the keyword argument holds if it is left
out. Where it is written out, an argument of its type can be read, and stands for one literal; this is
the default itself just if the type tries the kind of the default before its rival. -/
theorem reads_default_of_ofText {source : String} {catalog : Catalog}
    (hcatalog : Catalog.ofText source = .ok catalog) {operator : Operator}
    (hoperator : operator ∈ catalog.declared) {keyword : Keyword}
    (hkeyword : keyword ∈ operator.keywords) {value : Literal}
    (hdefault : keyword.default = some value) :
    keyword.absent.innermost.content = some value ∧
      ∃ found : Literal,
        (∀ (limit room : Nat) (place : Place) (rest : List Char), keyword.type.depth < room →
          place.rest = value.characters ++ rest → isDelimited rest = true →
          ∃ outline after,
            (fill catalog limit room (.ofArgument keyword.type) place).result =
              some (outline, after) ∧
            after.rest = dropSeparators rest ∧ outline.innermost.content = some found) ∧
        (found = value ↔ keyword.type.triesFirst value.scalar = true) := by
  obtain ⟨operators, rfl, hsound, hconverted⟩ := exists_conversion_of_ofText hcatalog
  rw [Catalog.declared_ofList] at hoperator
  have haccepts := accepts_of_fault?_eq_none hsound hoperator hkeyword hdefault
  have hholds := (hconverted operator hoperator keyword hkeyword).holdsDefault hdefault
  obtain ⟨found, hfound, hsame⟩ := hholds.exists_literal? haccepts
  refine ⟨?_, found, fun limit room place rest hroom hplace hrest ↦ ?_, hsame⟩
  · rw [← hdefault]
    exact Keyword.content_innermost_absent keyword
  · have hform : ∀ members, value.form ≠ .group members := by
      cases value <;> exact nofun
    have hsequence : Sequence place.rest [value.form] (dropSeparators rest) := by
      rw [hplace]
      exact spells_literal value rest hrest
    have hread : HoldsOnly (keyword.type.literal? value.form) (dropSeparators rest)
        (fill (.ofList operators) limit room (.ofArgument keyword.type) place).result :=
      holdsOnly_fill hform hsequence keyword.type hroom
    rw [hfound] at hread
    exact hread

/-- An operator with a keyword argument that is a number or else an integer, and by default the integer
five. -/
def numberOrInteger : Operator :=
  { name := "f", result := .series, parameters := [],
    keywords := [⟨"a", .union [.scalar .number, .scalar .int], some (.int 5)⟩] }

/-- The integer five is kept as the default of a number or an integer, but where it is written out the
number five is read. -/
theorem reads_default_of_numberOrInteger :
    ∃ found : Literal, found ≠ .int 5 ∧
      (∃ outline after,
        (fill (.ofList [numberOrInteger]) 3 3
            (.ofArgument (.union [.scalar .number, .scalar .int])) (Place.start ['5'])).result =
          some (outline, after) ∧ after.rest = [] ∧ outline.innermost.content = some found) ∧
      (Keyword.absent ⟨"a", .union [.scalar .number, .scalar .int], some (.int 5)⟩).innermost.content =
        some (.int 5) := by
  have hcatalog : Catalog.ofText "[[[\"f\", \"Series\", [], [[\"a\", \"Union[Number, Int]\", 5]]]]]" =
      .ok (.ofList [numberOrInteger]) := by
    refine catalog_ofText_eq_ok ?_
    decide +kernel
  have hoperator : numberOrInteger ∈ (Catalog.ofList [numberOrInteger]).declared :=
    List.mem_singleton_self _
  obtain ⟨habsent, found, hread, hsame⟩ :=
    reads_default_of_ofText hcatalog hoperator (List.mem_singleton_self _) rfl
  refine ⟨found, fun hfound ↦ ?_, ?_, habsent⟩
  · exact absurd (hsame.mp hfound) (by decide)
  · exact hread 3 3 (Place.start ['5']) [] (by decide) (by decide) rfl

end Formulary
