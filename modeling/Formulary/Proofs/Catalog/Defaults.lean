import Formulary.Catalog.Document
import Formulary.Proofs.Json.Range
import Formulary.Proofs.Outline.Finite
/-!
Defaults of catalogs that were read from a document. Such a catalog is sound, and every default comes
from a JSON value (`exists_conversion_of_ofText`). JSON has no infinite number, and what is beyond the
range denotes nothing, so no default of such a catalog is infinite (`exists_operators_of_ofText`). Main
definition: `Keyword.IsConverted`.
-/

set_option autoImplicit false
set_option relaxedAutoImplicit false

namespace Formulary

open Json

/-! ### The form of a document -/

theorem inRange_of_keywordEntry {document : Json} {entry : KeywordEntry} (hrange : InRange document)
    (h : KeywordEntry.ofJson? document = some entry) : InRange entry.default := by
  unfold KeywordEntry.ofJson? at h
  split at h
  · rename_i name type default hfields
    simp only [Option.bind_eq_bind, Option.bind_eq_some_iff, Option.ite_none_right_eq_some,
      Option.some.injEq] at h
    obtain ⟨_, -, _, -, -, rfl⟩ := h
    cases default with
    | none => exact .null
    | some default => exact hrange.of_mem_parts (mem_parts_of_fields? hfields (by simp))
  · exact nomatch h

/-- What is read from the elements of an array has a property if that is so of every part. -/
theorem forall_of_listOf? {α : Type} {read : Json → Option α} {property : α → Prop}
    {document : Json} {values : List α} (h : document.listOf? read = some values)
    (hread : ∀ part ∈ document.parts, ∀ value, read part = some value → property value) :
    ∀ value ∈ values, property value := by
  cases document with
  | array elements =>
    intro value hvalue
    obtain ⟨part, hpart, hfound⟩ := exists_mem_of_forall₂ (mapM_eq_some_iff.mp h).flip hvalue
    exact hread part hpart value hfound
  | _ => exact nomatch h

theorem inRange_of_operatorEntry {document : Json} {entry : OperatorEntry}
    (hrange : InRange document) (h : OperatorEntry.ofJson? document = some entry) :
    ∀ keyword ∈ entry.keywords, InRange keyword.default := by
  unfold OperatorEntry.ofJson? at h
  split at h
  · rename_i name result parameters keywords hfields
    simp only [Option.bind_eq_bind, Option.bind_eq_some_iff, Option.some.injEq] at h
    obtain ⟨_, -, _, -, _, -, entries, hentries, rfl⟩ := h
    have hkeywords : InRange (keywords.getD (.array [])) := by
      cases keywords with
      | none => exact .array nofun
      | some keywords => exact hrange.of_mem_parts (mem_parts_of_fields? hfields (by simp))
    exact forall_of_listOf? hentries fun part hpart keyword hkeyword ↦
      inRange_of_keywordEntry (hkeywords.of_mem_parts hpart) hkeyword
  · exact nomatch h

theorem inRange_of_listOfDocument? {document : Json} {entries : List OperatorEntry}
    (hrange : InRange document) (h : OperatorEntry.listOfDocument? document = some entries) :
    ∀ entry ∈ entries, ∀ keyword ∈ entry.keywords, InRange keyword.default := by
  unfold OperatorEntry.listOfDocument? at h
  split at h
  · rename_i operators hfields
    have hoperators := hrange.of_mem_parts (mem_parts_of_fields? hfields (List.mem_singleton_self _))
    exact forall_of_listOf? h fun part hpart entry hentry ↦
      inRange_of_operatorEntry (hoperators.of_mem_parts hpart) hentry
  · exact nomatch h

/-! ### Conversion -/

/-- An integer that is kept is nearest to a finite number. -/
theorem isFinite_ofDecimal {value : Int} (h : Reader.isKeptInteger value = true) :
    (Number.ofDecimal (value < 0) ⟨value.natAbs, 0⟩).isFinite = true := by
  simp only [Reader.isKeptInteger, Bool.and_eq_true, decide_eq_true_eq] at h
  have hnearest := @Decimal.nearestMagnitude_natural_lt value.natAbs (by omega)
  exact decide_eq_true (Nat.lt_of_le_of_lt (Nat.min_le_left _ _) hnearest)

theorem isFinite_of_defaultOf {type : ArgType} {document : Json} {default : Option Literal}
    (hrange : InRange document) (h : defaultOf type document = some default) :
    default.all Literal.isFinite = true := by
  cases hrange with
  | null =>
    obtain rfl := Option.some.inj h
    rfl
  | bool value =>
    obtain rfl := Option.some.inj h
    rfl
  | integer hkept =>
    simp only [defaultOf] at h
    split at h
    · obtain rfl := Option.some.inj h
      rfl
    · obtain rfl := Option.some.inj h
      exact isFinite_ofDecimal hkept
  | real hfinite =>
    obtain rfl := Option.some.inj h
    exact hfinite
  | string text =>
    simp only [defaultOf] at h
    split at h
    · obtain rfl := Option.some.inj h
      rfl
    · obtain rfl := Option.some.inj h
      rfl
  | unreadable => exact nomatch h
  | array _ => exact nomatch h
  | object _ => exact nomatch h

/-- A conversion in two steps succeeds if both steps do. -/
theorem bind_eq_ok_iff {ε α β : Type} {first : Except ε α} {next : α → Except ε β} {value : β} :
    (first >>= next) = .ok value ↔ ∃ found, first = .ok found ∧ next found = .ok value := by
  cases first with
  | error fault => exact ⟨nofun, fun ⟨_, hnone, _⟩ ↦ nomatch hnone⟩
  | ok found =>
    refine ⟨fun h ↦ ⟨found, rfl, h⟩, ?_⟩
    rintro ⟨_, ⟨⟩, h⟩
    exact h

/-- A default comes from a JSON value that is in range. -/
def Keyword.IsConverted (keyword : Keyword) : Prop :=
  ∃ document, InRange document ∧ defaultOf keyword.type document = some keyword.default

theorem Keyword.IsConverted.isFinite {keyword : Keyword} (h : keyword.IsConverted) :
    keyword.isFinite = true := by
  obtain ⟨document, hrange, hdefault⟩ := h
  exact isFinite_of_defaultOf hrange hdefault

theorem isConverted_of_keyword {operator : String} {entry : KeywordEntry} {keyword : Keyword}
    (hrange : InRange entry.default) (h : entry.keyword operator = .ok keyword) :
    keyword.IsConverted := by
  obtain ⟨type, -, h⟩ := bind_eq_ok_iff.mp h
  split at h
  · rename_i default hdefault
    obtain rfl := Except.ok.inj h
    exact ⟨entry.default, hrange, hdefault⟩
  · exact nomatch h

theorem isConverted_of_operator {entry : OperatorEntry} {operator : Operator}
    (hrange : ∀ keyword ∈ entry.keywords, InRange keyword.default)
    (h : entry.operator = .ok operator) : ∀ keyword ∈ operator.keywords, keyword.IsConverted := by
  obtain ⟨resultType, -, h⟩ := bind_eq_ok_iff.mp h
  obtain ⟨result, -, h⟩ := bind_eq_ok_iff.mp h
  obtain ⟨parameters, -, h⟩ := bind_eq_ok_iff.mp h
  obtain ⟨keywords, hkeywords, h⟩ := bind_eq_ok_iff.mp h
  obtain rfl := Except.ok.inj h
  intro keyword hkeyword
  obtain ⟨own, hown, hconverted⟩ := exists_mem_of_forall₂ (mapM_eq_ok_iff.mp hkeywords).flip hkeyword
  exact isConverted_of_keyword (hrange own hown) hconverted

/-! ### Catalogs -/

/-- A catalog that was read from a document is sound, and its defaults come from the document. -/
theorem exists_conversion_of_ofText {source : String} {catalog : Catalog}
    (h : Catalog.ofText source = .ok catalog) :
    ∃ operators, catalog = .ofList operators ∧ (Catalog.ofList operators).fault? = none ∧
      ∀ operator ∈ operators, ∀ keyword ∈ operator.keywords, keyword.IsConverted := by
  unfold Catalog.ofText at h
  split at h
  · exact nomatch h
  · rename_i entries hentries
    obtain ⟨document, hdocument, hlisted⟩ := Option.bind_eq_some_iff.mp hentries
    obtain ⟨operators, hoperators, h⟩ := bind_eq_ok_iff.mp h
    have hrange := inRange_of_listOfDocument? (inRange_of_ofExchangeText? hdocument) hlisted
    dsimp only at h
    split at h
    · rename_i hsound
      obtain rfl := Except.ok.inj h
      refine ⟨operators, rfl, hsound, fun operator hoperator ↦ ?_⟩
      obtain ⟨entry, hentry, hconverted⟩ :=
        exists_mem_of_forall₂ (mapM_eq_ok_iff.mp hoperators).flip hoperator
      exact isConverted_of_operator (hrange entry hentry) hconverted
    · exact nomatch h

/-- No default of a catalog that was read from a document is infinite. -/
theorem exists_operators_of_ofText {source : String} {catalog : Catalog}
    (h : Catalog.ofText source = .ok catalog) :
    ∃ operators, catalog = .ofList operators ∧ ∀ operator ∈ operators, operator.isFinite = true := by
  obtain ⟨operators, hcatalog, -, hconverted⟩ := exists_conversion_of_ofText h
  refine ⟨operators, hcatalog, fun operator hoperator ↦ List.all_eq_true.mpr fun keyword hkeyword ↦ ?_⟩
  exact (hconverted operator hoperator keyword hkeyword).isFinite

/-- A catalog that was read is known by its declarations. -/
theorem catalog_ofText_eq_ok {source : String} {operators : List Operator}
    (h : (Catalog.ofText source).toOption.map Catalog.declared = some operators) :
    Catalog.ofText source = .ok (.ofList operators) := by
  cases hread : Catalog.ofText source with
  | error fault =>
    rw [hread] at h
    cases h
  | ok catalog =>
    obtain ⟨declared, rfl, -⟩ := exists_operators_of_ofText hread
    rw [hread] at h
    have hsame : (Catalog.ofList declared).declared = operators := Option.some.inj h
    rw [← hsame, Catalog.declared_ofList]

end Formulary
