import Formulary.Proofs.Formula.Parts
import Formulary.Proofs.Formula.Room
/-!
Conformity to a catalog. An outline conforms to a catalog if every node that was read from a text
has the parts that its slot asks for, and every other node stands below a keyword argument that is
left out. Main definition: `Conforms`. Main statement: `conforms_of_parseFormula`, every outline
that a formula is read as conforms to the catalog.
-/

set_option autoImplicit false
set_option relaxedAutoImplicit false

namespace Formulary

open Text Reading

/-- Whether an outline is a list without elements. Such a list does not count as filled, so it
cannot be told from one that nothing was read for. -/
def Outline.isEmptyList : Outline → Bool
  | .node (.typed (.list _)) _ [] => true
  | _ => false

/-- An outline is read from a text as a catalog asks for. -/
inductive Conforms (catalog : Catalog) : Outline → Prop
  | root {base : Base} {part : Outline} (hslot : part.slot = .call base)
      (hpart : Conforms catalog part) : Conforms catalog (.node (.root base) none [part])
  /-- The operator is the first one of its name that produces the base. -/
  | call {base : Base} {operator : Operator} {part : Outline}
      (hoperator : (catalog.operators base).find? (fun other ↦ other.name = operator.name) =
        some operator)
      (hslot : part.slot = .operator operator) (hpart : Conforms catalog part) :
      Conforms catalog (.node (.call base) none [part])
  | choice {kind : Scalar} {part : Outline}
      (hslot : part.slot = .typed (.scalar kind) ∨ part.slot = .call (.scalar kind))
      (hpart : Conforms catalog part) : Conforms catalog (.node (.choice kind) none [part])
  | scalar {kind : Scalar} {value : Literal} (hvalue : value.scalar = kind)
      (hwritten : value ≠ .nan) :
      Conforms catalog (.node (.typed (.scalar kind)) (some value) [])
  | union {alternatives : List ArgType} {type : ArgType} {part : Outline}
      (htype : type ∈ alternatives) (hslot : part.slot = .ofArgument type)
      (hpart : Conforms catalog part) :
      Conforms catalog (.node (.typed (.union alternatives)) none [part])
  | list {element : ArgType} {parts : List Outline}
      (hslots : ∀ part ∈ parts, part.slot = .ofArgument element)
      (hparts : ∀ part ∈ parts, Conforms catalog part) :
      Conforms catalog (.node (.typed (.list element)) none parts)
  | operator {chosen : Operator} {parts : List Outline}
      (hslots : parts.map Outline.slot = chosen.slots)
      (hparts : ∀ part ∈ parts, Conforms catalog part) :
      Conforms catalog (.node (.operator chosen) none parts)
  /-- For each declaration there is a part, which is the skeleton of the declaration or was
  supplied under its name. -/
  | keywords {group : List Keyword} {parts supplied : List Outline}
      (hparts : List.Forall₂ (fun keyword part ↦ part = (Slot.keyword keyword).skeleton ∨
        part ∈ supplied ∧ ∃ own ∈ group, own.name = keyword.name ∧ part.slot = .keyword own)
        group parts)
      (hsupplied : ∀ part ∈ supplied, Conforms catalog part) :
      Conforms catalog (.node (.keywords group) none parts)
  /-- The value of a keyword argument that is supplied is filled, unless it is a list without
  elements. -/
  | keyword {own : Keyword} {value : Outline} (hslot : value.slot = .ofArgument own.type)
      (hfilled : value.isFilled = !value.isEmptyList) (hvalue : Conforms catalog value) :
      Conforms catalog (.node (.keyword own) none [value])

/-! ### The order of keyword arguments -/

/-- For each declaration of a keyword argument there is what was supplied under its name, or
nothing. -/
theorem forall₂_arrangeKeywords (group : List Keyword) (supplied : List (String × Outline)) :
    List.Forall₂ (fun keyword part ↦ part = keyword.absent ∨ (keyword.name, part) ∈ supplied)
      group (arrangeKeywords group supplied) := by
  induction group generalizing supplied with
  | nil => exact .nil
  | cons keyword group ih =>
    rw [arrangeKeywords]
    split
    · rename_i outline hlookup
      obtain ⟨before, after, hsupplied, -⟩ := List.lookup_eq_some_iff.mp hlookup
      refine .cons (.inr (by simp [hsupplied])) ((ih _).imp fun other part hpart ↦ ?_)
      exact hpart.imp_right fun hmem ↦ (List.mem_filter.mp hmem).1
    · exact .cons (.inl rfl) (ih supplied)

/-! ### What a reading gives -/

/-- The literal of a kind is of that kind, and it is not the NaN. -/
theorem scalar_of_readLiteral {kind : Scalar} {place after : Place} {value : Literal}
    (h : readLiteral kind place = .ok (value, after)) : value.scalar = kind ∧ value ≠ .nan := by
  cases kind with
  | string =>
    obtain ⟨body, -, rfl⟩ := readLiteral_string_eq_ok_iff.mp h
    exact ⟨rfl, nofun⟩
  | int | number | bool | timestamp =>
    obtain ⟨found, -, rfl⟩ := map_eq_ok_iff.mp h
    exact ⟨rfl, nofun⟩

/-- What is read for an argument is filled, unless it is a list without elements. -/
theorem Conforms.isFilled {catalog : Catalog} {outline : Outline} (h : Conforms catalog outline)
    {type : ArgType} (hslot : outline.slot = .ofArgument type) :
    outline.isFilled = !outline.isEmptyList := by
  cases h with
  | list => rename_i parts _ _; cases parts <;> rfl
  | call | choice | union => rfl
  | root | scalar | operator | keywords | keyword => cases type <;> exact nomatch hslot

/-- A slot with alternatives holds what was read for one of them. -/
theorem Conforms.of_choice {catalog : Catalog} {slot : Slot} {part : Outline}
    (hpart : Conforms catalog part) (hchoice : part.slot ∈ slot.choices) :
    Conforms catalog (.node slot none [part]) := by
  unfold Slot.choices at hchoice
  split at hchoice
  · exact .choice (by simpa using hchoice) hpart
  · obtain ⟨type, htype, hslot⟩ := List.mem_map.mp hchoice
    exact .union htype hslot.symm hpart
  · exact absurd hchoice List.not_mem_nil

/-- What is read for a slot stands for the slot and conforms to the catalog. -/
theorem conforms_of_fill {catalog : Catalog} {limit room : Nat} {slot : Slot}
    {place after : Place} {outline : Outline}
    (h : (fill catalog limit room slot place).result = some (outline, after)) :
    outline.slot = slot ∧ Conforms catalog outline := by
  induction room generalizing slot place after outline with
  | zero => exact nomatch h
  | succ room ih =>
    cases result_fill_succ_iff.mp h with
    | root hpart hend =>
      obtain ⟨hslot, hpart⟩ := ih hpart
      exact ⟨rfl, .root hslot hpart⟩
    | call hopened hoperators hearlier hnamed hpart hclosed =>
      obtain ⟨hslot, hpart⟩ := ih hpart
      exact ⟨rfl, .call (find?_of_word? hoperators hearlier hnamed) hslot hpart⟩
    | chosen hchoices hearlier hpart =>
      obtain ⟨hslot, hpart⟩ := ih hpart
      exact ⟨rfl, hpart.of_choice (by simp [hslot, hchoices])⟩
    | scalar hvalue =>
      obtain ⟨hscalar, hwritten⟩ := scalar_of_readLiteral hvalue
      exact ⟨rfl, .scalar hscalar hwritten⟩
    | list hopened hparts hstops hclosed =>
      have hall := hparts.forall₂ fun item place value after hread ↦ ih hread
      rw [List.forall₂_map_left_iff, List.forall₂_same] at hall
      exact ⟨rfl, .list (fun part hpart ↦ (hall part hpart).1) fun part hpart ↦ (hall part hpart).2⟩
    | @keywords group _ _ supplied hsupplied hnames hstops =>
      have hparts : ∀ part ∈ supplied.map Prod.snd, Conforms catalog part := by
        intro part hpart
        obtain ⟨⟨name, part⟩, hmem, rfl⟩ := List.mem_map.mp hpart
        obtain ⟨own, -, -, place, after, hread⟩ := hsupplied.exists_of_mem hmem
        exact (ih hread).2
      refine ⟨rfl, .keywords ?_ hparts⟩
      refine (forall₂_arrangeKeywords group supplied).imp fun keyword part hpart ↦ ?_
      refine hpart.imp_right fun hmem ↦ ⟨List.mem_map_of_mem hmem, ?_⟩
      obtain ⟨own, hown, hname, place, after, hread⟩ := hsupplied.exists_of_mem hmem
      exact ⟨own, hown, hname, (ih hread).1⟩
    | operator hparts =>
      have hall := (hparts.forall₂ fun item place value after hread ↦ (ih hread).symm).flip
      obtain ⟨hconforms, hslots⟩ := (List.forall₂_and_left _ _).mp hall
      refine ⟨rfl, .operator ?_ hconforms⟩
      rwa [← List.forall₂_eq_eq_eq, List.forall₂_map_left_iff]
    | keyword hmarker hvalue =>
      obtain ⟨hslot, hvalue⟩ := ih hvalue
      exact ⟨rfl, .keyword hslot (hvalue.isFilled hslot) hvalue⟩

/-- Whatever the limit, a formula is read as an outline of a series that conforms to the catalog. -/
theorem conforms_of_parseFormula {catalog : Catalog} {limit : Option Nat} {source : String}
    {outline : Outline} (h : parseFormula catalog limit source = .ok outline) :
    outline.slot = .root .series ∧ Conforms catalog outline := by
  obtain ⟨after, hread⟩ := parseFormula_eq_ok_iff.mp h
  exact conforms_of_fill hread

/-- An operator with two keyword arguments of the same name. -/
def twoOfOneName : Operator :=
  { name := "f", result := .series, parameters := [],
    keywords := [⟨"a", .scalar .int, none⟩, ⟨"a", .list (.scalar .int), none⟩] }

/-- The keyword argument of `twoOfOneName` that is a list, with a value. -/
def listOfOneName (value : Outline) : Outline :=
  .node (.keyword ⟨"a", .list (.scalar .int), none⟩) none [value]

/-- The formula that uses `twoOfOneName` on a list. -/
def twoOfOneNameOutline (value : Outline) : Outline :=
  .node (.root .series) none [.node (.call .series) none [.node (.operator twoOfOneName) none
    [.node (.keywords twoOfOneName.keywords) none
      [listOfOneName value, listOfOneName (.vacant (.typed (.list (.scalar .int))))]]]]

/-- An empty list that was supplied does not count as filled, nor does it stand where the skeleton of
that declaration would. -/
theorem conforms_of_supplied_empty_list :
    let value := Outline.vacant (.typed (.list (.scalar .int)))
    parseFormula (.ofList [twoOfOneName]) none "(f #:a ())" = .ok (twoOfOneNameOutline value) ∧
      value.isFilled = false ∧
      listOfOneName value ≠ (Slot.keyword ⟨"a", .scalar .int, none⟩).skeleton ∧
      Conforms (.ofList [twoOfOneName]) (twoOfOneNameOutline value) := by
  have hread : parseFormula (.ofList [twoOfOneName]) none "(f #:a ())" =
      .ok (twoOfOneNameOutline (.vacant (.typed (.list (.scalar .int))))) := by decide +kernel
  exact ⟨hread, by decide +kernel, by decide +kernel, (conforms_of_parseFormula hread).2⟩

end Formulary
