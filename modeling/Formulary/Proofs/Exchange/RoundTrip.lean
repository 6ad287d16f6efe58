import Formulary.Proofs.Exchange.Limited
import Formulary.Proofs.Exchange.Writable
import Formulary.Proofs.Outline.Conversion
import Formulary.Proofs.Outline.Finite
import Formulary.Proofs.Timestamp.Written
/-!
The round trip through the exchange format. What is read from the text of an outline is the outline with
its numbers read from their own texts, those in defaults included, and the text is refused if a number is
not finite or if it nests beyond the limit of the format (`Outline.ofExchangeText?_exchangeText_eq`). So an
outline is read back exactly if it has neither and its numbers are read back
(`Outline.ofExchangeText?_exchangeText_eq_ite`). Each type has a rule for what is read of its values. Main
definitions: `Literal.reread?` and `Outline.KeepsNumbers`.
-/

set_option autoImplicit false
set_option relaxedAutoImplicit false

namespace Formulary

open Json

/-! ### Names -/

variable {keeping : Keeping}

theorem readsAs_scalar (kind : Scalar) :
    ReadsAs (Scalar.decode? keeping) kind.encode (some kind) :=
  readsAs_of_flat rfl (by cases kind <;> rfl)

theorem readsAs_base (base : Base) : ReadsAs (Base.decode? keeping) base.encode (some base) := by
  cases base with
  | series => exact readsAs_of_flat rfl rfl
  | scalar kind => exact readsAs_named rfl (fun _ ↦ rfl) (readsAs_scalar kind)

/-! ### Types -/

namespace ArgType

theorem encodeAll_eq_map (types : List ArgType) : encodeAll types = types.map encode := by
  induction types with
  | nil => rfl
  | cons type types ih => rw [encodeAll, ih, List.map_cons]

/-- The bound on the nesting does not matter. -/
theorem decodeWithin?_congr {bound bound' : Nat} {document : Json} (h : document.nesting < bound)
    (h' : document.nesting < bound') :
    decodeWithin? keeping bound document = decodeWithin? keeping bound' document := by
  induction bound generalizing bound' document with
  | zero => exact absurd h (Nat.not_lt_zero _)
  | succ bound ih =>
    obtain ⟨bound', rfl⟩ := Nat.exists_eq_add_one.mpr (Nat.zero_lt_of_lt h')
    have hinside {inner : Json} (hinner : inner.nesting < document.nesting) :
        decodeWithin? keeping bound inner = decodeWithin? keeping bound' inner :=
      ih (by omega) (by omega)
    rw [decodeWithin?, decodeWithin?]
    split
    · rfl
    · rename_i alternatives hform
      have hshallow := nesting_lt_of_mem_parts (mem_parts_of_form? hform)
      rw [listOf?_congr fun element helement ↦ hinside (helement.trans hshallow)]
    · rename_i element hform
      rw [hinside (nesting_lt_of_mem_parts (mem_parts_of_form? hform))]
    · rfl

theorem decode?_union (alternatives : Json) :
    decode? keeping (.record [("Union", alternatives)]) =
      (alternatives.listOf? (decode? keeping)).map .union := by
  rw [decode?, nesting_named]
  show (alternatives.listOf? (decodeWithin? keeping (alternatives.nesting + 1))).map union = _
  rw [listOf?_congr fun element helement ↦
    decodeWithin?_congr (helement.trans (Nat.lt_succ_self _)) (Nat.lt_succ_self _)]
  rfl

theorem decode?_list (element : Json) :
    decode? keeping (.record [("List", element)]) = (decode? keeping element).map .list := by
  rw [decode?, nesting_named]
  rfl

mutual

/-- A type is read from its document as it is. -/
theorem readsAs : (type : ArgType) → ReadsAs (decode? keeping) type.encode (some type)
  | .series => readsAs_of_flat rfl rfl
  | .scalar kind => readsAs_named rfl (fun _ ↦ rfl) (readsAs_scalar kind)
  | .union alternatives => by
    have hall := readsAs_listOf (readsAsAll alternatives)
    rw [← encodeAll_eq_map, mapM_some] at hall
    exact readsAs_named rfl decode?_union hall
  | .list element => readsAs_named rfl decode?_list (readsAs element)

theorem readsAsAll : (types : List ArgType) →
    ∀ type ∈ types, ReadsAs (decode? keeping) type.encode (some type)
  | [] => nofun
  | type :: types => List.forall_mem_cons.mpr ⟨readsAs type, readsAsAll types⟩

end

end ArgType

/-! ### Literals -/

/-- The literal that is read from what is written for a literal, if one is. A number may come back as
another one, and an infinite one does not come back. -/
def Literal.reread? : Literal → Option Literal
  | .number value => value.reread?.map .number
  | .nan => none
  | literal => some literal

theorem nesting_number (number : Number) : number.encode.nesting = 0 := by
  unfold Number.encode
  split <;> rfl

theorem reread?_number (number : Number) : number.reread? = Number.decode? number.encode.reread := by
  rw [Number.reread?, ofText?_text (isWritable_number number), Option.bind_some]

/-- What is not finite is not read. -/
theorem Literal.reread?_eq_none {literal : Literal} (h : literal.isFinite = false) :
    literal.reread? = none := by
  cases literal with
  | number number =>
    have hinfinite : number.isFinite = false := h
    have hencode : number.encode = .null := if_neg (by simp [hinfinite])
    rw [Literal.reread?, reread?_number, hencode]
    rfl
  | nan => rfl
  | _ => exact nomatch h

theorem literal_decode?_record (kind : Scalar) (document : Json) :
    Literal.decode? keeping (.record [("type", kind.encode), ("value", document)]) =
      (Literal.decodeValue? document kind).map id := by
  rw [Option.map_id_fun]
  cases kind <;> rfl

theorem readsAs_literal (literal : Literal) :
    ReadsAs (Literal.decode? keeping) literal.encode literal.reread? := by
  have hsame : literal.reread? = literal.reread?.map id := by rw [Option.map_id_fun, id]
  rw [hsame]
  refine readsAs_labelled rfl (literal_decode?_record literal.scalar) ?_
  cases literal with
  | number number =>
    exact readsAs_of_flat (nesting_number number)
      (congrArg (Option.map Literal.number) (reread?_number number).symm)
  | nan => exact readsAs_of_flat rfl rfl
  | int value =>
    refine readsAs_of_flat rfl ?_
    show (int64? value.toInt).map Literal.int = some (.int value)
    rw [int64?_toInt, Option.map_some]
  | string value => exact readsAs_of_flat rfl rfl
  | bool value => exact readsAs_of_flat rfl rfl
  | timestamp value =>
    refine readsAs_of_flat rfl ?_
    show (Timestamp.ofExchangeText? (String.ofList value.exchangeText).toList).map Literal.timestamp =
      some (.timestamp value)
    rw [String.toList_ofList, Timestamp.ofExchangeText?_exchangeText, Option.map_some]

/-! ### Keyword arguments and operators -/

/-- A default is read, or that there is none. -/
theorem readsAs_default (default : Option Literal) :
    ReadsAs (fun document ↦ decodeDefault? keeping (some document))
      (default.elim .null Literal.encode) (default.mapM Literal.reread?) := by
  cases default with
  | none => exact readsAs_of_flat rfl rfl
  | some literal =>
    intro limit
    have hread : decodeDefault? keeping (some (literal.encode.reread.limited limit)) =
        (Literal.decode? keeping (literal.encode.reread.limited limit)).map some := by
      cases limit <;> rfl
    show decodeDefault? keeping (some (literal.encode.reread.limited limit)) = _
    rw [hread, readsAs_literal literal limit, ite_map]
    rfl

theorem keyword_decode?_record (name : String) (type default : Json) :
    Keyword.decode? keeping
        (.record [("name", .string name), ("exp_type", type), ("default", default)]) =
      (ArgType.decode? keeping type).bind fun type ↦
        (decodeDefault? keeping (some default)).bind fun default ↦ some ⟨name, type, default⟩ :=
  rfl

theorem readsAs_keyword (keyword : Keyword) :
    ReadsAs (Keyword.decode? keeping) keyword.encode (keyword.mapLiterals? Literal.reread?) := by
  refine readsAs_record rfl fun limit ↦ ?_
  have hdefault := @readsAs_default keeping keyword.default limit
  dsimp only at hdefault
  show Keyword.decode? keeping (.record [("name", (Json.string keyword.name).reread.limited limit),
    ("exp_type", keyword.type.encode.reread.limited limit),
    ("default", (keyword.default.elim .null Literal.encode).reread.limited limit)]) = _
  rw [limited_reread_string, keyword_decode?_record, ArgType.readsAs _ limit, hdefault]
  simp only [ite_bind, Option.bind_some, ← ite_and]
  refine if_congr ?_ ?_ rfl
  · simp [nesting]
  · rw [Keyword.mapLiterals?, Option.map_eq_bind]
    rfl

theorem operator_decode?_record (name : String) (result parameters keywords : Json) :
    Operator.decode? keeping
        (.record [("name", .string name), ("return_type", result), ("args", parameters),
          ("opt_args", keywords)]) =
      (Base.decode? keeping result).bind fun result ↦
        (parameters.listOf? (ArgType.decode? keeping)).bind fun parameters ↦
          (keywords.listOf? (Keyword.decode? keeping)).bind fun keywords ↦
            some ⟨name, result, parameters, keywords⟩ :=
  rfl

theorem readsAs_operator (operator : Operator) :
    ReadsAs (Operator.decode? keeping) operator.encode (operator.mapLiterals? Literal.reread?) := by
  refine readsAs_record rfl fun limit ↦ ?_
  have hparameters := readsAs_listOf (fun type (_ : type ∈ operator.parameters) ↦
    @ArgType.readsAs keeping type)
  have hkeywords := readsAs_listOf (fun keyword (_ : keyword ∈ operator.keywords) ↦
    @readsAs_keyword keeping keyword)
  rw [mapM_some] at hparameters
  show Operator.decode? keeping (.record [("name", (Json.string operator.name).reread.limited limit),
    ("return_type", operator.result.encode.reread.limited limit),
    ("args", (Json.array (operator.parameters.map ArgType.encode)).reread.limited limit),
    ("opt_args", (Json.array (operator.keywords.map Keyword.encode)).reread.limited limit)]) = _
  rw [limited_reread_string, operator_decode?_record, readsAs_base _ limit, hparameters limit,
    hkeywords limit]
  simp only [ite_bind, Option.bind_some, ← ite_and]
  refine if_congr ?_ ?_ rfl
  · simp [nesting]
  · rw [Operator.mapLiterals?, Option.map_eq_bind]
    rfl

/-! ### Slots -/

theorem readsAs_slot (slot : Slot) :
    ReadsAs (Slot.decode? keeping) slot.encode (slot.mapLiterals? Literal.reread?) := by
  cases slot with
  | root base => exact readsAs_labelled rfl (fun _ ↦ rfl) (readsAs_base base)
  | call base => exact readsAs_labelled rfl (fun _ ↦ rfl) (readsAs_base base)
  | choice kind => exact readsAs_labelled rfl (fun _ ↦ rfl) (readsAs_scalar kind)
  | typed type => exact readsAs_labelled rfl (fun _ ↦ rfl) (ArgType.readsAs type)
  | keywords group =>
    exact readsAs_labelled rfl (fun _ ↦ rfl) (readsAs_listOf fun keyword _ ↦ readsAs_keyword keyword)
  | operator chosen => exact readsAs_labelled rfl (fun _ ↦ rfl) (readsAs_operator chosen)
  | keyword own => exact readsAs_labelled rfl (fun _ ↦ rfl) (readsAs_keyword own)

/-! ### Nodes -/

theorem readsAs_content (content : Option Literal) :
    ReadsAs decodeContent? (encodeContent content) (content.mapM Literal.reread?) := by
  cases content with
  | none => exact readsAs_of_flat rfl rfl
  | some literal => exact readsAs_named rfl (fun _ ↦ rfl) (readsAs_literal literal)

theorem decodeNode?_record (slot content : Json) :
    decodeNode? (.record [("edition_type", slot), ("content", content)]) =
      (Slot.decode? .direct slot).bind fun slot ↦
        (decodeContent? content).bind fun content ↦ some (slot, content) :=
  rfl

theorem readsAs_node (slot : Slot) (content : Option Literal) :
    ReadsAs decodeNode? (encodeNode slot content)
      ((slot.mapLiterals? Literal.reread?).bind fun slot ↦
        (content.mapM Literal.reread?).bind fun content ↦ some (slot, content)) := by
  refine readsAs_record rfl fun limit ↦ ?_
  show decodeNode? (.record [("edition_type", slot.encode.reread.limited limit),
    ("content", (encodeContent content).reread.limited limit)]) = _
  rw [decodeNode?_record, readsAs_slot slot limit, readsAs_content content limit]
  simp only [ite_bind, bind_ite, ← ite_and]
  refine if_congr ?_ rfl rfl
  simp [and_comm]

/-! ### Outlines -/

namespace Outline

theorem encodeAll_eq_map (outlines : List Outline) : encodeAll outlines = outlines.map encode := by
  induction outlines with
  | nil => rfl
  | cons outline outlines ih => rw [encodeAll, ih, List.map_cons]

/-- The bound on the nesting does not matter. -/
theorem decodeWithin?_congr {bound bound' : Nat} {document : Json} (h : document.nesting < bound)
    (h' : document.nesting < bound') :
    decodeWithin? bound document = decodeWithin? bound' document := by
  induction bound generalizing bound' document with
  | zero => exact absurd h (Nat.not_lt_zero _)
  | succ bound ih =>
    obtain ⟨bound', rfl⟩ := Nat.exists_eq_add_one.mpr (Nat.zero_lt_of_lt h')
    rw [decodeWithin?, decodeWithin?]
    split
    · rename_i root parts hfields
      have hshallow : parts.nesting < document.nesting :=
        nesting_lt_of_mem_parts (mem_parts_of_fields? hfields (by simp))
      have hparts : parts.listOf? (decodeWithin? bound) = parts.listOf? (decodeWithin? bound') :=
        listOf?_congr fun part hpart ↦ ih (by omega) (by omega)
      rw [hparts]
    · rfl

theorem decode?_record (root parts : Json) :
    decode? (.record [("node", root), ("children", parts)]) =
      (decodeNode? root).bind fun node ↦
        (parts.listOf? decode?).bind fun parts ↦ some (.node node.1 node.2 parts) := by
  have hshallow : parts.nesting < (record [("node", root), ("children", parts)]).nesting :=
    Nat.lt_succ_of_le ((Nat.le_max_left _ _).trans (Nat.le_max_right _ _))
  have hparts : parts.listOf? (decodeWithin? (record [("node", root), ("children", parts)]).nesting) =
      parts.listOf? decode? :=
    listOf?_congr fun part hpart ↦ decodeWithin?_congr (hpart.trans hshallow) (Nat.lt_succ_self _)
  rw [← hparts]
  rfl

mutual

/-- An outline is read from its document with its literals read from theirs. -/
theorem readsAs : (outline : Outline) →
    ReadsAs decode? outline.encode (outline.mapLiterals? Literal.reread?)
  | .node slot content parts => by
    refine readsAs_record rfl fun limit ↦ ?_
    have hparts := readsAs_listOf (readsAsAll parts)
    rw [← encodeAll_eq_map, ← mapAllLiterals?_eq_mapM] at hparts
    show decode? (.record [("node", (encodeNode slot content).reread.limited limit),
      ("children", (Json.array (encodeAll parts)).reread.limited limit)]) = _
    rw [decode?_record, readsAs_node slot content limit, hparts limit]
    simp only [ite_bind, bind_ite, ← ite_and, Option.bind_assoc, Option.bind_some]
    refine if_congr ?_ ?_ rfl
    · simp [and_comm]
    · simp only [mapLiterals?, Option.map_eq_bind]
      rfl

theorem readsAsAll : (outlines : List Outline) → ∀ outline ∈ outlines,
    ReadsAs decode? outline.encode (outline.mapLiterals? Literal.reread?)
  | [] => nofun
  | outline :: outlines => List.forall_mem_cons.mpr ⟨readsAs outline, readsAsAll outlines⟩

end

/-! ### Texts -/

/-- What is read from the text of an outline in the exchange format: the outline with its literals read
from theirs, unless the text nests beyond the limit of the format. -/
theorem ofExchangeText?_exchangeText_eq (outline : Outline) :
    ofExchangeText? outline.exchangeText =
      if outline.encode.nesting ≤ exchangeNesting then outline.mapLiterals? Literal.reread?
      else none := by
  rw [ofExchangeText?, exchangeText, Json.ofExchangeText?, ofText?_text outline.isWritable_encode]
  exact readsAs outline exchangeNesting

/-- Every finite number in an outline, held or declared, is read back from the text that the exchange
format writes for it. -/
def KeepsNumbers (outline : Outline) : Prop :=
  ∀ literal ∈ outline.literals, literal.isFinite = true → literal.reread? = some literal

instance (outline : Outline) : Decidable outline.KeepsNumbers :=
  inferInstanceAs
    (Decidable (∀ literal ∈ outline.literals, literal.isFinite = true → literal.reread? = some literal))

/-- The literals of an outline are all read back exactly if its numbers are finite and are read back. -/
theorem mapLiterals?_reread?_eq_self_iff {outline : Outline} :
    outline.mapLiterals? Literal.reread? = some outline ↔
      outline.isFinite = true ∧ outline.KeepsNumbers := by
  rw [mapLiterals?_eq_self_iff, isFinite_iff]
  constructor
  · refine fun h ↦ ⟨fun literal hliteral ↦ ?_, fun literal hliteral _ ↦ h literal hliteral⟩
    by_contra hinfinite
    have hnone := Literal.reread?_eq_none (Bool.eq_false_iff.mpr hinfinite)
    exact nomatch hnone.symm.trans (h literal hliteral)
  · rintro ⟨hfinite, hkeeps⟩ literal hliteral
    exact hkeeps literal hliteral (hfinite literal hliteral)

/-- An outline with a number that is not finite is not read. -/
theorem mapLiterals?_reread?_eq_none {outline : Outline} (h : ¬ outline.isFinite = true) :
    outline.mapLiterals? Literal.reread? = none := by
  rw [isFinite_iff] at h
  obtain ⟨literal, hliteral⟩ := not_forall.mp h
  obtain ⟨hliteral, hinfinite⟩ := Classical.not_imp.mp hliteral
  exact mapLiterals?_eq_none hliteral (Literal.reread?_eq_none (Bool.eq_false_iff.mpr hinfinite))

/-- Whatever its nodes, an outline is read from its text in the exchange format with its literals read
from theirs, unless the text nests beyond the limit of the format. If its finite numbers are read back from
the texts that are written for them, then the outline is read back as it is, or the text is refused; and it
is refused just if there is a number in the outline, held or declared, that is not finite, or if the text
nests beyond the limit. -/
theorem ofExchangeText?_exchangeText_eq_ite (outline : Outline) :
    (ofExchangeText? outline.exchangeText =
      if outline.encode.nesting ≤ exchangeNesting then outline.mapLiterals? Literal.reread?
      else none) ∧
    (outline.KeepsNumbers →
      ofExchangeText? outline.exchangeText =
        if (∀ literal ∈ outline.literals, literal.isFinite = true) ∧
            outline.encode.nesting ≤ exchangeNesting then
          some outline
        else
          none) := by
  refine ⟨ofExchangeText?_exchangeText_eq outline, fun hkeeps ↦ ?_⟩
  rw [ofExchangeText?_exchangeText_eq]
  by_cases hnesting : outline.encode.nesting ≤ exchangeNesting
  · rw [if_pos hnesting]
    split
    · rename_i hsound
      exact mapLiterals?_reread?_eq_self_iff.mpr ⟨(isFinite_iff outline).mpr hsound.1, hkeeps⟩
    · rename_i hunsound
      exact mapLiterals?_reread?_eq_none fun hfinite ↦
        hunsound ⟨(isFinite_iff outline).mp hfinite, hnesting⟩
  · rw [if_neg hnesting, if_neg fun hsound ↦ hnesting hsound.2]

/-- A keyword argument that is given a number in place of the number that is its default. -/
def scaleOfHalf : Outline :=
  .node (.keyword ⟨"scale", .scalar .number, some (.number (.ofDecimal false ⟨1, -1⟩))⟩) none
    [.node (.choice .number) (some (.number (.ofDecimal false ⟨5, -1⟩))) []]

/-- Numbers of one digit are read back, and the outline with them. -/
theorem ofExchangeText?_exchangeText_scaleOfHalf :
    scaleOfHalf.KeepsNumbers ∧ ofExchangeText? scaleOfHalf.exchangeText = some scaleOfHalf := by
  have hkeeps : scaleOfHalf.KeepsNumbers := by decide +kernel
  refine ⟨hkeeps, ((ofExchangeText?_exchangeText_eq_ite scaleOfHalf).2 hkeeps).trans (if_pos ?_)⟩
  decide +kernel

end Outline

end Formulary
