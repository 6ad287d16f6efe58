import Formulary.Json.Reader
import Formulary.Proofs.Json.Parts
import Formulary.Proofs.Number.Scaled
import Formulary.Proofs.Text.Scan
/-!
The range of numbers in JSON. Every document that is read from a text has integers of 64 bits and
finite numbers only, since what is beyond the range denotes nothing (`inRange_of_ofExchangeText?`).
Main definition: `InRange`.
-/

set_option autoImplicit false
set_option relaxedAutoImplicit false

namespace Formulary.Json

open Text Scan Reader

/-- Every integer of a document is kept as such, and every number is finite. -/
inductive InRange : Json → Prop
  | null : InRange .null
  | bool (value : Bool) : InRange (.bool value)
  | integer {value : Int} (h : isKeptInteger value = true) : InRange (.integer value)
  | real {number : Number} (h : number.isFinite = true) : InRange (.real number)
  | string (text : String) : InRange (.string text)
  | unreadable : InRange .unreadable
  | array {elements : List Json} (h : ∀ element ∈ elements, InRange element) :
    InRange (.array elements)
  | object {members : List (Option String × Json)} (h : ∀ member ∈ members, InRange member.2) :
    InRange (.object members)

/-! ### Scanners -/

/-- A scanner gives values with a property only. -/
def Gives {α : Type} (scan : Scan α) (property : α → Prop) : Prop :=
  ∀ text value rest, scan text = some (value, rest) → property value

theorem gives_bind {α β : Type} {scan : Scan α} {next : α → Scan β} {property : β → Prop}
    (h : ∀ found, Gives (next found) property) : Gives (scan >>= next) property := by
  intro text value rest hread
  obtain ⟨found, middle, -, hnext⟩ := bind_eq_some_iff.mp hread
  exact h found middle value rest hnext

theorem appendDigits_lt {significand : Nat} (h : significand < 2 ^ 64) (digits : List Char) :
    (appendDigits significand digits).1 < 2 ^ 64 := by
  induction digits generalizing significand with
  | nil => exact h
  | cons digit digits ih =>
    rw [appendDigits]
    split
    · rename_i hlonger
      exact ih hlonger
    · exact h

theorem coefficient_keptDecimal_lt (digits places : List Char) (power : Int) :
    (keptDecimal digits places power).coefficient < 2 ^ 64 :=
  appendDigits_lt (appendDigits_lt (by decide) digits) places

theorem inRange_ofNumeral (negative : Bool) (digits : List Char) (fraction : Option (List Char))
    (power : Option Int) : InRange (ofNumeral negative digits fraction power) := by
  have hcoefficient := coefficient_keptDecimal_lt digits (fraction.getD []) (power.getD 0)
  simp only [ofNumeral]
  generalize (if negative = true then -(valueOfDigits digits : Int) else valueOfDigits digits) = value
  split
  · rename_i hinteger
    simp only [Bool.and_eq_true] at hinteger
    exact .integer hinteger.1.2
  · split
    · rename_i magnitude hscaled
      have hfinite := Number.scaledMagnitude?_lt (nearestMagnitude_one_lt hcoefficient) hscaled
      exact .real (decide_eq_true ((Nat.min_le_left _ _).trans_lt hfinite))
    · exact .unreadable

theorem gives_numeral (negative : Bool) : Gives (numeral negative) InRange := by
  refine gives_bind fun digits ↦ gives_bind fun fraction ↦ gives_bind fun power ↦ ?_
  intro text value rest hread
  obtain ⟨rfl, -⟩ := Prod.mk.inj (Option.some.inj hread)
  exact inRange_ofNumeral negative digits fraction power

theorem gives_word {letters : List Char} {document : Json} (h : InRange document) :
    Gives (word letters document) InRange := by
  intro text value rest hread
  unfold word at hread
  split at hread
  · obtain ⟨rfl, -⟩ := Prod.mk.inj (Option.some.inj hread)
    exact h
  · exact nomatch hread

theorem gives_scalar : Gives scalar InRange := by
  intro text value rest hread
  unfold scalar at hread
  split at hread
  · obtain ⟨⟨text?, after⟩, -, hread⟩ := Option.map_eq_some_iff.mp hread
    obtain ⟨rfl, -⟩ := Prod.mk.inj hread
    cases text? with
    | none => exact .unreadable
    | some text => exact .string text
  · exact gives_numeral true _ _ _ hread
  · split at hread
    · exact gives_word .null _ _ _ hread
    · exact gives_word (.bool true) _ _ _ hread
    · exact gives_word (.bool false) _ _ _ hread
    · exact gives_numeral false _ _ _ hread

theorem gives_separated {α : Type} {item : Scan α} {closing : Char} {property : α → Prop}
    (h : Gives item property) (bound : Nat) :
    Gives (separated item closing bound) fun values ↦ ∀ value ∈ values, property value := by
  induction bound with
  | zero => exact nofun
  | succ bound ih =>
    intro text values rest hread
    obtain ⟨first, afterFirst, hfirst, hread⟩ := bind_eq_some_iff.mp hread
    obtain ⟨_, afterSpaces, -, hread⟩ := bind_eq_some_iff.mp hread
    have hproperty := h text first afterFirst hfirst
    split at hread
    · split at hread
      · obtain ⟨⟨others, after⟩, hothers, hread⟩ := Option.map_eq_some_iff.mp hread
        obtain ⟨rfl, -⟩ := Prod.mk.inj hread
        exact List.forall_mem_cons.mpr ⟨hproperty, ih _ others after hothers⟩
      · split at hread
        · obtain ⟨rfl, -⟩ := Prod.mk.inj (Option.some.inj hread)
          exact List.forall_mem_singleton.mpr hproperty
        · exact nomatch hread
    · exact nomatch hread

theorem gives_items {α : Type} {item : Scan α} {closing : Char} {property : α → Prop}
    (h : Gives item property) :
    Gives (items item closing) fun values ↦ ∀ value ∈ values, property value := by
  refine gives_bind fun _ text values rest hread ↦ ?_
  split at hread
  · split at hread
    · obtain ⟨rfl, -⟩ := Prod.mk.inj (Option.some.inj hread)
      exact nofun
    · exact gives_separated h _ _ _ _ hread
  · exact nomatch hread

/-- A number beyond the range is nowhere inside a document that is read. -/
theorem gives_value (bound : Nat) : Gives (value bound) InRange := by
  induction bound with
  | zero => exact gives_bind fun _ ↦ gives_scalar
  | succ bound ih =>
    refine gives_bind fun _ text document rest hread ↦ ?_
    split at hread
    · obtain ⟨⟨elements, after⟩, helements, hread⟩ := Option.map_eq_some_iff.mp hread
      obtain ⟨rfl, -⟩ := Prod.mk.inj hread
      exact .array (gives_items ih _ _ _ helements)
    · obtain ⟨⟨members, after⟩, hmembers, hread⟩ := Option.map_eq_some_iff.mp hread
      obtain ⟨rfl, -⟩ := Prod.mk.inj hread
      have hmember : Gives (member (value bound)) fun member ↦ InRange member.2 := by
        refine gives_bind fun _ ↦ gives_bind fun _ ↦ gives_bind fun name ↦ gives_bind fun _ ↦
          gives_bind fun _ text member rest hread ↦ ?_
        obtain ⟨document, after, hdocument, hread⟩ := bind_eq_some_iff.mp hread
        obtain ⟨rfl, -⟩ := Prod.mk.inj (Option.some.inj hread)
        exact ih _ _ _ hdocument
      exact .object (gives_items hmember _ _ _ hmembers)
    · exact gives_scalar _ _ _ hread

/-! ### Documents -/

theorem inRange_of_ofText? {text : String} {document : Json} (h : ofText? text = some document) :
    InRange document := by
  have hgives : Gives (do
      let document ← value text.toList.length
      spaces
      pure document : Scan Json) InRange := by
    intro text document rest hread
    obtain ⟨found, middle, hvalue, hread⟩ := bind_eq_some_iff.mp hread
    obtain ⟨_, after, -, hread⟩ := bind_eq_some_iff.mp hread
    obtain ⟨rfl, -⟩ := Prod.mk.inj (Option.some.inj hread)
    exact gives_value _ _ _ _ hvalue
  unfold ofText? ofCharacters? whole at h
  split at h
  · rename_i found hread
    obtain rfl := Option.some.inj h
    exact hgives _ _ _ hread
  · exact nomatch h

theorem InRange.limited {document : Json} (h : InRange document) (limit : Nat) :
    InRange (document.limited limit) := by
  induction h generalizing limit with
  | null => cases limit <;> exact .null
  | bool value => cases limit <;> exact .bool value
  | integer hkept => cases limit <;> exact .integer hkept
  | real hfinite => cases limit <;> exact .real hfinite
  | string text => cases limit <;> exact .string text
  | unreadable => cases limit <;> exact .unreadable
  | @array elements _ ih =>
    cases limit with
    | zero => exact .unreadable
    | succ limit =>
      rw [Json.limited, limitedAll_eq_map]
      exact .array (List.forall_mem_map.mpr fun element helement ↦ ih element helement limit)
  | @object members _ ih =>
    cases limit with
    | zero => exact .unreadable
    | succ limit =>
      rw [Json.limited, limitedMembers_eq_map]
      exact .object (List.forall_mem_map.mpr fun member hmember ↦ ih member hmember limit)

theorem InRange.of_mem_parts {document part : Json} (h : InRange document)
    (hpart : part ∈ document.parts) : InRange part := by
  cases h with
  | array helements => exact helements part hpart
  | object hmembers =>
    obtain ⟨member, hmember, rfl⟩ := List.mem_map.mp hpart
    exact hmembers member hmember
  | _ => exact absurd hpart List.not_mem_nil

/-- What is read from a text in the exchange format is in range. -/
theorem inRange_of_ofExchangeText? {text : String} {document : Json}
    (h : ofExchangeText? text = some document) : InRange document := by
  obtain ⟨found, hfound, rfl⟩ := Option.map_eq_some_iff.mp h
  exact (inRange_of_ofText? hfound).limited _

end Formulary.Json
