import Formulary.Catalog.Validation
import Formulary.Proofs.Formula.Parts
import Formulary.Proofs.Formula.Room
/-!
What a limit does to a formula. Nesting too deeply is a failure like any other, so where there are
alternatives it can make way for a later one, and then the limit changes what the formula is read
as. It is the only way in which it can: `parseFormula_none_of_some` says that the outline is the one
that is read without a limit unless something was nested too deeply in an alternative that another
one took the place of. Failures that end a list or a group of keyword arguments do not matter, since
there is a closing parenthesis, which nothing is read from.
-/

set_option autoImplicit false
set_option relaxedAutoImplicit false

namespace Formulary

open Text Place Reading

/-- What is read with some room is read with more, unless something was nested too deeply in an
alternative that was passed over. -/
theorem result_fill_of_le {catalog : Catalog} {limit limit' room room' : Nat}
    (hroom : room ≤ room') {slot : Slot} {place after : Place} {outline : Outline}
    (h : Finds (fun _ ↦ True) (fun event ↦ event.isTooDeep = false)
      (fill catalog limit room slot) place outline after)
    (hafter : slot.takesText = false → after.Closes) :
    (fill catalog limit' room' slot place).result = some (outline, after) := by
  induction room generalizing room' slot place after outline with
  | zero => exact nomatch h.result
  | succ room ih =>
    obtain ⟨room', rfl⟩ := Nat.exists_eq_add_one_of_ne_zero (Nat.ne_zero_of_lt hroom)
    obtain ⟨-, -, hparts⟩ := (finds_fill_succ_iff fun _ ↦ id).mp h
    rw [result_fill_succ_iff]
    refine hparts.mono hafter ?_ ?_ ?_
    · intro part place outline after hcloses hread
      exact ih (Nat.le_of_succ_le_succ hroom) hread hcloses
    · intro part place hpasses
      have hsame := extends_fill catalog limit limit' (Nat.le_of_succ_le_succ hroom) part place
        hpasses.events
      rw [hsame]
      exact hpasses.result
    · intro part place hpart hcloses _
      refine Option.eq_none_iff_forall_not_mem.mpr fun read hread ↦ ?_
      exact not_closes_of_fill hpart hread hcloses

/-- A formula that is read under a limit is read as the same outline without one, unless something
was nested too deeply in an alternative that another one took the place of. -/
theorem parseFormula_none_of_some {operators : List Operator} {limit : Nat} {source : String}
    {outline : Outline}
    (h : parseFormula (.ofList operators) (some limit) source = .ok outline)
    (hoverlooked : ∀ event ∈
      (readFormula (.ofList operators) (some limit) source.toList).overlooked,
      event.isTooDeep = false) :
    parseFormula (.ofList operators) none source = .ok outline := by
  obtain ⟨after, hread⟩ := parseFormula_eq_ok_iff.mp h
  have hfinds : Finds (fun _ ↦ True) (fun event ↦ event.isTooDeep = false)
      (fill (.ofList operators) limit limit (.root .series))
      (Place.start source.toList).skipSeparators outline after :=
    ⟨hread, fun _ _ ↦ trivial, hoverlooked⟩
  have hmore : (fill (.ofList operators) limit
      (limit + nestingBound (.ofList operators) source.toList) (.root .series)
      (Place.start source.toList).skipSeparators).result = some (outline, after) :=
    result_fill_of_le (Nat.le_add_right _ _) hfinds nofun
  rw [fill_eq_readFormula (Nat.le_add_left _ limit)] at hmore
  exact parseFormula_eq_ok_iff.mpr ⟨after, hmore⟩

/-- An operator on a number that is an integer if possible. The integer is nested one deeper than the
number. -/
def preferringInteger : Operator :=
  { name := "f", result := .series,
    parameters := [.union [.union [.scalar .int], .scalar .number]], keywords := [] }

/-- The formula that uses `preferringInteger` on a number. -/
def preferringIntegerOutline (magnitude : Nat) : Outline :=
  let number := Outline.node (.choice .number) none
    [.node (.typed (.scalar .number)) (some (.number (.ofMagnitude false magnitude))) []]
  .node (.root .series) none [.node (.call .series) none [.node (.operator preferringInteger) none
    [.node (.typed (.union [.union [.scalar .int], .scalar .number])) none [number]]]]

/-- A number with a fraction is no integer, so the limit does not matter as long as it is not
reached. -/
theorem parseFormula_none_fraction :
    parseFormula (.ofList [preferringInteger]) (some 8) "(f 3.5)" =
        .ok (preferringIntegerOutline 0x400C000000000000) ∧
      parseFormula (.ofList [preferringInteger]) none "(f 3.5)" =
        .ok (preferringIntegerOutline 0x400C000000000000) := by
  have hread : parseFormula (.ofList [preferringInteger]) (some 8) "(f 3.5)" =
      .ok (preferringIntegerOutline 0x400C000000000000) := by decide +kernel
  exact ⟨hread, parseFormula_none_of_some hread (by decide +kernel)⟩

/-- An integer that is nested too deeply makes way for a number, and without the limit it does not. -/
theorem parseFormula_some_ne_none :
    (Catalog.ofList [preferringInteger]).fault? = none ∧
      parseFormula (.ofList [preferringInteger]) (some 6) "(f 3)" =
        .ok (preferringIntegerOutline 0x4008000000000000) ∧
      parseFormula (.ofList [preferringInteger]) none "(f 3)" ≠
        .ok (preferringIntegerOutline 0x4008000000000000) := by
  refine ⟨?_, ?_, ?_⟩ <;> decide +kernel

end Formulary
