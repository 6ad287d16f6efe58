import Formulary.ArgType.Reader
import Formulary.Proofs.Cursor.Basic
/-!
Type expressions read with nothing but a cursor. Names are slices of the expression, and past a bracket
or a comma the cursor moves by one byte. Neither the parameters nor the types inside one another are
counted beforehand: a reading that goes on beyond a number of rounds has no outcome, and neither has one
that cuts the expression where it cannot be cut. Where both numbers are greater than the number of
characters, every expression is read as the types of places are (`typeOfText_eq`). Main definitions:
`Cursor.readType` and `Cursor.typeOfText`.
-/

set_option autoImplicit false
set_option relaxedAutoImplicit false

namespace Formulary.ArgType

open Text Place

/-! ### Types with parameters -/

/-- The union of its parameters, which must not be missing. -/
def unionOf {α : Type} : Except TypeFault (List ArgType × α) → Except TypeFault (ArgType × α)
  | .error fault => .error fault
  | .ok ([], _) => .error .emptyUnion
  | .ok (alternatives, after) => .ok (.union alternatives, after)

/-- The list of its only parameter. -/
def listOf {α : Type} : Except TypeFault (List ArgType × α) → Except TypeFault (ArgType × α)
  | .error fault => .error fault
  | .ok ([element], after) => .ok (.list element, after)
  | .ok (parameters, _) => .error (.listParameters parameters.length)

/-- The type without parameters that a name stands for. -/
def plainOf {α : Type} (name : String) (after : α) : Except TypeFault (ArgType × α) :=
  if name = "Series" then
    .ok (.series, after)
  else
    match Scalar.ofTypeName? name with
    | some kind => .ok (.scalar kind, after)
    | none => .error (.unknownName name)

theorem readType_succ (bound : Nat) (place : Place) :
    readType (bound + 1) place =
      (let start := place.skip isBlank
      let name := String.ofList (start.run isNameCharacter)
      let after := start.skip isNameCharacter
      if name = "" then .error (.nameExpected start.offset)
      else if name = "Union" then unionOf (readParameters (readAlternatives bound) after)
      else if name = "List" then listOf (readParameters (readAlternatives bound) after)
      else plainOf name after) := by
  rw [readType]
  dsimp only
  cases readParameters (readAlternatives bound)
    ((place.skip isBlank).skip isNameCharacter) with
  | error fault => rfl
  | ok read => obtain ⟨_ | ⟨type, _ | ⟨other, types⟩⟩, last⟩ := read <;> rfl

section Parameters

variable {α β : Type} {parameters : Except TypeFault (List ArgType × α)} {type : ArgType} {after : α}

/-- A union is read from parameters, one at least. -/
theorem unionOf_eq_ok_iff : unionOf parameters = .ok (type, after) ↔
    ∃ types, types ≠ [] ∧ parameters = .ok (types, after) ∧ type = .union types := by
  constructor
  · intro h
    unfold unionOf at h
    split at h
    · cases h
    · cases h
    · rename_i hsome
      cases h
      exact ⟨_, hsome, rfl, rfl⟩
  · rintro ⟨_ | ⟨first, types⟩, hsome, rfl, rfl⟩
    · exact absurd rfl hsome
    · rfl

/-- A list is read from one parameter. -/
theorem listOf_eq_ok_iff : listOf parameters = .ok (type, after) ↔
    ∃ element, parameters = .ok ([element], after) ∧ type = .list element := by
  constructor
  · intro h
    unfold listOf at h
    split at h
    · cases h
    · cases h
      exact ⟨_, rfl, rfl⟩
    · cases h
  · rintro ⟨element, rfl, rfl⟩
    rfl

theorem plainOf_eq_ok {name : String} {last : α} (h : plainOf name after = .ok (type, last)) :
    after = last := by
  unfold plainOf at h
  split at h
  · cases h
    rfl
  · split at h
    · cases h
      rfl
    · cases h

theorem unionOf_map (move : α → β) :
    unionOf (parameters.map fun (types, after) ↦ (types, move after)) =
      (unionOf parameters).map fun (type, after) ↦ (type, move after) := by
  cases parameters with
  | error fault => rfl
  | ok read => obtain ⟨_ | ⟨type, types⟩, after⟩ := read <;> rfl

theorem listOf_map (move : α → β) :
    listOf (parameters.map fun (types, after) ↦ (types, move after)) =
      (listOf parameters).map fun (type, after) ↦ (type, move after) := by
  cases parameters with
  | error fault => rfl
  | ok read => obtain ⟨_ | ⟨type, _ | ⟨other, types⟩⟩, after⟩ := read <;> rfl

theorem plainOf_map (name : String) (move : α → β) :
    plainOf name (move after) = (plainOf name after).map fun (type, after) ↦ (type, move after) := by
  unfold plainOf
  split
  · rfl
  · cases Scalar.ofTypeName? name <;> rfl

end Parameters

/-! ### What a type takes up -/

theorem advances_of_eat?_singleton {place after : Place} {mark : Char}
    (h : place.eat? [mark] = some after) : Advances place after :=
  advances_of_eat? (List.cons_ne_nil _ _) h

theorem advances_of_readParameters
    {readOthers : Place → Except TypeFault (List ArgType × Place)} {place after : Place}
    {types : List ArgType}
    (hothers : ∀ place types after, readOthers place = .ok (types, after) → Leads place after)
    (h : readParameters readOthers place = .ok (types, after)) : Advances place after := by
  simp only [readParameters] at h
  split at h
  · cases h
  · rename_i inside hinside
    have hahead : Advances place (inside.skip isBlank) :=
      ((leads_skip place isBlank).trans_advances (advances_of_eat?_singleton hinside)).trans_leads
        (leads_skip inside isBlank)
    split at h
    · rename_i last hlast
      cases h
      exact hahead.trans_leads (leads_of_eat? hlast)
    · exact hahead.trans_leads (hothers _ _ _ h)

/-- A type takes up its name at least. -/
theorem advances_of_name {place : Place}
    (hname : String.ofList ((place.skip isBlank).run isNameCharacter) ≠ "") :
    Advances place ((place.skip isBlank).skip isNameCharacter) := by
  refine (leads_skip place isBlank).trans_advances (advances_skip fun hrun ↦ hname ?_)
  rw [hrun]

theorem advances_of_readType_succ {bound : Nat}
    (halternatives : ∀ place types after, readAlternatives bound place = .ok (types, after) →
      Leads place after)
    {place after : Place} {type : ArgType} (h : readType (bound + 1) place = .ok (type, after)) :
    Advances place after := by
  have hparameters (types : List ArgType) (middle : Place)
      (hread : readParameters (readAlternatives bound) middle = .ok (types, after)) :
      Leads middle after :=
    (advances_of_readParameters halternatives hread).1
  rw [readType_succ] at h
  dsimp only at h
  split at h
  · cases h
  · rename_i hname
    have hahead := advances_of_name hname
    split at h
    · obtain ⟨types, -, hread, -⟩ := unionOf_eq_ok_iff.mp h
      exact hahead.trans_leads (hparameters types _ hread)
    · split at h
      · obtain ⟨element, hread, -⟩ := listOf_eq_ok_iff.mp h
        exact hahead.trans_leads (hparameters [element] _ hread)
      · rw [← plainOf_eq_ok h]
        exact hahead

theorem advances_of_readAlternatives_succ {bound : Nat}
    (htype : ∀ place type after, readType bound place = .ok (type, after) → Advances place after)
    (halternatives : ∀ place types after, readAlternatives bound place = .ok (types, after) →
      Leads place after)
    {place after : Place} {types : List ArgType}
    (h : readAlternatives (bound + 1) place = .ok (types, after)) : Advances place after := by
  rw [readAlternatives] at h
  split at h
  · cases h
  · rename_i first middle hfirst
    have hahead : Advances place (middle.skip isBlank) :=
      (htype _ _ _ hfirst).trans_leads (leads_skip middle isBlank)
    dsimp only at h
    split at h
    · rename_i next hnext
      split at h
      · cases h
      · rename_i hothers
        cases h
        exact hahead.trans_leads ((leads_of_eat? hnext).trans (halternatives _ _ _ hothers))
    · split at h
      · rename_i last hlast
        cases h
        exact hahead.trans_leads (leads_of_eat? hlast)
      · cases h

/-- Types, alone or with commas between them, take up some of the expression. -/
theorem advances_of_readType_and_readAlternatives (bound : Nat) :
    (∀ place type after, readType bound place = .ok (type, after) → Advances place after) ∧
      ∀ place types after, readAlternatives bound place = .ok (types, after) →
        Advances place after := by
  induction bound with
  | zero =>
    refine ⟨fun place type after h ↦ ?_, fun place types after h ↦ ?_⟩
    · rw [readType] at h
      cases h
    · rw [readAlternatives] at h
      cases h
  | succ bound ih =>
    obtain ⟨htype, halternatives⟩ := ih
    have hleads (place : Place) (types : List ArgType) (after : Place)
        (h : readAlternatives bound place = .ok (types, after)) : Leads place after :=
      (halternatives place types after h).1
    exact ⟨fun _ _ _ ↦ advances_of_readType_succ hleads,
      fun _ _ _ ↦ advances_of_readAlternatives_succ htype hleads⟩

theorem advances_of_readType {bound : Nat} {place after : Place} {type : ArgType}
    (h : readType bound place = .ok (type, after)) : Advances place after :=
  (advances_of_readType_and_readAlternatives bound).1 place type after h

end Formulary.ArgType

namespace Formulary.Cursor

open Text Place

/-! ### Type expressions at a cursor -/

section Types

variable (text : List Char)

/-- The cursor moved past a mark by one byte, if the mark comes next. -/
def eatMark (mark : Char) (offset : Nat) : Option (Option Nat) := do
  if (← peek text offset) = some mark then
    let after ← goTo text (offset + 1)
    some (some after)
  else
    some none

variable (rounds : Nat)

/-- Types with commas between them up to the closing bracket, added to those already read, given how to
read a type. -/
def readAlternatives (inner : Nat → Option (Except TypeFault (ArgType × Nat))) :
    (rounds offset : Nat) → List ArgType → Option (Except TypeFault (List ArgType × Nat))
  | 0, _, _ => none
  | left + 1, offset, types => do
    match ← inner offset with
    | .error fault => some (.error fault)
    | .ok (type, after) =>
      let separator ← skipWhile text isBlank rounds after
      match ← eatMark text ',' separator with
      | some next => readAlternatives inner left next (types ++ [type])
      | none =>
        match ← eatMark text ']' separator with
        | some last => some (.ok (types ++ [type], last))
        | none => some (.error (.separatorExpected separator))

/-- The parameters between brackets, given how to read a type. -/
def readParameters (inner : Nat → Option (Except TypeFault (ArgType × Nat))) (offset : Nat) :
    Option (Except TypeFault (List ArgType × Nat)) := do
  let bracket ← skipWhile text isBlank rounds offset
  match ← eatMark text '[' bracket with
  | none => some (.error (.bracketExpected bracket))
  | some inside =>
    let first ← skipWhile text isBlank rounds inside
    match ← eatMark text ']' first with
    | some after => some (.ok ([], after))
    | none => readAlternatives text rounds inner rounds first []

/-- Reads a type with no more than a number of types inside one another. -/
def readType : (nesting offset : Nat) → Option (Except TypeFault (ArgType × Nat))
  | 0, _ => none
  | nesting + 1, offset => do
    let start ← skipWhile text isBlank rounds offset
    let after ← skipWhile text ArgType.isNameCharacter rounds start
    let written ← slice? text start after
    let name := String.ofList written
    if name = "" then
      some (.error (.nameExpected after))
    else if name = "Union" then
      (readParameters text rounds (readType nesting) after).map ArgType.unionOf
    else if name = "List" then
      (readParameters text rounds (readType nesting) after).map ArgType.listOf
    else
      some (ArgType.plainOf name after)

end Types

/-- The type that an expression denotes. -/
def typeOfText (rounds nesting : Nat) (expression : String) : Option (Except TypeFault ArgType) := do
  let text := expression.toList
  match ← readType text rounds nesting 0 with
  | .error fault => some (.error fault)
  | .ok (type, after) =>
    let last ← skipWhile text isBlank rounds after
    if last = byteLength text then
      some (.ok type)
    else
      some (.error (.trailingText last))

/-! ### What the cursor finds -/

/-- What a cursor makes of something that is read at a place: the same, and the offset behind it. -/
def atOffset {α : Type} (read : Except TypeFault (α × Place)) : Except TypeFault (α × Nat) :=
  read.map fun (value, after) ↦ (value, after.offset)

variable {text : List Char} {place : Place} {rounds : Nat}

theorem eatMark_of_within (mark : Char) (hmark : mark.utf8Size = 1) (h : Within text place) :
    eatMark text mark place.offset = some ((place.eat? [mark]).map Place.offset) := by
  obtain ⟨offset, rest⟩ := place
  rw [eatMark, peek_of_within h, eat?_singleton, Option.bind_eq_bind, Option.bind_some]
  cases rest with
  | nil => rfl
  | cons character rest =>
    by_cases hsame : character = mark
    · subst hsame
      have hbehind := within_cons h
      rw [hmark] at hbehind
      have hmoved := goTo_of_within hbehind
      simp [next?, hmoved, hmark]
    · simp [next?, hsame]

/-- The cursor reads parameters as they are read at its place, if it reads what follows the bracket so. -/
theorem readParameters_of_within {inner : Nat → Option (Except TypeFault (ArgType × Nat))}
    {readOthers : Place → Except TypeFault (List ArgType × Place)} (h : Within text place)
    (hrounds : place.rest.length < rounds)
    (hothers : ∀ first, Advances place first →
      readAlternatives text rounds inner rounds first.offset [] = some (atOffset (readOthers first))) :
    readParameters text rounds inner place.offset =
      some (atOffset (ArgType.readParameters readOthers place)) := by
  have hblanks := leads_skip place isBlank
  have hbracket := h.of_leads hblanks
  rw [readParameters, ArgType.readParameters, skipWhile_of_within isBlank h hrounds,
    Option.bind_eq_bind, Option.bind_some, eatMark_of_within '[' rfl hbracket]
  cases hopened : (place.skip isBlank).eat? ['['] with
  | none => rfl
  | some inside =>
    have hinside : Advances place inside :=
      hblanks.trans_advances (ArgType.advances_of_eat?_singleton hopened)
    have hfirst : Advances place (inside.skip isBlank) :=
      hinside.trans_leads (leads_skip inside isBlank)
    have hskip := skipWhile_of_within isBlank (h.of_leads hinside.1)
      (Nat.lt_trans hinside.length_lt hrounds)
    simp only [Option.map_some, Option.bind_eq_bind, Option.bind_some, hskip,
      eatMark_of_within ']' rfl (h.of_leads hfirst.1)]
    cases (inside.skip isBlank).eat? [']'] with
    | none => exact hothers _ hfirst
    | some last => rfl

/-- With a bound on nested calls, types are read as at a cursor wherever the bound is great enough. -/
def TypesAgree (text : List Char) (rounds bound : Nat) : Prop :=
  ∀ nesting place, Within text place → place.rest.length < rounds → place.rest.length < nesting →
    2 * place.rest.length + 1 ≤ bound →
      readType text rounds nesting place.offset = some (atOffset (ArgType.readType bound place))

/-- The same of types with commas between them, which the cursor adds to those already read. -/
def AlternativesAgree (text : List Char) (rounds bound : Nat) : Prop :=
  ∀ nesting left place types, Within text place → place.rest.length < rounds →
    place.rest.length < nesting → place.rest.length < left → 2 * place.rest.length + 2 ≤ bound →
      readAlternatives text rounds (readType text rounds nesting) left place.offset types =
        some (atOffset ((ArgType.readAlternatives bound place).map fun (more, after) ↦
          (types ++ more, after)))

theorem readParameters_of_alternativesAgree {bound nesting : Nat}
    (h : AlternativesAgree text rounds bound) (hplace : Within text place)
    (hrounds : place.rest.length < rounds) (hnesting : place.rest.length ≤ nesting)
    (hbound : 2 * place.rest.length ≤ bound) :
    readParameters text rounds (readType text rounds nesting) place.offset =
      some (atOffset (ArgType.readParameters (ArgType.readAlternatives bound) place)) := by
  refine readParameters_of_within hplace hrounds fun first hfirst ↦ ?_
  have hfewer := hfirst.length_lt
  have hothers := h nesting rounds first [] (hplace.of_leads hfirst.1) (by omega) (by omega)
    (by omega) (by omega)
  rw [hothers]
  cases ArgType.readAlternatives bound first <;> rfl

theorem typesAgree_succ {bound : Nat} (h : AlternativesAgree text rounds bound) :
    TypesAgree text rounds (bound + 1) := by
  intro nesting place hplace hrounds hnesting hbound
  obtain ⟨nesting, rfl⟩ := Nat.exists_eq_add_one_of_ne_zero (Nat.ne_zero_of_lt hnesting)
  have hblanks := leads_skip place isBlank
  have hstart : Within text (place.skip isBlank) := hplace.of_leads hblanks
  have hname := skipWhile_of_within ArgType.isNameCharacter hstart
    (Nat.lt_of_le_of_lt hblanks.suffix.length_le hrounds)
  rw [readType, ArgType.readType_succ, skipWhile_of_within isBlank hplace hrounds]
  simp only [Option.bind_eq_bind, Option.bind_some, hname, slice?_skip hstart]
  by_cases hempty : String.ofList ((place.skip isBlank).run ArgType.isNameCharacter) = ""
  · have hstay := (offset_skip_eq_iff (place.skip isBlank) ArgType.isNameCharacter).mpr
      (by simpa using hempty)
    rw [if_pos hempty, if_pos hempty, hstay]
    rfl
  · have hahead := ArgType.advances_of_name hempty
    have hless := hahead.length_lt
    have hparameters := readParameters_of_alternativesAgree h (hplace.of_leads hahead.1)
      (Nat.lt_trans hless hrounds) (by omega : _ ≤ nesting) (by omega)
    rw [if_neg hempty, if_neg hempty, hparameters, Option.map_some, Option.map_some, atOffset,
      ArgType.unionOf_map, ArgType.listOf_map, ArgType.plainOf_map]
    split
    · rfl
    · split <;> rfl

theorem alternativesAgree_succ {bound : Nat} (htypes : TypesAgree text rounds bound)
    (halternatives : AlternativesAgree text rounds bound) :
    AlternativesAgree text rounds (bound + 1) := by
  intro nesting left place types hplace hrounds hnesting hleft hbound
  obtain ⟨left, rfl⟩ := Nat.exists_eq_add_one_of_ne_zero (Nat.ne_zero_of_lt hleft)
  rw [readAlternatives, ArgType.readAlternatives,
    htypes nesting place hplace hrounds hnesting (by omega)]
  cases hfirst : ArgType.readType bound place with
  | error fault => rfl
  | ok first =>
    obtain ⟨type, after⟩ := first
    have hahead := ArgType.advances_of_readType hfirst
    have hless := hahead.length_lt
    have hseparator := hahead.1.trans (leads_skip after isBlank)
    have hskip := skipWhile_of_within isBlank (hplace.of_leads hahead.1)
      (Nat.lt_trans hless hrounds)
    simp only [atOffset, Except.map, Option.bind_eq_bind, Option.bind_some, hskip,
      eatMark_of_within ',' rfl (hplace.of_leads hseparator),
      eatMark_of_within ']' rfl (hplace.of_leads hseparator)]
    cases hcomma : (after.skip isBlank).eat? [','] with
    | none => cases (after.skip isBlank).eat? [']'] <;> rfl
    | some next =>
      have hnext := hseparator.trans_advances (ArgType.advances_of_eat?_singleton hcomma)
      have hfewer : next.rest.length < after.rest.length :=
        ((leads_skip after isBlank).trans_advances
          (ArgType.advances_of_eat?_singleton hcomma)).length_lt
      have hothers := halternatives nesting left next (types ++ [type]) (hplace.of_leads hnext.1)
        (by omega) (by omega) (by omega) (by omega)
      simp only [Option.map_some, hothers]
      cases ArgType.readAlternatives bound next <;> simp [atOffset, Except.map]

/-- Twice the number of characters bounds the nested calls that read types. -/
theorem typesAgree_and_alternativesAgree (text : List Char) (rounds bound : Nat) :
    TypesAgree text rounds bound ∧ AlternativesAgree text rounds bound := by
  induction bound with
  | zero => exact ⟨fun _ _ _ _ _ h ↦ absurd h (by omega), fun _ _ _ _ _ _ _ _ h ↦ absurd h (by omega)⟩
  | succ bound ih => exact ⟨typesAgree_succ ih.2, alternativesAgree_succ ih.1 ih.2⟩

/-- Every type expression is read to its end by a cursor that never leaves it and never stands inside a
character, with loops and types inside one another that are bounded by its length. -/
theorem typeOfText_eq {rounds nesting : Nat} {expression : String}
    (hrounds : expression.toList.length < rounds) (hnesting : expression.toList.length < nesting) :
    typeOfText rounds nesting expression = some (ArgType.ofText expression) := by
  have hstart := within_start expression.toList
  have hread := (typesAgree_and_alternativesAgree expression.toList rounds
    (2 * expression.toList.length + 1)).1 nesting _ hstart hrounds hnesting (Nat.le_refl _)
  rw [typeOfText, ArgType.ofText]
  dsimp only
  change (readType _ _ _ (Place.start expression.toList).offset).bind _ = _
  rw [hread]
  cases hfound : ArgType.readType (2 * expression.toList.length + 1) (.start expression.toList) with
  | error fault => rfl
  | ok found =>
    obtain ⟨type, after⟩ := found
    have hahead := (ArgType.advances_of_readType hfound).1
    have hlast := hstart.of_leads (hahead.trans (leads_skip after isBlank))
    have hskip := skipWhile_of_within isBlank (hstart.of_leads hahead)
      (Nat.lt_of_le_of_lt hahead.suffix.length_le hrounds)
    simp only [atOffset, Except.map, Option.bind_eq_bind, Option.bind_some, hskip]
    by_cases hend : (after.skip isBlank).isAtEnd = true
    · rw [if_pos ((isAtEnd_iff_eq hlast).mp hend), if_pos hend]
    · rw [if_neg (mt (isAtEnd_iff_eq hlast).mpr hend), if_neg hend]

end Formulary.Cursor
