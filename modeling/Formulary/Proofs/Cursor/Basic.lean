import Formulary.Proofs.Text.Movement
/-!
Cursors. A cursor is a byte offset into a text and knows nothing else of it. To look at the text at a
cursor is to cut the text at the offset, which cannot be done beyond the end or inside a character
(`split?_eq_some_iff`). All moves of a cursor are partial functions that give nothing if the text is cut
at such an offset, or if the cursor would come to stand there; loops give nothing if they go on for
longer than a number of rounds. Where a cursor stands at a place of the text, each move of the cursor is
the move of the place (`rest?_of_within`, `skipWhile_of_within`, `eat_of_within`).
-/

set_option autoImplicit false
set_option relaxedAutoImplicit false

namespace Formulary.Text

/-! ### Where a text can be cut -/

/-- The text can be cut at an offset: between two characters, or at one of its ends. -/
def IsBoundary (text : List Char) (offset : Nat) : Prop :=
  ∃ before rest, text = before ++ rest ∧ offset = byteLength before

theorem IsBoundary.le {text : List Char} {offset : Nat} (h : IsBoundary text offset) :
    offset ≤ byteLength text := by
  obtain ⟨before, rest, rfl, rfl⟩ := h
  rw [byteLength_append]
  exact Nat.le_add_right _ _

theorem isBoundary_zero (text : List Char) : IsBoundary text 0 :=
  ⟨[], text, rfl, rfl⟩

theorem Place.Within.isBoundary {text : List Char} {place : Place} (h : Within text place) :
    IsBoundary text place.offset := by
  obtain ⟨before, htext, hoffset⟩ := h
  exact ⟨before, place.rest, htext, hoffset⟩

theorem IsBoundary.exists_within {text : List Char} {offset : Nat} (h : IsBoundary text offset) :
    ∃ place, Place.Within text place ∧ place.offset = offset := by
  obtain ⟨before, rest, htext, hoffset⟩ := h
  exact ⟨⟨offset, rest⟩, ⟨before, htext, hoffset⟩, rfl⟩

theorem Place.Within.length_le {text : List Char} {place : Place} (h : Within text place) :
    place.rest.length ≤ text.length := by
  obtain ⟨before, rfl, -⟩ := h
  rw [List.length_append]
  exact Nat.le_add_left _ _

end Formulary.Text

namespace Formulary.Cursor

open Text Place

/-! ### Cutting a text -/

/-- The two parts of a text at an offset. -/
def split? : List Char → Nat → Option (List Char × List Char)
  | text, 0 => some ([], text)
  | [], _ + 1 => none
  | character :: text, offset + 1 =>
    if character.utf8Size ≤ offset + 1 then
      (split? text (offset + 1 - character.utf8Size)).map fun (before, rest) ↦
        (character :: before, rest)
    else
      none

/-- A text can be cut exactly where a character ends or the text begins. -/
theorem split?_eq_some_iff {text before rest : List Char} {offset : Nat} :
    split? text offset = some (before, rest) ↔
      text = before ++ rest ∧ offset = byteLength before := by
  fun_induction split? text offset generalizing before rest with
  | case1 text =>
    cases before with
    | nil => simp
    | cons character before =>
      have hpositive := character.utf8Size_pos
      simp only [Option.some.injEq, Prod.mk.injEq, reduceCtorEq, false_and, byteLength_cons,
        false_iff, not_and]
      omega
  | case2 offset =>
    simp only [reduceCtorEq, false_iff, not_and]
    intro htext hoffset
    obtain ⟨rfl, rfl⟩ := List.nil_eq_append_iff.mp htext
    exact nomatch hoffset
  | case3 character text offset hfits ih =>
    cases before with
    | nil => simp
    | cons first before =>
      have hrest : split? text (offset + 1 - character.utf8Size) = some (before, rest) ↔
          text = before ++ rest ∧ offset + 1 - character.utf8Size = byteLength before := ih
      simp only [Option.map_eq_some_iff, Prod.mk.injEq, List.cons.injEq, List.cons_append,
        byteLength_cons]
      constructor
      · rintro ⟨⟨found, left⟩, hfound, ⟨rfl, rfl⟩, rfl⟩
        obtain ⟨rfl, hoffset⟩ := ih.mp hfound
        refine ⟨⟨rfl, rfl⟩, ?_⟩
        dsimp only
        omega
      · rintro ⟨⟨rfl, rfl⟩, hoffset⟩
        exact ⟨(before, rest), hrest.mpr ⟨rfl, by omega⟩, ⟨rfl, rfl⟩, rfl⟩
  | case4 character text offset hfits =>
    simp only [reduceCtorEq, false_iff, not_and]
    intro htext hoffset
    cases before with
    | nil => exact nomatch hoffset
    | cons first before =>
      obtain ⟨rfl, -⟩ := List.cons.inj htext
      rw [byteLength_cons] at hoffset
      omega

/-- What follows an offset. -/
def rest? (text : List Char) (offset : Nat) : Option (List Char) :=
  (split? text offset).map Prod.snd

/-- The part of a text between two offsets. -/
def slice? (text : List Char) (start stop : Nat) : Option (List Char) :=
  (rest? text start).bind fun rest ↦
    if start ≤ stop then (split? rest (stop - start)).map Prod.fst else none

/-- A cursor that stands at a place of the text sees what remains there. -/
theorem rest?_eq_some_iff {text rest : List Char} {offset : Nat} :
    rest? text offset = some rest ↔ Within text ⟨offset, rest⟩ := by
  simp [rest?, Within, split?_eq_some_iff]

theorem rest?_of_within {text : List Char} {place : Place} (h : Within text place) :
    rest? text place.offset = some place.rest :=
  rest?_eq_some_iff.mpr h

/-- There is one place at each offset where the text can be cut. -/
theorem eq_of_within {text : List Char} {place other : Place} (h : Within text place)
    (hother : Within text other) (hoffset : place.offset = other.offset) : place = other := by
  have hrest := rest?_of_within h
  rw [hoffset, rest?_of_within hother] at hrest
  cases place
  cases other
  simp_all

/-- Between two places of the text stands what is passed on the way from one to the other. -/
theorem slice?_of_leads {text passed : List Char} {place after : Place} (h : Within text place)
    (hrest : place.rest = passed ++ after.rest)
    (hoffset : after.offset = place.offset + byteLength passed) :
    slice? text place.offset after.offset = some passed := by
  have hsplit : split? place.rest (after.offset - place.offset) = some (passed, after.rest) :=
    split?_eq_some_iff.mpr ⟨hrest, by omega⟩
  rw [slice?, rest?_of_within h, Option.bind_some, if_pos (by omega), hsplit]
  rfl

theorem byteLength_of_within {text : List Char} {place : Place} (h : Within text place) :
    byteLength text = place.offset + byteLength place.rest := by
  obtain ⟨before, htext, hoffset⟩ := h
  rw [htext, byteLength_append, hoffset]

theorem isAtEnd_iff_le {text : List Char} {place : Place} (h : Within text place) :
    place.isAtEnd = true ↔ byteLength text ≤ place.offset := by
  rw [Place.isAtEnd, List.isEmpty_iff, ← byteLength_eq_zero_iff, byteLength_of_within h]
  omega

theorem isAtEnd_iff_eq {text : List Char} {place : Place} (h : Within text place) :
    place.isAtEnd = true ↔ place.offset = byteLength text := by
  rw [Place.isAtEnd, List.isEmpty_iff, ← byteLength_eq_zero_iff, byteLength_of_within h]
  omega

/-! ### Moves -/

section Moves

variable (text : List Char)

/-- The next character, if there is one. -/
def peek (offset : Nat) : Option (Option Char) :=
  (rest? text offset).map List.head?

/-- The cursor set to an offset. -/
def goTo (offset : Nat) : Option Nat :=
  (rest? text offset).map fun _ ↦ offset

/-- The cursor moved past one character, unless it is at the end. -/
def advance (offset : Nat) : Option Nat := do
  match ← peek text offset with
  | none => some offset
  | some character => goTo text (offset + character.utf8Size)

/-- The cursor moved past a character of a class, if one comes next. -/
def skipOne (inClass : Char → Bool) (offset : Nat) : Option Nat := do
  match ← peek text offset with
  | none => some offset
  | some character => if inClass character then advance text offset else some offset

/-- The cursor moved past all characters of a class that come next. -/
def skipWhile (inClass : Char → Bool) : (rounds offset : Nat) → Option Nat
  | 0, _ => none
  | rounds + 1, offset => do
    match ← peek text offset with
    | none => some offset
    | some character =>
      if inClass character then
        let after ← advance text offset
        skipWhile inClass rounds after
      else
        some offset

/-- The cursor moved past a symbol, if the text goes on with it. -/
def eat (symbol : List Char) (offset : Nat) : Option (Option Nat) := do
  let rest ← rest? text offset
  if symbol.isPrefixOf rest then
    let after ← goTo text (offset + byteLength symbol)
    some (some after)
  else
    some none

end Moves

variable {text : List Char} {place : Place}

theorem isBoundary_of_peek {offset : Nat} {next : Option Char} (h : peek text offset = some next) :
    IsBoundary text offset := by
  obtain ⟨rest, hrest, -⟩ := Option.map_eq_some_iff.mp h
  exact (rest?_eq_some_iff.mp hrest).isBoundary

theorem isBoundary_of_eat {symbol : List Char} {offset : Nat} {eaten : Option Nat}
    (h : eat text symbol offset = some eaten) : IsBoundary text offset := by
  obtain ⟨rest, hrest, -⟩ := Option.bind_eq_some_iff.mp h
  exact (rest?_eq_some_iff.mp hrest).isBoundary

theorem peek_of_within (h : Within text place) : peek text place.offset = some place.rest.head? := by
  rw [peek, rest?_of_within h]
  rfl

theorem goTo_of_within (h : Within text place) : goTo text place.offset = some place.offset := by
  rw [goTo, rest?_of_within h]
  rfl

theorem goTo_of_isBoundary {offset : Nat} (h : IsBoundary text offset) :
    goTo text offset = some offset := by
  obtain ⟨before, rest, htext, hoffset⟩ := h
  have hplace : Within text ⟨offset, rest⟩ := ⟨before, htext, hoffset⟩
  exact goTo_of_within hplace

theorem within_cons {offset : Nat} {character : Char} {rest : List Char}
    (h : Within text ⟨offset, character :: rest⟩) :
    Within text ⟨offset + character.utf8Size, rest⟩ :=
  h.of_leads ⟨[character], rfl, by simp⟩

theorem advance_of_within {offset : Nat} {character : Char} {rest : List Char}
    (h : Within text ⟨offset, character :: rest⟩) :
    advance text offset = some (offset + character.utf8Size) := by
  have hpeek : peek text offset = some (some character) := peek_of_within h
  rw [advance, hpeek]
  exact goTo_of_within (within_cons h)

/-- What a skip comes to, character by character. -/
theorem skip_cons (inClass : Char → Bool) (offset : Nat) (character : Char) (rest : List Char) :
    Place.skip ⟨offset, character :: rest⟩ inClass =
      if inClass character then Place.skip ⟨offset + character.utf8Size, rest⟩ inClass
      else ⟨offset, character :: rest⟩ := by
  by_cases hclass : inClass character = true <;>
    simp [skip_eq, run, hclass, Nat.add_assoc]

theorem skipWhile_of_within (inClass : Char → Bool) {rounds : Nat} (h : Within text place)
    (hrounds : place.rest.length < rounds) :
    skipWhile text inClass rounds place.offset = some (place.skip inClass).offset := by
  induction rounds generalizing place with
  | zero => exact absurd hrounds (Nat.not_lt_zero _)
  | succ rounds ih =>
    obtain ⟨offset, rest⟩ := place
    rw [skipWhile, peek_of_within h]
    cases rest with
    | nil => rfl
    | cons character rest =>
      rw [skip_cons, List.head?_cons]
      by_cases hclass : inClass character = true
      · simp only [hclass, if_true, advance_of_within h, Option.bind_eq_bind, Option.bind_some]
        exact ih (within_cons h) (Nat.lt_of_succ_lt_succ hrounds)
      · simp [hclass]

/-- There is a run of a class exactly if the cursor moves. -/
theorem offset_skip_eq_iff (place : Place) (inClass : Char → Bool) :
    (place.skip inClass).offset = place.offset ↔ (place.run inClass).isEmpty = true := by
  rw [skip_eq, List.isEmpty_iff, ← byteLength_eq_zero_iff]
  dsimp only
  omega

/-- A run of a class is what stands between the cursors before and behind it. -/
theorem slice?_skip (h : Within text place) (inClass : Char → Bool) :
    slice? text place.offset (place.skip inClass).offset = some (place.run inClass) := by
  refine slice?_of_leads h ?_ ?_
  · rw [skip_eq]
    exact List.takeWhile_append_dropWhile.symm
  · rw [skip_eq]

theorem eat_of_within (h : Within text place) (symbol : List Char) :
    eat text symbol place.offset = some ((place.eat? symbol).map Place.offset) := by
  rw [eat, rest?_of_within h, Option.bind_eq_bind, Option.bind_some]
  cases heaten : place.eat? symbol with
  | none =>
    have hprefix := eat?_eq_none_iff.mp heaten
    rw [if_neg (by simpa using hprefix)]
    rfl
  | some after =>
    obtain ⟨hrest, hoffset⟩ := eat?_eq_some heaten
    have hprefix : symbol.isPrefixOf place.rest = true := by simp [hrest]
    rw [if_pos hprefix, ← hoffset, goTo_of_within (h.of_leads (leads_of_eat? heaten))]
    rfl

end Formulary.Cursor

/-! ### One character -/

namespace Formulary.Text.Place

variable {text : List Char} {place after : Place} {inClass : Char → Bool}

/-- The place past the next character, if that belongs to a class. -/
def next? (place : Place) (inClass : Char → Bool) : Option Place :=
  match place.rest with
  | [] => none
  | character :: rest =>
    if inClass character then some ⟨place.offset + character.utf8Size, rest⟩ else none

theorem eat?_singleton (place : Place) (character : Char) :
    place.eat? [character] = place.next? (· == character) := by
  obtain ⟨offset, rest⟩ := place
  cases rest with
  | nil => rfl
  | cons first rest =>
    by_cases hfirst : first = character
    · subst hfirst
      simp [eat?, next?, past]
    · have hother : character ≠ first := fun hsame ↦ hfirst hsame.symm
      simp [eat?, next?, hfirst, hother]

theorem eat?_either (place : Place) (first second : Char) :
    (place.eat? [first] <|> place.eat? [second]) =
      place.next? fun character ↦ character == first || character == second := by
  rw [eat?_singleton, eat?_singleton]
  obtain ⟨offset, rest⟩ := place
  cases rest with
  | nil => rfl
  | cons character rest => by_cases hfirst : character = first <;> simp [next?, hfirst]

theorem advances_of_next? (h : place.next? inClass = some after) : Advances place after := by
  obtain ⟨offset, rest⟩ := place
  cases rest with
  | nil => exact nomatch h
  | cons character rest =>
    simp only [next?, Option.ite_none_right_eq_some, Option.some.injEq] at h
    obtain ⟨-, rfl⟩ := h
    exact ⟨⟨[character], rfl, by simp⟩, Nat.lt_add_of_pos_right character.utf8Size_pos⟩

end Formulary.Text.Place

namespace Formulary.Cursor

open Text Place

theorem skipOne_of_within {text : List Char} {place : Place} (inClass : Char → Bool)
    (h : Within text place) :
    skipOne text inClass place.offset = some ((place.next? inClass).getD place).offset := by
  obtain ⟨offset, rest⟩ := place
  rw [skipOne, peek_of_within h]
  cases rest with
  | nil => rfl
  | cons character rest =>
    by_cases hclass : inClass character = true <;> simp [hclass, advance_of_within h, next?]

end Formulary.Cursor
