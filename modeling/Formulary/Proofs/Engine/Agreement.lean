import Formulary.Proofs.Cursor.Parse
import Formulary.Proofs.Engine.Arrangement
import Formulary.Proofs.Engine.Lifting
/-!
The engine reads formulas as they are read without a state. Given the skeletons of slots it fills slots
as the machine that has nothing but a cursor does, at every depth that leaves room for them
(`lifts_resolve`); so it comes to the outline or the report that the reading of places comes to
(`parse_eq`).
-/

set_option autoImplicit false
set_option relaxedAutoImplicit false

namespace Formulary

open Text

/-- The outline with a literal at the root, unless it holds one already. -/
def Outline.holding (content : Option Literal) : Outline → Outline
  | .node slot own parts => .node slot (own <|> content) parts

@[simp] theorem Outline.holding_none : Outline.holding none = id := by
  funext outline
  obtain ⟨slot, own, parts⟩ := outline
  cases own <;> rfl

namespace Slot

/-- A whole formula and an operator are read as the parts that are given for them. -/
def isComposed : Slot → Bool
  | .root _ | .operator _ => true
  | .call _ | .choice _ | .typed _ | .keywords _ | .keyword _ => false

/-- An outline that may be given for a slot instead of its skeleton. -/
def Starts (slot : Slot) (outline : Outline) : Prop :=
  ∃ parts, outline = .node slot none parts ∧ (slot.isComposed = true → parts = slot.skeleton.parts)

theorem starts_skeleton (slot : Slot) : slot.Starts slot.skeleton := by
  cases slot <;> exact ⟨_, rfl, fun _ ↦ rfl⟩

theorem starts_vacant_keyword (own : Keyword) : (keyword own).Starts (.vacant (.keyword own)) :=
  ⟨[], rfl, fun h ↦ absurd h Bool.false_ne_true⟩

theorem skeleton_ofArgument (type : ArgType) : (ofArgument type).skeleton = .vacant (ofArgument type) := by
  cases type <;> rfl

theorem parts_skeleton_operator (chosen : Operator) :
    (operator chosen).skeleton.parts = chosen.slots.map skeleton := by
  have hparameters : chosen.parameters.map (skeleton ∘ ofArgument) =
      chosen.parameters.map fun type ↦ .vacant (ofArgument type) :=
    List.map_congr_left fun type _ ↦ skeleton_ofArgument type
  rw [Operator.slots, List.map_append, List.map_map, hparameters]
  by_cases hnone : chosen.keywords.isEmpty = true
  · simp [skeleton, Outline.parts, hnone]
  · simp [skeleton, Outline.parts, hnone]

end Slot

end Formulary

namespace Formulary.Engine

open Text

variable {text : List Char} {rounds depth : Nat}

/-! ### Keyword arguments -/

section Keywords

variable {inner : Outline → Step Outline} {inner' : Slot → Cursor.Step Outline} {group : List Keyword}

theorem lifts_supply
    (h : ∀ slot outline, slot.Starts outline → Lifts id (inner outline) depth (inner' slot)) :
    Lifts id (supply text inner group) depth (Cursor.Step.firstOf text (group.map fun keyword ↦ do
      let outline ← inner' (.keyword keyword)
      pure (keyword, outline))) :=
  lifts_firstOf fun keyword _ ↦ (h _ _ (Slot.starts_vacant_keyword keyword)).bind fun outline ↦
    lifts_pure id (keyword, outline)

/-- The engine sees one round later that a name is repeated. -/
theorem lifts_readSupplied
    (h : ∀ slot outline, slot.Starts outline → Lifts id (inner outline) depth (inner' slot))
    (rounds : Nat) {supplied : List (String × Outline)} (hnames : (supplied.map Prod.fst).Nodup) :
    Lifts id (readSupplied text inner group (rounds + 1) supplied) depth
      (Cursor.readSupplied text inner' group rounds supplied) := by
  induction rounds generalizing supplied with
  | zero => exact lifts_unending _
  | succ rounds ih =>
    rw [readSupplied, repeatedName?_nil_eq_none_iff.mpr hnames]
    refine (lifts_supply h).optionally.bind fun found ↦ ?_
    cases found with
    | none => exact lifts_pure id supplied
    | some read =>
      obtain ⟨keyword, outline⟩ := read
      dsimp only [id_eq]
      by_cases hsame : keyword.name ∈ supplied.map Prod.fst
      · have hany : supplied.any (fun earlier ↦ earlier.1 == keyword.name) = true := by
          simpa using hsame
        rw [if_pos hany, readSupplied, repeatedName?_append_singleton hnames, if_pos hsame]
        exact lifts_fail _
      · have hany : ¬ supplied.any (fun earlier ↦ earlier.1 == keyword.name) = true := by
          simpa using hsame
        rw [if_neg hany]
        exact ih (nodup_append_singleton_iff.mpr ⟨hsame, hnames⟩)

/-- Names that are repeated are not collected. -/
theorem nodup_of_readSupplied {rounds : Nat} {supplied result : List (String × Outline)}
    {state after : State}
    (h : readSupplied text inner group rounds supplied state = some (some result, after)) :
    (result.map Prod.fst).Nodup := by
  induction rounds generalizing supplied state with
  | zero => cases h
  | succ rounds ih =>
    rw [readSupplied] at h
    cases hrepeated : repeatedName? [] supplied with
    | some name =>
      rw [hrepeated] at h
      cases h
    | none =>
      rw [hrepeated] at h
      obtain ⟨⟨found, middle⟩, hround, hrest⟩ := Option.bind_eq_some_iff.mp h
      obtain _ | _ | ⟨keyword, outline⟩ := found
      · cases hrest
      · cases hrest
        exact repeatedName?_nil_eq_none_iff.mp hrepeated
      · exact ih hrest

/-- The engine arranges what it has collected in the order of declaration. -/
theorem lifts_keywordArguments
    (h : ∀ slot outline, slot.Starts outline → Lifts id (inner outline) depth (inner' slot)) :
    Lifts (arrangeKeywords group) (keywordArguments text inner group rounds) depth
      (Cursor.readSupplied text inner' group rounds []) := by
  have hread : Lifts id (readSupplied text inner group (rounds + 1) []) depth
      (Cursor.readSupplied text inner' group rounds []) :=
    lifts_readSupplied h rounds List.nodup_nil
  refine hread.map fun supplied ⟨state, after, hsupplied⟩ ↦ ?_
  rw [arrangeSupplied_eq group (nodup_of_readSupplied hsupplied)]

end Keywords

/-! ### Slots -/

section Slots

variable {catalog : Catalog}

theorem lifts_node (slot : Slot) (own content : Option Literal) (parts : List Outline) :
    Lifts (Outline.holding content) (pure (.node slot (own <|> content) parts)) depth
      (pure (.node slot own parts)) :=
  lifts_pure (Outline.holding content) (.node slot own parts)

/-- An outline is filled as its slot is, except for the literal that it may hold. -/
theorem lifts_dispatch {inner : Outline → Step Outline} {inner' : Slot → Cursor.Step Outline}
    (h : ∀ slot outline, slot.Starts outline → Lifts id (inner outline) depth (inner' slot))
    (slot : Slot) (content : Option Literal) {parts : List Outline}
    (hparts : slot.isComposed = true → parts = slot.skeleton.parts) :
    Lifts (Outline.holding content) (dispatch text rounds catalog inner (.node slot content parts)) depth
      (Cursor.fillParts text rounds catalog inner' slot) := by
  have hskeleton (slot : Slot) : Lifts id (inner slot.skeleton) depth (inner' slot) :=
    h slot _ slot.starts_skeleton
  cases slot with
  | root base =>
    obtain rfl : parts = [(Slot.call base).skeleton] := hparts rfl
    have hpart : Lifts (fun part ↦ [part]) (Step.inOrder ([(Slot.call base).skeleton].map inner)) depth
        (inner' (.call base)) :=
      (hskeleton (.call base)).map fun _ _ ↦ rfl
    exact hpart.bind fun part ↦ lifts_atEnd.bind fun _ ↦ lifts_node _ none content [part]
  | call base =>
    refine (lifts_symbol "(").bind fun _ ↦ ?_
    dsimp only
    split
    · exact lifts_fail _
    · have hnamed (operator : Operator) : Lifts id
          (do Step.word text rounds operator.name; pure operator) depth
          (do Cursor.Step.word text rounds operator.name; pure operator) :=
        (lifts_word operator.name).bind fun _ ↦ lifts_pure id operator
      exact (lifts_firstOf fun operator _ ↦ hnamed operator).bind fun operator ↦
        (hskeleton (.operator operator)).bind fun part ↦ (lifts_symbol ")").bind fun _ ↦
          lifts_node _ none content [part]
  | choice kind =>
    have hchoices : Lifts id
        (Step.firstOf text
          ([Slot.typed (.scalar kind), .call (.scalar kind)].map fun slot ↦ inner slot.skeleton)) depth
        (Cursor.Step.firstOf text ([Slot.typed (.scalar kind), .call (.scalar kind)].map inner')) :=
      lifts_firstOf fun slot _ ↦ hskeleton slot
    exact hchoices.bind fun part ↦ lifts_node _ none content [part]
  | typed type =>
    cases type with
    | scalar kind =>
      exact (lifts_literal kind).bind fun value ↦ lifts_node _ (some value) content []
    | series => exact lifts_fail _
    | union alternatives =>
      simp only [dispatch, Cursor.fillParts]
      split
      · exact lifts_fail _
      · exact (lifts_firstOf fun type _ ↦ hskeleton (.ofArgument type)).bind fun part ↦
          lifts_node _ none content [part]
    | list element =>
      exact (lifts_symbol "(").bind fun _ ↦
        (lifts_repeatedly (hskeleton (.ofArgument element)) rounds).bind fun parts ↦
          (lifts_symbol ")").bind fun _ ↦ lifts_node _ none content parts
  | keywords group =>
    exact (lifts_keywordArguments h).bind fun supplied ↦
      lifts_node _ none content (arrangeKeywords group supplied)
  | operator chosen =>
    obtain rfl : parts = chosen.slots.map Slot.skeleton :=
      (hparts rfl).trans (Slot.parts_skeleton_operator chosen)
    have hslots : Lifts id (Step.inOrder ((chosen.slots.map Slot.skeleton).map inner)) depth
        (Cursor.Step.inOrder (chosen.slots.map inner')) := by
      rw [List.map_map]
      exact lifts_inOrder fun slot _ ↦ hskeleton slot
    exact hslots.bind fun parts ↦ lifts_node _ none content parts
  | keyword own =>
    exact (lifts_word own.marker).bind fun _ ↦ (hskeleton (.ofArgument own.type)).bind fun value ↦
      lifts_node _ none content [value]

/-- What is shown of an outline is the slot for which it is given, and what it is filled with. -/
theorem lifts_resolve_succ {limit : Option Nat} {nesting : Nat}
    (hdeep : ∀ most, limit = some most → depth < most) {outline : Outline}
    {form : Outline → Outline} {step : Cursor.Step Outline}
    (h : Lifts form (dispatch text rounds catalog (resolve text rounds catalog limit nesting) outline)
      (depth + 1) step) :
    Lifts form (resolve text rounds catalog limit (nesting + 1) outline) depth (do
      Cursor.Step.note (.entered outline.slot)
      let filled ← step
      Cursor.Step.note (.filled (form filled))
      pure filled) := by
  have hentered : Lifts id (Step.note (.entered outline.slot)) depth
      (Cursor.Step.note (.entered outline.slot)) :=
    lifts_note fun _ ↦ rfl
  have hfilled (filled : Outline) : Lifts id (Step.note (.filled (form filled))) depth
      (Cursor.Step.note (.filled (form filled))) :=
    lifts_note fun _ ↦ rfl
  exact hentered.bind fun _ ↦ Lifts.limited hdeep (h.deeper.bind fun filled ↦
    (hfilled filled).bind fun _ ↦ lifts_pure form filled)

/-- How many slots may still be read inside one another at a depth. -/
def room (limit : Option Nat) (nesting depth : Nat) : Nat :=
  (limit.map fun most ↦ most - depth).getD nesting

theorem room_succ {limit : Option Nat} {nesting : Nat}
    (hdeep : ∀ most, limit = some most → depth < most) :
    room limit (nesting + 1) depth = room limit nesting (depth + 1) + 1 := by
  cases limit with
  | none => rfl
  | some most =>
    have hless : depth < most := hdeep most rfl
    simp only [room, Option.map_some, Option.getD_some]
    omega

/-- The engine fills slots as the machine with nothing but a cursor does, in the room that is left at
its depth. -/
theorem lifts_resolve {limit : Option Nat} {nesting : Nat}
    (hnesting : ∀ most, limit = some most → most - depth < nesting) {slot : Slot} {outline : Outline}
    (houtline : slot.Starts outline) :
    Lifts id (resolve text rounds catalog limit nesting outline) depth
      (Cursor.fill text rounds catalog limit (room limit nesting depth) slot) := by
  induction nesting generalizing depth slot outline with
  | zero =>
    cases limit with
    | none => exact lifts_unending _
    | some most => exact absurd (hnesting most rfl) (Nat.not_lt_zero _)
  | succ nesting ih =>
    obtain ⟨parts, rfl, hparts⟩ := houtline
    by_cases hdeep : ∀ most, limit = some most → depth < most
    · have hinner (part : Slot) (given : Outline) (hgiven : part.Starts given) :
          Lifts id (resolve text rounds catalog limit nesting given) (depth + 1)
            (Cursor.fill text rounds catalog limit (room limit nesting (depth + 1)) part) := by
        refine ih (fun most hmost ↦ ?_) hgiven
        have hless := hnesting most hmost
        have hroom := hdeep most hmost
        omega
      have hfilled : Lifts (Outline.holding none)
          (dispatch text rounds catalog (resolve text rounds catalog limit nesting)
            (.node slot none parts)) (depth + 1)
          (Cursor.fillParts text rounds catalog
            (Cursor.fill text rounds catalog limit (room limit nesting (depth + 1))) slot) :=
        lifts_dispatch hinner slot none hparts
      rw [Outline.holding_none] at hfilled
      rw [room_succ hdeep]
      exact lifts_resolve_succ hdeep hfilled
    · obtain ⟨most, rfl, hmost⟩ : ∃ most, limit = some most ∧ most ≤ depth := by
        simpa using hdeep
      have hnone : room (some most) (nesting + 1) depth = 0 := Nat.sub_eq_zero_of_le hmost
      have hentered : Lifts id (Step.note (.entered slot)) depth (Cursor.Step.note (.entered slot)) :=
        lifts_note fun _ ↦ rfl
      rw [hnone]
      exact hentered.bind fun _ ↦ lifts_limited_of_le hmost

end Slots

/-! ### Formulas -/

/-- The engine comes to what the machine with nothing but a cursor comes to. -/
theorem parse_of_cursor {catalog : Catalog} {limit : Option Nat} {nesting : Nat} {source : String}
    {result : Except (List Diagnostic) Outline}
    (hnesting : ∀ most, limit = some most → most < nesting)
    (h : Cursor.parse catalog limit rounds nesting source = some result) :
    parse catalog limit rounds nesting source = some result := by
  obtain ⟨⟨events, outline, stop⟩, hread, hresult⟩ := Option.bind_eq_some_iff.mp h
  obtain ⟨start, hstart, hfill⟩ := Option.bind_eq_some_iff.mp hread
  have hroom : room limit nesting 0 = limit.getD nesting := by
    cases limit <;> rfl
  rw [← hroom] at hfill
  have hresolve := lifts_resolve hnesting (Slot.starts_skeleton (.root .series))
    ⟨start, 0, .none, []⟩ rfl events outline stop hfill
  simp only [parse, hstart, hresolve, Option.bind_eq_bind, Option.bind_some]
  cases outline <;> exact hresult

/-- The engine comes to what the formula is read as. -/
theorem parse_eq (operators : List Operator) (limit : Option Nat) {nesting : Nat} {source : String}
    (hrounds : source.toList.length < rounds)
    (hnesting : nestingBound (.ofList operators) source.toList + limit.getD 0 < nesting) :
    parse (.ofList operators) limit rounds nesting source =
      some (parseFormula (.ofList operators) limit source) := by
  refine parse_of_cursor (fun most hmost ↦ ?_)
    (Cursor.parse_eq operators limit hrounds fun _ ↦ by omega)
  rw [hmost, Option.getD_some] at hnesting
  omega

end Formulary.Engine
