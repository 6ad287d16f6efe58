import Formulary.Proofs.Formula.Progress
import Formulary.Proofs.Reading.Finds
/-!
What a slot is read as. `ReadsParts` gives for every kind of slot the rule by which it is read, in
terms of what is read for its parts, of what is passed over for a later alternative, and of what is
refused where a loop ends. `finds_fillParts_iff` says that reading a slot finds exactly what the
rules allow, so that nothing else needs to know how the steps of a slot are composed.
-/

set_option autoImplicit false
set_option relaxedAutoImplicit false

namespace Formulary

open Text Place Reading

section Rules

variable (reads : Slot → Place → Outline → Place → Prop) (passes refuses : Slot → Place → Prop)

/-- Keyword arguments that are supplied one after the other, each of them the first of the group
that can be read. -/
inductive ReadsSupplied (group : List Keyword) :
    Place → List (String × Outline) → Place → Prop
  | done (place : Place) : ReadsSupplied group place [] place
  | more {earlier later : List Keyword} {keyword : Keyword} {place middle after : Place}
      {outline : Outline} {supplied : List (String × Outline)}
      (hgroup : group = earlier ++ keyword :: later)
      (hearlier : ∀ other ∈ earlier, passes (.keyword other) place)
      (hread : reads (.keyword keyword) place outline middle)
      (hrest : ReadsSupplied group middle supplied after) :
      ReadsSupplied group place ((keyword.name, outline) :: supplied) after

/-- The rules by which slots are read. Where there are alternatives, those before the one that is
read are passed over, and a list or a group of keyword arguments ends where every further one is
refused. -/
inductive ReadsParts (catalog : Catalog) : Slot → Place → Outline → Place → Prop
  | root {base : Base} {place after : Place} {part : Outline}
      (hpart : reads (.call base) place part after) (hend : after.rest = []) :
      ReadsParts catalog (.root base) place (.node (.root base) none [part]) after
  | call {base : Base} {operator : Operator} {earlier later : List Operator}
      {place opened named closing closed : Place} {part : Outline}
      (hopened : place.eat? ['('] = some opened)
      (hoperators : catalog.operators base = earlier ++ operator :: later)
      (hearlier : ∀ other ∈ earlier, opened.skipSeparators.word? other.name.toList = none)
      (hnamed : opened.skipSeparators.word? operator.name.toList = some named)
      (hpart : reads (.operator operator) named.skipSeparators part closing)
      (hclosed : closing.eat? [')'] = some closed) :
      ReadsParts catalog (.call base) place (.node (.call base) none [part]) closed.skipSeparators
  | chosen {slot choice : Slot} {earlier later : List Slot} {place after : Place} {part : Outline}
      (hchoices : slot.choices = earlier ++ choice :: later)
      (hearlier : ∀ other ∈ earlier, passes other place)
      (hpart : reads choice place part after) :
      ReadsParts catalog slot place (.node slot none [part]) after
  | scalar {kind : Scalar} {place ended : Place} {value : Literal}
      (hvalue : readLiteral kind place = .ok (value, ended)) :
      ReadsParts catalog (.typed (.scalar kind)) place
        (.node (.typed (.scalar kind)) (some value) []) ended.skipSeparators
  | list {element : ArgType} {place opened closing closed : Place} {parts : List Outline}
      (hopened : place.eat? ['('] = some opened)
      (hparts : ReadsInOrder reads (parts.map fun _ ↦ .ofArgument element) opened.skipSeparators
        parts closing)
      (hstops : refuses (.ofArgument element) closing)
      (hclosed : closing.eat? [')'] = some closed) :
      ReadsParts catalog (.typed (.list element)) place
        (.node (.typed (.list element)) none parts) closed.skipSeparators
  | keywords {group : List Keyword} {place after : Place} {supplied : List (String × Outline)}
      (hsupplied : ReadsSupplied reads passes group place supplied after)
      (hnames : (supplied.map Prod.fst).Nodup)
      (hstops : ∀ keyword ∈ group, refuses (.keyword keyword) after) :
      ReadsParts catalog (.keywords group) place
        (.node (.keywords group) none (arrangeKeywords group supplied)) after
  | operator {chosen : Operator} {place after : Place} {parts : List Outline}
      (hparts : ReadsInOrder reads chosen.slots place parts after) :
      ReadsParts catalog (.operator chosen) place (.node (.operator chosen) none parts) after
  | keyword {own : Keyword} {place announced after : Place} {value : Outline}
      (hmarker : place.word? own.marker.toList = some announced)
      (hvalue : reads (.ofArgument own.type) announced.skipSeparators value after) :
      ReadsParts catalog (.keyword own) place (.node (.keyword own) none [value]) after

end Rules

/-- The operator that is read is the first one of its name. -/
theorem find?_of_word? {operators earlier later : List Operator} {operator : Operator}
    {place named : Place} (hoperators : operators = earlier ++ operator :: later)
    (hearlier : ∀ other ∈ earlier, place.word? other.name.toList = none)
    (hnamed : place.word? operator.name.toList = some named) :
    operators.find? (fun other ↦ other.name = operator.name) = some operator := by
  rw [List.find?_eq_some_iff_append]
  refine ⟨by simp, earlier, later, hoperators, fun other hother ↦ ?_⟩
  have hnone := hearlier other hother
  simp only [Bool.not_eq_true', decide_eq_false_iff_not]
  intro hname
  rw [hname, hnamed] at hnone
  exact nomatch hnone

theorem ReadsSupplied.exists_of_mem {reads : Slot → Place → Outline → Place → Prop}
    {passes : Slot → Place → Prop} {group : List Keyword} {place after : Place}
    {supplied : List (String × Outline)}
    (h : ReadsSupplied reads passes group place supplied after) {name : String} {outline : Outline}
    (hmem : (name, outline) ∈ supplied) :
    ∃ keyword ∈ group, keyword.name = name ∧
      ∃ place after, reads (.keyword keyword) place outline after := by
  induction h with
  | done => exact absurd hmem List.not_mem_nil
  | @more earlier later keyword place middle _ _ _ hgroup hearlier hread hrest ih =>
    rcases List.mem_cons.mp hmem with hfirst | hlater
    · obtain ⟨rfl, rfl⟩ := Prod.mk.inj hfirst
      exact ⟨keyword, by simp [hgroup], rfl, place, middle, hread⟩
    · exact ih hlater

/-! ### Other parts

What is read for a slot is the same with other steps for its parts, if these read what was read,
pass over what was passed over, and refuse what was refused. Where a group of keyword arguments or
a list ends there is a closing parenthesis, if the slot itself ends before one. -/

/-- The text goes on with a closing parenthesis. -/
def Text.Place.Closes (place : Place) : Prop :=
  ∃ rest, place.rest = ')' :: rest

theorem closes_of_eat? {place after : Place} (h : place.eat? [')'] = some after) : place.Closes :=
  ⟨after.rest, (eat?_eq_some h).1⟩

section Transfer

variable {reads reads' : Slot → Place → Outline → Place → Prop}
  {passes passes' refuses refuses' : Slot → Place → Prop}

theorem ReadsSupplied.mono {group : List Keyword} {place after : Place}
    {supplied : List (String × Outline)}
    (h : ReadsSupplied reads passes group place supplied after)
    (hreads : ∀ keyword place outline after, reads (.keyword keyword) place outline after →
      reads' (.keyword keyword) place outline after)
    (hpasses : ∀ part place, passes part place → passes' part place) :
    ReadsSupplied reads' passes' group place supplied after := by
  induction h with
  | done place => exact .done place
  | more hgroup hearlier hread hrest ih =>
    exact .more hgroup (fun other hother ↦ hpasses _ _ (hearlier other hother))
      (hreads _ _ _ _ hread) ih

theorem ReadsParts.mono {catalog : Catalog} {slot : Slot} {place after : Place}
    {outline : Outline} (h : ReadsParts reads passes refuses catalog slot place outline after)
    (hafter : slot.takesText = false → after.Closes)
    (hreads : ∀ part place outline after, (part.takesText = false → after.Closes) →
      reads part place outline after → reads' part place outline after)
    (hpasses : ∀ part place, passes part place → passes' part place)
    (hrefuses : ∀ part place, part.takesText = true → place.Closes → refuses part place →
      refuses' part place) :
    ReadsParts reads' passes' refuses' catalog slot place outline after := by
  have harguments (types : List ArgType) (place after : Place) (parts : List Outline)
      (hparts : ReadsInOrder reads (types.map .ofArgument) place parts after) :
      ReadsInOrder reads' (types.map .ofArgument) place parts after := by
    refine hparts.mono fun part hpart place outline after hread ↦ hreads _ _ _ _ ?_ hread
    obtain ⟨type, -, rfl⟩ := List.mem_map.mp hpart
    rw [Slot.takesText_ofArgument]
    exact nofun
  cases h with
  | root hpart hend => exact .root (hreads _ _ _ _ nofun hpart) hend
  | call hopened hoperators hearlier hnamed hpart hclosed =>
    exact .call hopened hoperators hearlier hnamed
      (hreads _ _ _ _ (fun _ ↦ closes_of_eat? hclosed) hpart) hclosed
  | @chosen _ choice earlier later _ _ part hchoices hearlier hpart =>
    have hchoice : choice ∈ slot.choices := by simp [hchoices]
    refine .chosen hchoices (fun other hother ↦ hpasses _ _ (hearlier other hother))
      (hreads _ _ _ _ (fun hopen ↦ ?_) hpart)
    rw [Slot.takesText_of_mem_choices hchoice] at hopen
    exact nomatch hopen
  | scalar hvalue => exact .scalar hvalue
  | @list element _ opened closing closed parts hopened hparts hstops hclosed =>
    have helements := Slot.map_const_ofArgument element parts
    rw [helements] at hparts
    refine .list hopened ?_ (hrefuses _ _ (Slot.takesText_ofArgument element)
      (closes_of_eat? hclosed) hstops) hclosed
    rw [helements]
    exact harguments _ _ _ _ hparts
  | keywords hsupplied hnames hstops =>
    refine .keywords (hsupplied.mono (fun keyword place outline after ↦ hreads _ _ _ _ nofun)
      hpasses) hnames fun keyword hkeyword ↦ ?_
    exact hrefuses _ _ rfl (hafter rfl) (hstops keyword hkeyword)
  | @operator chosen _ _ parts hparts =>
    refine .operator ?_
    rw [Operator.slots, readsInOrder_append_iff] at hparts ⊢
    obtain ⟨arguments, group, middle, rfl, harguments', hgroup⟩ := hparts
    refine ⟨arguments, group, middle, rfl, harguments _ _ _ _ harguments', ?_⟩
    by_cases hnone : chosen.keywords.isEmpty = true
    · rw [if_pos hnone] at hgroup ⊢
      cases hgroup
      exact .done _
    · rw [if_neg hnone] at hgroup ⊢
      cases hgroup with
      | more hread hrest =>
        cases hrest
        exact .more (hreads _ _ _ _ (fun _ ↦ hafter rfl) hread) (.done _)
  | keyword hmarker hvalue =>
    refine .keyword hmarker (hreads _ _ _ _ (fun hopen ↦ ?_) hvalue)
    rw [Slot.takesText_ofArgument] at hopen
    exact nomatch hopen

end Transfer

/-! ### Loops over keyword arguments -/

section Finds

variable {keeps overlooks : Event → Prop} {inner : Slot → Reading Outline} {place after : Place}
  (hoverlooks : ∀ event, event.isTooDeep = false → overlooks event)

theorem passes_bind_pure_iff {α β : Type} {first : Reading α} {wrap : α → β} :
    Passes overlooks (do let value ← first; pure (wrap value)) place ↔
      Passes overlooks first place := by
  cases hfirst : (first place).result with
  | none =>
    have hwhole := bind_eq_of_none hfirst fun value ↦ pure (wrap value)
    constructor <;> intro h
    · have hevents := h.events
      rw [Outcome.events, hwhole] at hevents
      exact ⟨hfirst, hevents⟩
    · refine ⟨by rw [hwhole], ?_⟩
      rw [Outcome.events, hwhole]
      exact h.events
  | some found =>
    have hwhole : ((do let value ← first; pure (wrap value)) place : Outcome β).result =
        some (wrap found.1, found.2) := by
      rw [result_bind, hfirst]
      rfl
    exact iff_of_false (not_passes_of_some hwhole) (not_passes_of_some hfirst)

include hoverlooks in
theorem passes_word_iff {text : String} {α : Type} {value : α} :
    Passes overlooks (do word text; pure value) place ↔ place.word? text.toList = none := by
  rw [passes_bind_pure_iff]
  cases hword : place.word? text.toList with
  | none =>
    have hfailed := word_eq_of_none hword
    refine iff_of_true ⟨by rw [hfailed], fun event hevent ↦ ?_⟩ rfl
    obtain rfl : event = .failed ⟨place.offset, .expectingKeyword text⟩ := by
      simpa [Outcome.events, hfailed] using hevent
    exact hoverlooks _ rfl
  | some named =>
    have hsome : (word text place).result = some ((), named.skipSeparators) := by
      rw [word_eq_of_some hword]
    exact iff_of_false (not_passes_of_some hsome) (Option.some_ne_none named)

variable (hmoves : ∀ part place outline after,
  (inner part place).result = some (outline, after) → part.Moves place after)

include hoverlooks hmoves in
/-- Keyword arguments are supplied under different names, up to where all of them are refused. -/
theorem finds_readSupplied_iff {group : List Keyword} {bound : Nat}
    (hbound : place.rest.length < bound) {supplied found : List (String × Outline)}
    (hsupplied : (supplied.map Prod.fst).Nodup) :
    Finds keeps overlooks (readSupplied inner group bound supplied) place found after ↔
      ∃ further, found = supplied ++ further ∧
        ReadsSupplied (fun part ↦ Finds keeps overlooks (inner part))
          (fun part ↦ Passes overlooks (inner part)) group place further after ∧
        (found.map Prod.fst).Nodup ∧
          ∀ keyword ∈ group, (inner (.keyword keyword) after).result = none := by
  have hbacktracked (offset : Nat) : overlooks (.backtracked offset) := hoverlooks _ rfl
  have hrefused (place : Place) : (firstOf (group.map fun keyword ↦ do
      let outline ← inner (.keyword keyword)
      pure (keyword, outline)) place).result = none ↔
        ∀ keyword ∈ group, (inner (.keyword keyword) place).result = none := by
    rw [result_firstOf, List.findSome?_eq_none_iff, List.forall_mem_map]
    refine forall₂_congr fun keyword _ ↦ ?_
    rw [result_bind]
    cases (inner (.keyword keyword) place).result <;> simp
  induction bound generalizing place supplied with
  | zero => exact absurd hbound (Nat.not_lt_zero _)
  | succ bound ih =>
    rw [readSupplied]
    simp only [finds_bind_iff, finds_optionally_iff, finds_firstOf_iff hbacktracked,
      passes_bind_pure_iff, finds_pure_iff, hrefused]
    constructor
    · rintro ⟨_, middle, ⟨_, rfl, earlier, keyword, later, hgroup, hearlier, outline, _, hread,
        rfl, rfl⟩ | ⟨rfl, hstops, rfl⟩, hrest⟩
      · simp only at hrest
        split at hrest
        · exact (finds_fail_iff.mp hrest).elim
        · rename_i hfresh
          have hnames : ((supplied ++ [(keyword.name, outline)]).map Prod.fst).Nodup := by
            simp only [List.any_eq_true, beq_iff_eq, not_exists, not_and] at hfresh
            simpa [List.nodup_append, hsupplied] using fun name other hother hname ↦
              hfresh (name, other) hother hname
          have hahead := (hmoves _ _ _ _ hread.result).advances rfl
          have hshorter := hahead.length_lt
          obtain ⟨further, rfl, hfurther, hfound, hstops⟩ := (ih (by omega) hnames).mp hrest
          refine ⟨(keyword.name, outline) :: further, by simp, ?_, hfound, hstops⟩
          exact .more hgroup hearlier hread hfurther
      · obtain ⟨rfl, rfl⟩ := finds_pure_iff.mp hrest
        exact ⟨[], by simp, .done place, hsupplied, hstops⟩
    · rintro ⟨further, rfl, hfurther, hfound, hstops⟩
      cases hfurther with
      | done => exact ⟨none, _, .inr ⟨rfl, hstops, rfl⟩, finds_pure_iff.mpr ⟨by simp, rfl⟩⟩
      | @more earlier later keyword _ middle _ outline further hgroup hearlier hread hrest =>
        refine ⟨some (keyword, outline), middle, .inl ⟨_, rfl, earlier, keyword, later, hgroup,
          hearlier, outline, middle, hread, rfl, rfl⟩, ?_⟩
        have hfresh : ¬ supplied.any (fun earlier ↦ earlier.1 == keyword.name) = true := by
          simp only [List.any_eq_true, beq_iff_eq, not_exists, not_and]
          intro other hother hname
          rw [List.map_append, List.nodup_append] at hfound
          exact hfound.2.2 _ (List.mem_map_of_mem hother) _ List.mem_cons_self hname
        have hahead := (hmoves _ _ _ _ hread.result).advances rfl
        have hshorter := hahead.length_lt
        have hwhole : supplied ++ (keyword.name, outline) :: further =
            (supplied ++ [(keyword.name, outline)]) ++ further := by simp
        have hnames : ((supplied ++ [(keyword.name, outline)]).map Prod.fst).Nodup := by
          rw [hwhole] at hfound
          exact hfound.sublist ((List.sublist_append_left _ further).map Prod.fst)
        simp only [if_neg hfresh]
        exact (ih (by omega) hnames).mpr ⟨further, hwhole, hrest, hfound, hstops⟩

/-! ### Slots -/

theorem finds_symbol_iff {text : String} {value : Unit} :
    Finds keeps overlooks (symbol text) place value after ↔
      ∃ eaten, place.eat? text.toList = some eaten ∧ after = eaten.skipSeparators :=
  finds_move_iff

theorem finds_word_iff {text : String} {value : Unit} :
    Finds keeps overlooks (word text) place value after ↔
      ∃ named, place.word? text.toList = some named ∧ after = named.skipSeparators :=
  finds_move_iff

include hmoves in
theorem advances_of_element (element : ArgType) (place : Place) (outline : Outline) (after : Place)
    (hread : (inner (.ofArgument element) place).result = some (outline, after)) :
    Advances place after :=
  (hmoves _ _ _ _ hread).advances (Slot.takesText_ofArgument element)

include hoverlooks hmoves in
/-- Whatever is found for a slot comes from one of the rules. -/
theorem readsParts_of_finds {catalog : Catalog} {slot : Slot} {outline : Outline}
    (h : Finds keeps overlooks (fillParts catalog inner slot) place outline after) :
    ReadsParts (fun part ↦ Finds keeps overlooks (inner part))
      (fun part ↦ Passes overlooks (inner part)) (fun part place ↦ (inner part place).result = none)
      catalog slot place outline after := by
  have hbacktracked (offset : Nat) : overlooks (.backtracked offset) := hoverlooks _ rfl
  have hnone : (([] : List (String × Outline)).map Prod.fst).Nodup := List.nodup_nil
  by_cases hslot : slot.choices = []
  · cases slot with
    | root base =>
      simp only [fillParts, finds_bind_iff, finds_atEnd_iff, finds_pure_iff] at h
      obtain ⟨part, middle, hpart, _, _, ⟨hend, rfl⟩, rfl, rfl⟩ := h
      exact .root hpart hend
    | call base =>
      simp only [fillParts, finds_bind_iff, finds_symbol_iff] at h
      obtain ⟨_, _, ⟨opened, hopened, rfl⟩, h⟩ := h
      split at h
      · exact (finds_fail_iff.mp h).elim
      · simp only [finds_bind_iff, finds_symbol_iff, finds_word_iff,
          finds_firstOf_iff hbacktracked, finds_pure_iff, passes_word_iff hoverlooks] at h
        obtain ⟨operator, _, ⟨earlier, _, later, hoperators, hearlier, _, _, ⟨named, hnamed, rfl⟩,
          rfl, rfl⟩, part, closing, hpart, _, _, ⟨closed, hclosed, rfl⟩, rfl, rfl⟩ := h
        exact .call hopened hoperators hearlier hnamed hpart hclosed
    | choice kind => exact absurd hslot (List.cons_ne_nil _ _)
    | typed type =>
      cases type with
      | scalar kind =>
        simp only [fillParts, finds_bind_iff, finds_literal_iff, finds_pure_iff] at h
        obtain ⟨value, _, ⟨ended, hvalue, rfl⟩, rfl, rfl⟩ := h
        exact .scalar hvalue
      | series => exact (finds_fail_iff.mp h).elim
      | union alternatives =>
        obtain rfl : alternatives = [] := List.map_eq_nil_iff.mp hslot
        exact (finds_fail_iff.mp h).elim
      | list element =>
        simp only [fillParts, finds_bind_iff, finds_symbol_iff, finds_remaining_iff,
          finds_pure_iff] at h
        obtain ⟨_, _, ⟨opened, hopened, rfl⟩, _, _, ⟨rfl, rfl⟩, parts, closing, hparts, _, _,
          ⟨closed, hclosed, rfl⟩, rfl, rfl⟩ := h
        obtain ⟨hparts, hstops⟩ :=
          (finds_repeatedly_iff (advances_of_element hmoves element) (Nat.lt_succ_self _)).mp hparts
        exact .list hopened hparts hstops hclosed
    | keywords group =>
      simp only [fillParts, finds_bind_iff, finds_remaining_iff, finds_pure_iff] at h
      obtain ⟨_, _, ⟨rfl, rfl⟩, supplied, _, hsupplied, rfl, rfl⟩ := h
      obtain ⟨further, rfl, hfurther, hnames, hstops⟩ :=
        (finds_readSupplied_iff hoverlooks hmoves (Nat.lt_succ_self _) hnone).mp hsupplied
      exact .keywords hfurther hnames hstops
    | operator chosen =>
      simp only [fillParts, finds_bind_iff, finds_inOrder_iff, finds_pure_iff] at h
      obtain ⟨parts, _, hparts, rfl, rfl⟩ := h
      exact .operator hparts
    | keyword own =>
      simp only [fillParts, finds_bind_iff, finds_word_iff, finds_pure_iff] at h
      obtain ⟨_, _, ⟨announced, hmarker, rfl⟩, value, _, hvalue, rfl, rfl⟩ := h
      exact .keyword hmarker hvalue
  · rw [fillParts_of_choices hslot] at h
    simp only [finds_bind_iff, finds_firstOf_iff hbacktracked, finds_pure_iff] at h
    obtain ⟨part, _, ⟨earlier, choice, later, hchoices, hearlier, hpart⟩, rfl, rfl⟩ := h
    exact .chosen hchoices hearlier hpart

include hoverlooks hmoves in
/-- Reading a slot finds what the rules allow. -/
theorem finds_fillParts_iff {catalog : Catalog} {slot : Slot} {outline : Outline} :
    Finds keeps overlooks (fillParts catalog inner slot) place outline after ↔
      ReadsParts (fun part ↦ Finds keeps overlooks (inner part))
        (fun part ↦ Passes overlooks (inner part)) (fun part place ↦ (inner part place).result = none)
        catalog slot place outline after := by
  have hbacktracked (offset : Nat) : overlooks (.backtracked offset) := hoverlooks _ rfl
  have hnone : (([] : List (String × Outline)).map Prod.fst).Nodup := List.nodup_nil
  refine ⟨readsParts_of_finds hoverlooks hmoves, fun h ↦ ?_⟩
  cases h with
  | root hpart hend =>
    simp only [fillParts, finds_bind_iff, finds_atEnd_iff, finds_pure_iff]
    exact ⟨_, _, hpart, (), _, ⟨hend, rfl⟩, rfl, rfl⟩
  | @call base operator earlier later _ opened named closing closed part hopened hoperators hearlier
      hnamed hpart hclosed =>
    have hsome : (catalog.operators base).isEmpty = false := by simp [hoperators]
    rw [fillParts, finds_bind_iff]
    refine ⟨(), _, finds_symbol_iff.mpr ⟨opened, hopened, rfl⟩, ?_⟩
    simp only [hsome, Bool.false_eq_true, if_false, finds_bind_iff, finds_symbol_iff, finds_word_iff,
      finds_firstOf_iff hbacktracked, finds_pure_iff, passes_word_iff hoverlooks]
    exact ⟨operator, _, ⟨earlier, operator, later, hoperators, hearlier, (), _,
      ⟨named, hnamed, rfl⟩, rfl, rfl⟩, part, closing, hpart, (), _, ⟨closed, hclosed, rfl⟩, rfl, rfl⟩
  | @chosen _ choice earlier later _ _ part hchoices hearlier hpart =>
    rw [fillParts_of_choices (by simp [hchoices])]
    simp only [finds_bind_iff, finds_firstOf_iff hbacktracked, finds_pure_iff]
    exact ⟨part, after, ⟨earlier, choice, later, hchoices, hearlier, hpart⟩, rfl, rfl⟩
  | @scalar kind _ ended value hvalue =>
    simp only [fillParts, finds_bind_iff, finds_literal_iff, finds_pure_iff]
    exact ⟨value, _, ⟨ended, hvalue, rfl⟩, rfl, rfl⟩
  | @list element _ opened closing closed parts hopened hparts hstops hclosed =>
    simp only [fillParts, finds_bind_iff, finds_symbol_iff, finds_remaining_iff, finds_pure_iff]
    refine ⟨(), _, ⟨opened, hopened, rfl⟩, _, _, ⟨rfl, rfl⟩, parts, closing, ?_, (), _,
      ⟨closed, hclosed, rfl⟩, rfl, rfl⟩
    exact (finds_repeatedly_iff (advances_of_element hmoves element) (Nat.lt_succ_self _)).mpr
      ⟨hparts, hstops⟩
  | @keywords group _ _ supplied hsupplied hnames hstops =>
    simp only [fillParts, finds_bind_iff, finds_remaining_iff, finds_pure_iff]
    refine ⟨_, _, ⟨rfl, rfl⟩, supplied, after, ?_, rfl, rfl⟩
    exact (finds_readSupplied_iff hoverlooks hmoves (Nat.lt_succ_self _) hnone).mpr
      ⟨supplied, rfl, hsupplied, hnames, hstops⟩
  | operator hparts =>
    simp only [fillParts, finds_bind_iff, finds_inOrder_iff, finds_pure_iff]
    exact ⟨_, after, hparts, rfl, rfl⟩
  | @keyword own _ announced _ value hmarker hvalue =>
    simp only [fillParts, finds_bind_iff, finds_word_iff, finds_pure_iff]
    exact ⟨(), _, ⟨announced, hmarker, rfl⟩, value, after, hvalue, rfl, rfl⟩

/-! ### Rooms -/

variable {catalog : Catalog} {limit room : Nat} {slot : Slot} {outline : Outline}

include hoverlooks in
/-- A slot for which there is room is entered, read by a rule, and filled. -/
theorem finds_fill_succ_iff :
    Finds keeps overlooks (fill catalog limit (room + 1) slot) place outline after ↔
      keeps (.entered slot place.offset) ∧ keeps (.filled outline after.offset) ∧
        ReadsParts (fun part ↦ Finds keeps overlooks (fill catalog limit room part))
          (fun part ↦ Passes overlooks (fill catalog limit room part))
          (fun part place ↦ (fill catalog limit room part place).result = none)
          catalog slot place outline after := by
  have hparts (place after : Place) (outline : Outline) :=
    @finds_fillParts_iff keeps overlooks (fill catalog limit room) place after hoverlooks
      (fun _ _ _ _ ↦ moves_of_fill) catalog slot outline
  simp only [fill, finds_bind_iff, finds_note_iff, finds_nested_iff, finds_pure_iff, hparts]
  constructor
  · rintro ⟨_, _, ⟨hentered, rfl⟩, _, _, hread, _, _, ⟨hfilled, rfl⟩, rfl, rfl⟩
    exact ⟨hentered, hfilled, hread⟩
  · rintro ⟨hentered, hfilled, hread⟩
    exact ⟨(), place, ⟨hentered, rfl⟩, outline, after, hread, (), after, ⟨hfilled, rfl⟩, rfl, rfl⟩

end Finds

theorem finds_true_iff {α : Type} {step : Reading α} {place after : Place} {value : α} :
    Finds (fun _ ↦ True) (fun _ ↦ True) step place value after ↔
      (step place).result = some (value, after) :=
  ⟨Finds.result, fun h ↦ ⟨h, fun _ _ ↦ trivial, fun _ _ ↦ trivial⟩⟩

theorem passes_true_iff {α : Type} {step : Reading α} {place : Place} :
    Passes (fun _ ↦ True) step place ↔ (step place).result = none :=
  ⟨Passes.result, fun h ↦ ⟨h, fun _ _ ↦ trivial⟩⟩

/-- What is read for a slot for which there is room, without regard to events. -/
theorem result_fill_succ_iff {catalog : Catalog} {limit room : Nat} {slot : Slot}
    {place after : Place} {outline : Outline} :
    (fill catalog limit (room + 1) slot place).result = some (outline, after) ↔
      ReadsParts (fun part place outline after ↦
          (fill catalog limit room part place).result = some (outline, after))
        (fun part place ↦ (fill catalog limit room part place).result = none)
        (fun part place ↦ (fill catalog limit room part place).result = none)
        catalog slot place outline after := by
  have hreads : (fun part ↦ Finds (fun _ ↦ True) (fun _ ↦ True) (fill catalog limit room part)) =
      fun part place outline after ↦
        (fill catalog limit room part place).result = some (outline, after) := by
    funext part place outline after
    exact propext finds_true_iff
  have hpasses : (fun part ↦ Passes (fun _ ↦ True) (fill catalog limit room part)) =
      fun part place ↦ (fill catalog limit room part place).result = none := by
    funext part place
    exact propext passes_true_iff
  rw [← finds_true_iff, finds_fill_succ_iff fun _ _ ↦ trivial, hreads, hpasses]
  simp only [true_and]

/-! ### Closing parentheses -/

/-- No literal begins with a closing parenthesis. -/
theorem not_closes_of_readLiteral {kind : Scalar} {place after : Place} {value : Literal}
    (h : readLiteral kind place = .ok (value, after)) : ¬ place.Closes := by
  have hnumeral (numeral : Numeral) (hread : readNumeral place = .ok (numeral, after)) :
      ¬ place.Closes := by
    rintro ⟨rest, hrest⟩
    obtain ⟨⟨passed, hclass, hpassed, -⟩, hahead⟩ := leadsOver_of_readNumeral hread
    cases passed with
    | nil =>
      have hshorter := hahead.length_lt
      simp [hpassed] at hshorter
    | cons character passed =>
      obtain ⟨rfl, -⟩ : ')' = character ∧ _ := List.cons.inj (hrest.symm.trans hpassed)
      exact absurd (hclass _ List.mem_cons_self) (by decide)
  have hquoted (what : String) (body : List Char) (hread : readQuoted what place = .ok (body, after)) :
      ¬ place.Closes := by
    rintro ⟨rest, hrest⟩
    obtain ⟨⟨text, hquote, -⟩, -⟩ := readQuoted_eq_ok hread
    rw [hrest] at hquote
    exact absurd (List.cons.inj hquote).1 (by decide)
  cases kind with
  | int =>
    obtain ⟨found, hfound, -⟩ := map_eq_ok_iff.mp h
    obtain ⟨numeral, hread, -⟩ := readInt_eq_ok_iff.mp hfound
    exact hnumeral numeral hread
  | number =>
    obtain ⟨found, hfound, -⟩ := map_eq_ok_iff.mp h
    obtain ⟨numeral, hread, -⟩ := readNumber_eq_ok_iff.mp hfound
    exact hnumeral numeral hread
  | string =>
    obtain ⟨body, hbody, -⟩ := readLiteral_string_eq_ok_iff.mp h
    exact hquoted _ body hbody
  | bool =>
    obtain ⟨found, hfound, -⟩ := map_eq_ok_iff.mp h
    rintro ⟨rest, hrest⟩
    have heaten := (eat?_eq_some (word?_eq_some_iff.mp (readBool_eq_ok_iff.mp hfound)).1).1
    rw [hrest] at heaten
    cases found <;> exact absurd (List.cons.inj heaten).1 (by decide)
  | timestamp =>
    obtain ⟨found, hfound, -⟩ := map_eq_ok_iff.mp h
    obtain ⟨body, hbody, -⟩ := readTimestamp_eq_ok_iff.mp hfound
    exact hquoted _ body hbody

/-- Nothing that takes up text is read from a closing parenthesis. -/
theorem not_closes_of_fill {catalog : Catalog} {limit room : Nat} {slot : Slot}
    {place after : Place} {outline : Outline} (hslot : slot.takesText = true)
    (h : (fill catalog limit room slot place).result = some (outline, after)) :
    ¬ place.Closes := by
  have hopens (opened : Place) (hopened : place.eat? ['('] = some opened) : ¬ place.Closes := by
    rintro ⟨rest, hrest⟩
    have heaten := (eat?_eq_some hopened).1
    rw [hrest] at heaten
    exact absurd (List.cons.inj heaten).1 (by decide)
  induction room generalizing slot after outline with
  | zero => exact nomatch h
  | succ room ih =>
    cases result_fill_succ_iff.mp h with
    | root hpart hend => exact ih rfl hpart
    | call hopened => exact hopens _ hopened
    | @chosen _ choice earlier later _ _ part hchoices hearlier hpart =>
      have hchoice : choice ∈ slot.choices := by simp [hchoices]
      exact ih (Slot.takesText_of_mem_choices hchoice) hpart
    | scalar hvalue => exact not_closes_of_readLiteral hvalue
    | list hopened => exact hopens _ hopened
    | keywords | operator => exact nomatch hslot
    | keyword hmarker hvalue =>
      rintro ⟨rest, hrest⟩
      have heaten := (eat?_eq_some (word?_eq_some_iff.mp hmarker).1).1
      rw [hrest, Keyword.marker, String.toList_append] at heaten
      exact absurd (List.cons.inj heaten).1 (by decide)

end Formulary
