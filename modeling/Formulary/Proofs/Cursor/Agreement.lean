import Formulary.Proofs.Cursor.Machine
import Formulary.Proofs.Formula.Room
/-!
The machine with a cursor does what the reading of places does. At every place of the text each of its
steps comes to an end, as long as only allowed events happen, with the same events, the same value and
the cursor at the place after (`Follows`). There is one rule for each way to compose steps, and from
them follows that the machine fills slots in the same way (`follows_fill`).
-/

set_option autoImplicit false
set_option relaxedAutoImplicit false

namespace Formulary.Cursor

open Text Place

variable {text : List Char} {rounds : Nat} {allowed : Event → Prop} {α β : Type}

/-- What comes of a step of the machine: the events and the value of an outcome. Whether it succeeds or
fails the cursor stands where the text can be cut, and if it succeeds at the place after. -/
structure Ends (text : List Char) (found : Option (List Event × Option α × Nat))
    (outcome : Outcome α) (stop : Nat) : Prop where
  found : found = some (outcome.events, outcome.result.map Prod.fst, stop)
  isBoundary : IsBoundary text stop
  offset : ∀ value after, outcome.result = some (value, after) → stop = after.offset

/-- At a place, a step of the machine comes to what another step reads, if only allowed events happen. -/
def EndsAt (text : List Char) (allowed : Event → Prop) (run : Step α) (step : Reading α)
    (place : Place) : Prop :=
  (∀ event ∈ (step place).events, allowed event) →
    ∃ stop, Ends text (run place.offset) (step place) stop

/-- At all places of the text that are fewer characters than some rounds from its end, a step of the
machine comes to what another step reads. The other step never moves backwards. -/
structure Follows (text : List Char) (rounds : Nat) (allowed : Event → Prop) (run : Step α)
    (step : Reading α) : Prop where
  ends : ∀ place, Within text place → place.rest.length < rounds → EndsAt text allowed run step place
  leads : ∀ place value after, (step place).result = some (value, after) → Leads place after

theorem Follows.length_lt {run : Step α} {step : Reading α} (h : Follows text rounds allowed run step)
    {place after : Place} {value : α} (hresult : (step place).result = some (value, after))
    (hplace : place.rest.length < rounds) : after.rest.length < rounds :=
  Nat.lt_of_le_of_lt (h.leads place value after hresult).suffix.length_le hplace

/-! ### Single steps -/

theorem endsAt_pure (value : α) {place : Place} (hplace : Within text place) :
    EndsAt text allowed (pure value) (pure value : Reading α) place := by
  refine fun _ ↦ ⟨place.offset, rfl, hplace.isBoundary, ?_⟩
  rintro _ _ ⟨⟩
  rfl

theorem follows_pure (value : α) :
    Follows text rounds allowed (pure value) (pure value : Reading α) := by
  refine ⟨fun _ hplace _ ↦ endsAt_pure value hplace, ?_⟩
  rintro place _ _ ⟨⟩
  exact leads_refl place

theorem follows_note (event : Nat → Event) :
    Follows text rounds allowed (Step.note event) (Reading.note event) := by
  refine ⟨fun place hplace _ _ ↦ ⟨place.offset, rfl, hplace.isBoundary, ?_⟩, ?_⟩
  · rintro _ _ ⟨⟩
    rfl
  · rintro place _ _ ⟨⟩
    exact leads_refl place

theorem follows_reached :
    Follows text rounds allowed Step.reached Reading.reached := by
  refine ⟨fun place hplace _ _ ↦ ⟨place.offset, rfl, hplace.isBoundary, ?_⟩, ?_⟩
  · rintro _ _ ⟨⟩
    rfl
  · rintro place _ _ ⟨⟩
    exact leads_refl place

theorem follows_fail (complaint : Complaint) :
    Follows text rounds allowed (Step.fail complaint : Step α) (Reading.fail complaint) := by
  refine ⟨fun place hplace _ _ ↦ ⟨place.offset, rfl, hplace.isBoundary, fun _ _ h ↦ ?_⟩,
    fun _ _ _ h ↦ ?_⟩
  · cases h
  · cases h

theorem follows_atEnd : Follows text rounds allowed (Step.atEnd text) Reading.atEnd := by
  refine ⟨fun place hplace _ _ ↦ ?_, fun place value after h ↦ ?_⟩
  · have hsame := isAtEnd_iff_le hplace
    rw [Step.atEnd, Reading.atEnd]
    by_cases hend : byteLength text ≤ place.offset
    · rw [if_pos hend, if_pos (hsame.mpr hend)]
      refine ⟨place.offset, rfl, hplace.isBoundary, ?_⟩
      rintro _ _ ⟨⟩
      rfl
    · rw [if_neg hend, if_neg (mt hsame.mp hend)]
      refine ⟨place.offset, rfl, hplace.isBoundary, fun _ _ h ↦ ?_⟩
      cases h
  · rw [Reading.atEnd] at h
    split at h
    · cases h
      exact leads_refl place
    · cases h

theorem follows_move {advance : Nat → Option (Option Nat)} {advance' : Place → Option Place}
    {complaint : Complaint}
    (hadvance : ∀ place, Within text place →
      advance place.offset = some ((advance' place).map Place.offset))
    (hleads : ∀ place after, advance' place = some after → Leads place after) :
    Follows text rounds allowed (Step.move text rounds advance complaint)
      (Reading.move advance' complaint) := by
  refine ⟨fun place hplace hrounds _ ↦ ?_, fun place value after h ↦ ?_⟩
  · rw [Step.move, Reading.move, hadvance place hplace]
    cases heaten : advance' place with
    | none =>
      refine ⟨place.offset, rfl, hplace.isBoundary, fun _ _ h ↦ ?_⟩
      cases h
    | some eaten =>
      have hahead := hleads place eaten heaten
      have hskip := skipSeparators_of_within (hplace.of_leads hahead)
        (Nat.lt_of_le_of_lt hahead.suffix.length_le hrounds)
      have hafter := hplace.of_leads (hahead.trans (leads_skipSeparators eaten))
      refine ⟨eaten.skipSeparators.offset, ?_, hafter.isBoundary, ?_⟩
      · simp only [Option.map_some, Option.bind_eq_bind, Option.bind_some, hskip]
        rfl
      · rintro _ _ ⟨⟩
        rfl
  · rw [Reading.move] at h
    cases heaten : advance' place with
    | none =>
      rw [heaten] at h
      cases h
    | some eaten =>
      rw [heaten] at h
      cases h
      exact (hleads place eaten heaten).trans (leads_skipSeparators eaten)

theorem follows_symbol (symbol : String) :
    Follows text rounds allowed (Step.symbol text rounds symbol) (Reading.symbol symbol) :=
  follows_move (fun _ hplace ↦ eat_of_within hplace symbol.toList) fun _ _ heaten ↦
    leads_of_eat? heaten

theorem follows_word (name : String) :
    Follows text rounds allowed (Step.word text rounds name) (Reading.word name) :=
  follows_move (fun _ hplace ↦ word_of_within hplace name.toList) fun _ _ hnamed ↦
    leads_of_eat? (word?_eq_some_iff.mp hnamed).1

/-- Where a literal is refused the text can be cut, also where a string goes wrong. -/
theorem isBoundary_of_readLiteral {kind : Scalar} {place : Place} {failure : Failure}
    (hplace : Within text place) (h : Formulary.readLiteral kind place = .error failure) :
    IsBoundary text failure.offset := by
  obtain ⟨stop, hstop, hoffset⟩ := exists_leads_of_readLiteral h
  rw [← hoffset]
  exact (hplace.of_leads hstop).isBoundary

theorem follows_literal (kind : Scalar) :
    Follows text rounds allowed (Step.literal text rounds kind) (Reading.literal kind) := by
  refine ⟨fun place hplace hrounds _ ↦ ?_, fun place value after h ↦ ?_⟩
  · rw [Step.literal, Reading.literal, readLiteral_of_within kind hplace hrounds]
    cases hread : Formulary.readLiteral kind place with
    | error failure =>
      refine ⟨failure.offset, rfl, isBoundary_of_readLiteral hplace hread, fun _ _ h ↦ ?_⟩
      cases h
    | ok read =>
      obtain ⟨value, after⟩ := read
      have hahead := (advances_of_readLiteral hread).1
      have hskip := skipSeparators_of_within (hplace.of_leads hahead)
        (Nat.lt_of_le_of_lt hahead.suffix.length_le hrounds)
      have hbehind := hplace.of_leads (hahead.trans (leads_skipSeparators after))
      refine ⟨after.skipSeparators.offset, ?_, hbehind.isBoundary, ?_⟩
      · simp only [atCursor, Option.bind_eq_bind, Option.bind_some, hskip]
        rfl
      · rintro _ _ ⟨⟩
        rfl
  · rw [Reading.literal] at h
    cases hread : Formulary.readLiteral kind place with
    | error failure =>
      rw [hread] at h
      cases h
    | ok read =>
      rw [hread] at h
      cases h
      exact (advances_of_readLiteral hread).1.trans (leads_skipSeparators _)

/-! ### Composed steps -/

theorem EndsAt.bind {run : Step α} {step : Reading α} {next : α → Step β} {next' : α → Reading β}
    {place : Place} (h : EndsAt text allowed run step place)
    (hnext : ∀ value middle, (step place).result = some (value, middle) →
      EndsAt text allowed (next value) (next' value) middle) :
    EndsAt text allowed (run >>= next) (step >>= next') place := by
  intro hallowed
  change ∃ stop, Ends text (Step.bind run next place.offset) _ stop
  cases hfound : (step place).result with
  | none =>
    rw [Reading.bind_eq_of_none hfound] at hallowed ⊢
    obtain ⟨stop, hrun, hboundary, -⟩ := h hallowed
    rw [hfound] at hrun
    refine ⟨stop, ?_, hboundary, fun _ _ hsome ↦ ?_⟩
    · simp only [Step.bind, hrun, Option.map_none, Option.bind_eq_bind, Option.bind_some]
      rfl
    · cases hsome
  | some found =>
    obtain ⟨value, middle⟩ := found
    rw [Reading.bind_eq_of_some hfound] at hallowed ⊢
    simp only [Outcome.events, Journal.events_joined, List.forall_mem_append] at hallowed
    obtain ⟨stop, hrun, -, hstop⟩ := h hallowed.1
    obtain rfl := hstop value middle hfound
    obtain ⟨last, hmore, hboundary, hlast⟩ := hnext value middle hfound hallowed.2
    rw [hfound] at hrun
    refine ⟨last, ?_, hboundary, hlast⟩
    simp only [Step.bind, hrun, Option.map_some, Option.bind_eq_bind, Option.bind_some, hmore]
    simp [Outcome.events]

theorem Follows.bind {run : Step α} {step : Reading α} {next : α → Step β} {next' : α → Reading β}
    (h : Follows text rounds allowed run step)
    (hnext : ∀ value, Follows text rounds allowed (next value) (next' value)) :
    Follows text rounds allowed (run >>= next) (step >>= next') := by
  refine ⟨fun place hplace hrounds ↦ ?_, fun place value after hresult ↦ ?_⟩
  · refine (h.ends place hplace hrounds).bind fun value middle hfound ↦ (hnext value).ends middle ?_ ?_
    · exact hplace.of_leads (h.leads place value middle hfound)
    · exact h.length_lt hfound hrounds
  · rw [Reading.result_bind] at hresult
    obtain ⟨⟨found, middle⟩, hfound, hlater⟩ := Option.bind_eq_some_iff.mp hresult
    exact (h.leads place found middle hfound).trans ((hnext found).leads middle value after hlater)

/-- A step of the machine that leaves the cursor where it was if it fails. -/
structure FollowsBack (text : List Char) (rounds : Nat) (allowed : Event → Prop) (run : Step α)
    (step : Reading α) : Prop extends Follows text rounds allowed run step where
  back : ∀ place, Within text place → place.rest.length < rounds →
    (∀ event ∈ (step place).events, allowed event) → (step place).result = none →
      run place.offset = some ((step place).events, none, place.offset)

theorem Follows.nested {run : Step α} {step : Reading α} (h : Follows text rounds allowed run step) :
    Follows text rounds allowed run (Reading.nested step) := by
  refine ⟨fun place hplace hrounds hallowed ↦ ?_, h.leads⟩
  obtain ⟨stop, hends⟩ := h.ends place hplace hrounds hallowed
  exact ⟨stop, hends.found, hends.isBoundary, hends.offset⟩

theorem Follows.attempt {run : Step α} {step : Reading α} (h : Follows text rounds allowed run step) :
    FollowsBack text rounds allowed (Step.attempt text run) (Reading.trying step) := by
  have hback (place : Place) (hplace : Within text place) (hrounds : place.rest.length < rounds)
      (hallowed : ∀ event ∈ (Reading.trying step place).events, allowed event)
      (hfound : (step place).result = none) :
      Step.attempt text run place.offset =
        some ((Reading.trying step place).events, none, place.offset) := by
    rw [Reading.trying_eq_of_none hfound] at hallowed ⊢
    simp only [Outcome.events, Journal.events_joined, List.forall_mem_append] at hallowed
    obtain ⟨stop, hrun, -, -⟩ := h.ends place hplace hrounds hallowed.1
    rw [hfound] at hrun
    simp only [Step.attempt, hrun, Option.map_none, Option.bind_eq_bind, Option.bind_some,
      goTo_of_within hplace]
    simp [Outcome.events]
  refine ⟨⟨fun place hplace hrounds hallowed ↦ ?_, fun place value after hresult ↦ ?_⟩,
    fun place hplace hrounds hallowed hresult ↦ ?_⟩
  · cases hfound : (step place).result with
    | none =>
      refine ⟨place.offset, ?_, hplace.isBoundary, fun _ _ hsome ↦ ?_⟩
      · rw [hback place hplace hrounds hallowed hfound, Reading.result_trying, hfound]
        rfl
      · rw [Reading.result_trying, hfound] at hsome
        cases hsome
    | some found =>
      rw [Reading.trying_eq_of_some hfound] at hallowed ⊢
      obtain ⟨stop, hrun, hboundary, hstop⟩ := h.ends place hplace hrounds hallowed
      refine ⟨stop, ?_, hboundary, hstop⟩
      rw [hfound] at hrun ⊢
      simp only [Step.attempt, hrun, Option.map_some, Option.bind_eq_bind, Option.bind_some]
  · rw [Reading.result_trying] at hresult
    exact h.leads place value after hresult
  · rw [Reading.result_trying] at hresult
    exact hback place hplace hrounds hallowed hresult

theorem FollowsBack.optionally {run : Step α} {step : Reading α}
    (h : FollowsBack text rounds allowed run step) :
    Follows text rounds allowed (Step.optionally run) (Reading.optionally step) := by
  refine ⟨fun place hplace hrounds hallowed ↦ ?_, fun place value after hresult ↦ ?_⟩
  · cases hfound : (step place).result with
    | none =>
      rw [Reading.optionally_eq_of_none hfound] at hallowed ⊢
      have hrun := h.back place hplace hrounds hallowed hfound
      refine ⟨place.offset, ?_, hplace.isBoundary, ?_⟩
      · simp only [Step.optionally, hrun, Option.bind_eq_bind, Option.bind_some]
        rfl
      · rintro _ _ ⟨⟩
        rfl
    | some found =>
      obtain ⟨value, after⟩ := found
      rw [Reading.optionally_eq_of_some hfound] at hallowed ⊢
      obtain ⟨stop, hrun, hboundary, hstop⟩ := h.ends place hplace hrounds hallowed
      refine ⟨stop, ?_, hboundary, ?_⟩
      · rw [hfound] at hrun
        simp only [Step.optionally, hrun, Option.bind_eq_bind, Option.bind_some]
        rfl
      · rintro _ _ ⟨⟩
        exact hstop value after hfound
  · rw [Reading.result_optionally] at hresult
    cases hfound : (step place).result with
    | none =>
      rw [hfound] at hresult
      cases hresult
      exact leads_refl place
    | some found =>
      rw [hfound] at hresult
      cases hresult
      exact h.leads place found.1 found.2 hfound

/-- A step after one that leaves the cursor where it was. -/
theorem FollowsBack.orElse {first second : Step α} {first' second' : Reading α}
    (hfirst : FollowsBack text rounds allowed first first')
    (hsecond : FollowsBack text rounds allowed second second') :
    FollowsBack text rounds allowed (Step.orElse first second) (Reading.orElse first' second') := by
  have hlater (place : Place) (hplace : Within text place) (hrounds : place.rest.length < rounds)
      (hallowed : ∀ event ∈ (Reading.orElse first' second' place).events, allowed event)
      (hfound : (first' place).result = none) :
      (∀ event ∈ (second' place).events, allowed event) ∧
        Step.orElse first second place.offset =
          (second place.offset).map fun found ↦ ((first' place).events ++ found.1, found.2) := by
    rw [Reading.orElse_eq_of_none hfound] at hallowed
    simp only [Outcome.events, Journal.events_joined, Journal.events_replaced,
      List.forall_mem_append] at hallowed
    refine ⟨hallowed.2, ?_⟩
    simp only [Step.orElse, hfirst.back place hplace hrounds hallowed.1 hfound, Option.bind_eq_bind,
      Option.bind_some]
    cases second place.offset <;> rfl
  refine ⟨⟨fun place hplace hrounds hallowed ↦ ?_, fun place value after hresult ↦ ?_⟩,
    fun place hplace hrounds hallowed hresult ↦ ?_⟩
  · cases hfound : (first' place).result with
    | none =>
      obtain ⟨hallowed', hrun⟩ := hlater place hplace hrounds hallowed hfound
      obtain ⟨stop, hmore, hboundary, hstop⟩ := hsecond.ends place hplace hrounds hallowed'
      rw [Reading.orElse_eq_of_none hfound]
      refine ⟨stop, ?_, hboundary, hstop⟩
      rw [hrun, hmore]
      simp [Outcome.events]
    | some found =>
      rw [Reading.orElse_eq_of_some hfound] at hallowed ⊢
      obtain ⟨stop, hrun, hboundary, hstop⟩ := hfirst.ends place hplace hrounds hallowed
      refine ⟨stop, ?_, hboundary, hstop⟩
      rw [hfound] at hrun ⊢
      simp only [Step.orElse, hrun, Option.map_some, Option.bind_eq_bind, Option.bind_some]
  · rw [Reading.result_orElse] at hresult
    rcases Option.or_eq_some_iff.mp hresult with hfound | ⟨-, hfound⟩
    · exact hfirst.leads place value after hfound
    · exact hsecond.leads place value after hfound
  · rw [Reading.result_orElse, Option.or_eq_none_iff] at hresult
    obtain ⟨hallowed', hrun⟩ := hlater place hplace hrounds hallowed hresult.1
    rw [hrun, hsecond.back place hplace hrounds hallowed' hresult.2,
      Reading.orElse_eq_of_none hresult.1]
    simp [Outcome.events]

theorem followsBack_firstOf {γ : Type} {run : γ → Step α} {step : γ → Reading α} {choices : List γ}
    (h : ∀ choice ∈ choices, Follows text rounds allowed (run choice) (step choice)) :
    FollowsBack text rounds allowed (Step.firstOf text (choices.map run))
      (Reading.firstOf (choices.map step)) := by
  induction choices with
  | nil =>
    refine ⟨⟨fun place hplace _ _ ↦ ⟨place.offset, rfl, hplace.isBoundary, fun _ _ hsome ↦ ?_⟩,
      fun _ _ _ hsome ↦ ?_⟩, fun _ _ _ _ _ ↦ rfl⟩
    · cases hsome
    · cases hsome
  | cons choice choices ih =>
    obtain ⟨hchoice, hchoices⟩ := List.forall_mem_cons.mp h
    exact hchoice.attempt.orElse (ih hchoices)

theorem follows_inOrder {γ : Type} {run : γ → Step α} {step : γ → Reading α} {items : List γ}
    (h : ∀ item ∈ items, Follows text rounds allowed (run item) (step item)) :
    Follows text rounds allowed (Step.inOrder (items.map run))
      (Reading.inOrder (items.map step)) := by
  induction items with
  | nil => exact follows_pure []
  | cons item items ih =>
    obtain ⟨hitem, hitems⟩ := List.forall_mem_cons.mp h
    exact hitem.bind fun value ↦ (ih hitems).bind fun values ↦ follows_pure (value :: values)

/-! ### Loops -/

theorem leads_repeatedly {step : Reading α}
    (h : ∀ place value after, (step place).result = some (value, after) → Leads place after)
    (bound : Nat) (place : Place) {values : List α} {after : Place}
    (hresult : (Reading.repeatedly step bound place).result = some (values, after)) :
    Leads place after := by
  have hensures : Reading.Ensures (Reading.repeatedly step bound) place (fun _ ↦ True)
      fun _ after ↦ Leads place after := by
    refine Reading.ensures_repeatedly (leads_refl place) (fun _ _ ↦ trivial) ?_ bound
    exact fun middle hmiddle ↦ ⟨fun _ _ ↦ trivial, fun value after hfound ↦
      hmiddle.trans (h middle value after hfound)⟩
  exact hensures.result values after hresult

/-- Each round but the last one gets further, so a loop ends within as many rounds as there are
characters. -/
theorem endsAt_repeatedly {run : Step α} {step : Reading α}
    (h : Follows text rounds allowed run step) {left bound : Nat} {place : Place}
    (hplace : Within text place) (hrounds : place.rest.length < rounds)
    (hleft : place.rest.length < left) (hbound : place.rest.length < bound) :
    EndsAt text allowed (Step.repeatedly text run left) (Reading.repeatedly step bound) place := by
  induction left generalizing bound place with
  | zero => exact absurd hleft (Nat.not_lt_zero _)
  | succ left ih =>
    obtain ⟨bound, rfl⟩ := Nat.exists_eq_add_one_of_ne_zero (Nat.ne_zero_of_lt hbound)
    have hround := h.attempt.optionally
    refine (follows_reached.ends place hplace hrounds).bind fun before _ hbefore ↦ ?_
    cases hbefore
    refine (hround.ends place hplace hrounds).bind fun found middle hfound ↦ ?_
    have hleads : Leads place middle := hround.leads place found middle hfound
    have hmiddle : Within text middle := hplace.of_leads hleads
    have hshort : middle.rest.length < rounds := hround.length_lt hfound hrounds
    cases found with
    | none => exact endsAt_pure [] hmiddle
    | some value =>
      refine (follows_reached.ends middle hmiddle hshort).bind fun after _ hafter ↦ ?_
      cases hafter
      by_cases hahead : place.offset < middle.offset
      · simp only [if_pos hahead]
        have hless : middle.rest.length < place.rest.length := hleads.offset_lt_iff.mp hahead
        refine (ih hmiddle hshort (by omega) (by omega)).bind fun values last hlast ↦ ?_
        have hfurther := leads_repeatedly h.leads bound middle hlast
        exact endsAt_pure (value :: values) (hmiddle.of_leads hfurther)
      · simp only [if_neg hahead]
        exact endsAt_pure [] hmiddle

section Slots

variable {inner : Slot → Step Outline} {inner' : Slot → Reading Outline}

/-- What a keyword argument is read as, with the keyword. -/
theorem follows_supplied (h : ∀ slot, Follows text rounds allowed (inner slot) (inner' slot))
    (group : List Keyword) :
    Follows text rounds allowed
      (Step.optionally (Step.firstOf text (group.map fun keyword ↦ do
        let outline ← inner (.keyword keyword)
        pure (keyword, outline))))
      (Reading.optionally (Reading.firstOf (group.map fun keyword ↦ do
        let outline ← inner' (.keyword keyword)
        pure (keyword, outline)))) :=
  (followsBack_firstOf fun keyword _ ↦
    (h (.keyword keyword)).bind fun outline ↦ follows_pure (keyword, outline)).optionally

/-- A keyword argument that is supplied gets further. -/
theorem advances_of_supplied
    (hmoves : ∀ slot place outline after,
      (inner' slot place).result = some (outline, after) → slot.Moves place after)
    {group : List Keyword} {place middle : Place} {found : Keyword × Outline}
    (h : (Reading.optionally (Reading.firstOf (group.map fun keyword ↦ do
      let outline ← inner' (.keyword keyword)
      pure (keyword, outline))) place).result = some (some found, middle)) :
    Advances place middle := by
  rw [Reading.result_optionally] at h
  obtain ⟨read, hread, hfound⟩ : ∃ read, (Reading.firstOf (group.map fun keyword ↦ do
      let outline ← inner' (.keyword keyword)
      pure (keyword, outline)) place).result = some read ∧ read.2 = middle := by
    revert h
    generalize (Reading.firstOf _ place).result = result
    intro h
    cases result with
    | none => cases h
    | some read =>
      cases h
      exact ⟨_, rfl, rfl⟩
  obtain ⟨step, hstep, hresult⟩ := Reading.exists_of_result_firstOf hread
  obtain ⟨keyword, -, rfl⟩ := List.mem_map.mp hstep
  rw [Reading.result_bind] at hresult
  obtain ⟨⟨outline, after⟩, houtline, hpure⟩ := Option.bind_eq_some_iff.mp hresult
  cases hpure
  exact hfound ▸ (hmoves _ place outline after houtline).advances rfl

theorem endsAt_readSupplied (h : ∀ slot, Follows text rounds allowed (inner slot) (inner' slot))
    (hmoves : ∀ slot place outline after,
      (inner' slot place).result = some (outline, after) → slot.Moves place after)
    {group : List Keyword} {left bound : Nat} {place : Place} (supplied : List (String × Outline))
    (hplace : Within text place) (hrounds : place.rest.length < rounds)
    (hleft : place.rest.length < left) (hbound : place.rest.length < bound) :
    EndsAt text allowed (readSupplied text inner group left supplied)
      (Formulary.readSupplied inner' group bound supplied) place := by
  induction left generalizing bound place supplied with
  | zero => exact absurd hleft (Nat.not_lt_zero _)
  | succ left ih =>
    obtain ⟨bound, rfl⟩ := Nat.exists_eq_add_one_of_ne_zero (Nat.ne_zero_of_lt hbound)
    have hround := follows_supplied h group
    refine (hround.ends place hplace hrounds).bind fun found middle hfound ↦ ?_
    have hleads : Leads place middle := hround.leads place found middle hfound
    have hmiddle : Within text middle := hplace.of_leads hleads
    have hshort : middle.rest.length < rounds := hround.length_lt hfound hrounds
    cases found with
    | none => exact endsAt_pure supplied hmiddle
    | some read =>
      obtain ⟨keyword, outline⟩ := read
      dsimp only
      split
      · exact (follows_fail _).ends middle hmiddle hshort
      · have hless := (advances_of_supplied hmoves hfound).length_lt
        exact ih _ hmiddle hshort (by omega) (by omega)

theorem leads_readSupplied
    (hmoves : ∀ slot place outline after,
      (inner' slot place).result = some (outline, after) → slot.Moves place after)
    {group : List Keyword} {bound : Nat} {place after : Place} {supplied found : List (String × Outline)}
    (hresult : (Formulary.readSupplied inner' group bound supplied place).result = some (found, after)) :
    Leads place after := by
  have hensures : Reading.Ensures (Formulary.readSupplied inner' group bound supplied) place
      (fun _ ↦ True) fun _ after ↦ Leads place after := by
    refine ensures_readSupplied (fun _ _ ↦ trivial) (fun _ _ _ _ ↦ trivial) (fun keyword _ ↦ ?_) bound
      supplied (leads_refl place)
    exact fun middle hmiddle ↦ ⟨fun _ _ ↦ trivial, fun outline after hfound ↦
      hmiddle.trans (hmoves _ middle outline after hfound).1⟩
  exact hensures.result found after hresult

/-! ### Slots -/

/-- The bound that a reading takes from what remains is one that the machine needs not know. -/
theorem endsAt_remaining {run : Step α} {step : Nat → Reading α} {place : Place}
    (h : EndsAt text allowed run (step place.rest.length) place) :
    EndsAt text allowed run (Reading.remaining >>= step) place := by
  have hsame : ((Reading.remaining >>= step) place).events = (step place.rest.length place).events ∧
      ((Reading.remaining >>= step) place).result = (step place.rest.length place).result := by
    rw [Reading.bind_eq_of_some rfl]
    exact ⟨rfl, rfl⟩
  intro hallowed
  rw [hsame.1] at hallowed
  obtain ⟨stop, hrun, hboundary, hstop⟩ := h hallowed
  refine ⟨stop, ?_, hboundary, ?_⟩
  · rw [hsame.1, hsame.2, hrun]
  · rw [hsame.2]
    exact hstop

/-- A loop within the bound that a reading takes from what remains, and what comes after it. -/
theorem follows_loop {run : Step α} {step : Nat → Reading α} {next : α → Step β}
    {next' : α → Reading β}
    (hends : ∀ place, Within text place → place.rest.length < rounds →
      EndsAt text allowed run (step place.rest.length) place)
    (hleads : ∀ bound place value after, (step bound place).result = some (value, after) →
      Leads place after)
    (hnext : ∀ value, Follows text rounds allowed (next value) (next' value)) :
    Follows text rounds allowed (run >>= next) (do
      let bound ← Reading.remaining
      let value ← step bound
      next' value) := by
  refine ⟨fun place hplace hrounds ↦ endsAt_remaining ?_, fun place value after hresult ↦ ?_⟩
  · refine (hends place hplace hrounds).bind fun value middle hfound ↦ ?_
    have hmiddle := hleads _ place value middle hfound
    exact (hnext value).ends middle (hplace.of_leads hmiddle)
      (Nat.lt_of_le_of_lt hmiddle.suffix.length_le hrounds)
  · rw [Reading.bind_eq_of_some rfl, Reading.result_bind] at hresult
    obtain ⟨⟨found, middle⟩, hfound, hlater⟩ := Option.bind_eq_some_iff.mp hresult
    exact (hleads _ place found middle hfound).trans
      ((hnext found).leads middle value after hlater)

theorem follows_fillParts {catalog : Catalog}
    (h : ∀ slot, Follows text rounds allowed (inner slot) (inner' slot))
    (hmoves : ∀ slot place outline after,
      (inner' slot place).result = some (outline, after) → slot.Moves place after)
    (slot : Slot) :
    Follows text rounds allowed (fillParts text rounds catalog inner slot)
      (Formulary.fillParts catalog inner' slot) := by
  cases slot with
  | root base => exact (h _).bind fun part ↦ follows_atEnd.bind fun _ ↦ follows_pure _
  | call base =>
    refine (follows_symbol "(").bind fun _ ↦ ?_
    dsimp only
    split
    · exact follows_fail _
    · have hchosen := (followsBack_firstOf fun operator (_ : operator ∈ catalog.operators base) ↦
        (@follows_word text rounds allowed operator.name).bind fun _ ↦ follows_pure operator).toFollows
      exact hchosen.bind fun operator ↦ (h _).bind fun part ↦ (follows_symbol ")").bind fun _ ↦
        follows_pure _
  | choice kind =>
    have hchoices := (followsBack_firstOf
      fun slot (_ : slot ∈ [Slot.typed (.scalar kind), Slot.call (.scalar kind)]) ↦ h slot).toFollows
    exact hchoices.bind fun part ↦ follows_pure _
  | typed type =>
    cases type with
    | scalar kind => exact (follows_literal kind).bind fun value ↦ follows_pure _
    | series => exact follows_fail _
    | union alternatives =>
      simp only [fillParts, Formulary.fillParts]
      split
      · exact follows_fail _
      · exact (followsBack_firstOf fun type _ ↦ h _).toFollows.bind fun part ↦ follows_pure _
    | list element =>
      refine (follows_symbol "(").bind fun _ ↦ follows_loop (fun place hplace hrounds ↦ ?_)
        (fun bound place _ _ ↦ ?_) fun parts ↦ (follows_symbol ")").bind fun _ ↦ follows_pure _
      · exact endsAt_repeatedly (h _) hplace hrounds hrounds (Nat.lt_succ_self _)
      · exact leads_repeatedly (h _).leads (bound + 1) place
  | keywords group =>
    refine follows_loop (fun place hplace hrounds ↦ ?_) (fun bound place _ _ ↦ ?_)
      fun supplied ↦ follows_pure _
    · exact endsAt_readSupplied h hmoves [] hplace hrounds hrounds (Nat.lt_succ_self _)
    · exact leads_readSupplied hmoves
  | operator chosen => exact (follows_inOrder fun slot _ ↦ h slot).bind fun parts ↦ follows_pure _
  | keyword own =>
    exact (follows_word own.marker).bind fun _ ↦ (h _).bind fun value ↦ follows_pure _

/-- The machine fills slots in the same way, if nesting too deeply is a failure there too or does not
happen. -/
theorem follows_fill (catalog : Catalog) {limit : Nat} {limit' : Option Nat}
    (hlimit : limit' = some limit ∨ limit' = none ∧ ∀ event, allowed event → event.isTooDeep = false)
    (room : Nat) (slot : Slot) :
    Follows text rounds allowed (fill text rounds catalog limit' room slot)
      (Formulary.fill catalog limit room slot) := by
  induction room generalizing slot with
  | zero =>
    have hdeep : Follows text rounds allowed
        (Step.note (.entered slot) >>= fun _ ↦ Step.fail (.tooDeep limit) : Step Outline)
        (Formulary.fill catalog limit 0 slot) :=
      (follows_note (.entered slot)).bind fun _ ↦ follows_fail _
    rcases hlimit with rfl | ⟨rfl, hnever⟩
    · exact hdeep
    · refine ⟨fun place _ _ hallowed ↦ ?_, hdeep.leads⟩
      have hevent := hnever _ (hallowed (.failed ⟨place.offset, .tooDeep limit⟩) ?_)
      · cases hevent
      · rw [Formulary.fill, Reading.bind_eq_of_some rfl]
        simp [Outcome.events, Reading.note, Reading.fail]
  | succ room ih =>
    exact (follows_note (.entered slot)).bind fun _ ↦
      (follows_fillParts ih (fun _ _ _ _ ↦ moves_of_fill) slot).nested.bind fun outline ↦
        (follows_note (.filled outline)).bind fun _ ↦ follows_pure outline

end Slots

end Formulary.Cursor
