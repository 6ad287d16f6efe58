import Formulary.Proofs.Lists
import Formulary.Proofs.Reading.Reach
/-!
Two readings side by side. Two steps from one place resemble each other if they fail both or end at
one place with values that agree, if they get equally far, and if their complaints compare from
there on: complaints behind the reach of a step never come to light, so nothing is said of them.
For each way to compose steps a rule derives the resemblance from the parts. Steps after one another
have to account for how far they get, so `Parallel` puts that together with the resemblance. Main
definitions: `IsComparison`, `Resembles` and `Parallel`.
-/

set_option autoImplicit false
set_option relaxedAutoImplicit false

namespace Formulary

open Text

/-- A way to compare lists of complaints part by part. -/
structure IsComparison (compare : List Complaint → List Complaint → Prop) : Prop where
  refl : ∀ complaints, compare complaints complaints
  append : ∀ {first first' second second'}, compare first first' → compare second second' →
    compare (first ++ second) (first' ++ second')

theorem isComparison_perm : IsComparison List.Perm :=
  ⟨fun _ ↦ .refl _, fun hfirst hsecond ↦ hfirst.append hsecond⟩

theorem isComparison_true : IsComparison fun _ _ ↦ True :=
  ⟨fun _ ↦ trivial, fun _ _ ↦ trivial⟩

namespace Reading

variable {α β γ δ : Type}

/-- Two steps from one place fail both, or end at one place with values that agree; they get equally
far, and from there on their complaints compare. -/
structure Resembles (agree : α → β → Prop) (compare : List Complaint → List Complaint → Prop)
    (first : Reading α) (second : Reading β) (place : Place) : Prop where
  result : Option.Rel (fun found found' ↦ agree found.1 found'.1 ∧ found.2 = found'.2)
    (first place).result (second place).result
  reach : (first place).reach = (second place).reach
  complaints : ∀ offset, (first place).reach ≤ offset →
    compare (complaintsAt (first place).failures offset)
      (complaintsAt (second place).failures offset)

variable {agree : α → β → Prop} {agree' : γ → δ → Prop}
  {compare : List Complaint → List Complaint → Prop} {place : Place}
  {first : Reading α} {second : Reading β}

/-- Both steps fail, or both succeed. -/
theorem Resembles.cases (h : Resembles agree compare first second place) :
    (first place).result = none ∧ (second place).result = none ∨
      ∃ value value' after, (first place).result = some (value, after) ∧
        (second place).result = some (value', after) ∧ agree value value' := by
  have hresult := h.result
  generalize (first place).result = result, (second place).result = result' at hresult ⊢
  cases hresult with
  | none => exact .inl ⟨rfl, rfl⟩
  | @some found found' hfound =>
    obtain ⟨value, after⟩ := found
    obtain ⟨value', after'⟩ := found'
    obtain ⟨hagree, rfl⟩ := hfound
    exact .inr ⟨value, value', after, rfl, rfl, hagree⟩

theorem resembles_of_none (hfirst : (first place).result = none)
    (hsecond : (second place).result = none)
    (hreach : frontier (first place).failures = frontier (second place).failures)
    (hcomplaints : ∀ offset, frontier (first place).failures ≤ offset →
      compare (complaintsAt (first place).failures offset)
        (complaintsAt (second place).failures offset)) :
    Resembles agree compare first second place := by
  refine ⟨?_, ?_, ?_⟩
  · rw [hfirst, hsecond]
    exact .none
  · rw [Outcome.reach_of_none hfirst, Outcome.reach_of_none hsecond, hreach]
  · rw [Outcome.reach_of_none hfirst]
    exact hcomplaints

theorem resembles_of_some {value : α} {value' : β} {after : Place}
    (hfirst : (first place).result = some (value, after))
    (hsecond : (second place).result = some (value', after)) (hagree : agree value value')
    (hreach : max (frontier (first place).failures) after.offset =
      max (frontier (second place).failures) after.offset)
    (hcomplaints : ∀ offset, max (frontier (first place).failures) after.offset ≤ offset →
      compare (complaintsAt (first place).failures offset)
        (complaintsAt (second place).failures offset)) :
    Resembles agree compare first second place := by
  refine ⟨?_, ?_, ?_⟩
  · rw [hfirst, hsecond]
    exact .some ⟨hagree, rfl⟩
  · rw [Outcome.reach_of_some hfirst, Outcome.reach_of_some hsecond, hreach]
  · rw [Outcome.reach_of_some hfirst]
    exact hcomplaints

theorem resembles_refl (hcompare : IsComparison compare) {step : Reading α} {agree : α → α → Prop}
    (hagree : ∀ value, agree value value) : Resembles agree compare step step place := by
  refine ⟨?_, rfl, fun offset _ ↦ hcompare.refl _⟩
  cases (step place).result with
  | none => exact .none
  | some found => exact .some ⟨hagree found.1, rfl⟩

/-! ### Alternatives -/

theorem Resembles.trying (h : Resembles agree compare first second place) :
    Resembles agree compare (trying first) (trying second) place := by
  refine ⟨?_, ?_, ?_⟩
  · rw [result_trying, result_trying]
    exact h.result
  · rw [reach_trying, reach_trying]
    exact h.reach
  · rw [reach_trying, failures_trying, failures_trying]
    exact h.complaints

theorem Resembles.orElse (hcompare : IsComparison compare) {third : Reading α} {fourth : Reading β}
    (hfirst : Resembles agree compare first second place)
    (hsecond : Resembles agree compare third fourth place) :
    Resembles agree compare (orElse first third) (orElse second fourth) place := by
  obtain ⟨hnone, hnone'⟩ | ⟨value, value', after, hsome, hsome', -⟩ := hfirst.cases
  · refine ⟨?_, ?_, fun offset hoffset ↦ ?_⟩
    · rw [orElse_eq_of_none hnone, orElse_eq_of_none hnone']
      exact hsecond.result
    · rw [reach_orElse_of_none hnone, reach_orElse_of_none hnone', hfirst.reach, hsecond.reach]
    · rw [reach_orElse_of_none hnone] at hoffset
      rw [failures_orElse_of_none hnone, failures_orElse_of_none hnone', complaintsAt_append,
        complaintsAt_append]
      exact hcompare.append
        (hfirst.complaints offset (Nat.le_trans (Nat.le_max_left _ _) hoffset))
        (hsecond.complaints offset (Nat.le_trans (Nat.le_max_right _ _) hoffset))
  · have hsame := orElse_eq_of_some hsome third
    have hsame' := orElse_eq_of_some hsome' fourth
    refine ⟨?_, ?_, ?_⟩ <;> rw [hsame, hsame']
    · exact hfirst.result
    · exact hfirst.reach
    · exact hfirst.complaints

theorem Resembles.firstOf (hcompare : IsComparison compare) {steps : List (Reading α)}
    {steps' : List (Reading β)}
    (h : List.Forall₂ (fun step step' ↦ Resembles agree compare step step' place) steps steps') :
    Resembles agree compare (firstOf steps) (firstOf steps') place := by
  induction h with
  | nil => exact resembles_of_none rfl rfl rfl fun _ _ ↦ hcompare.refl _
  | cons hstep hsteps ih => exact hstep.trying.orElse hcompare ih

/-- Settled steps in another order, each of them matched by one that resembles it, give as good a
choice, if nothing is asked of the values and the complaints. -/
theorem resembles_firstOf_of_settled {steps : List (Reading α)} {steps' : List (Reading β)}
    (hsettled : Settled steps place) (hsettled' : Settled steps' place)
    (hmatch : ∀ step ∈ steps, ∃ step' ∈ steps',
      Resembles (fun _ _ ↦ True) (fun _ _ ↦ True) step step' place)
    (hmatch' : ∀ step' ∈ steps', ∃ step ∈ steps,
      Resembles (fun _ _ ↦ True) (fun _ _ ↦ True) step step' place) :
    Resembles (fun _ _ ↦ True) (fun _ _ ↦ True) (Reading.firstOf steps) (Reading.firstOf steps')
      place := by
  cases hresult : (Reading.firstOf steps place).result with
  | some found =>
    obtain ⟨value, after⟩ := found
    obtain ⟨step, hstep, htaken⟩ := exists_of_result_firstOf hresult
    obtain ⟨step', hstep', hsame⟩ := hmatch step hstep
    obtain ⟨hnone, -⟩ | ⟨value, value', middle, hsome, hsome', -⟩ := hsame.cases
    · rw [htaken] at hnone
      exact nomatch hnone
    · obtain ⟨rfl, rfl⟩ := Prod.mk.inj (Option.some.inj (hsome.symm.trans htaken))
      obtain ⟨-, hfrontier⟩ := hsettled.firstOf hstep hsome
      obtain ⟨⟨value', hresult'⟩, hfrontier'⟩ := hsettled'.firstOf hstep' hsome'
      refine resembles_of_some hresult hresult' trivial ?_ fun _ _ ↦ trivial
      rw [Nat.max_eq_right hfrontier, Nat.max_eq_right hfrontier']
  | none =>
    have hnone := result_firstOf_eq_none_iff.mp hresult
    have hnone' : ∀ step' ∈ steps', (step' place).result = none := by
      intro step' hstep'
      obtain ⟨step, hstep, hsame⟩ := hmatch' step' hstep'
      obtain ⟨-, hother⟩ | ⟨value, value', middle, hsome, -⟩ := hsame.cases
      · exact hother
      · rw [hnone step hstep] at hsome
        exact nomatch hsome
    have hreach (step : Reading α) (step' : Reading β) (hstep : step ∈ steps) (hstep' : step' ∈ steps')
        (hsame : Resembles (fun _ _ ↦ True) (fun _ _ ↦ True) step step' place) :
        frontier (step place).failures = frontier (step' place).failures := by
      have hreach := hsame.reach
      rwa [Outcome.reach_of_none (hnone step hstep), Outcome.reach_of_none (hnone' step' hstep')]
        at hreach
    refine resembles_of_none hresult (result_firstOf_eq_none_iff.mpr hnone') ?_ fun _ _ ↦ trivial
    rw [failures_firstOf_of_none hnone, failures_firstOf_of_none hnone']
    refine Nat.le_antisymm (frontier_flatMap_le fun step hstep ↦ ?_)
      (frontier_flatMap_le fun step' hstep' ↦ ?_)
    · obtain ⟨step', hstep', hsame⟩ := hmatch step hstep
      exact ⟨step', hstep', Nat.le_of_eq (hreach step step' hstep hstep' hsame)⟩
    · obtain ⟨step, hstep, hsame⟩ := hmatch' step' hstep'
      exact ⟨step, hstep, Nat.le_of_eq (hreach step step' hstep hstep' hsame).symm⟩

theorem Resembles.optionally (h : Resembles agree compare first second place) :
    Resembles (Option.Rel agree) compare (optionally first) (optionally second) place := by
  obtain ⟨hnone, hnone'⟩ | ⟨value, value', after, hsome, hsome', hagree⟩ := h.cases
  · have hreach := h.reach
    have hcomplaints := h.complaints
    rw [Outcome.reach_of_none hnone, Outcome.reach_of_none hnone'] at hreach
    rw [Outcome.reach_of_none hnone] at hcomplaints
    have hleft : (Reading.optionally first place).result = some (none, place) := by
      rw [optionally_eq_of_none hnone]
    have hleft' : (Reading.optionally second place).result = some (none, place) := by
      rw [optionally_eq_of_none hnone']
    refine resembles_of_some hleft hleft' .none ?_ ?_
    · rw [failures_optionally, failures_optionally, hreach]
    · rw [failures_optionally, failures_optionally]
      exact fun offset hoffset ↦ hcomplaints offset (Nat.le_trans (Nat.le_max_left _ _) hoffset)
  · have hreach := h.reach
    have hcomplaints := h.complaints
    rw [Outcome.reach_of_some hsome, Outcome.reach_of_some hsome'] at hreach
    rw [Outcome.reach_of_some hsome] at hcomplaints
    have htaken : (Reading.optionally first place).result = some (some value, after) := by
      rw [optionally_eq_of_some hsome]
    have htaken' : (Reading.optionally second place).result = some (some value', after) := by
      rw [optionally_eq_of_some hsome']
    refine resembles_of_some htaken htaken' (.some hagree) ?_ ?_
    · rw [failures_optionally, failures_optionally, hreach]
    · rw [failures_optionally, failures_optionally]
      exact hcomplaints

/-! ### Steps after one another -/

/-- Two steps that account for themselves and resemble each other. -/
structure Parallel (agree : α → β → Prop) (compare : List Complaint → List Complaint → Prop)
    (first : Reading α) (second : Reading β) (place : Place) : Prop
    extends Resembles agree compare first second place where
  first : Accounts first place
  second : Accounts second place

theorem Parallel.mono {wider : α → β → Prop} (h : Parallel agree compare first second place)
    (hwider : ∀ value value', agree value value' → wider value value') :
    Parallel wider compare first second place := by
  refine ⟨⟨?_, h.reach, h.complaints⟩, h.first, h.second⟩
  have hresult := h.result
  generalize (first place).result = result, (second place).result = result' at hresult ⊢
  cases hresult with
  | none => exact .none
  | some hfound => exact .some ⟨hwider _ _ hfound.1, hfound.2⟩

variable (hcompare : IsComparison compare)

include hcompare

theorem parallel_refl {step : Reading α} {agree : α → α → Prop} (h : Accounts step place)
    (hagree : ∀ value, agree value value) : Parallel agree compare step step place :=
  ⟨resembles_refl hcompare hagree, h, h⟩

theorem parallel_pure {value : α} {value' : β} (h : agree value value') :
    Parallel agree compare (pure value) (pure value') place :=
  ⟨resembles_of_some rfl rfl h rfl fun _ _ ↦ hcompare.refl _, accounts_pure value,
    accounts_pure value'⟩

theorem parallel_fail (complaint : Complaint) :
    Parallel agree compare (fail complaint) (fail complaint) place :=
  ⟨resembles_of_none rfl rfl rfl fun _ _ ↦ hcompare.refl _, accounts_fail complaint,
    accounts_fail complaint⟩

theorem parallel_note {event event' : Nat → Event}
    (hoffset : (event place.offset).offset = place.offset)
    (hoffset' : (event' place.offset).offset = place.offset)
    (hquiet : failuresOf [event place.offset] = []) (hquiet' : failuresOf [event' place.offset] = []) :
    Parallel Eq compare (note event) (note event') place := by
  have hfailures : (note event place).failures = [] := hquiet
  have hfailures' : (note event' place).failures = [] := hquiet'
  refine ⟨resembles_of_some rfl rfl rfl ?_ fun offset _ ↦ ?_, accounts_note hoffset hquiet,
    accounts_note hoffset' hquiet'⟩
  · rw [hfailures, hfailures']
  · rw [hfailures, hfailures']
    exact hcompare.refl _

theorem Parallel.bind {next : α → Reading γ} {next' : β → Reading δ}
    (hfirst : Parallel agree compare first second place)
    (hnext : ∀ value value' middle, agree value value' →
      (first place).result = some (value, middle) →
        (second place).result = some (value', middle) →
          Parallel agree' compare (next value) (next' value') middle) :
    Parallel agree' compare (first >>= next) (second >>= next') place := by
  obtain ⟨hnone, hnone'⟩ | ⟨value, value', middle, hsome, hsome', hagree⟩ := hfirst.cases
  · refine ⟨⟨?_, ?_, ?_⟩, ?_, ?_⟩
    · rw [bind_eq_of_none hnone, bind_eq_of_none hnone']
      exact .none
    · rw [reach_bind_of_none hnone, reach_bind_of_none hnone']
      exact hfirst.reach
    · rw [reach_bind_of_none hnone, failures_bind_of_none hnone, failures_bind_of_none hnone']
      exact hfirst.complaints
    · exact accounts_bind hfirst.first fun value middle hsome ↦ nomatch hnone.symm.trans hsome
    · exact accounts_bind hfirst.second fun value middle hsome ↦ nomatch hnone'.symm.trans hsome
  · have hrest := hnext value value' middle hagree hsome hsome'
    have hreach := reach_bind_of_some hsome hrest.first.start
    have hreach' := reach_bind_of_some hsome' hrest.second.start
    refine ⟨⟨?_, ?_, fun offset hoffset ↦ ?_⟩, ?_, ?_⟩
    · rw [bind_eq_of_some hsome, bind_eq_of_some hsome']
      exact hrest.result
    · rw [hreach, hreach', hfirst.reach, hrest.reach]
    · rw [hreach] at hoffset
      rw [failures_bind_of_some hsome, failures_bind_of_some hsome', complaintsAt_append,
        complaintsAt_append]
      exact hcompare.append
        (hfirst.complaints offset (Nat.le_trans (Nat.le_max_left _ _) hoffset))
        (hrest.complaints offset (Nat.le_trans (Nat.le_max_right _ _) hoffset))
    · refine accounts_bind hfirst.first fun other after hother ↦ ?_
      obtain ⟨rfl, rfl⟩ := Prod.mk.inj (Option.some.inj (hsome.symm.trans hother))
      exact hrest.first
    · refine accounts_bind hfirst.second fun other after hother ↦ ?_
      obtain ⟨rfl, rfl⟩ := Prod.mk.inj (Option.some.inj (hsome'.symm.trans hother))
      exact hrest.second

theorem parallel_firstOf {steps : List (Reading α)} {steps' : List (Reading β)} (hsome : steps ≠ [])
    (h : List.Forall₂ (fun step step' ↦ Parallel agree compare step step' place) steps steps') :
    Parallel agree compare (firstOf steps) (firstOf steps') place := by
  refine ⟨Resembles.firstOf hcompare (h.imp fun _ _ hstep ↦ hstep.toResembles),
    accounts_firstOf hsome fun step hstep ↦ ?_, accounts_firstOf ?_ fun step' hstep' ↦ ?_⟩
  · obtain ⟨step', -, hstep'⟩ := exists_mem_of_forall₂ h hstep
    exact hstep'.first
  · rintro rfl
    exact hsome (List.forall₂_nil_right_iff.mp h)
  · obtain ⟨step, -, hstep⟩ := exists_mem_of_forall₂ h.flip hstep'
    exact hstep.second

omit hcompare in
theorem Parallel.trying (h : Parallel agree compare first second place) :
    Parallel agree compare (trying first) (trying second) place :=
  ⟨h.toResembles.trying, accounts_trying h.first, accounts_trying h.second⟩

omit hcompare in
theorem Parallel.nested (h : Parallel agree compare first second place) :
    Parallel agree compare (nested first) (nested second) place :=
  ⟨⟨h.result, h.reach, h.complaints⟩, h.first.nested, h.second.nested⟩

omit hcompare in
theorem Parallel.optionally (h : Parallel agree compare first second place) :
    Parallel (Option.Rel agree) compare (optionally first) (optionally second) place :=
  ⟨h.toResembles.optionally, accounts_optionally h.first, accounts_optionally h.second⟩

/-- Of no steps at all none can be taken, and then nothing is read. -/
theorem parallel_optionally_firstOf {steps : List (Reading α)} {steps' : List (Reading β)}
    (h : List.Forall₂ (fun step step' ↦ Parallel agree compare step step' place) steps steps') :
    Parallel (Option.Rel agree) compare (optionally (firstOf steps)) (optionally (firstOf steps'))
      place := by
  refine ⟨(Resembles.firstOf hcompare (h.imp fun _ _ hstep ↦ hstep.toResembles)).optionally,
    accounts_optionally_firstOf fun step hstep ↦ ?_,
    accounts_optionally_firstOf fun step' hstep' ↦ ?_⟩
  · obtain ⟨step', -, hstep'⟩ := exists_mem_of_forall₂ h hstep
    exact hstep'.first
  · obtain ⟨step, -, hstep⟩ := exists_mem_of_forall₂ h.flip hstep'
    exact hstep.second

/-! ### Loops -/

theorem parallel_inOrder {steps : List (Reading α)} {steps' : List (Reading β)}
    (h : List.Forall₂ (fun step step' ↦ ∀ place, Parallel agree compare step step' place)
      steps steps') :
    Parallel (List.Forall₂ agree) compare (inOrder steps) (inOrder steps') place := by
  induction h generalizing place with
  | nil => exact parallel_pure hcompare .nil
  | cons hstep hsteps ih =>
    refine (hstep place).bind hcompare fun value value' middle hvalue _ _ ↦ ?_
    refine ih.bind hcompare fun values values' after hvalues _ _ ↦ ?_
    exact parallel_pure hcompare (.cons hvalue hvalues)

theorem parallel_repeatedly
    (h : ∀ place, Parallel agree compare first second place) (bound : Nat) :
    Parallel (List.Forall₂ agree) compare (repeatedly first bound) (repeatedly second bound)
      place := by
  induction bound generalizing place with
  | zero => exact parallel_pure hcompare .nil
  | succ bound ih =>
    have hreached (place : Place) : Parallel Eq compare reached reached place :=
      parallel_refl hcompare accounts_reached fun _ ↦ rfl
    refine (hreached place).bind hcompare fun before before' middle hbefore _ _ ↦ ?_
    refine (h middle).trying.optionally.bind hcompare fun found found' after hfound _ _ ↦ ?_
    cases hfound with
    | none => exact parallel_pure hcompare .nil
    | some hvalue =>
      refine (hreached after).bind hcompare fun there there' last hthere _ _ ↦ ?_
      rw [hbefore, hthere]
      split
      · refine ih.bind hcompare fun values values' after hvalues _ _ ↦ ?_
        exact parallel_pure hcompare (.cons hvalue hvalues)
      · exact parallel_pure hcompare .nil

end Reading

end Formulary
