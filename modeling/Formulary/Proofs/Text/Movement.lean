import Formulary.Text.Place
/-!
Moving forward. A place leads to another one of the same text if the other is reached by moving
past some characters. Every move of `Place` leads from where it starts to where it ends, and the
offset tells whether it got any further. Main definitions: `Place.Leads`, `Place.LeadsOver`, which
says what the characters are like, and `Place.Advances`, a move that gets further.
-/

set_option autoImplicit false
set_option relaxedAutoImplicit false

namespace Formulary.Text.Place

variable {place middle after : Place}

/-- Moving past some characters leads from one place to another. -/
def Leads (place after : Place) : Prop :=
  ∃ passed, place.rest = passed ++ after.rest ∧ after.offset = place.offset + byteLength passed

theorem leads_refl (place : Place) : Leads place place :=
  ⟨[], rfl, rfl⟩

theorem Leads.trans (hfirst : Leads place middle) (hsecond : Leads middle after) :
    Leads place after := by
  obtain ⟨first, hfirstRest, hfirstOffset⟩ := hfirst
  obtain ⟨second, hsecondRest, hsecondOffset⟩ := hsecond
  refine ⟨first ++ second, ?_, ?_⟩
  · rw [hfirstRest, hsecondRest, List.append_assoc]
  · rw [hsecondOffset, hfirstOffset, byteLength_append, Nat.add_assoc]

theorem Leads.offset_le (h : Leads place after) : place.offset ≤ after.offset := by
  obtain ⟨passed, -, hoffset⟩ := h
  omega

theorem Leads.suffix (h : Leads place after) : after.rest <:+ place.rest := by
  obtain ⟨passed, hrest, -⟩ := h
  exact ⟨passed, hrest.symm⟩

theorem byteLength_eq_zero_iff {text : List Char} : byteLength text = 0 ↔ text = [] := by
  cases text with
  | nil => simp
  | cons character text =>
    have hpositive := character.utf8Size_pos
    simp only [byteLength_cons, reduceCtorEq, iff_false]
    omega

/-- A move gets further exactly if it leaves less of the text. -/
theorem Leads.offset_lt_iff (h : Leads place after) :
    place.offset < after.offset ↔ after.rest.length < place.rest.length := by
  obtain ⟨passed, hrest, hoffset⟩ := h
  have hlength : place.rest.length = passed.length + after.rest.length := by
    rw [hrest, List.length_append]
  have hzero := @byteLength_eq_zero_iff passed
  rw [← List.length_eq_zero_iff] at hzero
  omega

/-- A move ahead: the reading gets further along the same text. -/
def Advances (place after : Place) : Prop :=
  Leads place after ∧ place.offset < after.offset

theorem Leads.trans_advances (hfirst : Leads place middle) (hsecond : Advances middle after) :
    Advances place after :=
  ⟨hfirst.trans hsecond.1, Nat.lt_of_le_of_lt hfirst.offset_le hsecond.2⟩

theorem Advances.trans_leads (hfirst : Advances place middle) (hsecond : Leads middle after) :
    Advances place after :=
  ⟨hfirst.1.trans hsecond, Nat.lt_of_lt_of_le hfirst.2 hsecond.offset_le⟩

theorem Advances.length_lt (h : Advances place after) : after.rest.length < place.rest.length :=
  h.1.offset_lt_iff.mp h.2

theorem Leads.advances (h : Leads place after) (hlength : after.rest.length < place.rest.length) :
    Advances place after :=
  ⟨h, h.offset_lt_iff.mpr hlength⟩

/-- A place of the same text is known by what remains. -/
theorem Leads.eq_of_rest_eq {other : Place} (h : Leads place after) (hother : Leads place other)
    (hrest : after.rest = other.rest) : after = other := by
  obtain ⟨passed, hpassed, hoffset⟩ := h
  obtain ⟨passed', hpassed', hoffset'⟩ := hother
  have hsame : passed = passed' := by
    rw [hpassed, hrest] at hpassed'
    exact List.append_cancel_right hpassed'
  cases after
  cases other
  simp_all

/-- Of two places of the same text, the one that leaves more leads to the other. -/
theorem Leads.of_suffix {other : Place} (h : Leads place after) (hother : Leads place other)
    (hsuffix : other.rest <:+ after.rest) : Leads after other := by
  obtain ⟨passed, hpassed, hoffset⟩ := h
  obtain ⟨passed', hpassed', hoffset'⟩ := hother
  obtain ⟨between, hbetween⟩ := hsuffix
  have hsame : passed' = passed ++ between := by
    rw [hpassed, ← hbetween, ← List.append_assoc] at hpassed'
    exact (List.append_cancel_right hpassed').symm
  refine ⟨between, hbetween.symm, ?_⟩
  rw [hoffset', hoffset, hsame, byteLength_append, Nat.add_assoc]

/-- A place of the same text is known by its offset. -/
theorem Leads.eq_of_offset_eq {other : Place} (h : Leads place after) (hother : Leads place other)
    (hoffset : after.offset = other.offset) : after = other := by
  have hbetween {first second : Place} (hleads : Leads first second)
      (hsame : first.offset = second.offset) : first.rest = second.rest := by
    have hlength : ¬ second.rest.length < first.rest.length :=
      fun hless ↦ Nat.ne_of_lt (hleads.offset_lt_iff.mpr hless) hsame
    exact (hleads.suffix.eq_of_length_le (Nat.le_of_not_lt hlength)).symm
  refine h.eq_of_rest_eq hother ?_
  rcases List.suffix_or_suffix_of_suffix h.suffix hother.suffix with hsuffix | hsuffix
  · exact (hbetween (hother.of_suffix h hsuffix) hoffset.symm).symm
  · exact hbetween (h.of_suffix hother hsuffix) hoffset

theorem leads_past (place : Place) (count : Nat) : Leads place (place.past count) :=
  ⟨place.rest.take count, (List.take_append_drop count place.rest).symm, rfl⟩

theorem leads_skip (place : Place) (inClass : Char → Bool) : Leads place (place.skip inClass) :=
  leads_past place _

/-- A skip divides what remains into the run and the rest. -/
theorem skip_eq (place : Place) (inClass : Char → Bool) :
    place.skip inClass =
      ⟨place.offset + byteLength (place.run inClass), place.rest.dropWhile inClass⟩ := by
  have hsplit : place.rest = place.run inClass ++ place.rest.dropWhile inClass :=
    List.takeWhile_append_dropWhile.symm
  have htake : place.rest.take (place.run inClass).length = place.run inClass :=
    (congrArg (List.take (place.run inClass).length) hsplit).trans List.take_left
  have hdrop : place.rest.drop (place.run inClass).length = place.rest.dropWhile inClass :=
    (congrArg (List.drop (place.run inClass).length) hsplit).trans List.drop_left
  rw [skip, past, htake, hdrop]

theorem advances_skip {inClass : Char → Bool} (h : place.run inClass ≠ []) :
    Advances place (place.skip inClass) := by
  refine (leads_skip place inClass).advances ?_
  have hsplit := congrArg List.length (@List.takeWhile_append_dropWhile _ inClass place.rest)
  have hrun := List.length_pos_iff.mpr h
  rw [List.length_append] at hsplit
  simp only [run] at hrun
  simp only [skip_eq]
  omega

theorem eat?_eq_some {symbol : List Char} (h : place.eat? symbol = some after) :
    place.rest = symbol ++ after.rest ∧ after.offset = place.offset + byteLength symbol := by
  simp only [eat?, Option.ite_none_right_eq_some, Option.some.injEq, List.isPrefixOf_iff_prefix]
    at h
  obtain ⟨⟨rest, hrest⟩, rfl⟩ := h
  simp [past, ← hrest]

theorem leads_of_eat? {symbol : List Char} (h : place.eat? symbol = some after) :
    Leads place after :=
  ⟨symbol, eat?_eq_some h⟩

theorem advances_of_eat? {symbol : List Char} (hsymbol : symbol ≠ [])
    (h : place.eat? symbol = some after) : Advances place after := by
  refine (leads_of_eat? h).advances ?_
  rw [(eat?_eq_some h).1, List.length_append]
  have hlength := List.length_pos_iff.mpr hsymbol
  omega

/-- A symbol is eaten exactly if the text goes on with it. -/
theorem eat?_append (offset : Nat) (symbol rest : List Char) :
    eat? ⟨offset, symbol ++ rest⟩ symbol = some ⟨offset + byteLength symbol, rest⟩ := by
  simp [eat?, past]

theorem exists_eat?_of_rest {symbol rest : List Char} (h : place.rest = symbol ++ rest) :
    ∃ eaten, place.eat? symbol = some eaten ∧ eaten.rest = rest := by
  obtain ⟨offset, text⟩ := place
  obtain rfl : text = symbol ++ rest := h
  exact ⟨_, eat?_append offset symbol rest, rfl⟩

theorem eat?_eq_none_iff {symbol : List Char} :
    place.eat? symbol = none ↔ ¬ symbol <+: place.rest := by
  simp [eat?]

/-- A place that stands in a text leads to places that stand in it. -/
theorem Within.of_leads {text : List Char} (h : Within text place) (hleads : Leads place after) :
    Within text after := by
  obtain ⟨before, htext, hoffset⟩ := h
  obtain ⟨passed, hrest, hafter⟩ := hleads
  refine ⟨before ++ passed, ?_, ?_⟩
  · rw [htext, hrest, List.append_assoc]
  · rw [hafter, hoffset, byteLength_append]

/-! ### Moves over characters of a class -/

variable {inClass : Char → Bool}

/-- Moving past characters of a class leads from one place to another. -/
def LeadsOver (inClass : Char → Bool) (place after : Place) : Prop :=
  ∃ passed, (∀ character ∈ passed, inClass character = true) ∧
    place.rest = passed ++ after.rest ∧ after.offset = place.offset + byteLength passed

theorem LeadsOver.leads (h : LeadsOver inClass place after) : Leads place after := by
  obtain ⟨passed, -, hpassed⟩ := h
  exact ⟨passed, hpassed⟩

theorem leadsOver_refl (place : Place) : LeadsOver inClass place place :=
  ⟨[], nofun, rfl, rfl⟩

theorem LeadsOver.trans (hfirst : LeadsOver inClass place middle)
    (hsecond : LeadsOver inClass middle after) : LeadsOver inClass place after := by
  obtain ⟨first, hfirstClass, hfirstRest, hfirstOffset⟩ := hfirst
  obtain ⟨second, hsecondClass, hsecondRest, hsecondOffset⟩ := hsecond
  refine ⟨first ++ second, ?_, ?_, ?_⟩
  · intro character hcharacter
    exact (List.mem_append.mp hcharacter).elim (hfirstClass _) (hsecondClass _)
  · rw [hfirstRest, hsecondRest, List.append_assoc]
  · rw [hsecondOffset, hfirstOffset, byteLength_append, Nat.add_assoc]

theorem leadsOver_of_eat? {symbol : List Char} (hsymbol : symbol.all inClass = true)
    (h : place.eat? symbol = some after) : LeadsOver inClass place after :=
  ⟨symbol, List.all_eq_true.mp hsymbol, eat?_eq_some h⟩

theorem leadsOver_skip {narrower : Char → Bool}
    (h : ∀ character, narrower character = true → inClass character = true) :
    LeadsOver inClass place (place.skip narrower) := by
  rw [skip_eq]
  refine ⟨place.run narrower, ?_, List.takeWhile_append_dropWhile.symm, rfl⟩
  intro character hcharacter
  exact h character (List.all_eq_true.mp List.all_takeWhile character hcharacter)

end Formulary.Text.Place
