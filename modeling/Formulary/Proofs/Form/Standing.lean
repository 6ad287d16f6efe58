import Formulary.Proofs.Form.Sequence
import Formulary.Proofs.Form.Swapped
/-!
Where the members of groups stand in a text. `Stands` says which members of a group, or of the whole
text, come before a place and which from there on. A text behind some forms may be put in the place of
another one without changing them (`Sequence.replace`), so a swap among the members from a place on is
a swap of the whole (`Stands.swapped`). Main definitions: `StartsToken`, `EndsInBlank`,
`Replaces` and `Stands`.
-/

set_option autoImplicit false
set_option relaxedAutoImplicit false

namespace Formulary

open Text Place

/-! ### Texts that are put in the place of others -/

/-- A text goes on, and not with separators. -/
def StartsToken (text : List Char) : Prop :=
  text ≠ [] ∧ dropSeparators text = text

/-- A text does not end in anything but a blank. -/
def EndsInBlank (text : List Char) : Prop :=
  ∀ character ∈ text.getLast?, isBlank character = true

theorem EndsInBlank.of_suffix {text behind : List Char} (h : EndsInBlank text)
    (hsuffix : behind <:+ text) : EndsInBlank behind := by
  obtain ⟨earlier, rfl⟩ := hsuffix
  exact fun character hcharacter ↦ h character (List.mem_getLast?_append_of_mem_getLast? hcharacter)

/-- Behind some text, another text is put in the place of what comes next: separators end where they
ended, and so does a word. There may be nothing any more. -/
structure Replaces (taken old new : List Char) : Prop where
  startsToken : StartsToken old
  unseparated : dropSeparators new = new
  ends : EndsInBlank taken ∨ (isDelimited old = true → isDelimited new = true)

theorem Replaces.of_suffix {taken taken' old new : List Char} (h : Replaces taken old new)
    (hsuffix : taken' <:+ taken) : Replaces taken' old new :=
  ⟨h.startsToken, h.unseparated, h.ends.imp_left (EndsInBlank.of_suffix · hsuffix)⟩

/-- Separators end at the same place, and a comment does not go on into what comes next. -/
theorem drop_separatorLength_replace {taken kept old new : List Char} {inComment : Bool}
    (hold : StartsToken old) (hnew : dropSeparators new = new)
    (h : (taken ++ old).drop (separatorLength inComment (taken ++ old)) = kept ++ old) :
    (taken ++ new).drop (separatorLength inComment (taken ++ new)) = kept ++ new := by
  induction taken generalizing inComment with
  | nil =>
    rw [List.nil_append] at h ⊢
    cases inComment with
    | false =>
      obtain rfl : kept = [] := List.self_eq_append_left.mp (hold.2.symm.trans h)
      exact hnew
    | true =>
      cases old with
      | nil => exact absurd rfl hold.1
      | cons character old =>
        have hlength := congrArg List.length h
        simp only [separatorLength, if_true, List.drop_succ_cons, List.length_drop, List.length_append,
          List.length_cons] at hlength
        omega
  | cons character taken ih =>
    rw [List.cons_append, separatorLength] at h ⊢
    split_ifs at h ⊢ with hcomment hblank hopens
    · exact ih h
    · exact ih h
    · exact ih h
    · obtain rfl : character :: taken = kept := List.append_cancel_right h
      rfl

theorem exists_taken_of_dropSeparators {text kept old : List Char}
    (h : dropSeparators text = kept ++ old) :
    ∃ taken, text = taken ++ old ∧ kept <:+ taken ∧ ∀ {new : List Char}, StartsToken old →
      dropSeparators new = new → dropSeparators (taken ++ new) = kept ++ new := by
  obtain ⟨separators, hseparators⟩ := dropSeparators_suffix text
  rw [h, ← List.append_assoc] at hseparators
  subst hseparators
  exact ⟨separators ++ kept, rfl, List.suffix_append _ _,
    fun hold hnew ↦ drop_separatorLength_replace hold hnew h⟩

theorem not_isBlank_of_isWordCharacter {character : Char} (h : isWordCharacter character = true) :
    isBlank character = false := by
  simp only [isWordCharacter, Bool.not_eq_true', Bool.or_eq_false_iff] at h
  exact h.1

/-- Behind a token that does not end in a blank, whatever ended the token still does. -/
theorem Replaces.isDelimited {token taken old new : List Char} {last : Char}
    (h : Replaces (token ++ taken) old new) (hlast : token.getLast? = some last)
    (hblank : isBlank last = false) (hends : Formulary.isDelimited (taken ++ old) = true) :
    Formulary.isDelimited (taken ++ new) = true := by
  cases taken with
  | nil =>
    refine h.ends.elim (fun hblanks ↦ ?_) fun hdelimited ↦ hdelimited hends
    have hnot := hblanks last (by rwa [List.append_nil])
    rw [hblank] at hnot
    exact nomatch hnot
  | cons character taken => exact hends

/-- A string ends with its closing quote, whatever comes next. -/
theorem QuotedBody.exists_taken {text body rest : List Char} (h : QuotedBody text body rest) :
    ∃ taken, text = taken ++ rest ∧ taken.getLast? = some '"' ∧
      ∀ new, QuotedBody (taken ++ new) body new := by
  induction h with
  | close rest => exact ⟨['"'], rfl, rfl, fun new ↦ .close new⟩
  | @escape letter character text body rest hletter hbody ih =>
    obtain ⟨taken, rfl, hlast, hnew⟩ := ih
    refine ⟨'\\' :: letter :: taken, rfl, ?_, fun new ↦ .escape hletter (hnew new)⟩
    exact @List.mem_getLast?_append_of_mem_getLast? _ ['\\', letter] _ _ hlast
  | @plain character text body rest hquote hbackslash hbody ih =>
    obtain ⟨taken, rfl, hlast, hnew⟩ := ih
    refine ⟨character :: taken, rfl, ?_, fun new ↦ .plain hquote hbackslash (hnew new)⟩
    exact @List.mem_getLast?_append_of_mem_getLast? _ [character] _ _ hlast

/-- What comes behind some forms does not matter to them. -/
theorem Sequence.replace {text kept old : List Char} {forms : List Form}
    (h : Sequence text forms (kept ++ old)) :
    ∃ taken, text = taken ++ old ∧
      ∀ new, Replaces taken old new → Sequence (taken ++ new) forms (kept ++ new) := by
  generalize hrest : kept ++ old = rest at h
  induction h generalizing kept with
  | done rest => exact ⟨kept, hrest.symm, fun new _ ↦ .done _⟩
  | @word word text rest forms hsome hword hends hlater ih =>
    obtain ⟨behind, hbehind, hforms⟩ := ih hrest
    obtain ⟨taken, rfl, hsuffix, hseparators⟩ := exists_taken_of_dropSeparators hbehind
    refine ⟨word ++ taken, (List.append_assoc _ _ _).symm, fun new hnew ↦ ?_⟩
    have hlast := List.getLast?_eq_some_getLast hsome
    have hblank := not_isBlank_of_isWordCharacter (hword _ (List.getLast_mem hsome))
    rw [List.append_assoc]
    refine .word hsome hword (hnew.isDelimited hlast hblank hends) ?_
    rw [hseparators hnew.startsToken hnew.unseparated]
    exact hforms new (hnew.of_suffix (hsuffix.trans (List.suffix_append _ _)))
  | @string quoted body text rest forms hbody hends hlater ih =>
    obtain ⟨behind, hbehind, hforms⟩ := ih hrest
    obtain ⟨taken, rfl, hsuffix, hseparators⟩ := exists_taken_of_dropSeparators hbehind
    obtain ⟨token, rfl, hlast, hbody⟩ := hbody.exists_taken
    refine ⟨'"' :: token ++ taken, by simp, fun new hnew ↦ ?_⟩
    have hnew' : Replaces (token ++ taken) old new := hnew.of_suffix (List.suffix_cons _ _)
    rw [List.cons_append, List.cons_append, List.append_assoc]
    refine .string (hbody _) (hnew'.isDelimited hlast rfl hends) ?_
    rw [hseparators hnew.startsToken hnew.unseparated]
    exact hforms new (hnew'.of_suffix (hsuffix.trans (List.suffix_append _ _)))
  | @group inside text rest members forms hmembers hlater ihmembers ih =>
    obtain ⟨behind, hbehind, hforms⟩ := ih hrest
    obtain ⟨taken, rfl, hsuffix, hseparators⟩ := exists_taken_of_dropSeparators hbehind
    obtain ⟨within, hwithin, hmembers'⟩ := ihmembers (List.cons_append ..)
    obtain ⟨opened, rfl, hopened, hseparators'⟩ := exists_taken_of_dropSeparators hwithin
    have hcloses : taken <:+ within := by
      obtain ⟨before, hbefore⟩ := hmembers.suffix
      rw [hwithin, ← List.cons_append, ← List.append_assoc, List.append_left_inj] at hbefore
      exact (List.suffix_cons ')' taken).trans ⟨before, hbefore⟩
    refine ⟨'(' :: opened, rfl, fun new hnew ↦ ?_⟩
    have hnew' : Replaces within old new := hnew.of_suffix (hopened.trans (List.suffix_cons _ _))
    have hinside := hmembers' new hnew'
    have hbeyond := hforms new (hnew'.of_suffix (hsuffix.trans hcloses))
    rw [← hseparators' hnew.startsToken hnew.unseparated] at hinside
    rw [← hseparators hnew.startsToken hnew.unseparated] at hbeyond
    exact .group hinside hbeyond

theorem Sequence.startsToken_of_cons {text rest : List Char} {form : Form} {forms : List Form}
    (h : Sequence text (form :: forms) rest) : StartsToken text := by
  refine ⟨?_, h.dropSeparators_eq⟩
  rintro rfl
  have hlength := h.length_le
  simp at hlength

theorem Sequence.startsToken_of_close {text beyond : List Char} {forms : List Form}
    (h : Sequence text forms (')' :: beyond)) : StartsToken text := by
  cases forms with
  | nil =>
    obtain rfl := h.eq_of_nil
    exact ⟨List.cons_ne_nil _ _, dropSeparators_close beyond⟩
  | cons form forms => exact h.startsToken_of_cons

/-- A keyword argument begins with the first character of its marker. -/
theorem Sequence.head?_of_keywordForms {text rest : List Char} {pair : String × Form}
    (h : Sequence text (keywordForms pair) rest) : text.head? = some '#' := by
  rw [keywordForms, toList_marker] at h
  cases h
  rfl

/-- What comes right behind some forms does not matter to them. -/
theorem Sequence.replace_behind {taken old new : List Char} {forms : List Form}
    (h : Sequence (taken ++ old) forms old) (hreplaces : Replaces taken old new) :
    Sequence (taken ++ new) forms new := by
  have hforms : Sequence (taken ++ old) forms ([] ++ old) := h
  obtain ⟨taken', htaken, hnew⟩ := hforms.replace
  obtain rfl := List.append_cancel_right htaken
  exact hnew new hreplaces

theorem isDelimited_of_head {text text' : List Char} (h : text.head? = text'.head?) :
    isDelimited text = isDelimited text' := by
  cases text <;> cases text' <;> simp_all [isDelimited]

/-! ### Members of groups -/

/-- Some members of a group come before a text, and some others from there on, up to what comes behind
the last one. The outermost members are those of the whole text. -/
inductive Stands (whole : List Char) (all : List Form) :
    List Char → List Form → List Form → List Char → Prop
  | start (h : Sequence whole all []) : Stands whole all whole [] all []
  | next {text middle rest : List Char} {earlier later : List Form} {form : Form}
      (h : Stands whole all text earlier (form :: later) rest) (hform : Sequence text [form] middle) :
      Stands whole all middle (earlier ++ [form]) later rest
  | inside {inside beyond rest : List Char} {earlier later members : List Form}
      (h : Stands whole all ('(' :: inside) earlier (.group members :: later) rest)
      (hmembers : Sequence (dropSeparators inside) members (')' :: beyond))
      (hlater : Sequence (dropSeparators beyond) later rest) :
      Stands whole all (dropSeparators inside) [] members (')' :: beyond)

namespace Stands

variable {whole text rest : List Char} {all earlier later : List Form}

/-- The members from a place on are the forms of the text there. -/
theorem sequence (h : Stands whole all text earlier later rest) : Sequence text later rest := by
  induction h with
  | start h => exact h
  | next h hform ih =>
    obtain ⟨middle, hfirst, hlater⟩ := sequence_cons_iff.mp ih
    obtain ⟨-, rfl⟩ := hfirst.unique hform rfl
    exact hlater
  | inside h hmembers hlater ih => exact hmembers

/-- Behind the last of the outermost members the text ends, and behind the others a parenthesis
closes. -/
theorem rest_eq (h : Stands whole all text earlier later rest) :
    rest = [] ∧ earlier ++ later = all ∨ ∃ beyond, rest = ')' :: beyond := by
  induction h with
  | start h => exact .inl ⟨rfl, rfl⟩
  | next h hform ih => simpa using ih
  | inside h hmembers hlater ih => exact .inr ⟨_, rfl⟩

/-- Nothing more stands behind the last member. -/
theorem eq_nil_of_rest (h : Stands whole all text earlier later rest) {further : List Form}
    {beyond : List Char} (hfurther : Sequence rest further beyond) : further = [] := by
  obtain ⟨rfl, -⟩ | ⟨text, rfl⟩ := h.rest_eq
  · have hlength := hfurther.length_le
    rw [List.length_nil] at hlength
    exact List.length_eq_zero_iff.mp (by omega)
  · exact hfurther.eq_nil_of_close

/-- Past some forms, the members that come next have become less by them. -/
theorem past {forms : List Form} {middle : List Char} (h : Stands whole all text earlier later rest)
    (hforms : Sequence text forms middle) :
    ∃ later', later = forms ++ later' ∧ Stands whole all middle (earlier ++ forms) later' rest := by
  induction forms generalizing text earlier later with
  | nil =>
    obtain rfl := hforms.eq_of_nil
    exact ⟨later, rfl, by rwa [List.append_nil]⟩
  | cons form forms ih =>
    obtain ⟨next, hform, hforms⟩ := sequence_cons_iff.mp hforms
    cases later with
    | nil =>
      have hrest := h.sequence.eq_of_nil
      rw [hrest] at hform
      exact nomatch h.eq_nil_of_rest hform
    | cons first later =>
      obtain ⟨next', hfirst, -⟩ := sequence_cons_iff.mp h.sequence
      obtain ⟨hsame, -⟩ := hform.unique hfirst rfl
      obtain rfl := (List.cons.inj hsame).1
      obtain ⟨later', rfl, hbehind⟩ := ih (h.next hform) hforms
      exact ⟨later', rfl, by rwa [List.append_assoc] at hbehind⟩

/-- Past an opening parenthesis, the members of a group come next. -/
theorem enter {inside : List Char} (h : Stands whole all ('(' :: inside) earlier later rest) :
    ∃ members beyond, Stands whole all (dropSeparators inside) [] members beyond := by
  cases later with
  | nil =>
    obtain ⟨hnone, -⟩ | ⟨beyond, hclose⟩ := h.rest_eq
    · exact nomatch h.sequence.eq_of_nil.trans hnone
    · exact absurd (h.sequence.eq_of_nil.trans hclose) (by simp)
  | cons form later =>
    obtain ⟨members, beyond, hmembers, -⟩ := h.sequence.exists_members
    have hgroup : Sequence ('(' :: inside) [.group members] (dropSeparators beyond) :=
      .group hmembers (.done _)
    obtain ⟨later', hlater, hbehind⟩ := h.past hgroup
    rw [hlater] at h
    exact ⟨members, _, .inside h hmembers hbehind.sequence⟩

/-- If the members from a place on differ by a swap that is one of the group, so does the whole. -/
theorem swapped {text' : List Char} {later' : List Form}
    (h : Stands whole all text earlier later rest) (hlater' : Sequence text' later' rest)
    (htext : StartsToken text) (htext' : StartsToken text') (hhead : text.head? = text'.head?)
    (hswapped : Form.Swapped (.group (earlier ++ later)) (.group (earlier ++ later'))) :
    ∃ before all', whole = before ++ text ∧ Sequence (before ++ text') all' [] ∧
      Form.Swapped (.group all) (.group all') := by
  induction h generalizing text' later' with
  | start h => exact ⟨[], later', rfl, hlater', hswapped⟩
  | @next text middle rest earlier later form h hform ih =>
    have hform' : Sequence text [form] ([] ++ middle) := hform
    obtain ⟨taken, rfl, hreplace⟩ := hform'.replace
    have hfirst : Sequence (taken ++ text') [form] text' :=
      hreplace text' ⟨htext, htext'.2, .inr fun hends ↦ (isDelimited_of_head hhead).symm.trans hends⟩
    obtain ⟨before, all', hwhole, hall', hgroup⟩ := ih (hfirst.append hlater')
      hform.startsToken_of_cons hfirst.startsToken_of_cons (by simp [hhead]) (by simpa using hswapped)
    exact ⟨before ++ taken, all', by simpa using hwhole, by simpa using hall', hgroup⟩
  | @inside inside beyond rest earlier later members h hmembers hlater ih =>
    have hskipped : dropSeparators inside = [] ++ dropSeparators inside := rfl
    obtain ⟨taken, htaken, -, hseparators⟩ := exists_taken_of_dropSeparators hskipped
    have hmembers' : Sequence (dropSeparators (taken ++ text')) later' (')' :: beyond) := by
      rwa [hseparators htext htext'.2]
    have hgroup : Sequence ('(' :: (taken ++ text')) (.group later' :: later) rest :=
      .group hmembers' hlater
    obtain ⟨before, all', hwhole, hall', hgroup⟩ := ih hgroup h.sequence.startsToken_of_cons
      hgroup.startsToken_of_cons rfl (swapped_group_of_member hswapped earlier later)
    refine ⟨before ++ '(' :: taken, all', ?_, by simpa using hall', hgroup⟩
    rw [hwhole, List.append_assoc, List.cons_append, ← htaken]

/-- If two keyword arguments that follow each other behind a member change places, the form of the
whole text differs by a swap. -/
theorem exchanged {before first second after : List Char} {form : Form}
    {pair other : String × Form}
    (h : Stands (dropSeparators (before ++ (first ++ (second ++ after)))) [form]
      (first ++ (second ++ after)) earlier later rest)
    (hearlier : earlier ≠ [])
    (hfirst : Sequence (first ++ (second ++ after)) (keywordForms pair) (second ++ after))
    (hsecond : Sequence (second ++ after) (keywordForms other) after)
    (hblank : EndsInBlank first) (hblank' : EndsInBlank second) :
    ∃ form', Sequence (dropSeparators (before ++ (second ++ (first ++ after)))) [form'] [] ∧
      form.Swapped form' := by
  obtain ⟨others, rfl, hothers⟩ := h.past (hfirst.append hsecond)
  -- the outermost form stands alone, so the group around the two arguments is closed
  obtain ⟨beyond, rfl⟩ : ∃ beyond, rest = ')' :: beyond := by
    refine h.rest_eq.resolve_left fun hwhole ↦ ?_
    have hlength := congrArg List.length hwhole.2
    have hpositive := List.length_pos_iff.mpr hearlier
    simp [keywordForms] at hlength
    omega
  have hafter : StartsToken after := hothers.sequence.startsToken_of_close
  have hfirst' : Sequence (first ++ after) (keywordForms pair) after :=
    hfirst.replace_behind ⟨hsecond.startsToken_of_cons, hafter.2, .inl hblank⟩
  have hsecond' : Sequence (second ++ (first ++ after)) (keywordForms other) (first ++ after) :=
    hsecond.replace_behind ⟨hafter, hfirst'.dropSeparators_eq, .inl hblank'⟩
  have hlater : Sequence (second ++ (first ++ after))
      (keywordForms other ++ (keywordForms pair ++ others)) (')' :: beyond) :=
    hsecond'.append (hfirst'.append hothers.sequence)
  have hhead := hfirst.head?_of_keywordForms.trans hsecond'.head?_of_keywordForms.symm
  have hswapped := swapped_group_of_behind hearlier (.pairs pair other others)
  rw [List.append_assoc] at h
  obtain ⟨skipped, all', hwhole, hall', hgroup⟩ := h.swapped hlater hfirst.startsToken_of_cons
    hsecond'.startsToken_of_cons hhead hswapped
  -- the separators in front of the form are those that stood there before
  obtain ⟨taken, htaken, -, hseparators⟩ := exists_taken_of_dropSeparators hwhole
  obtain rfl := List.append_cancel_right htaken
  rw [← hseparators hfirst.startsToken_of_cons hsecond'.dropSeparators_eq] at hall'
  obtain ⟨members, hsame, hmembers⟩ := hgroup.exists_members
  obtain rfl := Form.group.inj hsame
  obtain ⟨form', rfl, hform⟩ := hmembers.eq_singleton
  exact ⟨form', hall', hform⟩

end Stands

end Formulary
