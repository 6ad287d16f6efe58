import Formulary.Proofs.Token.Quoted
/-!
Forms, what a formula consists of before anything is known about its operators: words, strings and
groups between parentheses. `Sequence` says which forms a text begins with and what comes after
them. A text determines its forms (`Sequence.compare`), so what a slot is read as can be said about
forms instead of places. `dropSeparators` is what remains behind leading separators; it begins with a
token (`BeginsToken`).
-/

set_option autoImplicit false
set_option relaxedAutoImplicit false

namespace Formulary

open Text Place

/-- A word, a string, or some forms between parentheses. -/
inductive Form
  | word (text : List Char)
  | string (body : List Char)
  | group (members : List Form)

/-- What remains of a text after leading blanks and comments. -/
def dropSeparators (text : List Char) : List Char :=
  text.drop (separatorLength false text)

theorem rest_skipSeparators (place : Place) :
    place.skipSeparators.rest = dropSeparators place.rest := rfl

/-- Some forms that a text begins with, separators after each of them, and what comes then. -/
inductive Sequence : List Char → List Form → List Char → Prop
  | done (rest : List Char) : Sequence rest [] rest
  | word {word text rest : List Char} {forms : List Form} (hsome : word ≠ [])
      (hword : ∀ character ∈ word, isWordCharacter character = true)
      (hends : isDelimited text = true) (hrest : Sequence (dropSeparators text) forms rest) :
      Sequence (word ++ text) (.word word :: forms) rest
  | string {quoted body text rest : List Char} {forms : List Form}
      (hbody : QuotedBody quoted body text) (hends : isDelimited text = true)
      (hrest : Sequence (dropSeparators text) forms rest) :
      Sequence ('"' :: quoted) (.string body :: forms) rest
  | group {inside text rest : List Char} {members forms : List Form}
      (hmembers : Sequence (dropSeparators inside) members (')' :: text))
      (hrest : Sequence (dropSeparators text) forms rest) :
      Sequence ('(' :: inside) (.group members :: forms) rest

/-! ### Separators -/

/-- A text goes on with a token, if it goes on. -/
def BeginsToken (text : List Char) : Prop :=
  ∀ character ∈ text.head?, isBlank character = false ∧ character ≠ ';'

/-- Behind separators there is a token or nothing. -/
theorem beginsToken_drop_separatorLength (inComment : Bool) (text : List Char) :
    BeginsToken (text.drop (separatorLength inComment text)) := by
  induction text generalizing inComment with
  | nil => exact fun _ hcharacter ↦ absurd hcharacter (by simp)
  | cons character text ih =>
    simp only [separatorLength]
    split
    · exact ih _
    · split
      · exact ih _
      · split
        · exact ih _
        · rename_i hblank hsemicolon
          intro first hfirst
          obtain rfl : character = first := by simpa using hfirst
          exact ⟨by simpa using hblank, hsemicolon⟩

theorem beginsToken_dropSeparators (text : List Char) : BeginsToken (dropSeparators text) :=
  beginsToken_drop_separatorLength false text

theorem BeginsToken.dropSeparators_eq {text : List Char} (h : BeginsToken text) :
    dropSeparators text = text := by
  cases text with
  | nil => rfl
  | cons character text =>
    have hnot := h character rfl
    simp [dropSeparators, separatorLength, hnot]

theorem dropSeparators_of_isWordCharacter {character : Char} (text : List Char)
    (h : isWordCharacter character = true) :
    dropSeparators (character :: text) = character :: text := by
  refine BeginsToken.dropSeparators_eq fun first hfirst ↦ ?_
  obtain rfl := Option.some.inj hfirst
  simp only [isWordCharacter, List.contains_cons, Bool.not_eq_true', Bool.or_eq_false_iff,
    beq_eq_false_iff_ne] at h
  exact ⟨h.1, h.2.2.2.1⟩

theorem dropSeparators_blank {character : Char} (text : List Char)
    (h : isBlank character = true) : dropSeparators (character :: text) = dropSeparators text := by
  simp [dropSeparators, separatorLength, h]

/-- A text that begins with a form does not begin with separators. -/
theorem Sequence.dropSeparators_eq {text rest : List Char} {form : Form} {forms : List Form}
    (h : Sequence text (form :: forms) rest) : dropSeparators text = text := by
  cases h with
  | @word word text _ _ hsome hword hends hrest =>
    cases word with
    | nil => exact absurd rfl hsome
    | cons character word =>
      exact dropSeparators_of_isWordCharacter _ (hword character List.mem_cons_self)
  | string | group => rfl

theorem dropSeparators_close (text : List Char) : dropSeparators (')' :: text) = ')' :: text := rfl

/-! ### Composition -/

theorem Sequence.append {text middle rest : List Char} {first second : List Form}
    (hfirst : Sequence text first middle) (hsecond : Sequence middle second rest) :
    Sequence text (first ++ second) rest := by
  induction hfirst with
  | done => exact hsecond
  | word hsome hword hends hrest ih => exact .word hsome hword hends (ih hsecond)
  | string hbody hends hrest ih => exact .string hbody hends (ih hsecond)
  | group hmembers hrest ihmembers ih => exact .group hmembers (ih hsecond)

theorem sequence_append_iff {text rest : List Char} {first second : List Form} :
    Sequence text (first ++ second) rest ↔
      ∃ middle, Sequence text first middle ∧ Sequence middle second rest := by
  constructor
  · intro h
    induction first generalizing text with
    | nil => exact ⟨text, .done text, h⟩
    | cons form first ih =>
      cases h with
      | word hsome hword hends hrest =>
        obtain ⟨middle, hfirst, hsecond⟩ := ih hrest
        exact ⟨middle, .word hsome hword hends hfirst, hsecond⟩
      | string hbody hends hrest =>
        obtain ⟨middle, hfirst, hsecond⟩ := ih hrest
        exact ⟨middle, .string hbody hends hfirst, hsecond⟩
      | group hmembers hrest =>
        obtain ⟨middle, hfirst, hsecond⟩ := ih hrest
        exact ⟨middle, .group hmembers hfirst, hsecond⟩
  · rintro ⟨middle, hfirst, hsecond⟩
    exact hfirst.append hsecond

theorem sequence_cons_iff {text rest : List Char} {form : Form} {forms : List Form} :
    Sequence text (form :: forms) rest ↔
      ∃ middle, Sequence text [form] middle ∧ Sequence middle forms rest :=
  @sequence_append_iff text rest [form] forms

/-! ### Unambiguity -/

theorem dropSeparators_suffix (text : List Char) : dropSeparators text <:+ text :=
  List.drop_suffix _ text

theorem length_dropSeparators_le (text : List Char) : (dropSeparators text).length ≤ text.length :=
  (dropSeparators_suffix text).length_le

/-- Forms take something off a text. -/
theorem Sequence.length_le {text rest : List Char} {forms : List Form}
    (h : Sequence text forms rest) : forms.length + rest.length ≤ text.length := by
  induction h with
  | done rest => simp
  | @word word text rest forms hsome hword hends hrest ih =>
    have hpositive := List.length_pos_iff.mpr hsome
    have hskip := length_dropSeparators_le text
    simp only [List.length_cons, List.length_append]
    omega
  | @string quoted body text rest forms hbody hends hrest ih =>
    have hskip := length_dropSeparators_le text
    have hshorter := hbody.length_lt
    simp only [List.length_cons]
    omega
  | @group inside text rest members forms hmembers hrest ihmembers ih =>
    have hskip := length_dropSeparators_le text
    have hinside := length_dropSeparators_le inside
    simp only [List.length_cons] at ihmembers ⊢
    omega

/-- What comes after some forms is the end of the text. -/
theorem Sequence.suffix {text rest : List Char} {forms : List Form}
    (h : Sequence text forms rest) : rest <:+ text := by
  induction h with
  | done rest => exact List.suffix_refl rest
  | word hsome hword hends hrest ih =>
    exact (ih.trans (dropSeparators_suffix _)).trans (List.suffix_append _ _)
  | string hbody hends hrest ih =>
    exact (ih.trans (dropSeparators_suffix _)).trans (hbody.suffix.trans (List.suffix_cons _ _))
  | group hmembers hrest ihmembers ih =>
    exact (ih.trans (dropSeparators_suffix _)).trans ((List.suffix_cons _ _).trans
      (ihmembers.trans ((dropSeparators_suffix _).trans (List.suffix_cons _ _))))

/-- A text that begins with a word begins with a character of words. -/
theorem isWordCharacter_of_word {word text rest : List Char} {character : Char} (hsome : word ≠ [])
    (hword : ∀ character ∈ word, isWordCharacter character = true)
    (h : character :: rest = word ++ text) : isWordCharacter character = true := by
  obtain ⟨first, word, rfl⟩ := List.exists_cons_of_ne_nil hsome
  obtain ⟨rfl, -⟩ := List.cons.inj h
  exact hword character List.mem_cons_self

theorem Sequence.eq_nil_of_close {text rest : List Char} {forms : List Form}
    (h : Sequence (')' :: text) forms rest) : forms = [] := by
  generalize hwhole : ')' :: text = whole at h
  cases h with
  | done => rfl
  | word hsome hword =>
    exact absurd (isWordCharacter_of_word hsome hword hwhole) (by decide)
  | string | group => exact absurd (List.cons.inj hwhole).1 (by decide)

/-- Where a form begins with a quote, a string stands. -/
theorem Sequence.exists_quotedBody {quoted rest : List Char} {form : Form} {forms : List Form}
    (h : Sequence ('"' :: quoted) (form :: forms) rest) :
    ∃ body text, QuotedBody quoted body text ∧ isDelimited text = true := by
  generalize hwhole : '"' :: quoted = whole at h
  cases h with
  | word hsome hword =>
    exact absurd (isWordCharacter_of_word hsome hword hwhole) (by decide)
  | string hbody hends hrest =>
    obtain ⟨-, rfl⟩ := List.cons.inj hwhole
    exact ⟨_, _, hbody, hends⟩
  | group => exact absurd (List.cons.inj hwhole).1 (by decide)

/-- Where a form begins with an opening parenthesis, a group stands. -/
theorem Sequence.exists_members {inside rest : List Char} {form : Form} {forms : List Form}
    (h : Sequence ('(' :: inside) (form :: forms) rest) :
    ∃ members text, Sequence (dropSeparators inside) members (')' :: text) ∧
      Sequence (dropSeparators text) forms rest := by
  generalize hwhole : '(' :: inside = whole at h
  cases h with
  | word hsome hword =>
    exact absurd (isWordCharacter_of_word hsome hword hwhole) (by decide)
  | string => exact absurd (List.cons.inj hwhole).1 (by decide)
  | group hmembers hrest =>
    obtain ⟨-, rfl⟩ := List.cons.inj hwhole
    exact ⟨_, _, hmembers, hrest⟩

theorem Sequence.eq_of_nil {text rest : List Char} (h : Sequence text [] rest) : text = rest := by
  cases h
  rfl

/-- The first of two beginnings of a text goes on to the second. -/
def GoesOn (forms forms' : List Form) (rest rest' : List Char) : Prop :=
  ∃ further, forms' = forms ++ further ∧ Sequence rest further rest'

theorem GoesOn.cons {forms forms' : List Form} {rest rest' : List Char}
    (h : GoesOn forms forms' rest rest') (form : Form) :
    GoesOn (form :: forms) (form :: forms') rest rest' := by
  obtain ⟨further, rfl, hfurther⟩ := h
  exact ⟨further, rfl, hfurther⟩

/-- Forms up to a closing parenthesis do not go on. -/
theorem GoesOn.eq_of_close {forms forms' : List Form} {rest rest' : List Char}
    (h : GoesOn forms forms' (')' :: rest) (')' :: rest')) : forms = forms' ∧ rest = rest' := by
  obtain ⟨further, rfl, hfurther⟩ := h
  obtain rfl := hfurther.eq_nil_of_close
  obtain ⟨-, rfl⟩ := List.cons.inj hfurther.eq_of_nil
  exact ⟨by simp, rfl⟩

/-- Of two ways in which a text begins with forms, one goes on where the other one ends. -/
theorem Sequence.compare {text rest rest' : List Char} {forms forms' : List Form}
    (h : Sequence text forms rest) (h' : Sequence text forms' rest') :
    GoesOn forms forms' rest rest' ∨ GoesOn forms' forms rest' rest := by
  induction h generalizing forms' rest' with
  | done => exact .inl ⟨forms', rfl, h'⟩
  | @word word text rest forms hsome hword hends hrest ih =>
    have hfirst (character : Char) (others : List Char) (hcharacter : isWordCharacter character = false) :
        word ++ text ≠ character :: others := by
      intro hsame
      rw [isWordCharacter_of_word hsome hword hsame.symm] at hcharacter
      exact nomatch hcharacter
    generalize hwhole : word ++ text = whole at h'
    cases h' with
    | done => exact .inr ⟨_, rfl, hwhole ▸ .word hsome hword hends hrest⟩
    | word hsome' hword' hends' hrest' =>
      obtain ⟨rfl, rfl⟩ := append_eq_append_of_isDelimited
        (fun character hcharacter ↦ isDelimited_of_isWordCharacter (hword character hcharacter))
        (fun character hcharacter ↦ isDelimited_of_isWordCharacter (hword' character hcharacter))
        hends hends' hwhole
      exact (ih hrest').imp (GoesOn.cons · _) (GoesOn.cons · _)
    | string => exact absurd hwhole (hfirst _ _ (by decide))
    | group => exact absurd hwhole (hfirst _ _ (by decide))
  | @string quoted body text rest forms hbody hends hrest ih =>
    generalize hwhole : '"' :: quoted = whole at h'
    cases h' with
    | done => exact .inr ⟨_, rfl, hwhole ▸ .string hbody hends hrest⟩
    | word hsome' hword' =>
      exact absurd (isWordCharacter_of_word hsome' hword' hwhole) (by decide)
    | string hbody' hends' hrest' =>
      obtain ⟨-, rfl⟩ := List.cons.inj hwhole
      obtain ⟨rfl, rfl⟩ := hbody.unique hbody'
      exact (ih hrest').imp (GoesOn.cons · _) (GoesOn.cons · _)
    | group => exact absurd (List.cons.inj hwhole).1 (by decide)
  | @group inside text rest members forms hmembers hrest ihmembers ih =>
    generalize hwhole : '(' :: inside = whole at h'
    cases h' with
    | done => exact .inr ⟨_, rfl, hwhole ▸ .group hmembers hrest⟩
    | word hsome' hword' =>
      exact absurd (isWordCharacter_of_word hsome' hword' hwhole) (by decide)
    | string => exact absurd (List.cons.inj hwhole).1 (by decide)
    | @group _ text' _ members' _ hmembers' hrest' =>
      obtain ⟨-, rfl⟩ := List.cons.inj hwhole
      obtain ⟨rfl, rfl⟩ : members = members' ∧ text = text' := by
        rcases ihmembers hmembers' with hon | hon
        · exact hon.eq_of_close
        · exact hon.eq_of_close.imp Eq.symm Eq.symm
      exact (ih hrest').imp (GoesOn.cons · _) (GoesOn.cons · _)

/-- As many forms are the same forms. -/
theorem Sequence.unique {text rest rest' : List Char} {forms forms' : List Form}
    (h : Sequence text forms rest) (h' : Sequence text forms' rest')
    (hlength : forms.length = forms'.length) : forms = forms' ∧ rest = rest' := by
  rcases h.compare h' with ⟨further, rfl, hfurther⟩ | ⟨further, rfl, hfurther⟩
  · obtain rfl : further = [] := by simpa using hlength
    exact ⟨by simp, hfurther.eq_of_nil⟩
  · obtain rfl : further = [] := by simpa using hlength
    exact ⟨by simp, hfurther.eq_of_nil.symm⟩

end Formulary
