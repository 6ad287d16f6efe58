import Formulary.Proofs.Cursor.Boundary
import Formulary.Proofs.Form.Acceptance
import Formulary.Proofs.Form.Confinement
import Formulary.Proofs.Form.Edges
import Formulary.Proofs.Formula.DeclarationOrder
import Formulary.Proofs.Formula.KeywordOrder
/-!
Reports at the end of a formula. In a formula that can be read, everything that fails on the way fails
inside the outermost group (`failures_lt_of_call`). So if something comes behind the formula, that is
the only thing to be reported. If the last parenthesis is missing, then nothing fails further on than at
the end of the text, and there the parenthesis is missing (`parseFormula_at_edges`). Main definition:
`FailsWith`.
-/

set_option autoImplicit false
set_option relaxedAutoImplicit false

namespace Formulary

open Text Place Reading

variable {catalog : Catalog} {limit room : Nat} {place after : Place} {base : Base}

/-! ### Failures of slots -/

/-- To enter a slot and to fill it are not failures. -/
theorem failures_fill_succ (slot : Slot) :
    (fill catalog limit (room + 1) slot place).failures =
      (fillParts catalog (fill catalog limit room) slot place).failures := by
  cases hresult : (fillParts catalog (fill catalog limit room) slot place).result with
  | none =>
    rw [Outcome.failures, events_fill_of_none hresult]
    rfl
  | some found =>
    rw [Outcome.failures, events_fill_of_some hresult]
    simp [failuresOf, Outcome.failures]

/-- A formula is not read if something comes behind its use of an operator. -/
theorem fill_root_of_further {part : Outline}
    (h : (fill catalog limit room (.call base) place).result = some (part, after))
    (hafter : after.rest ≠ []) :
    (fill catalog limit (room + 1) (.root base) place).result = none ∧
      (fill catalog limit (room + 1) (.root base) place).failures =
        (fill catalog limit room (.call base) place).failures ++
          [⟨after.offset, .expectingEnd⟩] := by
  have hend : atEnd after = ⟨.entry (.failed ⟨after.offset, .expectingEnd⟩), none⟩ := by
    simp [atEnd, isAtEnd, hafter]
  have hnone : (atEnd after).result = none := by rw [hend]
  rw [result_fill_succ, failures_fill_succ, fillParts, failures_bind_of_some h, bind_eq_of_some h,
    failures_bind_of_none hnone, bind_eq_of_none hnone, hend]
  exact ⟨rfl, rfl⟩

/-! ### A certain failure -/

/-- A reading failed, and something is among the reasons. -/
structure FailsWith {α : Type} (outcome : Outcome α) (failure : Failure) : Prop where
  result : outcome.result = none
  mem : failure ∈ outcome.failures

section FailsWith

variable {α β : Type} {failure : Failure} {first : Reading α} {next : α → Reading β}

theorem FailsWith.bind (h : FailsWith (first place) failure) :
    FailsWith ((first >>= next) place) failure := by
  refine ⟨by rw [bind_eq_of_none h.result], ?_⟩
  rw [failures_bind_of_none h.result]
  exact h.mem

theorem FailsWith.behind {value : α} {middle : Place} (h : FailsWith (next value middle) failure)
    (hfirst : (first place).result = some (value, middle)) :
    FailsWith ((first >>= next) place) failure := by
  refine ⟨by rw [bind_eq_of_some hfirst, h.result], ?_⟩
  rw [failures_bind_of_some hfirst]
  exact List.mem_append_right _ h.mem

theorem FailsWith.fill_succ {slot : Slot}
    (h : FailsWith (fillParts catalog (fill catalog limit room) slot place) failure) :
    FailsWith (fill catalog limit (room + 1) slot place) failure := by
  refine ⟨(result_fill_succ ..).trans h.result, ?_⟩
  rw [failures_fill_succ]
  exact h.mem

end FailsWith

/-- If the group of a use of an operator is not closed behind the operands, then that is a reason. -/
theorem failsWith_call {inner : Slot → Reading Outline} {operator : Operator}
    {earlier later : List Operator} {opened taken closing : Place} {part : Outline}
    (hopened : place.eat? ['('] = some opened)
    (hoperators : catalog.operators base = earlier ++ operator :: later)
    (hearlier : ∀ other ∈ earlier, opened.skipSeparators.word? other.name.toList = none)
    (htaken : opened.skipSeparators.word? operator.name.toList = some taken)
    (hpart : (inner (.operator operator) taken.skipSeparators).result = some (part, closing))
    (hclosing : closing.eat? [')'] = none) :
    FailsWith (fillParts catalog inner (.call base) place)
      ⟨closing.offset, .expectingSymbol ")"⟩ := by
  have hunclosed : FailsWith (symbol ")" closing) ⟨closing.offset, .expectingSymbol ")"⟩ := by
    have hclose := @symbol_eq_of_none _ ")" hclosing
    refine ⟨?_, ?_⟩ <;> rw [hclose]
    exact List.mem_singleton_self _
  refine FailsWith.behind ?_ (by rw [@symbol_eq_of_some _ _ "(" hopened])
  rw [if_neg (by simp [hoperators])]
  have hname := result_firstOf_named hoperators hearlier htaken
  exact FailsWith.behind (FailsWith.behind hunclosed.bind hpart) hname

/-- A formula is a group that begins with the name of an operator. -/
theorem exists_operands_of_root {form : Form} (h : Accepts catalog room (.root base) [form]) :
    ∃ inside operator operands part, room = inside + 2 ∧
      form = .group (.word operator.name.toList :: operands) ∧
      (catalog.operators base).find? (fun other ↦ other.name = operator.name) = some operator ∧
      Interprets catalog inside (fun _ ↦ True) (.operator operator) operands part := by
  match room, h with
  | 0, ⟨_, hnone⟩ => exact hnone.elim
  | 1, h =>
    obtain ⟨_, hnone⟩ := accepts_root_iff.mp h
    exact hnone.elim
  | inside + 2, h =>
    obtain ⟨operator, operands, hform, hoperator, part, hpart⟩ :=
      accepts_call_iff.mp (accepts_root_iff.mp h)
    exact ⟨inside, operator, operands, part, rfl, hform, hoperator, hpart⟩

section Agreement

variable (hcatalog : ∀ base, ∀ operator ∈ catalog.operators base, operator.HasWordNames)

include hcatalog

/-- A use of an operator that is read up to the parenthesis that closes it stays before that. -/
theorem ensures_call_within {opened closing : Place} (hopened : place.eat? ['('] = some opened)
    (hinside : Before opened.skipSeparators closing) (hcloses : closing.Closes) :
    Ensures (fillParts catalog (fill catalog limit room) (.call base)) place (Event.Within closing)
      fun _ _ ↦ True := by
  have hopens := (leads_of_eat? hopened).trans (leads_skipSeparators opened)
  refine @ensures_call _ _ _ _ (fun _ ↦ True) (fun middle ↦ Before middle closing)
    (fun middle ↦ Before middle closing) _ ?_ ?_ ?_ ?_ ?_ ?_
  · refine ensures_move (Nat.le_trans hopens.offset_le hinside.offset_le) fun other hother ↦ ?_
    obtain rfl := Option.some.inj (hother.symm.trans hopened)
    exact hinside
  · exact fun _ _ hmiddle ↦ hmiddle.offset_le
  · exact fun _ hmiddle ↦ hmiddle.offset_le
  · rintro operator hoperator middle ⟨forms, hforms⟩
    have hword := (hcatalog base operator hoperator).1
    exact ensures_word_spans hword.1 hword.2 hforms (.inl hcloses)
  · intro operator hoperator middle hmiddle
    have hwords : (Slot.operator operator).HasWordNames := hcatalog base operator hoperator
    exact (staysBefore_fill hcatalog limit room).of_closes hwords hmiddle hcloses
  · exact fun _ hmiddle ↦ ensures_move hmiddle.offset_le fun _ _ ↦ trivial

/-- Nothing fails behind the parenthesis that closes a use of an operator. -/
theorem failures_lt_of_call {outline : Outline}
    (h : (fill catalog limit (room + 1) (.call base) place).result = some (outline, after)) :
    ∀ failure ∈ (fill catalog limit (room + 1) (.call base) place).failures,
      failure.offset < after.offset := by
  cases result_fill_succ_iff.mp h with
  | chosen hchoices => exact absurd hchoices (Slot.choices_ne_append rfl)
  | @call _ operator earlier later _ opened taken closing closed part hopened hoperators hearlier
      hnamed hpart hclosed =>
    have hwords : (Slot.operator operator).HasWordNames :=
      hcatalog base operator (by simp [hoperators])
    obtain ⟨forms, hforms, -⟩ := (agrees hcatalog limit room).interprets_of_fill hwords hpart
    have hname := sequence_of_word? hwords.1.1 hwords.1.2 hnamed
    have htakes := (leads_of_eat? (word?_eq_some_iff.mp hnamed).1).trans (leads_skipSeparators taken)
    have hinside : Before opened.skipSeparators closing :=
      ⟨_, htakes.trans (moves_of_fill hpart).1, hname.append hforms⟩
    have hwithin := @ensures_call_within _ limit room _ base hcatalog _ _ hopened hinside
      (closes_of_eat? hclosed)
    intro failure hfailure
    rw [failures_fill_succ, Outcome.mem_failures_iff] at hfailure
    have hbefore : failure.offset ≤ closing.offset := hwithin.events _ hfailure
    have hbehind := (advances_of_eat? (List.cons_ne_nil _ _) hclosed).trans_leads
      (leads_skipSeparators closed)
    exact Nat.lt_of_le_of_lt hbefore hbehind.2

/-- If the last parenthesis is missing, the operands are read up to the end of the text, and the
parenthesis is missing there. -/
theorem exists_failsWith_of_unclosed (limit : Nat) {inside : List Char} {members : List Form}
    (haccepts : Accepts catalog room (.root base) [.group members])
    (hplace : place.rest = '(' :: inside) (hmembers : Sequence (dropSeparators inside) members []) :
    ∃ closing, Leads place closing ∧ closing.rest = [] ∧
      FailsWith (fill catalog limit room (.root base) place)
        ⟨closing.offset, .expectingSymbol ")"⟩ := by
  obtain ⟨room, operator, operands, part, rfl, hgroup, hoperator, hpart⟩ :=
    exists_operands_of_root haccepts
  obtain rfl := Form.group.inj hgroup
  have hopens : place.rest = ['('] ++ inside := hplace
  obtain ⟨opened, hopened, rfl⟩ := exists_eat?_of_rest hopens
  rw [← rest_skipSeparators] at hmembers
  obtain ⟨earlier, later, taken, closing, hoperators, hearlier, htaken, hread, hclosing⟩ :=
    (agrees hcatalog limit room).reads_operator hcatalog hmembers (.inl rfl) hoperator hpart
  have hnone : closing.eat? [')'] = none := by
    rw [eat?_eq_none_iff, hclosing]
    simp
  have hleads := (leads_of_eat? hopened).trans (leads_skipSeparators opened)
  have hname := (leads_of_eat? (word?_eq_some_iff.mp htaken).1).trans (leads_skipSeparators taken)
  refine ⟨closing, hleads.trans (hname.trans (moves_of_fill hread).1), hclosing, ?_⟩
  exact (failsWith_call hopened hoperators hearlier htaken hread hnone).fill_succ.bind.fill_succ

/-- If something comes behind a formula, then that is the furthest and the only complaint. -/
theorem exists_frontier_of_further (limit : Nat) {form : Form} {rest : List Char}
    (haccepts : Accepts catalog room (.root base) [form]) (hform : Sequence place.rest [form] rest)
    (hrest : rest ≠ []) :
    ∃ after, Leads place after ∧ after.rest = rest ∧
      (fill catalog limit room (.root base) place).result = none ∧
      frontier (fill catalog limit room (.root base) place).failures = after.offset ∧
      complaintsAt (fill catalog limit room (.root base) place).failures after.offset =
        [.expectingEnd] := by
  obtain ⟨room, operator, operands, part, rfl, rfl, hoperator, hpart⟩ :=
    exists_operands_of_root haccepts
  obtain ⟨after, hread, rfl⟩ :=
    (agrees hcatalog limit room).fills_call hcatalog hform hoperator hpart
  obtain ⟨hnone, hfailures⟩ := fill_root_of_further hread hrest
  have hbefore := failures_lt_of_call hcatalog hread
  refine ⟨after, (moves_of_fill hread).1, rfl, hnone, ?_, ?_⟩ <;> rw [hfailures]
  · have hcall := frontier_le fun failure hfailure ↦ Nat.le_of_lt (hbefore failure hfailure)
    rw [frontier_append]
    exact Nat.max_eq_right hcall
  · rw [complaintsAt_append, complaintsAt_of_forall_ne fun failure hfailure ↦
      Nat.ne_of_lt (hbefore failure hfailure)]
    simp [complaintsAt]

end Agreement

/-! ### Reports -/

/-- If something fails at the end of a formula, it is among what is reported, and all of that is
reported there. -/
theorem parseFormula_of_failsWith {limit : Option Nat} {source : String} {complaint : Complaint}
    (h : FailsWith (readFormula catalog limit source.toList)
      ⟨byteLength source.toList, complaint⟩) :
    ∃ complaints : List Complaint, complaint ∈ complaints ∧
      parseFormula catalog limit source =
        .error (complaints.map fun complaint ↦ ⟨.after source.toList, complaint⟩) := by
  have hend : frontier (readFormula catalog limit source.toList).failures =
      byteLength source.toList := by
    refine Nat.le_antisymm (frontier_le fun failure hfailure ↦ ?_) (le_frontier h.mem)
    exact (isBoundary_of_mem_events (Outcome.mem_failures_iff.mp hfailure)).le
  have hposition := Position.ofOffset_byteLength source.toList []
  rw [List.append_nil] at hposition
  refine ⟨complaintsAt (readFormula catalog limit source.toList).failures (byteLength source.toList),
    List.mem_map.mpr ⟨_, List.mem_filter.mpr ⟨h.mem, by simp⟩, rfl⟩,
    parseFormula_eq_error_iff.mpr ⟨h.result, ?_⟩⟩
  rw [diagnostics_eq, hend, hposition]

section Edges

variable {operators : List Operator} {limit : Option Nat}
  (hnames : ∀ operator ∈ operators, operator.HasWordNames)

include hnames

/-- If the last parenthesis of a formula is missing, everything that is reported is reported at the end,
and there the parenthesis is missing. -/
theorem exists_report_of_unclosed {shorter : String} {outline : Outline}
    (h : parseFormula (.ofList operators) limit (shorter ++ ")") = .ok outline)
    (hcloses : ClosesAtEnd (shorter ++ ")").toList) :
    ∃ complaints : List Complaint, .expectingSymbol ")" ∈ complaints ∧
      parseFormula (.ofList operators) limit shorter =
        .error (complaints.map fun complaint ↦ ⟨.after shorter.toList, complaint⟩) := by
  have hcatalog := Catalog.forall_mem_operators hnames
  have hlast : (shorter ++ ")").toList = shorter.toList ++ [')'] := String.toList_append
  obtain ⟨bound, room, hfill, hfill'⟩ :=
    exists_room operators operators limit (shorter ++ ")").toList shorter.toList
  obtain ⟨last, hread⟩ := parseFormula_eq_ok_iff.mp h
  rw [hfill] at hread
  obtain ⟨form, hform, hinterprets⟩ := exists_form_of_fill_root hcatalog hread
  rw [rest_skipSeparators, start, hlast] at hform
  rw [hlast] at hcloses
  -- both texts begin with the same members of one group
  obtain ⟨inside, members, hopens, hmembers, hgroup⟩ := hcloses.unclosed
  obtain ⟨hsame, -⟩ := hform.unique hgroup rfl
  rw [hsame] at hinterprets
  have hplace : (start shorter.toList).skipSeparators.rest = '(' :: inside := hopens
  obtain ⟨closing, hleads, hend, hfails⟩ :=
    exists_failsWith_of_unclosed hcatalog bound ⟨outline, hinterprets⟩ hplace hmembers
  have hwithin := (within_start shorter.toList).of_leads ((leads_skipSeparators _).trans hleads)
  have hoffset := (Cursor.isAtEnd_iff_eq hwithin).mp (by rw [isAtEnd, hend, List.isEmpty_nil])
  rw [hoffset, ← hfill'] at hfails
  exact parseFormula_of_failsWith hfails

/-- If a line behind a formula begins with a token, nothing else is reported. -/
theorem parseFormula_further {source further : String} {outline : Outline}
    (h : parseFormula (.ofList operators) limit source = .ok outline) (hsome : further ≠ "")
    (htoken : BeginsToken further.toList) :
    parseFormula (.ofList operators) limit (source ++ "\n" ++ further) =
      .error [⟨.after (source ++ "\n").toList, .expectingEnd⟩] := by
  have hcatalog := Catalog.forall_mem_operators hnames
  have hline := htoken.dropSeparators_eq
  have hsplit : (source ++ "\n" ++ further).toList = (source ++ "\n").toList ++ further.toList :=
    String.toList_append
  have hwhole : (source ++ "\n" ++ further).toList = source.toList ++ '\n' :: further.toList := by
    simp
  obtain ⟨bound, room, hfill, hfill'⟩ :=
    exists_room operators operators limit source.toList (source ++ "\n" ++ further).toList
  obtain ⟨last, hread⟩ := parseFormula_eq_ok_iff.mp h
  rw [hfill] at hread
  obtain ⟨form, hform, hinterprets⟩ := exists_form_of_fill_root hcatalog hread
  have hplace : Sequence (start (source ++ "\n" ++ further).toList).skipSeparators.rest [form]
      further.toList := by
    rw [rest_skipSeparators, start, hwhole, dropSeparators_followedBy hline]
    exact hform.followedBy hline
  obtain ⟨after, hleads, hrest, hnone, hfrontier, hcomplaints⟩ :=
    exists_frontier_of_further hcatalog bound ⟨outline, hinterprets⟩ hplace (by simpa using hsome)
  -- where the formula ends, the text has been read up to the further line
  obtain ⟨before, hbefore, hoffset⟩ :=
    (within_start _).of_leads ((leads_skipSeparators _).trans hleads)
  rw [hrest, hsplit, List.append_left_inj] at hbefore
  rw [← hfill'] at hnone hfrontier hcomplaints
  refine parseFormula_eq_error_iff.mpr ⟨hnone, ?_⟩
  rw [diagnostics_eq, hfrontier, hcomplaints, hoffset, ← hbefore, hsplit,
    Position.ofOffset_byteLength, List.map_singleton]

/-- The reports at the end of a formula that can be read. Without the parenthesis that closes it, all
that is reported is reported at the end of the text, the missing parenthesis too. With a further line
that begins with a token, it is reported that the text does not end where the line begins. -/
theorem parseFormula_at_edges {source : String} {outline : Outline}
    (h : parseFormula (.ofList operators) limit source = .ok outline) :
    (∀ shorter, source = shorter ++ ")" → ClosesAtEnd source.toList →
      ∃ complaints : List Complaint, .expectingSymbol ")" ∈ complaints ∧
        parseFormula (.ofList operators) limit shorter =
          .error (complaints.map fun complaint ↦ ⟨.after shorter.toList, complaint⟩)) ∧
    ∀ further : String, further ≠ "" → BeginsToken further.toList →
      parseFormula (.ofList operators) limit (source ++ "\n" ++ further) =
        .error [⟨.after (source ++ "\n").toList, .expectingEnd⟩] := by
  constructor
  · rintro shorter rfl hcloses
    exact exists_report_of_unclosed hnames h hcloses
  · intro further hsome htoken
    exact parseFormula_further hnames h hsome htoken

end Edges

/-- A formula with one keyword argument, and the other one of its operator behind it. -/
theorem parseFormula_at_edges_keyword :
    (∃ complaints : List Complaint, .expectingSymbol ")" ∈ complaints ∧
      parseFormula (.ofList [withTwoKeywords]) none "(f #:lag 1 #:centred #t" =
        .error (complaints.map fun complaint ↦ ⟨⟨1, 24⟩, complaint⟩)) ∧
      parseFormula (.ofList [withTwoKeywords]) none "(f #:lag 1 #:centred #t)\n#:lag" =
        .error [⟨⟨2, 1⟩, .expectingEnd⟩] := by
  have hread : parseFormula (.ofList [withTwoKeywords]) none "(f #:lag 1 #:centred #t)" =
      .ok withBothSupplied := by
    decide +kernel
  have hword (name text : String) {forms : List Form} {rest : List Char} (hname : IsWordName name)
      (hends : isDelimited text.toList = true)
      (hrest : Sequence (dropSeparators text.toList) forms rest) :
      Sequence (name.toList ++ text.toList) (.word name.toList :: forms) rest :=
    .word hname.1 hname.2 hends hrest
  have hmembers : Sequence "f #:lag 1 #:centred #t)".toList
      (["f", "#:lag", "1", "#:centred", "#t"].map fun word ↦ .word word.toList) [')'] :=
    hword "f" " #:lag 1 #:centred #t)" (by decide) rfl <|
      hword "#:lag" " 1 #:centred #t)" (by decide) rfl <|
      hword "1" " #:centred #t)" (by decide) rfl <|
      hword "#:centred" " #t)" (by decide) rfl <|
      hword "#t" ")" (by decide) rfl <| .done _
  have hcloses : ClosesAtEnd "(f #:lag 1 #:centred #t)".toList :=
    ⟨"f #:lag 1 #:centred #t)".toList, _, rfl, hmembers⟩
  obtain ⟨hshorter, hfurther⟩ := @parseFormula_at_edges [withTwoKeywords] none (by decide) _ _ hread
  exact ⟨hshorter "(f #:lag 1 #:centred #t" rfl hcloses,
    hfurther "#:lag" (by decide) (by rintro _ ⟨⟩; decide)⟩

end Formulary
