import Formulary.Proofs.Formula.Comparison
import Mathlib.Data.List.Nodup
/-!
The order of declaration. Names that are tokens of their own end only where the text delimits them,
so of some operators of different names at most one can be taken anywhere, and the complaints about
those that were tried before it lie behind the end of its name (`parallel_firstOf_named`). Hence the
order in which operators are declared changes neither what is read nor, but for their order, the
complaints of a report (`parseFormula_perm`). Main definition: `IsTokenName`.
-/

set_option autoImplicit false
set_option relaxedAutoImplicit false

namespace Formulary

open Text Place Reading

/-- A name without blanks, parentheses and semicolons. -/
def IsTokenName (name : String) : Prop :=
  name.toList ≠ [] ∧ ∀ character ∈ name.toList, isDelimited [character] = false

-- the characters are those of the name, not all there are
instance (name : String) : Decidable (IsTokenName name) :=
  @instDecidableAnd _ _ _ (List.decidableBAll _ _)

/-- At most one name comes next in a text. -/
theorem IsTokenName.eq_of_word? {first second : String} {place after after' : Place}
    (hfirst : IsTokenName first) (hsecond : IsTokenName second)
    (h : place.word? first.toList = some after) (h' : place.word? second.toList = some after') :
    first = second := by
  obtain ⟨heaten, hends⟩ := word?_eq_some_iff.mp h
  obtain ⟨heaten', hends'⟩ := word?_eq_some_iff.mp h'
  have hrest := (eat?_eq_some heaten).1
  rw [(eat?_eq_some heaten').1] at hrest
  have hsame := append_eq_append_of_isDelimited hsecond.2 hfirst.2 hends' hends hrest
  exact (String.toList_inj.mp hsame.1).symm

/-! ### One operator -/

variable {operator : Operator} {place : Place}

theorem result_named (operator : Operator) (place : Place) :
    (named operator place).result = (place.word? operator.name.toList).map fun after ↦
      (operator, after.skipSeparators) := by
  rw [named, result_bind, word, move]
  cases place.word? operator.name.toList <;> rfl

theorem failures_named_of_none (h : place.word? operator.name.toList = none) :
    (named operator place).failures = [⟨place.offset, .expectingKeyword operator.name⟩] := by
  have hword := word_eq_of_none h
  rw [named, failures_bind_of_none (by rw [hword]), hword]
  rfl

/-- An operator can be refused only where its name is looked for. -/
theorem offset_of_mem_failures_named {failure : Failure}
    (h : failure ∈ (named operator place).failures) : failure.offset = place.offset := by
  cases hword : place.word? operator.name.toList with
  | none =>
    rw [failures_named_of_none hword] at h
    rw [List.mem_singleton.mp h]
  | some after =>
    have hmoved := word_eq_of_some hword
    rw [named, failures_bind_of_some (by rw [hmoved]), hmoved] at h
    exact absurd h List.not_mem_nil

/-! ### Some operators -/

/-- Of some operators the first one is taken whose name comes next. -/
theorem result_firstOf_named {operators earlier later : List Operator} {taken : Place}
    (hoperators : operators = earlier ++ operator :: later)
    (hearlier : ∀ other ∈ earlier, place.word? other.name.toList = none)
    (htaken : place.word? operator.name.toList = some taken) :
    (firstOf (operators.map named) place).result = some (operator, taken.skipSeparators) := by
  rw [result_firstOf, List.findSome?_map, hoperators, List.findSome?_eq_some_iff]
  refine ⟨earlier, operator, later, rfl, ?_, fun other hother ↦ ?_⟩
  · rw [Function.comp_apply, result_named, htaken, Option.map_some]
  · rw [Function.comp_apply, result_named, hearlier other hother, Option.map_none]

section Perm

variable {operators operators' : List Operator}

/-- If no operator can be taken, all of them are refused. -/
theorem failures_firstOf_named (h : (firstOf (operators.map named) place).result = none) :
    (firstOf (operators.map named) place).failures =
      operators.map fun operator ↦ ⟨place.offset, .expectingKeyword operator.name⟩ := by
  rw [result_firstOf_eq_none_iff, List.forall_mem_map] at h
  rw [failures_firstOf_of_none (List.forall_mem_map.mpr h), List.flatMap_map,
    List.map_eq_flatMap]
  refine List.flatMap_congr fun operator hoperator ↦ failures_named_of_none ?_
  simpa [result_named] using h operator hoperator

theorem offset_of_mem_failures_firstOf_named {failure : Failure}
    (h : failure ∈ (firstOf (operators.map named) place).failures) :
    failure.offset = place.offset := by
  obtain ⟨step, hstep, hfailure⟩ := exists_of_mem_failures_firstOf h
  obtain ⟨operator, -, rfl⟩ := List.mem_map.mp hstep
  exact offset_of_mem_failures_named hfailure

/-- Of operators of different names the same one is taken in every order. -/
theorem result_firstOf_named_perm (hperm : operators.Perm operators')
    (hnames : ∀ operator ∈ operators, IsTokenName operator.name)
    (hdistinct : (operators.map Operator.name).Nodup) :
    (firstOf (operators.map named) place).result =
      (firstOf (operators'.map named) place).result := by
  cases hresult : (firstOf (operators'.map named) place).result with
  | none =>
    rw [result_firstOf_eq_none_iff, List.forall_mem_map] at hresult ⊢
    exact fun operator hoperator ↦ hresult operator (hperm.mem_iff.mp hoperator)
  | some found' =>
    have hsome : (firstOf (operators.map named) place).result ≠ none := by
      intro hnone
      rw [result_firstOf_eq_none_iff, List.forall_mem_map] at hnone
      obtain ⟨step, hstep, hfound'⟩ := exists_of_result_firstOf hresult
      obtain ⟨operator, hoperator, rfl⟩ := List.mem_map.mp hstep
      rw [hnone operator (hperm.mem_iff.mpr hoperator)] at hfound'
      exact nomatch hfound'
    obtain ⟨found, hfound⟩ := Option.ne_none_iff_exists'.mp hsome
    rw [hfound]
    obtain ⟨step, hstep, htaken⟩ := exists_of_result_firstOf hfound
    obtain ⟨operator, hoperator, rfl⟩ := List.mem_map.mp hstep
    obtain ⟨step', hstep', htaken'⟩ := exists_of_result_firstOf hresult
    obtain ⟨operator', hoperator', rfl⟩ := List.mem_map.mp hstep'
    replace hoperator' := hperm.mem_iff.mpr hoperator'
    rw [result_named, Option.map_eq_some_iff] at htaken htaken'
    obtain ⟨after, hafter, rfl⟩ := htaken
    obtain ⟨after', hafter', rfl⟩ := htaken'
    have hname := (hnames operator hoperator).eq_of_word? (hnames operator' hoperator') hafter
      hafter'
    obtain rfl := List.inj_on_of_nodup_map hdistinct hoperator hoperator' hname
    rw [hafter] at hafter'
    rw [Option.some.inj hafter']

/-- Operators of different names are chosen alike in every order: those that are tried before the
one that is taken are refused behind the end of its name. -/
theorem parallel_firstOf_named (hperm : operators.Perm operators') (hsome : operators ≠ [])
    (hnames : ∀ operator ∈ operators, IsTokenName operator.name)
    (hdistinct : (operators.map Operator.name).Nodup) (place : Place) :
    Parallel Eq List.Perm (firstOf (operators.map named)) (firstOf (operators'.map named))
      place := by
  have hsome' : operators' ≠ [] := fun hnil ↦ hsome (hperm.trans (hnil ▸ .refl _)).eq_nil
  have hsame := @result_firstOf_named_perm place _ _ hperm hnames hdistinct
  refine ⟨?_, accounts_discipline.firstOf_named hsome place,
    accounts_discipline.firstOf_named hsome' place⟩
  cases hresult : (firstOf (operators.map named) place).result with
  | none =>
    have hresult' := hsame.symm.trans hresult
    have hfailures : (firstOf (operators.map named) place).failures.Perm
        (firstOf (operators'.map named) place).failures := by
      rw [failures_firstOf_named hresult, failures_firstOf_named hresult']
      exact hperm.map _
    exact resembles_of_none hresult hresult' (frontier_perm hfailures)
      fun offset _ ↦ complaintsAt_perm hfailures offset
  | some found =>
    obtain ⟨operator, after⟩ := found
    have hresult' := hsame.symm.trans hresult
    have hahead : place.offset < after.offset := by
      obtain ⟨step, hstep, htaken⟩ := exists_of_result_firstOf hresult
      obtain ⟨operator, hoperator, rfl⟩ := List.mem_map.mp hstep
      rw [result_named, Option.map_eq_some_iff] at htaken
      obtain ⟨ended, hended, hafter⟩ := htaken
      obtain ⟨rfl, rfl⟩ := Prod.mk.inj hafter
      exact ((advances_of_eat? (hnames operator hoperator).1
        (word?_eq_some_iff.mp hended).1).trans_leads (leads_skipSeparators ended)).2
    have hbehind (others : List Operator) :
        frontier (firstOf (others.map named) place).failures ≤ after.offset :=
      frontier_le fun failure hfailure ↦
        Nat.le_of_lt (offset_of_mem_failures_firstOf_named hfailure ▸ hahead)
    have hnone (others : List Operator) (offset : Nat) (hoffset : after.offset ≤ offset) :
        complaintsAt (firstOf (others.map named) place).failures offset = [] := by
      refine complaintsAt_of_forall_ne fun failure hfailure ↦ ?_
      rw [offset_of_mem_failures_firstOf_named hfailure]
      omega
    refine resembles_of_some hresult hresult' rfl ?_ fun offset hoffset ↦ ?_
    · rw [Nat.max_eq_right (hbehind operators), Nat.max_eq_right (hbehind operators')]
    · have hfar := Nat.le_trans (Nat.le_max_right _ _) hoffset
      rw [hnone operators offset hfar, hnone operators' offset hfar]

/-! ### Formulas -/

/-- Slots are read alike whatever the order of declaration, if the operators of one base have
different names. -/
theorem parallelSlots_fill_perm (hperm : operators.Perm operators')
    (hnames : ∀ operator ∈ operators, IsTokenName operator.name)
    (hdistinct : ∀ base, (((Catalog.ofList operators).operators base).map Operator.name).Nodup)
    (limit room : Nat) (slot : Slot) :
    ParallelSlots Eq List.Perm (fill (.ofList operators) limit room)
      (fill (.ofList operators') limit room) slot slot := by
  have hgroup (base : Base) : ((Catalog.ofList operators).operators base).Perm
      ((Catalog.ofList operators').operators base) := by
    rw [Catalog.operators_ofList, Catalog.operators_ofList]
    exact hperm.filter _
  refine parallelSlots_fill_of_chosen isComparison_perm (fun base ↦ (hgroup base).isEmpty_eq)
    (fun base hsome ↦ ?_) limit room slot
  exact parallel_firstOf_named (hgroup base) (by simpa using hsome)
    (fun operator hoperator ↦ hnames operator (Catalog.mem_of_mem_operators hoperator))
    (hdistinct base)

/-- If the operators of each base have different names, the order of declaration changes nothing but
the order of the complaints in a report. -/
theorem parseFormula_perm (hperm : operators.Perm operators')
    (hnames : ∀ operator ∈ operators, IsTokenName operator.name)
    (hdistinct : ∀ base, (((Catalog.ofList operators).operators base).map Operator.name).Nodup)
    (limit : Option Nat) (source : String) :
    (∃ outline, parseFormula (.ofList operators) limit source = .ok outline ∧
      parseFormula (.ofList operators') limit source = .ok outline) ∨
    ∃ position, ∃ complaints complaints' : List Complaint,
      parseFormula (.ofList operators) limit source =
        .error (complaints.map fun complaint ↦ ⟨position, complaint⟩) ∧
      parseFormula (.ofList operators') limit source =
        .error (complaints'.map fun complaint ↦ ⟨position, complaint⟩) ∧
      complaints.Perm complaints' := by
  have hparallel (limit room : Nat) :=
    parallelSlots_fill_perm hperm hnames hdistinct limit room (.root .series)
  obtain ⟨outline, _, hread, hread', rfl⟩ |
      ⟨position, complaints, complaints', -, -, hcomplaints, hread, hread'⟩ :=
    parseFormula_of_parallelSlots hparallel limit source
  · exact .inl ⟨outline, hread, hread'⟩
  · exact .inr ⟨position, complaints, complaints', hread, hread', hcomplaints⟩

end Perm

/-- An operator without arguments. -/
def constantOperator (name : String) : Operator :=
  { name, result := .series, parameters := [], keywords := [] }

/-- Of two operators neither is found, and the complaints stand in the order of declaration. -/
theorem parseFormula_perm_unknown :
    parseFormula (.ofList [constantOperator "f", constantOperator "g"]) none "(h)" =
        .error ([.expectingKeyword "f", .expectingKeyword "g"].map
          fun complaint ↦ ⟨⟨1, 2⟩, complaint⟩) ∧
      ∃ position, ∃ complaints complaints' : List Complaint,
        parseFormula (.ofList [constantOperator "f", constantOperator "g"]) none "(h)" =
          .error (complaints.map fun complaint ↦ ⟨position, complaint⟩) ∧
        parseFormula (.ofList [constantOperator "g", constantOperator "f"]) none "(h)" =
          .error (complaints'.map fun complaint ↦ ⟨position, complaint⟩) ∧
        complaints.Perm complaints' := by
  have hread : parseFormula (.ofList [constantOperator "f", constantOperator "g"]) none "(h)" =
      .error ([.expectingKeyword "f", .expectingKeyword "g"].map
        fun complaint ↦ ⟨⟨1, 2⟩, complaint⟩) := by
    decide +kernel
  have hdistinct (base : Base) : (((Catalog.ofList [constantOperator "f", constantOperator "g"]
      ).operators base).map Operator.name).Nodup := by
    cases base with
    | series => decide
    | scalar kind => cases kind <;> decide
  refine ⟨hread, ?_⟩
  obtain ⟨outline, hok, -⟩ | hrefused :=
    parseFormula_perm (.swap (constantOperator "g") (constantOperator "f") []) (by decide) hdistinct
      none "(h)"
  · rw [hread] at hok
    exact nomatch hok
  · exact hrefused

end Formulary
