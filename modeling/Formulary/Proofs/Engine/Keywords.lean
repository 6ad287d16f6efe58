import Formulary.Proofs.Engine.Settling
/-!
Keyword arguments are neither lost nor repeated. The engine reads them one after another (`Supplies`),
looks for a repeated name one round late, and takes them out by position from a list that it reorders
meanwhile; yet if it succeeds, their names are distinct, and each of them stands once in the result, as it
was read, at the first declaration of its name, while all other declarations have their skeletons
(`Arranges`). If a name comes a second time, it fails where that argument ends
(`exists_collectsOnce_resolve`).
-/

set_option autoImplicit false
set_option relaxedAutoImplicit false

namespace Formulary.Engine

open Text

/-! ### Rounds -/

/-- Keyword arguments that are read one after another, each in one round. -/
inductive Supplies (round : Step (Keyword × Outline)) :
    State → List (String × Outline) → State → Prop
  | start (state : State) : Supplies round state [] state
  | next {state middle after : State} {keyword : Keyword} {outline : Outline}
      {given : List (String × Outline)}
      (hround : round state = some (some (keyword, outline), middle))
      (hrest : Supplies round middle given after) :
      Supplies round state ((keyword.name, outline) :: given) after

section Rounds

variable {round : Step (Keyword × Outline)} {state middle stop : State}
  {given earlier other rest : List (String × Outline)} {name : String} {outline : Outline}

/-- Of what is read from one state one is the beginning of the other. -/
theorem Supplies.comparable (h : Supplies round state given middle)
    (hother : Supplies round state other stop) :
    (∃ rest, other = given ++ rest ∧ Supplies round middle rest stop) ∨
      ∃ rest, given = other ++ rest ∧ Supplies round stop rest middle := by
  induction h generalizing other stop with
  | start state => exact .inl ⟨other, rfl, hother⟩
  | @next state middle after keyword outline given hround hrest ih =>
    cases hother with
    | start => exact .inr ⟨_, rfl, .next hround hrest⟩
    | next hround' hrest' =>
      obtain ⟨hsame, rfl⟩ := Prod.mk.inj (Option.some.inj (hround.symm.trans hround'))
      obtain ⟨rfl, rfl⟩ := Prod.mk.inj (Option.some.inj hsame)
      rcases ih hrest' with ⟨rest, rfl, hmore⟩ | ⟨rest, rfl, hmore⟩
      · exact .inl ⟨rest, rfl, hmore⟩
      · exact .inr ⟨rest, rfl, hmore⟩

/-- A name that came before is not among distinct names. -/
theorem not_nodup_of_append (h : name ∈ earlier.map Prod.fst) :
    ¬ (((earlier ++ [(name, outline)]) ++ rest).map Prod.fst).Nodup := by
  intro hnodup
  rw [List.map_append, List.map_append] at hnodup
  have hfront := (List.nodup_append.mp hnodup).1
  exact (List.nodup_append.mp hfront).2.2 name h name (by simp) rfl

/-- Where the names up to the last one are distinct, no other one than the last came before. -/
theorem eq_nil_of_append_eq {last : String × Outline} (hrepeated : name ∈ earlier.map Prod.fst)
    (hother : (other.map Prod.fst).Nodup)
    (hsame : (earlier ++ [(name, outline)]) ++ rest = other ++ [last]) : rest = [] := by
  rcases List.eq_nil_or_concat rest with rfl | ⟨front, final, rfl⟩
  · rfl
  · rw [List.concat_eq_append, ← List.append_assoc] at hsame
    obtain ⟨rfl, -⟩ := List.append_inj' hsame rfl
    exact absurd hother (not_nodup_of_append hrepeated)

/-- If there is no other argument after some under distinct names, no name is ever repeated. -/
theorem Supplies.not_mem_of_nodup {after : State} (h : Supplies round state given middle)
    (hdistinct : (given.map Prod.fst).Nodup) (hend : round middle = some (none, after))
    (hother : Supplies round state (earlier ++ [(name, outline)]) stop) :
    name ∉ earlier.map Prod.fst := by
  intro hrepeated
  rcases h.comparable hother with ⟨rest, hsame, hmore⟩ | ⟨rest, rfl, -⟩
  · cases hmore with
    | start =>
      rw [List.append_nil] at hsame
      rw [← hsame, ← List.append_nil (earlier ++ _)] at hdistinct
      exact not_nodup_of_append hrepeated hdistinct
    | next hround =>
      rw [hend] at hround
      cases hround
  · exact not_nodup_of_append hrepeated hdistinct

/-- There is one argument only that is the first under a name that came before. -/
theorem Supplies.eq_of_repeated {name' : String} {outline' : Outline}
    (h : Supplies round state (earlier ++ [(name, outline)]) middle)
    (hnames : (earlier.map Prod.fst).Nodup) (hrepeated : name ∈ earlier.map Prod.fst)
    (hother : Supplies round state (other ++ [(name', outline')]) stop)
    (hnames' : (other.map Prod.fst).Nodup) (hrepeated' : name' ∈ other.map Prod.fst) :
    name = name' ∧ middle = stop := by
  have hsame : earlier ++ [(name, outline)] = other ++ [(name', outline')] ∧ middle = stop := by
    rcases h.comparable hother with ⟨rest, hsame, hmore⟩ | ⟨rest, hsame, hmore⟩
    · obtain rfl := eq_nil_of_append_eq hrepeated hnames' hsame.symm
      cases hmore
      rw [List.append_nil] at hsame
      exact ⟨hsame.symm, rfl⟩
    · obtain rfl := eq_nil_of_append_eq hrepeated' hnames hsame.symm
      cases hmore
      rw [List.append_nil] at hsame
      exact ⟨hsame, rfl⟩
  obtain ⟨-, hlast⟩ := List.append_inj' hsame.1 rfl
  cases hlast
  exact ⟨rfl, hsame.2⟩

end Rounds

section Group

variable {text : List Char} {inner : Outline → Step Outline} {group : List Keyword} {rounds : Nat}

/-- The first of some steps that succeeds is one of them. -/
theorem exists_of_firstOf {α : Type} {steps : List (Step α)} {state after : State} {value : α}
    (h : Step.firstOf text steps state = some (some value, after)) :
    ∃ step ∈ steps, ∃ start, step start = some (some value, after) := by
  induction steps generalizing state with
  | nil => cases h
  | cons step steps ih =>
    obtain ⟨⟨tried, middle⟩, htried, hrest⟩ := Option.bind_eq_some_iff.mp h
    cases tried with
    | none =>
      obtain ⟨other, hother, hvalue⟩ := ih hrest
      exact ⟨other, List.mem_cons_of_mem _ hother, hvalue⟩
    | some found =>
      cases hrest
      obtain ⟨⟨result, last⟩, hstep, hlast⟩ := Option.bind_eq_some_iff.mp htried
      cases result with
      | none =>
        obtain ⟨back, -, hback⟩ := Option.bind_eq_some_iff.mp hlast
        cases hback
      | some result =>
        cases hlast
        exact ⟨step, List.mem_cons_self, state, hstep⟩

theorem mem_of_supply {state after : State} {keyword : Keyword} {outline : Outline}
    (h : supply text inner group state = some (some (keyword, outline), after)) : keyword ∈ group := by
  obtain ⟨step, hstep, start, hvalue⟩ := exists_of_firstOf h
  obtain ⟨own, hown, rfl⟩ := List.mem_map.mp hstep
  obtain ⟨⟨found, middle⟩, -, hrest⟩ := Option.bind_eq_some_iff.mp hvalue
  cases found with
  | none => cases hrest
  | some found =>
    cases hrest
    exact hown

theorem Supplies.declared {state after : State} {given : List (String × Outline)}
    (h : Supplies (supply text inner group) state given after) :
    ∀ entry ∈ given, ∃ keyword ∈ group, keyword.name = entry.1 := by
  induction h with
  | start => exact fun _ h ↦ absurd h List.not_mem_nil
  | @next _ _ _ keyword _ _ hround _ ih =>
    exact List.forall_mem_cons.mpr ⟨⟨keyword, mem_of_supply hround, rfl⟩, ih⟩

/-- Either the arguments are read until there is none, under distinct names, or until one of them comes
under a name that came before. -/
theorem exists_supplies {supplied : List (String × Outline)} {state after : State}
    {value : Option (List (String × Outline))} (hnames : (supplied.map Prod.fst).Nodup)
    (h : readSupplied text inner group rounds supplied state = some (value, after)) :
    ∃ given middle, Supplies (supply text inner group) state given middle ∧
      ((value = some (supplied ++ given) ∧ ((supplied ++ given).map Prod.fst).Nodup ∧
          supply text inner group middle = some (none, after)) ∨
        ∃ earlier name outline, given = earlier ++ [(name, outline)] ∧
          ((supplied ++ earlier).map Prod.fst).Nodup ∧ name ∈ (supplied ++ earlier).map Prod.fst ∧
            value = none ∧ after = middle.refused (.duplicateKeyword ("#:" ++ name))) := by
  induction rounds generalizing supplied state with
  | zero => cases h
  | succ rounds ih =>
    rw [readSupplied, repeatedName?_nil_eq_none_iff.mpr hnames] at h
    obtain ⟨⟨found, middle⟩, hround, hrest⟩ := Option.bind_eq_some_iff.mp h
    obtain ⟨⟨read, reached⟩, hsupply, hread⟩ := Option.bind_eq_some_iff.mp hround
    cases hread
    cases read with
    | none =>
      cases hrest
      refine ⟨[], state, .start state, .inl ⟨?_, ?_, hsupply⟩⟩
      · rw [List.append_nil]
      · rwa [List.append_nil]
    | some read =>
      obtain ⟨keyword, outline⟩ := read
      dsimp only at hrest
      by_cases hsame : keyword.name ∈ supplied.map Prod.fst
      · cases rounds with
        | zero => cases hrest
        | succ rounds =>
          rw [readSupplied, repeatedName?_append_singleton hnames, if_pos hsame] at hrest
          cases hrest
          refine ⟨_, middle, .next hsupply (.start middle), .inr ⟨[], keyword.name, outline, rfl, ?_, ?_,
            rfl, rfl⟩⟩
          · rwa [List.append_nil]
          · rwa [List.append_nil]
      · obtain ⟨given, last, hgiven, hcases⟩ :=
          ih (nodup_append_singleton_iff.mpr ⟨hsame, hnames⟩) hrest
        refine ⟨(keyword.name, outline) :: given, last, .next hsupply hgiven, ?_⟩
        rcases hcases with ⟨hvalue, hdistinct, hend⟩ |
          ⟨earlier, name, again, rfl, hdistinct, hrepeated, hvalue, hlast⟩
        · rw [List.append_assoc, List.singleton_append] at hvalue hdistinct
          exact .inl ⟨hvalue, hdistinct, hend⟩
        · rw [List.append_assoc, List.singleton_append] at hdistinct hrepeated
          exact .inr ⟨(keyword.name, outline) :: earlier, name, again, rfl, hdistinct, hrepeated, hvalue,
            hlast⟩

/-! ### Groups -/

/-- The parts of a group stand for its declarations, one for each and in their order. Those that were read
are, up to their order, all that was given, each at the first declaration of its name, and the others are
skeletons. -/
def Arranges (group : List Keyword) (given : List (String × Outline)) (parts : List Outline) : Prop :=
  parts.length = group.length ∧
    ∃ entries : List (Keyword × Option (String × Outline)), entries.map Prod.fst = group ∧
      parts = (entries.map fun (keyword, entry) ↦ entry.elim (Slot.keyword keyword).skeleton Prod.snd) ∧
        (entries.filterMap Prod.snd).Perm given ∧ PutsFirst entries

/-- What comes of a group of keyword arguments. -/
structure CollectsOnce (text : List Char) (inner : Outline → Step Outline) (group : List Keyword)
    (rounds : Nat) (state : State) : Prop where
  /-- It is read to its end. -/
  ends : ∃ value after, keywordArguments text inner group rounds state = some (value, after)
  /-- If it is read, arguments were read one after another until there was none, all under different
  names, and the parts stand for the declarations in their order. -/
  arranged : ∀ parts after, keywordArguments text inner group rounds state = some (some parts, after) →
    ∃ given middle, Supplies (supply text inner group) state given middle ∧
      supply text inner group middle = some (none, after) ∧ (given.map Prod.fst).Nodup ∧
        Arranges group given parts
  /-- If an argument is read under a name that came before, the group is refused where it ends. -/
  refused : ∀ earlier name outline middle,
    Supplies (supply text inner group) state (earlier ++ [(name, outline)]) middle →
      (earlier.map Prod.fst).Nodup → name ∈ earlier.map Prod.fst →
        keywordArguments text inner group rounds state =
          some (none, middle.refused (.duplicateKeyword ("#:" ++ name)))

/-- What a group comes to is what its collection comes to, arranged. -/
theorem exists_readSupplied {state after : State} {value : Option (List Outline)}
    (h : keywordArguments text inner group rounds state = some (value, after)) :
    ∃ supplied, readSupplied text inner group (rounds + 1) [] state = some (supplied, after) ∧
      value = supplied.map (arrangeSupplied group) := by
  obtain ⟨⟨supplied, middle⟩, hread, hrest⟩ := Option.bind_eq_some_iff.mp h
  cases supplied <;> cases hrest <;> exact ⟨_, hread, rfl⟩

theorem arranges_arrangeSupplied {given : List (String × Outline)}
    (hnames : (given.map Prod.fst).Nodup)
    (hgroup : ∀ entry ∈ given, ∃ keyword ∈ group, keyword.name = entry.1) :
    Arranges group given (arrangeSupplied group given) := by
  rw [arrangeSupplied_eq group hnames]
  obtain ⟨entries, hdeclared, harranged, hperm, hfirst⟩ := exists_arrangement hnames hgroup
  refine ⟨?_, entries, hdeclared, harranged, hperm, hfirst⟩
  rw [harranged, arrangement, List.length_map, ← hdeclared, List.length_map]

/-- A group is read one argument after another, and what comes of it depends on their names. -/
theorem collectsOnce {state : State}
    (hends : ∃ value after, keywordArguments text inner group rounds state = some (value, after)) :
    CollectsOnce text inner group rounds state := by
  obtain ⟨value, after, hrun⟩ := hends
  obtain ⟨supplied, hread, hvalue⟩ := exists_readSupplied hrun
  have hnone : (([] : List (String × Outline)).map Prod.fst).Nodup := List.nodup_nil
  obtain ⟨given, middle, hgiven, hcases⟩ := exists_supplies hnone hread
  refine ⟨⟨value, after, hrun⟩, fun parts last hparts ↦ ?_,
    fun earlier name outline stop hsupplies hnames hrepeated ↦ ?_⟩
  · obtain ⟨hsame, rfl⟩ := Prod.mk.inj (Option.some.inj (hrun.symm.trans hparts))
    rcases hcases with ⟨rfl, hdistinct, hend⟩ | ⟨_, _, _, _, _, _, rfl, _⟩
    · rw [hvalue] at hsame
      cases hsame
      exact ⟨given, middle, hgiven, hend, hdistinct,
        arranges_arrangeSupplied hdistinct hgiven.declared⟩
    · rw [hvalue] at hsame
      cases hsame
  · rcases hcases with ⟨-, hdistinct, hend⟩ | ⟨others, other, again, rfl, hothers, hother, rfl, rfl⟩
    · exact absurd hrepeated (hgiven.not_mem_of_nodup hdistinct hend hsupplies)
    · obtain ⟨rfl, rfl⟩ := hgiven.eq_of_repeated hothers hother hsupplies hnames hrepeated
      rw [hrun, hvalue]
      rfl

-- a name that is declared twice cannot be used twice either
example :
    (keywordArguments "#:a 1 #:a #t)".toList (resolve "#:a 1 #:a #t)".toList 14 (.ofList []) none 14)
      [⟨"a", .scalar .int, none⟩, ⟨"a", .scalar .bool, none⟩] 14 ⟨0, 3, .none, []⟩).map
        (fun found ↦ (found.1, found.2.cursor, found.2.depth, found.2.furthest)) =
      some (none, 12, 3, ⟨12, [.duplicateKeyword "#:a"]⟩) := by
  decide +kernel

/-- Keyword arguments are neither lost nor repeated, from wherever the text can be cut, whatever the
declarations are. -/
theorem exists_collectsOnce_resolve (operators : List Operator) (limit : Option Nat) (source : String)
    (group : List Keyword) :
    ∃ bound, ∀ rounds nesting, bound ≤ rounds → bound ≤ nesting →
      parse (.ofList operators) limit rounds nesting source =
          some (parseFormula (.ofList operators) limit source) ∧
        ∀ state : State, IsBoundary source.toList state.cursor →
          CollectsOnce source.toList
            (resolve source.toList rounds (.ofList operators) limit nesting) group rounds state := by
  refine ⟨enough operators limit source.toList (.keywords group) +
    nestingBound (.ofList operators) source.toList, fun rounds nesting hrounds hnesting ↦ ⟨?_, ?_⟩⟩
  · unfold enough at hrounds hnesting
    exact parse_eq operators limit (by omega) (by omega)
  · intro state hstate
    have hgroup : Settles source.toList (dispatch source.toList rounds (.ofList operators)
        (resolve source.toList rounds (.ofList operators) limit nesting)
        (.vacant (.keywords group))) :=
      settles_dispatch operators (by omega) (by omega) none fun h ↦ absurd h Bool.false_ne_true
    obtain ⟨events, value, stop, -, -, hrun⟩ := hgroup state.depth state.cursor hstate
    obtain ⟨⟨parts, after⟩, hparts, -⟩ := Option.bind_eq_some_iff.mp (hrun state rfl rfl)
    exact collectsOnce ⟨parts, after, hparts⟩

/-- From behind an argument a group is collected, though its first name is that of the argument. -/
theorem exists_collectsOnce_resolve_behind :
    ∃ rounds nesting, CollectsOnce "#:a 1 #:a 2 #:b #t)".toList
      (resolve "#:a 1 #:a 2 #:b #t)".toList rounds (.ofList []) none nesting)
      [⟨"b", .scalar .bool, none⟩, ⟨"a", .scalar .int, none⟩] rounds ⟨6, 3, .none, []⟩ := by
  obtain ⟨bound, hbound⟩ := exists_collectsOnce_resolve [] none "#:a 1 #:a 2 #:b #t)"
    [⟨"b", .scalar .bool, none⟩, ⟨"a", .scalar .int, none⟩]
  obtain ⟨-, hcollects⟩ := hbound bound bound (Nat.le_refl bound) (Nat.le_refl bound)
  have hbehind : IsBoundary "#:a 1 #:a 2 #:b #t)".toList 6 :=
    ⟨"#:a 1 ".toList, "#:a 2 #:b #t)".toList, rfl, rfl⟩
  exact ⟨bound, bound, hcollects ⟨6, 3, .none, []⟩ hbehind⟩

end Group

end Formulary.Engine
