import Formulary.Outline
/-!
Skeletons: what a slot looks like before anything is read for it. Main definitions:
`Keyword.absent`, the outline of a keyword argument that is left out, and `Slot.skeleton`.
-/

set_option autoImplicit false
set_option relaxedAutoImplicit false

namespace Formulary

namespace Keyword

/-- What stands for the value of a keyword argument that is left out: its vacant slot, which holds
the default if there is one. -/
def standIn (keyword : Keyword) : Outline :=
  .node (.ofArgument keyword.type) keyword.default []

/-- A keyword argument that is left out. -/
def absent (keyword : Keyword) : Outline :=
  .node (.keyword keyword) none [keyword.standIn]

end Keyword

namespace Operator

/-- The slots of what follows an operator: one for each parameter, and then one for the keyword
arguments if it has any. -/
def slots (operator : Operator) : List Slot :=
  operator.parameters.map Slot.ofArgument ++
    if operator.keywords.isEmpty then [] else [.keywords operator.keywords]

end Operator

namespace Slot

/-- The keyword arguments of an operator when all of them are left out. -/
def keywordsSkeleton (group : List Keyword) : Outline :=
  .node (.keywords group) none (group.map Keyword.absent)

/-- What a slot looks like before anything is read for it. -/
def skeleton : Slot → Outline
  | .root base => .node (.root base) none [.vacant (.call base)]
  | .operator chosen =>
    .node (.operator chosen) none
      (chosen.parameters.map (fun type ↦ .vacant (ofArgument type)) ++
        if chosen.keywords.isEmpty then [] else [keywordsSkeleton chosen.keywords])
  | .keywords group => keywordsSkeleton group
  | .keyword own => own.absent
  | slot => .vacant slot

end Slot

end Formulary
