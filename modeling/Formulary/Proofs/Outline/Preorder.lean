import Formulary.Outline
/-!
The nodes of an outline in preorder. The nodes of a node are itself and those of its parts, each of
which stands one level further down (`map_snd_preorderOfAll`); and so are its literals
(`Outline.literals_node`).
-/

set_option autoImplicit false
set_option relaxedAutoImplicit false

namespace Formulary

namespace Outline

mutual

/-- The depth at which an outline stands does not change its nodes. -/
theorem map_snd_preorder : (outline : Outline) → (depth : Nat) →
    (outline.preorder depth).map Prod.snd = (outline.preorder 0).map Prod.snd
  | .node slot content parts, depth => by
    rw [preorder, preorder, List.map_cons, List.map_cons, map_snd_preorderOfAll parts,
      map_snd_preorderOfAll parts]

theorem map_snd_preorderOfAll : (outlines : List Outline) → (depth : Nat) →
    (preorderOfAll depth outlines).map Prod.snd =
      outlines.flatMap fun outline ↦ (outline.preorder 0).map Prod.snd
  | [], _ => rfl
  | outline :: outlines, depth => by
    rw [preorderOfAll, List.map_append, map_snd_preorder outline, map_snd_preorderOfAll outlines,
      List.flatMap_cons]

end

theorem preorderOfAll_eq_flatMap (depth : Nat) (outlines : List Outline) :
    preorderOfAll depth outlines = outlines.flatMap (preorder depth) := by
  induction outlines with
  | nil => rfl
  | cons outline outlines ih => rw [preorderOfAll, ih, List.flatMap_cons]

theorem literals_node (slot : Slot) (content : Option Literal) (parts : List Outline) :
    (node slot content parts).literals =
      slot.defaults ++ content.toList ++ parts.flatMap literals := by
  have heq : literals = fun outline ↦ ((outline.preorder 0).map Prod.snd).flatMap fun part ↦
      part.slot.defaults ++ part.content.toList :=
    funext fun outline ↦ by rw [literals, List.flatMap_map]
  simp only [heq, preorder, List.map_cons, List.flatMap_cons, map_snd_preorderOfAll,
    List.flatMap_assoc]
  rfl

end Outline

end Formulary
