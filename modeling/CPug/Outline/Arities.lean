import CPug.Outline.Forest

/-!
# A forest from its arities

In pre-order, the labels with the number of children below each determine the forest: `ofArities` builds it
from the last label to the first, each label taking its children from the trees built so far.
-/

namespace Outline

universe u v

namespace Forest

variable {α : Type u} {β : Type v}

/-- The number of trees. -/
def width : Forest α → Nat
  | nil => 0
  | node _ _ next => next.width + 1

/-- The first trees. -/
def takeTrees : Nat → Forest α → Forest α
  | 0, _ => nil
  | _, nil => nil
  | n + 1, node a kids next => node a kids (takeTrees n next)

/-- What follows the first trees. -/
def dropTrees : Nat → Forest α → Forest α
  | 0, f => f
  | _, nil => nil
  | n + 1, node _ _ next => dropTrees n next

/-- The labels in pre-order, each with the number of its children. -/
def arities : Forest α → List (Nat × α)
  | nil => []
  | node a kids next => (kids.width, a) :: (kids.arities ++ next.arities)

/-- Build a forest from the labels in pre-order and the numbers of their children. -/
def ofArities : List (Nat × α) → Forest α
  | [] => nil
  | (n, a) :: rest => node a (takeTrees n (ofArities rest)) (dropTrees n (ofArities rest))

theorem takeTrees_width_append (f g : Forest α) : takeTrees f.width (f ++ g) = f := by
  induction f with
  | nil => cases g <;> rfl
  | node a kids next _ ih => rw [width, node_append, takeTrees, ih]

theorem dropTrees_width_append (f g : Forest α) : dropTrees f.width (f ++ g) = g := by
  induction f with
  | nil => cases g <;> rfl
  | node a kids next _ ih => rw [width, node_append, dropTrees, ih]

theorem ofArities_append (f : Forest α) (rest : List (Nat × α)) :
    ofArities (f.arities ++ rest) = f ++ ofArities rest := by
  induction f generalizing rest with
  | nil => rfl
  | node a kids next ihk ihn =>
    have hrest : ofArities (kids.arities ++ next.arities ++ rest) = kids ++ (next ++ ofArities rest) := by
      rw [List.append_assoc, ihk, ihn]
    rw [arities, List.cons_append, ofArities, hrest, takeTrees_width_append, dropTrees_width_append]
    rfl

/-- A forest is built again from its arities. -/
theorem ofArities_arities (f : Forest α) : ofArities f.arities = f := by
  have h := ofArities_append f []
  rwa [List.append_nil, ofArities, append_nil] at h

theorem mem_labels_of_mem_arities {f : Forest α} {p : Nat × α} (h : p ∈ f.arities) :
    p.2 ∈ f.labels := by
  induction f with
  | nil => cases h
  | node a kids next ihk ihn =>
    rcases List.mem_cons.mp h with rfl | h
    · exact List.mem_cons_self
    · rcases List.mem_append.mp h with h | h
      · exact List.mem_cons_of_mem _ (List.mem_append_left _ (ihk h))
      · exact List.mem_cons_of_mem _ (List.mem_append_right _ (ihn h))

theorem width_map (g : α → β) (f : Forest α) : (f.map g).width = f.width := by
  induction f with
  | nil => rfl
  | node a kids next _ ih => rw [map_node, width, width, ih]

theorem arities_map (g : α → β) (f : Forest α) :
    (f.map g).arities = f.arities.map fun p => (p.1, g p.2) := by
  induction f with
  | nil => rfl
  | node a kids next ihk ihn =>
    rw [map_node, arities, arities, width_map, ihk, ihn, List.map_cons, List.map_append]

end Forest

end Outline
