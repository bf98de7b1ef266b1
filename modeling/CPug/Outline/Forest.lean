import Mathlib.Data.List.Basic

/-!
# Ordered forests

A forest is kept in the first-child / next-sibling form, so that every function on it
is plain structural recursion and every proof is one induction with two hypotheses:
one for the children and one for the later siblings.

* `labels` is the pre-order traversal, `withAncestors` the same traversal with the
  labels on the path from each node up to its root, `withLevel` adds the levels.
* `prune` removes some of the nodes, each with what is below it; `modify` changes one label, given by
  its place in the pre-order.
* `visit` is the traversal that enters only some of the nodes; `visit_eq_filter` finds it among
  the labels by what stands above each of them.
-/

namespace Outline

universe u v

/-- An ordered forest: the first tree (a label and its children), then the later trees. -/
inductive Forest (α : Type u) where
  | nil
  | node (label : α) (children next : Forest α)
deriving Repr, DecidableEq

namespace Forest

variable {α : Type u} {β : Type v}

/-- The trees of `f` followed by those of `g`. -/
def append : Forest α → Forest α → Forest α
  | nil, g => g
  | node a kids next, g => node a kids (next.append g)

instance : Append (Forest α) := ⟨append⟩

/-- One node without children. -/
def leaf (a : α) : Forest α := node a nil nil

@[simp] theorem nil_append (g : Forest α) : nil ++ g = g := rfl

@[simp] theorem node_append (a : α) (kids next g : Forest α) :
    node a kids next ++ g = node a kids (next ++ g) := rfl

@[simp] theorem append_nil (f : Forest α) : f ++ nil = f := by
  induction f with
  | nil => rfl
  | node a kids next _ ih => rw [node_append, ih]

@[simp] theorem append_assoc (f g h : Forest α) : f ++ g ++ h = f ++ (g ++ h) := by
  induction f with
  | nil => rfl
  | node a kids next _ ih => simp only [node_append, ih]

/-- The number of nodes. -/
def size : Forest α → Nat
  | nil => 0
  | node _ kids next => 1 + kids.size + next.size

/-- The labels in pre-order. -/
def labels : Forest α → List α
  | nil => []
  | node a kids next => a :: (kids.labels ++ next.labels)

/-- The labels in pre-order, each with the labels above it, innermost first, below `above`. -/
def withAncestors (above : List α) : Forest α → List (List α × α)
  | nil => []
  | node a kids next => (above, a) :: (kids.withAncestors (a :: above) ++ next.withAncestors above)

/-- The labels in pre-order, where only the nodes that `enters` accepts are entered. -/
def visit (enters : α → Bool) : Forest α → List α
  | nil => []
  | node a kids next =>
      a :: ((if enters a then kids.visit enters else []) ++ next.visit enters)

/-- Relabelling. -/
def map (f : α → β) : Forest α → Forest β
  | nil => nil
  | node a kids next => node (f a) (kids.map f) (next.map f)

/-- Remove the nodes that `drops` accepts, with all that is below them. -/
def prune (drops : α → Bool) : Forest α → Forest α
  | nil => nil
  | node a kids next =>
      if drops a then next.prune drops else node a (kids.prune drops) (next.prune drops)

/-- Change the label at place `i` of the pre-order. -/
def modify (f : α → α) : Forest α → Nat → Forest α
  | nil, _ => nil
  | node a kids next, 0 => node (f a) kids next
  | node a kids next, i + 1 =>
      if i < kids.size then node a (kids.modify f i) next
      else node a kids (next.modify f (i - kids.size))

/-- Each label with its level, the top level being `k`. -/
def withLevel (k : Nat) : Forest α → Forest (Nat × α)
  | nil => nil
  | node a kids next => node (k, a) (kids.withLevel (k + 1)) (next.withLevel k)

@[simp] theorem size_nil : (nil : Forest α).size = 0 := rfl

@[simp] theorem size_node (a : α) (kids next : Forest α) :
    (node a kids next).size = 1 + kids.size + next.size := rfl

@[simp] theorem labels_nil : (nil : Forest α).labels = [] := rfl

@[simp] theorem labels_node (a : α) (kids next : Forest α) :
    (node a kids next).labels = a :: (kids.labels ++ next.labels) := rfl

@[simp] theorem labels_append (f g : Forest α) : (f ++ g).labels = f.labels ++ g.labels := by
  induction f with
  | nil => rfl
  | node a kids next _ ih => simp [ih]

@[simp] theorem map_nil (f : α → β) : (nil : Forest α).map f = nil := rfl

@[simp] theorem map_node (f : α → β) (a : α) (kids next : Forest α) :
    (node a kids next).map f = node (f a) (kids.map f) (next.map f) := rfl

@[simp] theorem map_append (f : α → β) (g h : Forest α) : (g ++ h).map f = g.map f ++ h.map f := by
  induction g with
  | nil => rfl
  | node a kids next _ ih => simp [ih]

theorem labels_map (f : α → β) (g : Forest α) : (g.map f).labels = g.labels.map f := by
  induction g with
  | nil => rfl
  | node a kids next ihk ihn => simp [ihk, ihn]

theorem prune_node_of_drops {drops : α → Bool} {a : α} (h : drops a = true) (kids next : Forest α) :
    (node a kids next).prune drops = next.prune drops := if_pos h

theorem prune_node_of_keeps {drops : α → Bool} {a : α} (h : drops a = false)
    (kids next : Forest α) :
    (node a kids next).prune drops = node a (kids.prune drops) (next.prune drops) := by
  rw [prune, if_neg (by simp [h])]

theorem map_snd_withLevel (f : Forest α) (k : Nat) : (f.withLevel k).map Prod.snd = f := by
  induction f generalizing k with
  | nil => rfl
  | node a kids next ihk ihn => rw [withLevel, map_node, ihk, ihn]

/-- No label that `drops` accepts is left. -/
theorem mem_labels_prune {drops : α → Bool} {f : Forest α} {b : α}
    (h : b ∈ (f.prune drops).labels) : drops b = false := by
  induction f with
  | nil => cases h
  | node a kids next ihk ihn =>
    cases ha : drops a with
    | true =>
      rw [prune_node_of_drops ha] at h
      exact ihn h
    | false =>
      rw [prune_node_of_keeps ha, labels_node] at h
      rcases List.mem_cons.mp h with rfl | h
      · exact ha
      · exact (List.mem_append.mp h).elim ihk ihn

@[simp] theorem withAncestors_nil (above : List α) : (nil : Forest α).withAncestors above = [] := rfl

@[simp] theorem withAncestors_node (above : List α) (a : α) (kids next : Forest α) :
    (node a kids next).withAncestors above =
      (above, a) :: (kids.withAncestors (a :: above) ++ next.withAncestors above) := rfl

theorem visit_node (enters : α → Bool) (a : α) (kids next : Forest α) :
    (node a kids next).visit enters =
      a :: ((if enters a then kids.visit enters else []) ++ next.visit enters) := rfl

theorem length_withAncestors (f : Forest α) (above : List α) :
    (f.withAncestors above).length = f.size := by
  induction f generalizing above with
  | nil => rfl
  | node a kids next ihk ihn =>
    simp only [withAncestors_node, List.length_cons, List.length_append, ihk, ihn, size_node]
    omega

@[simp] theorem modify_zero (f : α → α) (a : α) (kids next : Forest α) :
    (node a kids next).modify f 0 = node (f a) kids next := rfl

theorem modify_succ_of_lt (f : α → α) (a : α) {kids : Forest α} (next : Forest α) {i : Nat}
    (h : i < kids.size) : (node a kids next).modify f (i + 1) = node a (kids.modify f i) next :=
  if_pos h

theorem modify_succ_of_le (f : α → α) (a : α) {kids : Forest α} (next : Forest α) {i : Nat}
    (h : kids.size ≤ i) :
    (node a kids next).modify f (i + 1) = node a kids (next.modify f (i - kids.size)) :=
  if_neg (by omega)

theorem modify_eq_nil_iff (f : α → α) (g : Forest α) (i : Nat) : g.modify f i = nil ↔ g = nil := by
  cases g with
  | nil => simp [modify]
  | node a kids next =>
    cases i with
    | zero => simp
    | succ i =>
      rw [modify]
      split <;> simp

theorem mem_labels_of_mem_visit {enters : α → Bool} {f : Forest α} {a : α}
    (h : a ∈ f.visit enters) : a ∈ f.labels := by
  induction f with
  | nil => cases h
  | node b kids next ihk ihn =>
    rw [visit_node] at h
    rw [labels_node]
    rcases List.mem_cons.mp h with rfl | h
    · exact List.mem_cons_self
    apply List.mem_cons_of_mem
    rcases List.mem_append.mp h with h | h
    · split at h
      · exact List.mem_append_left _ (ihk h)
      · cases h
    · exact List.mem_append_right _ (ihn h)

/-- A label and those above it are labels of the forest. -/
theorem mem_of_mem_withAncestors {f : Forest α} {above : List α} {entry : List α × α}
    (h : entry ∈ f.withAncestors above) :
    entry.2 ∈ f.labels ∧ ∀ a ∈ entry.1, a ∈ above ∨ a ∈ f.labels := by
  induction f generalizing above with
  | nil => cases h
  | node a kids next ihk ihn =>
    rcases List.mem_cons.mp h with rfl | h
    · exact ⟨List.mem_cons_self, fun b hb => Or.inl hb⟩
    rw [labels_node]
    rcases List.mem_append.mp h with h | h
    · obtain ⟨hlabel, habove⟩ := ihk h
      refine ⟨List.mem_cons_of_mem _ (List.mem_append_left _ hlabel), fun b hb => ?_⟩
      rcases habove b hb with hb | hb
      · rcases List.mem_cons.mp hb with rfl | hb
        · exact Or.inr List.mem_cons_self
        · exact Or.inl hb
      · exact Or.inr (List.mem_cons_of_mem _ (List.mem_append_left _ hb))
    · obtain ⟨hlabel, habove⟩ := ihn h
      refine ⟨List.mem_cons_of_mem _ (List.mem_append_right _ hlabel), fun b hb => ?_⟩
      rcases habove b hb with hb | hb
      · exact Or.inl hb
      · exact Or.inr (List.mem_cons_of_mem _ (List.mem_append_right _ hb))

theorem suffix_of_mem_withAncestors {f : Forest α} {above : List α} {entry : List α × α}
    (h : entry ∈ f.withAncestors above) : above <:+ entry.1 := by
  induction f generalizing above with
  | nil => cases h
  | node a kids next ihk ihn =>
    rcases List.mem_cons.mp h with rfl | h
    · exact List.suffix_refl _
    · rcases List.mem_append.mp h with h | h
      · exact (List.suffix_cons a above).trans (ihk h)
      · exact ihn h

/-- Below a label that is not entered nothing is visited. -/
theorem filter_withAncestors_eq_nil {enters : α → Bool} (f : Forest α) {above : List α}
    (h : above.all enters = false) :
    (f.withAncestors above).filter (fun entry => entry.1.all enters) = [] := by
  induction f generalizing above with
  | nil => rfl
  | node a kids next ihk ihn =>
    have hbelow : (a :: above).all enters = false := by simp [List.all_cons, h]
    simp [h, ihk hbelow, ihn h]

/-- The visited labels are those with entered labels only above them. -/
theorem visit_eq_filter {enters : α → Bool} (f : Forest α) {above : List α}
    (h : above.all enters = true) :
    f.visit enters =
      ((f.withAncestors above).filter fun entry => entry.1.all enters).map Prod.snd := by
  induction f generalizing above with
  | nil => rfl
  | node a kids next ihk ihn =>
    rw [visit_node, withAncestors_node, List.filter_cons, if_pos h, List.filter_append,
      List.map_cons, List.map_append, ← ihn h]
    cases ha : enters a with
    | true =>
      have hbelow : (a :: above).all enters = true := by simp [ha, h]
      rw [if_pos rfl, ihk hbelow]
    | false =>
      have hbelow : (a :: above).all enters = false := by simp [ha]
      rw [if_neg (by simp), filter_withAncestors_eq_nil kids hbelow, List.map_nil]

end Forest

end Outline
