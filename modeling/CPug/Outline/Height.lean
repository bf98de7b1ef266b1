import CPug.Outline.Linked
import Mathlib.Data.List.Chain

/-!
# Heights

The height of a forest is the number of nodes on its longest path down, which is how deep a recursion
over it goes. A path down is a chain of any relation that holds between a node and its children
(`Rising.exists_chain`), and what holds between linked cells and their parents holds in the forest that
is read from them (`Linked.rising_extract`).
-/

namespace Outline

universe u

variable {α : Type u} {r : α → α → Prop}

namespace Forest

/-- The number of nodes on the longest path down. -/
def height : Forest α → Nat
  | nil => 0
  | node _ kids next => max (kids.height + 1) next.height

/-- The top-level labels. -/
def roots : Forest α → List α
  | nil => []
  | node a _ next => a :: next.roots

/-- Every node and each of its children are related. -/
def Rising (r : α → α → Prop) : Forest α → Prop
  | nil => True
  | node a kids next => (∀ b ∈ kids.roots, r a b) ∧ kids.Rising r ∧ next.Rising r

/-- A longest path down. -/
theorem Rising.exists_chain {f : Forest α} (h : f.Rising r) :
    ∃ l : List α, l.length = f.height ∧ l.IsChain r ∧ (∀ a ∈ l, a ∈ f.labels) ∧
      ∀ a ∈ l.head?, a ∈ f.roots := by
  induction f with
  | nil => exact ⟨[], rfl, .nil, by simp, by simp⟩
  | node a kids next ihk ihn =>
    obtain ⟨hroots, hkids, hnext⟩ := h
    rcases Nat.le_total next.height (kids.height + 1) with hle | hle
    · obtain ⟨l, hlength, hchain, hlabels, hhead⟩ := ihk hkids
      refine ⟨a :: l, ?_, ?_, fun b hb => ?_, fun b hb => ?_⟩
      · rw [List.length_cons, hlength, height, Nat.max_eq_left hle]
      · exact List.isChain_cons.mpr ⟨fun b hb => hroots b (hhead b hb), hchain⟩
      · rcases List.mem_cons.mp hb with rfl | hb
        · exact List.mem_cons_self
        · exact List.mem_cons_of_mem _ (List.mem_append_left _ (hlabels b hb))
      · cases hb
        exact List.mem_cons_self
    · obtain ⟨l, hlength, hchain, hlabels, hhead⟩ := ihn hnext
      refine ⟨l, ?_, hchain, fun b hb => ?_, fun b hb => List.mem_cons_of_mem _ (hhead b hb)⟩
      · rw [hlength, height, Nat.max_eq_right hle]
      · exact List.mem_cons_of_mem _ (List.mem_append_right _ (hlabels b hb))

end Forest

open Forest

section Cells

variable {root : α} {cells : List (Cell α)}

/-- A top-level label of the forest below some cells is the label of one of them. -/
theorem mem_roots_extract {fuel : Nat} {ids : List Nat} {a : α}
    (h : a ∈ (extract cells fuel ids).roots) :
    ∃ i ∈ ids, ∃ cell, cells[i]? = some cell ∧ cell.label = a := by
  cases fuel with
  | zero => cases h
  | succ fuel =>
    induction ids with
    | nil => cases h
    | cons i ids ih =>
      cases hcell : cells[i]? with
      | none =>
        have heq : extract cells (fuel + 1) (i :: ids) = extract cells (fuel + 1) ids := by
          simp [extract, hcell]
        rw [heq] at h
        obtain ⟨j, hj, hrest⟩ := ih h
        exact ⟨j, List.mem_cons_of_mem _ hj, hrest⟩
      | some cell =>
        rw [extract_cons _ _ _ _ hcell] at h
        rcases List.mem_cons.mp h with rfl | h
        · exact ⟨i, List.mem_cons_self, cell, hcell, rfl⟩
        · obtain ⟨j, hj, hrest⟩ := ih h
          exact ⟨j, List.mem_cons_of_mem _ hj, hrest⟩

/-- What holds between every cell but the root and the cells below it holds in the forest that is read
from them. -/
theorem Linked.rising_extract (h : Linked root cells)
    (hr : ∀ i p, ParentOf cells i p → p ≠ 0 → ∀ child parent, cells[i]? = some child →
      cells[p]? = some parent → r parent.label child.label) :
    ∀ fuel ids, (∀ i ∈ ids, i ≠ 0) → (extract cells fuel ids).Rising r := by
  intro fuel
  induction fuel with
  | zero => exact fun _ _ => trivial
  | succ fuel ihf =>
    intro ids hids
    induction ids with
    | nil => exact trivial
    | cons i ids ih =>
      have hrest := ih fun j hj => hids j (List.mem_cons_of_mem _ hj)
      cases hcell : cells[i]? with
      | none =>
        have heq : extract cells (fuel + 1) (i :: ids) = extract cells (fuel + 1) ids := by
          simp [extract, hcell]
        rwa [heq]
      | some cell =>
        have hchild : ∀ j ∈ cell.children, ParentOf cells j i := fun j hj =>
          h.parentOf_of_mem hcell hj
        rw [extract_cons _ _ _ _ hcell]
        refine ⟨fun b hb => ?_, ihf _ fun j hj => ?_, hrest⟩
        · obtain ⟨j, hj, child, hjcell, rfl⟩ := mem_roots_extract hb
          exact hr j i (hchild j hj) (hids i List.mem_cons_self) child cell hjcell hcell
        · have := h.lt_of_parentOf (hchild j hj)
          omega

end Cells

/-- Labels that go deeper and deeper form one path. -/
theorem height_outline {depth : α → Nat} {l : List α}
    (h : l.Pairwise fun a b => depth a < depth b) : (outline depth l).height = l.length := by
  induction l with
  | nil => rw [outline, height, List.length_nil]
  | cons a rest ih =>
    obtain ⟨ha, hrest⟩ := List.pairwise_cons.mp h
    have hall : ∀ b ∈ rest, decide (depth a < depth b) = true := fun b hb => decide_eq_true (ha b hb)
    rw [outline, List.takeWhile_eq_self_iff.mpr hall, List.dropWhile_eq_nil_iff.mpr hall, outline,
      height, height, ih hrest, Nat.max_eq_left (Nat.zero_le _), List.length_cons]

end Outline
