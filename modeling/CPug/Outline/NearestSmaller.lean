import CPug.Outline.Linked

/-!
# Nearest smaller depths

In an outline the parent of an entry is the last entry before it that is shallower. `Nested` says
this of a list of linked cells, with the child lists in order; cell `0` is the root and stands for
"no shallower entry". Along parent links of nested cells, walking up finds the nearest smaller
entry (`Nested.walkUp`), and a cell linked where the walk ends keeps the cells nested
(`Nested.addChild`).
-/

namespace Outline

universe u

variable {α : Type u}

/-- Among the numbers `1` to `i`, `found` is the last whose value is below `d`; it is `0` when
there is none. -/
structure IsNearestSmaller (value : Nat → Nat) (d i found : Nat) : Prop where
  le : found ≤ i
  smaller : found = 0 ∨ value found < d
  blocked : ∀ j, found < j → j ≤ i → d ≤ value j

namespace IsNearestSmaller

variable {value value' : Nat → Nat} {d d' i k found found' : Nat}

theorem zero (value : Nat → Nat) (d : Nat) : IsNearestSmaller value d 0 0 :=
  ⟨le_refl 0, Or.inl rfl, fun j h h' => by omega⟩

theorem self (h : value i < d) : IsNearestSmaller value d i i :=
  ⟨le_refl i, Or.inr h, fun j h h' => by omega⟩

/-- Below a lower bound the search may start where the search for a higher one ended. -/
theorem trans (h : IsNearestSmaller value d i found) (hd : d' ≤ d) (hik : i ≤ k)
    (hblocked : ∀ j, i < j → j ≤ k → d' ≤ value j)
    (h' : IsNearestSmaller value d' found found') : IsNearestSmaller value d' k found' := by
  refine ⟨h'.le.trans (h.le.trans hik), h'.smaller, fun j hj hjk => ?_⟩
  by_cases hji : j ≤ i
  · by_cases hjf : j ≤ found
    · exact h'.blocked j hj hjf
    · exact hd.trans (h.blocked j (by omega) hji)
  · exact hblocked j (by omega) hjk

theorem congr (h : IsNearestSmaller value d i found) (heq : ∀ j, j ≤ i → value' j = value j) :
    IsNearestSmaller value' d i found := by
  refine ⟨h.le, ?_, fun j hj hji => ?_⟩
  · rcases h.smaller with h0 | hlt
    · exact Or.inl h0
    · exact Or.inr (by rwa [heq found h.le])
  · rw [heq j hji]
    exact h.blocked j hj hji

end IsNearestSmaller

/-! ## Nested cells -/

/-- Cell `0` is the root; every later cell hangs below the last cell before it that is shallower,
or below the root; every cell lists the cells below it in order. -/
structure Nested (depth : α → Nat) (root : α) (cells : List (Cell α)) : Prop where
  root : ∃ children, cells[0]? = some ⟨root, none, children⟩
  parent : ∀ i cell, cells[i + 1]? = some cell → ∃ p, cell.parent = some p ∧
    IsNearestSmaller (cellDepth depth cells) (depth cell.label) i p
  children : ∀ i cell, cells[i]? = some cell → cell.children = childrenOf cells i

section Nested

variable {depth : α → Nat} {root : α} {cells : List (Cell α)}

theorem nested_root (depth : α → Nat) (root : α) : Nested depth root [⟨root, none, []⟩] := by
  refine ⟨⟨[], rfl⟩, fun i cell h => ?_, fun i cell h => ?_⟩
  · simp at h
  · cases i with
    | zero =>
      cases h
      rfl
    | succ i => simp at h

theorem Nested.linked (h : Nested depth root cells) : Linked root cells := by
  refine ⟨h.root, fun i cell hcell => ?_, h.children⟩
  obtain ⟨p, hp, hnear⟩ := h.parent i cell hcell
  exact ⟨p, hp, hnear.le⟩

theorem Nested.length_pos (h : Nested depth root cells) : 0 < cells.length := h.linked.length_pos

/-- Walking up from any cell finds the nearest shallower one. -/
theorem Nested.walkUp (h : Nested depth root cells) (d : Nat) {i : Nat} (hi : i < cells.length) :
    IsNearestSmaller (cellDepth depth cells) d i (walkUp depth cells d i) := by
  induction i using Nat.strongRecOn with
  | ind i ih =>
    cases i with
    | zero =>
      obtain ⟨children, hroot⟩ := h.root
      rw [walkUp_root hroot rfl]
      exact .zero _ _
    | succ i =>
      have hcell : cells[i + 1]? = some cells[i + 1] := List.getElem?_eq_getElem hi
      obtain ⟨p, hp, hnear⟩ := h.parent i _ hcell
      have hdepth : cellDepth depth cells (i + 1) = depth cells[i + 1].label := by
        rw [cellDepth, hcell]
        rfl
      by_cases hd : d ≤ depth cells[i + 1].label
      · have hle := hnear.le
        rw [walkUp_step hcell hp hd (by omega)]
        refine hnear.trans hd (Nat.le_succ i) (fun j hj hj' => ?_) (ih p (by omega) (by omega))
        have hj : j = i + 1 := by omega
        rw [hj, hdepth]
        exact hd
      · rw [walkUp_stop hcell hd]
        exact .self (by omega)

/-- A cell linked below the nearest shallower one keeps the cells nested. -/
theorem Nested.addChild (h : Nested depth root cells) {a : α} {p : Nat}
    (hp : IsNearestSmaller (cellDepth depth cells) (depth a) (cells.length - 1) p) :
    Nested depth root (addChild cells p a) := by
  have hpos := h.length_pos
  have hple := hp.le
  have hlinked := h.linked.addChild (a := a) (by omega : p < cells.length)
  refine ⟨hlinked.root, fun i cell hcell => ?_, hlinked.children⟩
  rcases Nat.lt_trichotomy (i + 1) cells.length with hi | hi | hi
  · rw [getElem?_addChild_lt p a hi] at hcell
    obtain ⟨old, hold, rfl⟩ := Option.map_eq_some_iff.mp hcell
    obtain ⟨q, hq, hnear⟩ := h.parent i old hold
    have hdepth : ∀ j ≤ i,
        cellDepth depth (Outline.addChild cells p a) j = cellDepth depth cells j := fun j hj =>
      cellDepth_addChild_lt p a (by omega)
    have hcongr := hnear.congr hdepth
    by_cases hip : i + 1 = p
    · exact ⟨q, by rw [if_pos hip]; exact hq, by rw [if_pos hip]; exact hcongr⟩
    · exact ⟨q, by rw [if_neg hip]; exact hq, by rw [if_neg hip]; exact hcongr⟩
  · rw [hi, getElem?_addChild_length] at hcell
    cases hcell
    have hlast : cells.length - 1 = i := by omega
    rw [hlast] at hp
    exact ⟨p, rfl, hp.congr fun j hj => cellDepth_addChild_lt p a (by omega)⟩
  · rw [List.getElem?_eq_none (by rw [length_addChild]; omega)] at hcell
    cases hcell

end Nested

end Outline
