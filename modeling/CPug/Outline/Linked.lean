import Mathlib.Data.List.Nodup
import CPug.Outline.Layout

/-!
# Linked cells

A list of cells is `Linked` when cell `0` is the root, every later cell names a parent before it,
and every cell lists the cells that name it as their parent, in order. Linking a new cell keeps this
(`Linked.addChild`), and every cell is then listed once (`Linked.count_children`). The cells of a
numbered forest are met in the order of their numbers (`preorder_layout`).
-/

namespace Outline

universe u

variable {α : Type u}

/-- The depth of the cell of a number. -/
def cellDepth (depth : α → Nat) (cells : List (Cell α)) (i : Nat) : Nat :=
  (cells[i]?.map fun cell => depth cell.label).getD 0

/-- The numbers of the cells that name `p` as their parent, in order. -/
def childrenOf (cells : List (Cell α)) (p : Nat) : List Nat :=
  (List.range cells.length).filter fun i => (cells[i]?.bind Cell.parent) == some p

/-- Cell `0` is the root; every later cell hangs below a cell before it; every cell lists the cells
below it in order. -/
structure Linked (root : α) (cells : List (Cell α)) : Prop where
  root : ∃ children, cells[0]? = some ⟨root, none, children⟩
  parent : ∀ i cell, cells[i + 1]? = some cell → ∃ p, cell.parent = some p ∧ p ≤ i
  children : ∀ i cell, cells[i]? = some cell → cell.children = childrenOf cells i

/-- Cell `i` names cell `p` as its parent. -/
def ParentOf (cells : List (Cell α)) (i p : Nat) : Prop :=
  ∃ cell, cells[i]? = some cell ∧ cell.parent = some p

section Cells

variable {depth : α → Nat} {root : α} {cells : List (Cell α)}

theorem mem_childrenOf {i p : Nat} : i ∈ childrenOf cells p ↔ ParentOf cells i p := by
  rw [childrenOf, List.mem_filter, List.mem_range, ParentOf, beq_iff_eq, Option.bind_eq_some_iff]
  constructor
  · rintro ⟨-, cell, hcell, hp⟩
    exact ⟨cell, hcell, hp⟩
  · rintro ⟨cell, hcell, hp⟩
    exact ⟨(List.getElem?_eq_some_iff.mp hcell).1, cell, hcell, hp⟩

theorem nodup_childrenOf (cells : List (Cell α)) (p : Nat) : (childrenOf cells p).Nodup :=
  List.nodup_range.filter _

theorem cellDepth_eq {i : Nat} {cell : Cell α} (h : cells[i]? = some cell) :
    cellDepth depth cells i = depth cell.label := by
  rw [cellDepth, h]
  rfl

theorem getElem?_addChild_lt (p : Nat) (a : α) {i : Nat} (hi : i < cells.length) :
    (addChild cells p a)[i]? = cells[i]?.map fun cell =>
      if i = p then { cell with children := cell.children ++ [cells.length] } else cell := by
  rw [addChild, List.getElem?_append_left (by simpa using hi), List.getElem?_modify]
  cases cells[i]? with
  | none => rfl
  | some cell =>
    by_cases h : i = p
    · simp [h]
    · simp [h, Ne.symm h]

theorem getElem?_addChild_length (p : Nat) (a : α) :
    (addChild cells p a)[cells.length]? = some ⟨a, some p, []⟩ := by
  rw [addChild, List.getElem?_append_right (by simp)]
  simp

@[simp] theorem length_addChild (p : Nat) (a : α) :
    (addChild cells p a).length = cells.length + 1 := by simp [addChild]

theorem cellDepth_addChild_lt (p : Nat) (a : α) {i : Nat} (hi : i < cells.length) :
    cellDepth depth (addChild cells p a) i = cellDepth depth cells i := by
  rw [cellDepth, cellDepth, getElem?_addChild_lt p a hi]
  cases cells[i]? with
  | none => rfl
  | some cell =>
    simp only [Option.map_some, Option.getD_some]
    split <;> rfl

theorem cellDepth_addChild_length (p : Nat) (a : α) :
    cellDepth depth (addChild cells p a) cells.length = depth a := by
  rw [cellDepth, getElem?_addChild_length]
  rfl

theorem childrenOf_addChild (p : Nat) (a : α) (i : Nat) :
    childrenOf (addChild cells p a) i =
      childrenOf cells i ++ if i = p then [cells.length] else [] := by
  have hold : (List.range cells.length).filter
        (fun j => ((addChild cells p a)[j]?.bind Cell.parent) == some i) = childrenOf cells i := by
    apply List.filter_congr
    intro j hj
    rw [getElem?_addChild_lt p a (List.mem_range.mp hj)]
    cases cells[j]? with
    | none => rfl
    | some cell =>
      simp only [Option.map_some, Option.bind_some]
      split <;> rfl
  rw [childrenOf, length_addChild, List.range_succ, List.filter_append, hold]
  congr 1
  rw [List.filter_singleton, getElem?_addChild_length]
  by_cases h : i = p
  · simp [h]
  · simp [h, beq_eq_false_iff_ne.mpr (Ne.symm h)]

theorem labels_addChild (p : Nat) (a : α) :
    (addChild cells p a).map Cell.label = cells.map Cell.label ++ [a] := by
  have hmodify : (cells.modify p fun cell =>
      { cell with children := cell.children ++ [cells.length] }).map Cell.label =
        cells.map Cell.label := by
    apply List.ext_getElem?
    intro i
    rw [List.getElem?_map, List.getElem?_modify, List.getElem?_map]
    cases cells[i]? with
    | none => rfl
    | some cell =>
      simp only [Option.map_some, Option.map_eq_map]
      split <;> rfl
  rw [addChild, List.map_append, hmodify]
  rfl

/-- A cell that was there names the parent it named. -/
theorem parentOf_addChild_lt (p : Nat) (a : α) {i q : Nat} (hi : i < cells.length) :
    ParentOf (addChild cells p a) i q ↔ ParentOf cells i q := by
  unfold ParentOf
  rw [getElem?_addChild_lt p a hi]
  constructor
  · rintro ⟨cell, hcell, hq⟩
    obtain ⟨old, hold, rfl⟩ := Option.map_eq_some_iff.mp hcell
    refine ⟨old, hold, ?_⟩
    split at hq <;> exact hq
  · rintro ⟨old, hold, hq⟩
    rw [hold, Option.map_some]
    refine ⟨_, rfl, ?_⟩
    split <;> exact hq

theorem parentOf_addChild_length (p : Nat) (a : α) {q : Nat} :
    ParentOf (addChild cells p a) cells.length q ↔ q = p := by
  unfold ParentOf
  rw [getElem?_addChild_length]
  constructor
  · rintro ⟨cell, hcell, hq⟩
    cases hcell
    cases hq
    rfl
  · rintro rfl
    exact ⟨_, rfl, rfl⟩

/-! ## Linked cells -/

theorem linked_root (root : α) : Linked root [⟨root, none, []⟩] := by
  refine ⟨⟨[], rfl⟩, fun i cell h => ?_, fun i cell h => ?_⟩
  · simp at h
  · cases i with
    | zero =>
      cases h
      rfl
    | succ i => simp at h

theorem Linked.length_pos (h : Linked root cells) : 0 < cells.length := by
  obtain ⟨children, hroot⟩ := h.root
  exact (List.getElem?_eq_some_iff.mp hroot).1

theorem Linked.lt_of_parentOf (h : Linked root cells) {i p : Nat} (hi : ParentOf cells i p) :
    p < i := by
  obtain ⟨cell, hcell, hp⟩ := hi
  cases i with
  | zero =>
    obtain ⟨children, hroot⟩ := h.root
    cases hcell.symm.trans hroot
    cases hp
  | succ i =>
    obtain ⟨q, hq, hle⟩ := h.parent i cell hcell
    cases hp.symm.trans hq
    exact Nat.lt_succ_of_le hle

/-- No cell names a parent that is still to come. -/
theorem Linked.childrenOf_length (h : Linked root cells) : childrenOf cells cells.length = [] := by
  rw [List.eq_nil_iff_forall_not_mem]
  intro i hi
  have hparent := mem_childrenOf.mp hi
  have hlt := h.lt_of_parentOf hparent
  obtain ⟨cell, hcell, -⟩ := hparent
  have := (List.getElem?_eq_some_iff.mp hcell).1
  omega

/-- Linking a new cell below any cell. -/
theorem Linked.addChild (h : Linked root cells) {a : α} {p : Nat} (hp : p < cells.length) :
    Linked root (addChild cells p a) := by
  have hpos := h.length_pos
  refine ⟨?_, fun i cell hcell => ?_, fun i cell hcell => ?_⟩
  · obtain ⟨children, hroot⟩ := h.root
    rw [getElem?_addChild_lt p a hpos, hroot, Option.map_some]
    by_cases h0 : 0 = p
    · exact ⟨_, by rw [if_pos h0]⟩
    · exact ⟨_, by rw [if_neg h0]⟩
  · rcases Nat.lt_trichotomy (i + 1) cells.length with hi | hi | hi
    · rw [getElem?_addChild_lt p a hi] at hcell
      obtain ⟨old, hold, rfl⟩ := Option.map_eq_some_iff.mp hcell
      obtain ⟨q, hq, hle⟩ := h.parent i old hold
      exact ⟨q, by split <;> exact hq, hle⟩
    · rw [hi, getElem?_addChild_length] at hcell
      cases hcell
      exact ⟨p, rfl, by omega⟩
    · rw [List.getElem?_eq_none (by rw [length_addChild]; omega)] at hcell
      cases hcell
  · rw [childrenOf_addChild]
    rcases Nat.lt_trichotomy i cells.length with hi | rfl | hi
    · rw [getElem?_addChild_lt p a hi] at hcell
      obtain ⟨old, hold, rfl⟩ := Option.map_eq_some_iff.mp hcell
      have hchildren := h.children i old hold
      by_cases hip : i = p
      · rw [if_pos hip, if_pos hip, ← hchildren]
      · rw [if_neg hip, if_neg hip, List.append_nil, ← hchildren]
    · rw [getElem?_addChild_length] at hcell
      cases hcell
      rw [if_neg (by omega), List.append_nil, h.childrenOf_length]
    · rw [List.getElem?_eq_none (by rw [length_addChild]; omega)] at hcell
      cases hcell

/-- Every cell but the root has a parent. -/
theorem Linked.exists_parentOf (h : Linked root cells) {i : Nat} (hpos : 0 < i)
    (hi : i < cells.length) : ∃ p, ParentOf cells i p := by
  obtain ⟨i, rfl⟩ : ∃ k, i = k + 1 := ⟨i - 1, by omega⟩
  have hcell : cells[i + 1]? = some cells[i + 1] := List.getElem?_eq_getElem hi
  obtain ⟨p, hp, -⟩ := h.parent i _ hcell
  exact ⟨p, _, hcell, hp⟩

/-- A cell is listed once by its parent. -/
theorem Linked.count_children (h : Linked root cells) {i p : Nat} {cell : Cell α}
    (hcell : cells[p]? = some cell) (hi : ParentOf cells i p) : cell.children.count i = 1 := by
  rw [h.children p cell hcell]
  exact List.count_eq_one_of_mem (nodup_childrenOf cells p) (mem_childrenOf.mpr hi)

/-- No other cell lists it. -/
theorem Linked.parentOf_of_mem (h : Linked root cells) {i p : Nat} {cell : Cell α}
    (hcell : cells[p]? = some cell) (hi : i ∈ cell.children) : ParentOf cells i p := by
  rw [h.children p cell hcell] at hi
  exact mem_childrenOf.mp hi

/-- Walking up ends at the root or at a cell that is shallower. -/
theorem Linked.walkUp (h : Linked root cells) (d : Nat) {i : Nat} (hi : i < cells.length) :
    walkUp depth cells d i ≤ i ∧
      (walkUp depth cells d i = 0 ∨ cellDepth depth cells (walkUp depth cells d i) < d) := by
  induction i using Nat.strongRecOn with
  | ind i ih =>
    have hcell : cells[i]? = some cells[i] := List.getElem?_eq_getElem hi
    by_cases h0 : i = 0
    · subst h0
      obtain ⟨children, hroot⟩ := h.root
      rw [walkUp_root hroot rfl]
      exact ⟨le_refl 0, Or.inl rfl⟩
    · obtain ⟨p, hp⟩ := h.exists_parentOf (by omega) hi
      have hlt := h.lt_of_parentOf hp
      obtain ⟨cell, hcell', hp⟩ := hp
      cases hcell.symm.trans hcell'
      by_cases hd : d ≤ depth cells[i].label
      · rw [walkUp_step hcell hp hd hlt]
        obtain ⟨hle, hend⟩ := ih p hlt (by omega)
        exact ⟨by omega, hend⟩
      · rw [walkUp_stop hcell hd, cellDepth_eq hcell]
        exact ⟨le_refl i, Or.inr (by omega)⟩

end Cells

/-! ## Pre-order -/

/-- The numbers met by a pre-order traversal from a list of cells; `fuel` bounds the height. -/
def preorder (cells : List (Cell α)) : Nat → List Nat → List Nat
  | 0, _ => []
  | fuel + 1, ids =>
      ids.flatMap fun i =>
        match cells[i]? with
        | some cell => i :: preorder cells fuel cell.children
        | none => []

theorem preorder_nil (cells : List (Cell α)) (fuel : Nat) : preorder cells fuel [] = [] := by
  cases fuel <;> rfl

theorem preorder_cons (cells : List (Cell α)) (fuel i : Nat) (ids : List Nat) {cell : Cell α}
    (h : cells[i]? = some cell) :
    preorder cells (fuel + 1) (i :: ids) =
      i :: (preorder cells fuel cell.children ++ preorder cells (fuel + 1) ids) := by
  simp [preorder, h]

/-- The cells of a numbered forest are met in the order of their numbers. -/
theorem preorder_layout {cells rest : List (Cell α)} {parent : Option Nat} {lo fuel : Nat}
    {f : Forest α} (h : cells.drop lo = layout parent lo f ++ rest) (hfuel : f.size ≤ fuel) :
    preorder cells fuel (childIds lo f) = List.range' lo f.size := by
  induction f generalizing parent lo fuel rest with
  | nil => exact preorder_nil cells fuel
  | node a kids next ihk ihn =>
    obtain ⟨fuel, rfl⟩ : ∃ k, fuel = k + 1 := ⟨fuel - 1, by simp at hfuel; omega⟩
    obtain ⟨hcell, hkids, hnext⟩ := drop_layout_node h
    simp only [Forest.size_node] at hfuel
    have hsize : 1 + kids.size + next.size = 1 + (kids.size + next.size) := by omega
    rw [childIds, preorder_cons _ _ _ _ hcell, ihk hkids (by omega), ihn hnext (by omega),
      Forest.size_node, hsize, Nat.add_comm 1, List.range'_succ, List.range'_append_1]

namespace Spine

/-- In the memory of the spine machine a traversal from the root meets the cells in order. -/
theorem preorder_cells (root : α) (S : Spine α) :
    preorder (S.cells root) (S.cells root).length [0] = List.range (S.cells root).length := by
  have hcells := S.cells_eq_layout root
  have hlen : (S.cells root).length = (Forest.node root S.close .nil).size := by
    rw [hcells, length_layout]
  have hdrop : (S.cells root).drop 0 = layout none 0 (.node root S.close .nil) ++ [] := by
    rw [List.drop_zero, hcells, List.append_nil]
  have h := preorder_layout hdrop hlen.ge
  rw [← hlen, List.range'_eq_map_range] at h
  simpa [childIds] using h

end Spine

end Outline
