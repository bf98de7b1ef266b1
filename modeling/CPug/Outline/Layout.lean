import CPug.Outline.Spine

/-!
# Forests as linked cells

The pointer representation of a forest: a list of cells, each with its label, the number of
its parent cell and the numbers of its child cells in order. `layout` numbers a forest in
pre-order, `extract` reads a forest back from child numbers, and `extract_layout` says that
the two are inverse.

The second half runs the spine machine on cells. `Spine.cells` is the memory of a state under
one root cell, `Spine.focus` the number of its innermost open cell. The three operations a
program performs on linked cells are the machine's: walking up parent links while the parent
is not shallower is `pop` (`walkUp_focus`, `cells_pop`), and linking a new cell is `push` or
`add` (`cells_push`, `cells_add_leaf`).
-/

namespace Outline

universe u

variable {α : Type u}

/-- A node in memory. -/
structure Cell (α : Type u) where
  label : α
  parent : Option Nat
  children : List Nat
deriving Repr, DecidableEq

/-! ## Numbering a forest -/

/-- The numbers of the top-level nodes when pre-order numbering starts at `lo`. -/
def childIds (lo : Nat) : Forest α → List Nat
  | .nil => []
  | .node _ kids next => lo :: childIds (lo + 1 + kids.size) next

/-- The cells of a forest below `parent`, numbered in pre-order from `lo`. -/
def layout (parent : Option Nat) (lo : Nat) : Forest α → List (Cell α)
  | .nil => []
  | .node a kids next =>
      ⟨a, parent, childIds (lo + 1) kids⟩ ::
        (layout (some lo) (lo + 1) kids ++ layout parent (lo + 1 + kids.size) next)

/-- Read the forest below a list of cell numbers; `fuel` bounds its height. -/
def extract (cells : List (Cell α)) : Nat → List Nat → Forest α
  | 0, _ => .nil
  | fuel + 1, ids =>
      ids.foldr (fun i next =>
        match cells[i]? with
        | some cell => .node cell.label (extract cells fuel cell.children) next
        | none => next) .nil

@[simp] theorem length_layout (parent : Option Nat) (lo : Nat) (f : Forest α) :
    (layout parent lo f).length = f.size := by
  induction f generalizing parent lo with
  | nil => rfl
  | node a kids next ihk ihn => simp [layout, ihk, ihn]; omega

theorem childIds_append (lo : Nat) (f g : Forest α) :
    childIds lo (f ++ g) = childIds lo f ++ childIds (lo + f.size) g := by
  induction f generalizing lo with
  | nil => simp [childIds]
  | node a kids next _ ih =>
    have h : lo + 1 + kids.size + next.size = lo + (1 + kids.size + next.size) := by omega
    simp [childIds, ih, h]

theorem layout_append (parent : Option Nat) (lo : Nat) (f g : Forest α) :
    layout parent lo (f ++ g) = layout parent lo f ++ layout parent (lo + f.size) g := by
  induction f generalizing lo with
  | nil => simp [layout]
  | node a kids next _ ih =>
    have h : lo + 1 + kids.size + next.size = lo + (1 + kids.size + next.size) := by omega
    simp [layout, ih, h]

theorem extract_nil (cells : List (Cell α)) (fuel : Nat) : extract cells fuel [] = .nil := by
  cases fuel <;> rfl

theorem extract_cons (cells : List (Cell α)) (fuel i : Nat) (ids : List Nat) {cell : Cell α}
    (h : cells[i]? = some cell) :
    extract cells (fuel + 1) (i :: ids) =
      .node cell.label (extract cells fuel cell.children) (extract cells (fuel + 1) ids) := by
  simp [extract, h]

/-- Where a numbered tree lies in memory, its first cell comes first, then the cells below it, then
those of the later trees. -/
theorem drop_layout_node {cells rest : List (Cell α)} {parent : Option Nat} {lo : Nat} {a : α}
    {kids next : Forest α} (h : cells.drop lo = layout parent lo (.node a kids next) ++ rest) :
    cells[lo]? = some ⟨a, parent, childIds (lo + 1) kids⟩ ∧
      cells.drop (lo + 1) = layout (some lo) (lo + 1) kids ++
        (layout parent (lo + 1 + kids.size) next ++ rest) ∧
      cells.drop (lo + 1 + kids.size) = layout parent (lo + 1 + kids.size) next ++ rest := by
  rw [layout, List.cons_append, List.append_assoc] at h
  have hcell : cells[lo]? = some ⟨a, parent, childIds (lo + 1) kids⟩ := by
    rw [← List.head?_drop, h, List.head?_cons]
  have hkids : cells.drop (lo + 1) = layout (some lo) (lo + 1) kids ++
      (layout parent (lo + 1 + kids.size) next ++ rest) := by
    rw [← List.drop_drop, h, List.drop_succ_cons, List.drop_zero]
  refine ⟨hcell, hkids, ?_⟩
  rw [← List.drop_drop, hkids]
  exact List.drop_left' (length_layout _ _ _)

/-- Reading back a numbered forest gives the forest, wherever it lies in memory. -/
theorem extract_layout {cells rest : List (Cell α)} {parent : Option Nat} {lo fuel : Nat}
    {f : Forest α} (h : cells.drop lo = layout parent lo f ++ rest) (hfuel : f.size ≤ fuel) :
    extract cells fuel (childIds lo f) = f := by
  induction f generalizing parent lo fuel rest with
  | nil => exact extract_nil cells fuel
  | node a kids next ihk ihn =>
    obtain ⟨fuel, rfl⟩ : ∃ k, fuel = k + 1 := ⟨fuel - 1, by simp at hfuel; omega⟩
    obtain ⟨hcell, hkids, hnext⟩ := drop_layout_node h
    simp only [Forest.size_node] at hfuel
    rw [childIds, extract_cons _ _ _ _ hcell, ihk hkids (by omega), ihn hnext (by omega)]

/-! ## The memory of the spine machine -/

namespace Spine

/-- The innermost open node and the trees below it: the root when no frame is open. -/
def openNode (root : α) (top : Forest α) : List (Frame α) → α × Forest α
  | [] => (root, top)
  | frame :: _ => (frame.label, frame.before)

/-- The cells in front of the innermost open one: the open nodes above it, each with its
finished children and the number of the open node below it. -/
def outerCells (root : α) (top : Forest α) : List (Frame α) → List (Cell α)
  | [] => []
  | _ :: frames =>
      let outer := outerCells root top frames
      let c := outer.length
      let node := openNode root top frames
      let parent := match frames with
        | [] => none
        | _ :: frames => some (outerCells root top frames).length
      outer ++ ⟨node.1, parent, childIds (c + 1) node.2 ++ [c + 1 + node.2.size]⟩ ::
        layout (some c) (c + 1) node.2

/-- The parent of the innermost open cell. -/
def parentId (root : α) (top : Forest α) : List (Frame α) → Option Nat
  | [] => none
  | _ :: frames => some (outerCells root top frames).length

/-- The number of the innermost open cell. -/
def focus (root : α) (S : Spine α) : Nat := (outerCells root S.top S.frames).length

/-- The memory of a state below the cell of `root`. -/
def cells (root : α) (S : Spine α) : List (Cell α) :=
  let c := S.focus root
  let node := openNode root S.top S.frames
  outerCells root S.top S.frames ++
    ⟨node.1, parentId root S.top S.frames, childIds (c + 1) node.2⟩ :: layout (some c) (c + 1) node.2

end Spine

/-- Link a new cell as the last child of `parent`. -/
def addChild (cells : List (Cell α)) (parent : Nat) (child : α) : List (Cell α) :=
  cells.modify parent (fun cell => { cell with children := cell.children ++ [cells.length] }) ++
    [⟨child, some parent, []⟩]

/-- Walk up the parent links while there is a parent and the cell is not shallower than `d`.
The guard `p < current` never stops a walk over cells whose parents come before them. -/
def walkUp (depth : α → Nat) (cells : List (Cell α)) (d current : Nat) : Nat :=
  match cells[current]? with
  | none => current
  | some cell =>
    match cell.parent with
    | none => current
    | some p =>
      if d ≤ depth cell.label then
        if _h : p < current then walkUp depth cells d p else p
      else current
termination_by current

section WalkUp

variable {depth : α → Nat} {cells : List (Cell α)} {cell : Cell α} {d current p : Nat}

theorem walkUp_root (h : cells[current]? = some cell) (hp : cell.parent = none) :
    walkUp depth cells d current = current := by
  rw [walkUp, h]
  simp only [hp]

theorem walkUp_stop (h : cells[current]? = some cell) (hd : ¬ d ≤ depth cell.label) :
    walkUp depth cells d current = current := by
  rw [walkUp, h]
  cases hp : cell.parent <;> simp only [hp, hd, if_false]

theorem walkUp_step (h : cells[current]? = some cell) (hp : cell.parent = some p)
    (hd : d ≤ depth cell.label) (hlt : p < current) :
    walkUp depth cells d current = walkUp depth cells d p := by
  rw [walkUp, h]
  simp only [hp, hd, hlt, if_true, dif_pos]

end WalkUp

namespace Spine

variable {depth : α → Nat}

theorem outerCells_cons (root : α) (top : Forest α) (frame : Frame α) (frames : List (Frame α)) :
    outerCells root top (frame :: frames) =
      outerCells root top frames ++
        ⟨(openNode root top frames).1, parentId root top frames,
          childIds ((outerCells root top frames).length + 1) (openNode root top frames).2 ++
            [(outerCells root top frames).length + 1 + (openNode root top frames).2.size]⟩ ::
        layout (some (outerCells root top frames).length)
          ((outerCells root top frames).length + 1) (openNode root top frames).2 := by
  cases frames <;> rfl

theorem getElem?_focus (root : α) (S : Spine α) :
    (S.cells root)[S.focus root]? =
      some ⟨(openNode root S.top S.frames).1, parentId root S.top S.frames,
        childIds (S.focus root + 1) (openNode root S.top S.frames).2⟩ := by
  simp [cells, focus]

theorem length_cells (root : α) (S : Spine α) :
    (S.cells root).length = S.focus root + 1 + (openNode root S.top S.frames).2.size := by
  simp [cells, focus]; omega

private theorem modify_append_cons {β : Type u} (l : List β) (b : β) (r : List β) (g : β → β) :
    (l ++ b :: r).modify l.length g = l ++ g b :: r :=
  List.modifyTailIdx_add _ 0 l (b :: r)

/-- Linking a cell below the innermost open one and leaving it open. -/
theorem cells_push (root : α) (S : Spine α) (a : α) :
    (S.push a).cells root = addChild (S.cells root) (S.focus root) a := by
  have hlen := length_cells root S
  rw [addChild, hlen]
  conv_rhs => rw [cells, focus, modify_append_cons]
  simp only [cells, focus, push, outerCells_cons, openNode, parentId, childIds, layout,
    List.append_assoc, List.cons_append]

/-- Linking a cell below the innermost open one and closing it at once. -/
theorem cells_add_leaf (root : α) (S : Spine α) (a : α) :
    (S.add (.leaf a)).cells root = addChild (S.cells root) (S.focus root) a := by
  have hlen := length_cells root S
  rw [addChild, hlen]
  conv_rhs => rw [cells, focus, modify_append_cons]
  obtain ⟨frames, top⟩ := S
  cases frames with
  | nil =>
    simp [cells, focus, add, openNode, outerCells, parentId, childIds_append, layout_append,
      Forest.leaf, childIds, layout]
  | cons frame frames =>
    simp [cells, focus, add, openNode, outerCells_cons, parentId, childIds_append, layout_append,
      Forest.leaf, childIds, layout]

theorem focus_push (root : α) (S : Spine α) (a : α) :
    (S.push a).focus root = (S.cells root).length := by
  rw [length_cells, focus, push, outerCells_cons]
  simp [focus]
  omega

theorem focus_add (root : α) (S : Spine α) (f : Forest α) :
    (S.add f).focus root = S.focus root := by
  obtain ⟨frames, top⟩ := S
  cases frames with
  | nil => rfl
  | cons frame frames => simp [add, focus, outerCells_cons]

/-- Closing the innermost node moves nothing in memory. -/
theorem cells_close_one (root : α) (frame : Frame α) (frames : List (Frame α)) (top : Forest α) :
    (add ⟨frames, top⟩ (.node frame.label frame.before .nil)).cells root =
      (⟨frame :: frames, top⟩ : Spine α).cells root := by
  cases frames with
  | nil =>
    simp [cells, focus, add, openNode, outerCells, parentId, childIds_append, layout_append,
      childIds, layout, Nat.add_comm]
  | cons outer frames =>
    simp [cells, focus, add, openNode, outerCells_cons, parentId, childIds_append, layout_append,
      childIds, layout, Nat.add_comm, Nat.add_left_comm, Nat.add_assoc]

/-- Closing nodes moves nothing in memory. -/
theorem cells_pop (root : α) (d : Nat) (S : Spine α) :
    (S.pop depth d).cells root = S.cells root := by
  induction S using pop_induction depth d with
  | stays S h => rw [h]
  | closes frame frames top h ih => rw [pop_cons_of_le h, ih, cells_close_one]

/-- Walking up the parent links from the innermost open cell finds the node that `pop` leaves
open. -/
theorem walkUp_focus (root : α) (d : Nat) (S : Spine α) :
    walkUp depth (S.cells root) d (S.focus root) = (S.pop depth d).focus root := by
  induction S using pop_induction depth d with
  | stays S h =>
    have hcell := getElem?_focus root S
    rw [h]
    obtain ⟨frames, top⟩ := S
    cases frames with
    | nil => exact walkUp_root hcell rfl
    | cons frame frames =>
      have hlt := @head_pop_lt α depth ⟨frame :: frames, top⟩ d
      rw [h] at hlt
      exact walkUp_stop hcell (Nat.not_le.mpr (hlt frame rfl))
  | closes frame frames top h ih =>
    have hp : (outerCells root top frames).length < focus root ⟨frame :: frames, top⟩ := by
      rw [focus, outerCells_cons]
      simp
    rw [walkUp_step (getElem?_focus root _) rfl h hp, pop_cons_of_le h, ← ih, cells_close_one,
      focus_add]
    rfl

/-- The memory is the numbering of the forest the machine has built, below the root. -/
theorem cells_eq_layout (root : α) (S : Spine α) :
    S.cells root = layout none 0 (.node root S.close .nil) := by
  have hpop : (S.pop (fun _ => 0) 0).cells root = S.cells root := cells_pop root 0 S
  rw [← hpop, pop_zero]
  simp [cells, focus, outerCells, openNode, parentId, layout]

/-- The forest below the root cell is the forest the machine has built. -/
theorem extract_cells (root : α) (S : Spine α) {fuel : Nat} (hfuel : S.close.size < fuel) :
    extract (S.cells root) fuel [0] = .node root S.close .nil := by
  have hdrop : (S.cells root).drop 0 = layout none 0 (.node root S.close .nil) ++ [] := by
    rw [List.drop_zero, cells_eq_layout, List.append_nil]
  exact extract_layout hdrop (by simp; omega)

end Spine

/-! ## The length of a walk -/

/-- How many parent links `walkUp` follows. -/
def walkSteps (depth : α → Nat) (cells : List (Cell α)) (d current : Nat) : Nat :=
  match cells[current]? with
  | none => 0
  | some cell =>
    match cell.parent with
    | none => 0
    | some p =>
      if d ≤ depth cell.label then
        if _h : p < current then 1 + walkSteps depth cells d p else 1
      else 0
termination_by current

section WalkSteps

variable {depth : α → Nat} {cells : List (Cell α)} {cell : Cell α} {d current p : Nat}

theorem walkSteps_root (h : cells[current]? = some cell) (hp : cell.parent = none) :
    walkSteps depth cells d current = 0 := by
  rw [walkSteps, h]
  simp only [hp]

theorem walkSteps_stop (h : cells[current]? = some cell) (hd : ¬ d ≤ depth cell.label) :
    walkSteps depth cells d current = 0 := by
  rw [walkSteps, h]
  cases hp : cell.parent <;> simp only [hp, hd, if_false]

theorem walkSteps_step (h : cells[current]? = some cell) (hp : cell.parent = some p)
    (hd : d ≤ depth cell.label) (hlt : p < current) :
    walkSteps depth cells d current = 1 + walkSteps depth cells d p := by
  rw [walkSteps, h]
  simp only [hp, hd, hlt, if_true, dif_pos]

end WalkSteps

namespace Spine

variable {depth : α → Nat}

theorem length_frames_add (S : Spine α) (f : Forest α) :
    (S.add f).frames.length = S.frames.length := by
  obtain ⟨frames, top⟩ := S
  cases frames <;> rfl

/-- The potential of the machine is the number of its open nodes: a walk follows one link for every node it
closes. -/
theorem walkSteps_focus (root : α) (d : Nat) (S : Spine α) :
    walkSteps depth (S.cells root) d (S.focus root) + (S.pop depth d).frames.length =
      S.frames.length := by
  induction S using pop_induction depth d with
  | stays S h =>
    have hcell := getElem?_focus root S
    have hzero : walkSteps depth (S.cells root) d (S.focus root) = 0 := by
      obtain ⟨frames, top⟩ := S
      cases frames with
      | nil => exact walkSteps_root hcell rfl
      | cons frame frames =>
        have hlt := @head_pop_lt α depth ⟨frame :: frames, top⟩ d
        rw [h] at hlt
        exact walkSteps_stop hcell (Nat.not_le.mpr (hlt frame rfl))
    rw [h, hzero, Nat.zero_add]
  | closes frame frames top h ih =>
    have hp : (outerCells root top frames).length < focus root ⟨frame :: frames, top⟩ := by
      rw [focus, outerCells_cons]
      simp
    rw [cells_close_one, focus_add, length_frames_add] at ih
    rw [walkSteps_step (getElem?_focus root _) rfl h hp, pop_cons_of_le h, Nat.add_assoc]
    show 1 + (walkSteps depth _ d (focus root ⟨frames, top⟩) + _) = frames.length + 1
    rw [ih, Nat.add_comm]

/-- An entry opens at most one node. -/
theorem length_frames_insert (S : Spine α) (entry : α × Bool) :
    (S.insert depth entry).frames.length ≤ (S.pop depth (depth entry.1)).frames.length + 1 := by
  rw [insert]
  split
  · exact le_refl _
  · rw [length_frames_add]
    exact Nat.le_succ _

end Spine

end Outline
