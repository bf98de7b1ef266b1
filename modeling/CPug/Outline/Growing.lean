import Mathlib.Logic.Relation
import CPug.Outline.Linked

/-!
# Growing trees

A tree that is built by linking new cells below the path from a current cell up to the root only ever
changes along that path. A cell that has left the path is closed: neither it nor anything below it
changes again (`Grows.extract_closed`). `Grows` is what linking one cell keeps
(`Linked.grows_addChild`) and what is kept by any number of them (`Grows.trans`).
-/

namespace Outline

universe u

variable {α : Type u} {root : α} {cells cells' cells'' : List (Cell α)}
  {current current' current'' : Nat}

/-- Cell `i` is `current` or above it. -/
def OnPath (cells : List (Cell α)) (current i : Nat) : Prop :=
  Relation.ReflTransGen (ParentOf cells) current i

/-- The second tree has grown out of the first: its cells are still there, with new children behind the
old ones, and those off the path are as they were, and off the path. -/
structure Grows (cells : List (Cell α)) (current : Nat) (cells' : List (Cell α)) (current' : Nat) :
    Prop where
  length_le : cells.length ≤ cells'.length
  kept : ∀ (i : Nat) (cell : Cell α), cells[i]? = some cell →
    ∃ later, (∀ j ∈ later, cells.length ≤ j) ∧
      cells'[i]? = some { cell with children := cell.children ++ later }
  closed : ∀ i : Nat, i < cells.length → ¬ OnPath cells current i →
    cells'[i]? = cells[i]? ∧ ¬ OnPath cells' current' i

theorem Grows.refl (cells : List (Cell α)) (current : Nat) :
    Grows cells current cells current := by
  refine ⟨Nat.le_refl _, fun i cell hcell => ⟨[], by simp, ?_⟩, fun i _ hclosed => ⟨rfl, hclosed⟩⟩
  rw [List.append_nil, hcell]

theorem Grows.trans (h : Grows cells current cells' current')
    (h' : Grows cells' current' cells'' current'') : Grows cells current cells'' current'' := by
  refine ⟨Nat.le_trans h.length_le h'.length_le, fun i cell hcell => ?_, fun i hi hclosed => ?_⟩
  · obtain ⟨later, hlater, hcell'⟩ := h.kept i cell hcell
    obtain ⟨later', hlater', hcell''⟩ := h'.kept i _ hcell'
    refine ⟨later ++ later', fun j hj => ?_, by rw [hcell'', List.append_assoc]⟩
    rcases List.mem_append.mp hj with hj | hj
    · exact hlater j hj
    · exact Nat.le_trans h.length_le (hlater' j hj)
  · obtain ⟨hsame, hclosed'⟩ := h.closed i hi hclosed
    obtain ⟨hsame', hclosed''⟩ := h'.closed i (Nat.lt_of_lt_of_le hi h.length_le) hclosed'
    exact ⟨hsame'.trans hsame, hclosed''⟩

/-- Walking up stays on the path. -/
theorem Linked.onPath_walkUp (h : Linked root cells) (depth : α → Nat) (d : Nat) {i : Nat}
    (hi : i < cells.length) : OnPath cells i (Outline.walkUp depth cells d i) := by
  induction i using Nat.strongRecOn with
  | ind i ih =>
    have hcell : cells[i]? = some cells[i] := List.getElem?_eq_getElem hi
    cases hp : cells[i].parent with
    | none =>
      rw [walkUp_root hcell hp]
      exact .refl
    | some p =>
      have hparent : ParentOf cells i p := ⟨cells[i], hcell, hp⟩
      have hlt := h.lt_of_parentOf hparent
      by_cases hd : d ≤ depth cells[i].label
      · rw [walkUp_step hcell hp hd hlt]
        exact .head hparent (ih p hlt (by omega))
      · rw [walkUp_stop hcell hd]
        exact .refl

/-- A new cell is on no old path. -/
theorem Linked.onPath_of_addChild (h : Linked root cells) {p : Nat} {a : α} {j i : Nat}
    (hj : j < cells.length) (hpath : OnPath (Outline.addChild cells p a) j i) : OnPath cells j i := by
  induction hpath using Relation.ReflTransGen.head_induction_on with
  | refl => exact .refl
  | @head j k hparent _ ih =>
    have hparent := (parentOf_addChild_lt p a hj).mp hparent
    have hlt := h.lt_of_parentOf hparent
    exact .head hparent (ih (by omega))

/-- Linking a cell below the path. -/
theorem Linked.grows_addChild (h : Linked root cells) {p : Nat} (a : α)
    (hp : OnPath cells current p) (hlt : p < cells.length)
    (hcurrent : current' = cells.length ∨ current' = p) :
    Grows cells current (Outline.addChild cells p a) current' := by
  refine ⟨by rw [length_addChild]; omega, fun i cell hcell => ?_, fun i hi hclosed => ⟨?_, ?_⟩⟩
  · have hi := (List.getElem?_eq_some_iff.mp hcell).1
    rw [getElem?_addChild_lt p a hi, hcell, Option.map_some]
    by_cases hip : i = p
    · exact ⟨[cells.length], by simp, by rw [if_pos hip]⟩
    · exact ⟨[], by simp, by rw [if_neg hip, List.append_nil]⟩
  · have hip : i ≠ p := by
      rintro rfl
      exact hclosed hp
    rw [getElem?_addChild_lt p a hi]
    simp only [if_neg hip]
    cases cells[i]? <;> rfl
  · have hbelow : ¬ OnPath (Outline.addChild cells p a) p i := fun hpath =>
      hclosed (hp.trans (h.onPath_of_addChild hlt hpath))
    rcases hcurrent with rfl | rfl
    · intro hpath
      rcases Relation.ReflTransGen.cases_head hpath with heq | ⟨q, hq, hrest⟩
      · omega
      · rw [(parentOf_addChild_length p a).mp hq] at hrest
        exact hbelow hrest
    · exact hbelow

/-- The forest below closed cells is final. -/
theorem Grows.extract_closed (h : Grows cells current cells' current')
    (hlinked : Linked root cells) (fuel : Nat) {ids : List Nat}
    (hids : ∀ i ∈ ids, i < cells.length ∧ ¬ OnPath cells current i) :
    extract cells' fuel ids = extract cells fuel ids := by
  induction fuel generalizing ids with
  | zero => rfl
  | succ fuel ihf =>
    induction ids with
    | nil => rfl
    | cons i ids ih =>
      obtain ⟨hi, hclosed⟩ := hids i List.mem_cons_self
      have hcell : cells[i]? = some cells[i] := List.getElem?_eq_getElem hi
      have hcell' := (h.closed i hi hclosed).1.trans hcell
      rw [extract_cons _ _ _ _ hcell, extract_cons _ _ _ _ hcell',
        ih fun j hj => hids j (List.mem_cons_of_mem _ hj), ihf fun j hj => ?_]
      have hparent := hlinked.parentOf_of_mem hcell hj
      obtain ⟨child, hchild, -⟩ := id hparent
      exact ⟨(List.getElem?_eq_some_iff.mp hchild).1, fun hpath => hclosed (hpath.tail hparent)⟩

end Outline
