import Mathlib.Data.List.Sort
import Mathlib.Tactic.Ring

/-!
# Totals

The total of a weight over a list, and how it compares with the total of another weight.
-/

namespace CPug

universe u v

variable {α : Type u} {β : Type v}

/-- The total of a weight over a list. -/
def total (w : α → Nat) (l : List α) : Nat := l.foldr (fun a n => w a + n) 0

variable {w w' : α → Nat} {l : List α}

@[simp] theorem total_nil (w : α → Nat) : total w [] = 0 := rfl

@[simp] theorem total_cons (w : α → Nat) (a : α) (l : List α) :
    total w (a :: l) = w a + total w l := rfl

@[simp] theorem total_append (w : α → Nat) (l l' : List α) :
    total w (l ++ l') = total w l + total w l' := by
  induction l with
  | nil => simp
  | cons a l ih => simp only [List.cons_append, total_cons, ih, Nat.add_assoc]

theorem total_map (w : β → Nat) (f : α → β) (l : List α) :
    total w (l.map f) = total (fun a => w (f a)) l := by
  induction l with
  | nil => rfl
  | cons a l ih => simp only [List.map_cons, total_cons, ih]

theorem total_le_total (h : ∀ a ∈ l, w a ≤ w' a) : total w l ≤ total w' l := by
  induction l with
  | nil => exact Nat.le_refl 0
  | cons a l ih =>
    have ha := h a List.mem_cons_self
    have hl := ih fun b hb => h b (List.mem_cons_of_mem _ hb)
    simp only [total_cons]
    omega

theorem le_total_of_mem {a : α} (h : a ∈ l) : w a ≤ total w l := by
  induction l with
  | nil => cases h
  | cons b l ih =>
    rw [total_cons]
    rcases List.mem_cons.mp h with rfl | h
    · omega
    · have := ih h
      omega

theorem total_one (l : List α) : total (fun _ => 1) l = l.length := by
  induction l with
  | nil => rfl
  | cons a l ih => rw [total_cons, ih, List.length_cons, Nat.add_comm]

theorem total_mul (k : Nat) (w : α → Nat) (l : List α) :
    total (fun a => k * w a) l = k * total w l := by
  induction l with
  | nil => rfl
  | cons a l ih => rw [total_cons, total_cons, ih, Nat.mul_add]

theorem total_succ (w : α → Nat) (l : List α) :
    total (fun a => w a + 1) l = total w l + l.length := by
  induction l with
  | nil => rfl
  | cons a l ih =>
    rw [total_cons, total_cons, ih, List.length_cons]
    omega

/-- A list is no longer than the total of a weight that is positive on it. -/
theorem length_le_total (h : ∀ a ∈ l, 1 ≤ w a) : l.length ≤ total w l := by
  rw [← total_one]
  exact total_le_total h

theorem total_sublist {l' : List α} (h : l.Sublist l') (w : α → Nat) : total w l ≤ total w l' := by
  induction h with
  | slnil => exact Nat.le_refl 0
  | cons a _ ih =>
    rw [total_cons]
    omega
  | cons_cons a _ ih =>
    rw [total_cons, total_cons]
    omega

theorem total_filterMap_le {f : α → Option β} {g : β → Nat} (h : ∀ a ∈ l, ∀ b ∈ f a, g b ≤ w a) :
    total g (l.filterMap f) ≤ total w l := by
  induction l with
  | nil => exact Nat.le_refl 0
  | cons a l ih =>
    have hl := ih fun a' ha' => h a' (List.mem_cons_of_mem _ ha')
    rw [List.filterMap_cons, total_cons]
    cases hb : f a with
    | none => exact Nat.le_trans hl (Nat.le_add_left _ _)
    | some b =>
      have := h a List.mem_cons_self b hb
      rw [total_cons]
      omega

theorem length_flatMap_eq (f : α → List β) (l : List α) :
    (l.flatMap f).length = total (fun a => (f a).length) l := by
  induction l with
  | nil => rfl
  | cons a l ih => rw [List.flatMap_cons, List.length_append, ih, total_cons]

theorem total_range_getElem? (w : α → Nat) (l : List α) :
    total (fun i => (l[i]?.map w).getD 0) (List.range l.length) = total w l := by
  induction l with
  | nil => rfl
  | cons a l ih =>
    rw [List.length_cons, List.range_succ_eq_map, total_cons, total_map, total_cons]
    exact congrArg (w a + ·) ih

/-- Different entries of a list weigh no more than the list. -/
theorem total_getElem?_le (w : α → Nat) (l : List α) {places : List Nat}
    (h : places.Pairwise (· < ·)) (hlt : ∀ i ∈ places, i < l.length) :
    total (fun i => (l[i]?.map w).getD 0) places ≤ total w l := by
  have hnodup : places.Nodup := h.imp Nat.ne_of_lt
  have hsubset : places ⊆ List.range l.length := fun i hi => List.mem_range.mpr (hlt i hi)
  have hsub : places.Sublist (List.range l.length) :=
    List.sublist_of_subperm_of_pairwise (List.subperm_of_subset hnodup hsubset)
      (h.imp Nat.le_of_lt) (List.pairwise_lt_range.imp Nat.le_of_lt)
  rw [← total_range_getElem? w l]
  exact total_sublist hsub _

/-- Growing numbers from `b` on. -/
theorem total_of_increasing {l : List Nat} (h : l.Pairwise (· < ·)) (b : Nat)
    (hb : ∀ n ∈ l, b ≤ n) : l.length * (l.length + 2 * b) ≤ 2 * total id l + l.length := by
  induction l generalizing b with
  | nil => simp
  | cons n l ih =>
    obtain ⟨hn, hl⟩ := List.pairwise_cons.mp h
    have hbn := hb n List.mem_cons_self
    have hrest := ih hl (b + 1) fun m hm => by
      have := hn m hm
      omega
    have hsquare : (l.length + 1) * (l.length + 1 + 2 * b) =
        l.length * (l.length + 2 * (b + 1)) + 1 + 2 * b := by ring
    rw [List.length_cons, total_cons, hsquare, id]
    omega

end CPug
