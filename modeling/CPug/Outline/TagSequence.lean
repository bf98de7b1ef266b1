import Mathlib.Data.List.Basic

/-!
# Tag sequences

* `bracketed` cuts the pieces between an opening mark and the next closing one out of a list.
* `closes` reads a sequence of tags with the stack of the names that are open.
* `WellNested` is the grammar of nested sequences; what it accepts leaves every stack as it was
  (`WellNested.closes_append`).
-/

namespace Outline

universe u

/-- A tag that opens a name, closes it, or stands alone. -/
inductive Tag (α : Type u) where
  | opened (name : α)
  | closed (name : α)
  | alone (name : α)
deriving Repr, DecidableEq

/-- The name of a tag that stands alone. -/
def Tag.alone? {α : Type u} : Tag α → Option α
  | alone name => some name
  | _ => none

section Pieces

variable {α : Type u} [DecidableEq α] {l r : α}

/-- The pieces from each `l` to the next `r`, where `inside` is the piece that is open; `none` when
the last one has no end. -/
def bracketed (l r : α) (inside : Option (List α)) : List α → Option (List (List α))
  | [] => if inside.isNone then some [] else none
  | a :: as =>
    match inside with
    | none => bracketed l r (if a = l then some [] else none) as
    | some piece =>
      if a = r then (bracketed l r none as).map (piece :: ·)
      else bracketed l r (some (piece ++ [a])) as

/-- Outside, a text without `l` is passed over. -/
theorem bracketed_text {text : List α} (h : l ∉ text) (rest : List α) :
    bracketed l r none (text ++ rest) = bracketed l r none rest := by
  induction text with
  | nil => rfl
  | cons a text ih =>
    obtain ⟨ha, htext⟩ := not_or.mp (mt List.mem_cons.mpr h)
    rw [List.cons_append, bracketed, if_neg (Ne.symm ha)]
    exact ih htext

theorem bracketed_inside {text : List α} (h : r ∉ text) (piece rest : List α) :
    bracketed l r (some piece) (text ++ r :: rest) =
      (bracketed l r none rest).map ((piece ++ text) :: ·) := by
  induction text generalizing piece with
  | nil => rw [List.nil_append, bracketed, if_pos rfl, List.append_nil]
  | cons a text ih =>
    obtain ⟨ha, htext⟩ := not_or.mp (mt List.mem_cons.mpr h)
    rw [List.cons_append, bracketed, if_neg (Ne.symm ha), ih htext, List.append_assoc,
      List.singleton_append]

/-- A text without `r` between the marks is a piece. -/
theorem bracketed_piece {text : List α} (h : r ∉ text) (rest : List α) :
    bracketed l r none (l :: (text ++ r :: rest)) = (bracketed l r none rest).map (text :: ·) := by
  rw [bracketed, if_pos rfl, bracketed_inside h]
  rfl

end Pieces

variable {α : Type u}

/-- Each name is closed by a tag of that name, the last one opened first, where the names `stack` are
open before and none after. -/
def closes [DecidableEq α] : List α → List (Tag α) → Bool
  | stack, [] => stack.isEmpty
  | stack, .opened name :: tags => closes (name :: stack) tags
  | [], .closed _ :: _ => false
  | top :: stack, .closed name :: tags => decide (top = name) && closes stack tags
  | stack, .alone _ :: tags => closes stack tags

/-- Nested sequences of tags. -/
inductive WellNested : List (Tag α) → Prop where
  | nil : WellNested []
  | alone (name : α) : WellNested [.alone name]
  | element (name : α) {inner : List (Tag α)} :
      WellNested inner → WellNested (.opened name :: (inner ++ [.closed name]))
  | append {left right : List (Tag α)} :
      WellNested left → WellNested right → WellNested (left ++ right)

/-- A nested sequence leaves the stack as it was. -/
theorem WellNested.closes_append [DecidableEq α] {tags : List (Tag α)} (h : WellNested tags)
    (stack : List α) (rest : List (Tag α)) : closes stack (tags ++ rest) = closes stack rest := by
  induction h generalizing stack rest with
  | nil => rfl
  | alone name => cases stack <;> rfl
  | @element name inner _ ih =>
    have hopen : closes stack (.opened name :: (inner ++ .closed name :: rest)) =
        closes (name :: stack) (inner ++ .closed name :: rest) := by cases stack <;> rfl
    rw [List.cons_append, List.append_assoc, List.singleton_append, hopen, ih, closes,
      decide_eq_true rfl, Bool.true_and]
  | append _ _ ihl ihr => rw [List.append_assoc, ihl, ihr]

theorem WellNested.closes [DecidableEq α] {tags : List (Tag α)} (h : WellNested tags) :
    Outline.closes [] tags = true := by
  rw [← List.append_nil tags, h.closes_append]
  rfl

end Outline
