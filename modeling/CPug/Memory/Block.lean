import Mathlib.Data.List.Infix

/-!
# Allocated blocks

A block that `malloc` and `realloc` give: a number of slots, some of them written. Writing to a slot
that is not allocated has no result. `Holds` says which items stand in the first slots; it survives a
`realloc` that does not cut them off (`Holds.realloc`) and grows by a write behind them (`Holds.write`).
-/

namespace CPug.Memory

variable {α : Type}

/-- A block of slots; a slot that was never written is `none`. -/
structure Block (α : Type) where
  slots : List (Option α)
deriving Repr, DecidableEq

namespace Block

/-- The number of slots allocated. -/
def size (block : Block α) : Nat := block.slots.length

/-- `malloc` for `n` slots. -/
def malloc (n : Nat) : Block α := ⟨List.replicate n none⟩

/-- A successful `realloc` to `n` slots: the slots that are in both sizes keep their contents. -/
def realloc (block : Block α) (n : Nat) : Block α :=
  ⟨(block.slots ++ List.replicate n none).take n⟩

/-- A write to slot `i`: it has a result if the slot is allocated. -/
def write (block : Block α) (i : Nat) (item : α) : Option (Block α) :=
  if i < block.size then some ⟨block.slots.set i (some item)⟩ else none

/-- The first `n` slots, if all of them are allocated and written. -/
def readFirst : Nat → List (Option α) → Option (List α)
  | 0, _ => some []
  | n + 1, some item :: slots => (readFirst n slots).map (item :: ·)
  | _ + 1, _ => none

/-- The items stand in the first slots. -/
def Holds (block : Block α) (items : List α) : Prop := items.map some <+: block.slots

@[simp] theorem size_malloc (n : Nat) : (malloc n : Block α).size = n := by
  simp [size, malloc]

@[simp] theorem size_realloc (block : Block α) (n : Nat) : (block.realloc n).size = n := by
  simp only [size, realloc, List.length_take, List.length_append, List.length_replicate]
  omega

theorem write_of_lt {block : Block α} {i : Nat} (h : i < block.size) (item : α) :
    block.write i item = some ⟨block.slots.set i (some item)⟩ := if_pos h

theorem Holds.nil (block : Block α) : block.Holds [] := List.nil_prefix

/-- A `realloc` that leaves room for the items keeps them. -/
theorem Holds.realloc {block : Block α} {items : List α} (h : block.Holds items) {n : Nat}
    (hn : items.length ≤ n) : (block.realloc n).Holds items := by
  obtain ⟨rest, hrest⟩ := h
  have hlen : (items.map some).length ≤ n := by rwa [List.length_map]
  rw [Holds, Block.realloc, ← hrest, List.append_assoc, List.take_append,
    List.take_of_length_le hlen]
  exact List.prefix_append _ _

/-- A write behind the items, where a slot is left. -/
theorem Holds.write {block : Block α} {items : List α} (h : block.Holds items)
    (hlt : items.length < block.size) (item : α) :
    ∃ block', block.write items.length item = some block' ∧ block'.Holds (items ++ [item]) ∧
      block'.size = block.size := by
  refine ⟨_, write_of_lt hlt item, ?_, ?_⟩
  · obtain ⟨rest, hrest⟩ := h
    have hset : block.slots.set items.length (some item) =
        items.map some ++ rest.set 0 (some item) := by
      rw [← hrest, List.set_append]
      simp
    cases rest with
    | nil =>
      -- No slot is left behind the items.
      have hlen : block.size = items.length := by
        rw [size, ← hrest, List.append_nil, List.length_map]
      omega
    | cons slot rest =>
      refine ⟨rest, ?_⟩
      show (items ++ [item]).map some ++ rest = block.slots.set items.length (some item)
      rw [hset]
      simp
  · show (block.slots.set items.length (some item)).length = block.slots.length
    rw [List.length_set]

/-- Reading the items back. -/
theorem Holds.readFirst {block : Block α} {items : List α} (h : block.Holds items) :
    readFirst items.length block.slots = some items := by
  obtain ⟨rest, hrest⟩ := h
  rw [← hrest]
  induction items generalizing block with
  | nil => rfl
  | cons item items ih =>
    rw [List.length_cons, List.map_cons, List.cons_append, Block.readFirst, ih rfl]
    rfl

end Block

end CPug.Memory
