import Mathlib.Data.List.Infix

/-!
# Accesses to a terminated array

A program walks along an array that ends in a terminator, the element at index `n` of an array of
length `n`. A computation in `Traced` carries the accesses it makes: the indices it reads and the
values it gives to its position. `Within n x v` says that `x` has the value `v` and goes nowhere behind
`n`; it has a rule for each construct (`Within.pure`, `Within.bind`, `within_readAt`, `within_move`).
`At` relates a position to what is left of the array there, so that a walk is an induction over that.
-/

namespace CPug.Memory

variable {α β : Type}

inductive Access where
  /-- The element at the index is read. -/
  | read (index : Nat)
  /-- The position is set to the index. -/
  | move (index : Nat)
deriving Repr, DecidableEq

def Access.index : Access → Nat
  | read index => index
  | move index => index

/-- A computation: its value, and its accesses in order. -/
structure Traced (β : Type) where
  value : β
  accesses : List Access
deriving Repr, DecidableEq

instance : Monad Traced where
  pure v := ⟨v, []⟩
  bind x f := ⟨(f x.value).value, x.accesses ++ (f x.value).accesses⟩

/-- Read the element at an index. -/
def readAt (array : List α) (terminator : α) (index : Nat) : Traced α :=
  ⟨array.getD index terminator, [.read index]⟩

/-- Set the position. -/
def move (index : Nat) : Traced Nat := ⟨index, [.move index]⟩

/-! ## Computations that stay inside -/

/-- The computation has the value and makes no access behind `n`. -/
structure Within (n : Nat) (x : Traced β) (v : β) : Prop where
  value_eq : x.value = v
  index_le : ∀ access ∈ x.accesses, access.index ≤ n

section Rules

variable {n : Nat} {γ : Type}

theorem Within.pure (v : β) : Within n (Pure.pure v : Traced β) v where
  value_eq := rfl
  index_le _ h := nomatch h

theorem Within.bind {x : Traced β} {f : β → Traced γ} {v : β} {w : γ} (hx : Within n x v)
    (hf : Within n (f v) w) : Within n (x >>= f) w := by
  cases hx.value_eq
  constructor
  case value_eq => exact hf.value_eq
  case index_le =>
    intro access h
    exact (List.mem_append.mp h).elim (hx.index_le access) (hf.index_le access)

theorem within_move {index : Nat} (h : index ≤ n) : Within n (move index) index where
  value_eq := rfl
  index_le access hmem := by
    rw [List.mem_singleton.mp hmem]
    exact h

end Rules

/-! ## Positions -/

/-- `rest` is what is left of the array at position `pos`. -/
def At (array : List α) (pos : Nat) (rest : List α) : Prop :=
  ∃ before, array = before ++ rest ∧ before.length = pos

section Positions

variable {array rest : List α} {pos : Nat}

theorem At.start (array : List α) : At array 0 array := ⟨[], rfl, rfl⟩

theorem At.le (h : At array pos rest) : pos ≤ array.length := by
  obtain ⟨before, rfl, rfl⟩ := h
  rw [List.length_append]
  exact Nat.le_add_right _ _

theorem At.of_le (h : pos ≤ array.length) : At array pos (array.drop pos) :=
  ⟨array.take pos, (List.take_append_drop pos array).symm, List.length_take_of_le h⟩

/-- What stands in front of the rest is walked over. -/
theorem At.append {word : List α} (h : At array pos (word ++ rest)) :
    At array (pos + word.length) rest := by
  obtain ⟨before, rfl, rfl⟩ := h
  exact ⟨before ++ word, (List.append_assoc _ _ _).symm, List.length_append⟩

theorem At.tail {c : α} (h : At array pos (c :: rest)) : At array (pos + 1) rest :=
  @At.append α array rest pos [c] h

theorem At.suffix {after : List α} (h : At array pos rest) (hafter : after <:+ rest) :
    At array (pos + (rest.length - after.length)) after := by
  obtain ⟨word, rfl⟩ := hafter
  rw [List.length_append, Nat.add_sub_cancel]
  exact h.append

theorem At.length_le (h : At array pos rest) : rest.length ≤ array.length := by
  obtain ⟨before, rfl, -⟩ := h
  rw [List.length_append]
  exact Nat.le_add_left _ _

theorem At.mem {c : α} (h : At array pos rest) (hc : c ∈ rest) : c ∈ array := by
  obtain ⟨before, rfl, -⟩ := h
  exact List.mem_append_right _ hc

/-- Reading at the position gives the first element that is left, or the terminator. -/
theorem within_readAt (terminator : α) (h : At array pos rest) :
    Within array.length (readAt array terminator pos) (rest.headD terminator) where
  value_eq := by
    obtain ⟨before, rfl, rfl⟩ := h
    show (before ++ rest).getD before.length terminator = rest.headD terminator
    cases rest with
    | nil => simp
    | cons c rest => simp
  index_le access hmem := by
    rw [List.mem_singleton.mp hmem]
    exact h.le

end Positions

/-! ## Loops -/

/-- `while (p(array[pos])) { append array[pos]; pos++; }`: what is appended, and the position. -/
def scanWhile (array : List α) (terminator : α) (p : α → Bool) : Nat → Nat → Traced (List α × Nat)
  | 0, pos => pure ([], pos)
  | fuel + 1, pos => do
    let c ← readAt array terminator pos
    if p c then
      let next ← move (pos + 1)
      let scanned ← scanWhile array terminator p fuel next
      pure (c :: scanned.1, scanned.2)
    else pure ([], pos)

/-- The loop takes the longest run, if its test fails at the terminator. -/
theorem within_scanWhile {array rest : List α} {pos fuel : Nat} {terminator : α} {p : α → Bool}
    (hp : p terminator = false) (h : At array pos rest) (hfuel : rest.length < fuel) :
    Within array.length (scanWhile array terminator p fuel pos)
      (rest.takeWhile p, pos + (rest.takeWhile p).length) := by
  induction rest generalizing pos fuel with
  | nil =>
    cases fuel with
    | zero => exact absurd hfuel (Nat.not_lt_zero _)
    | succ fuel =>
      rw [scanWhile]
      apply Within.bind (within_readAt terminator h)
      rw [List.headD_nil, hp, if_neg Bool.false_ne_true]
      exact Within.pure _
  | cons c rest ih =>
    cases fuel with
    | zero => exact absurd hfuel (Nat.not_lt_zero _)
    | succ fuel =>
      rw [scanWhile]
      apply Within.bind (within_readAt terminator h)
      rw [List.headD_cons]
      by_cases hc : p c = true
      · have hrest := ih h.tail (Nat.lt_of_succ_lt_succ hfuel)
        rw [if_pos hc, List.takeWhile_cons_of_pos hc, List.length_cons,
          Nat.add_comm (rest.takeWhile p).length 1, ← Nat.add_assoc]
        exact Within.bind (within_move h.tail.le) (Within.bind hrest (Within.pure _))
      · rw [if_neg hc, List.takeWhile_cons_of_neg hc]
        exact Within.pure _

theorem At.dropWhile {array rest : List α} {pos : Nat} (p : α → Bool) (h : At array pos rest) :
    At array (pos + (rest.takeWhile p).length) (rest.dropWhile p) := by
  rw [← List.takeWhile_append_dropWhile (p := p) (l := rest)] at h
  exact h.append

end CPug.Memory
