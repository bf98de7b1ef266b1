import Mathlib.Algebra.Order.Group.Multiset
import Mathlib.Data.Finset.Card
import Mathlib.Data.Finset.SDiff
import Mathlib.Tactic.Abel

/-!
# The heap

Which blocks are allocated. A block is named by its address; `malloc` hands out addresses that were never
handed out before, and `free` of a block that is not allocated has no result, so that a computation that
returns has freed nothing twice and nothing it did not get.

`Triple pre comp post` is total: started with the blocks `pre`, the computation returns, leaving blocks that
`post` describes, and does not touch the others. The frame is part of the definition. There is a rule for
each way computations are put together, and one for a loop over a list.
-/

namespace CPug.Memory

/-- The addresses below `next` have been handed out; those in `live` have not been given back. -/
structure Heap where
  next : Nat
  live : Finset Nat
  lt_next : ∀ p ∈ live, p < next

/-- A computation that allocates. It has no result when it frees what is not allocated or never ends. -/
abbrev Alloc (α : Type) := StateT Heap Option α

namespace Heap

theorem lt_next_insert (heap : Heap) : ∀ p ∈ insert heap.next heap.live, p < heap.next + 1 := by
  intro p hp
  rcases Finset.mem_insert.mp hp with rfl | hp
  · exact Nat.lt_succ_self _
  · exact Nat.lt_succ_of_lt (heap.lt_next p hp)

theorem lt_next_erase (heap : Heap) (q : Nat) : ∀ p ∈ heap.live.erase q, p < heap.next :=
  fun p hp => heap.lt_next p (Finset.mem_of_mem_erase hp)

/-- `malloc` and `g_new`, where they succeed. -/
def malloc : Alloc Nat := fun heap =>
  some (heap.next, ⟨heap.next + 1, insert heap.next heap.live, heap.lt_next_insert⟩)

/-- `free` and `g_free` of a block. -/
def free (p : Nat) : Alloc Unit := fun heap =>
  if p ∈ heap.live then some ((), ⟨heap.next, heap.live.erase p, heap.lt_next_erase p⟩) else none

/-- `free` behind a test for `NULL`. -/
def freeIfAny : Option Nat → Alloc Unit
  | some p => free p
  | none => pure ()

/-- `realloc`, where it succeeds: the block may move. -/
def realloc (p : Nat) : Alloc Nat := do
  free p
  malloc

/-- `malloc`, a number of times. -/
def mallocs : Nat → Alloc (List Nat)
  | 0 => pure []
  | n + 1 => do
    let p ← malloc
    let ps ← mallocs n
    pure (p :: ps)

/-- A computation that does not return. -/
def never {α : Type} : Alloc α := fun _ => none

end Heap

/-! ## Triples -/

/-- Started with the blocks `pre`, the computation returns a value and leaves blocks as in `post`. -/
def Triple {α : Type} (pre : Multiset Nat) (comp : Alloc α) (post : α → Multiset Nat → Prop) : Prop :=
  ∀ (heap : Heap) (frame : Multiset Nat), heap.live.val = pre + frame →
    ∃ a heap' left, comp heap = some (a, heap') ∧ heap'.live.val = left + frame ∧ post a left

/-- The blocks that the items of a list own. -/
def ownedBy {β : Type} (own : β → Multiset Nat) : List β → Multiset Nat
  | [] => 0
  | b :: bs => own b + ownedBy own bs

/-- The block behind a pointer that may be `NULL`. -/
def blockIfAny : Option Nat → Multiset Nat
  | some p => {p}
  | none => 0

section Owned

variable {β : Type} {own : β → Multiset Nat}

@[simp] theorem ownedBy_nil : ownedBy own [] = 0 := rfl

@[simp] theorem ownedBy_cons (b : β) (bs : List β) :
    ownedBy own (b :: bs) = own b + ownedBy own bs := rfl

@[simp] theorem ownedBy_append (xs ys : List β) :
    ownedBy own (xs ++ ys) = ownedBy own xs + ownedBy own ys := by
  induction xs with
  | nil => simp
  | cons x xs ih => simp only [List.cons_append, ownedBy_cons, ih, add_assoc]

@[simp] theorem blockIfAny_none : blockIfAny none = 0 := rfl

@[simp] theorem blockIfAny_some (p : Nat) : blockIfAny (some p) = {p} := rfl

/-- One item among the others. -/
theorem ownedBy_eq_of_getElem? {l : List β} {i : Nat} {b : β} (h : l[i]? = some b) :
    ownedBy own l = own b + ownedBy own (l.eraseIdx i) := by
  induction l generalizing i with
  | nil => simp at h
  | cons c l ih =>
    cases i with
    | zero =>
      cases h
      rfl
    | succ i =>
      rw [List.eraseIdx_cons_succ, ownedBy_cons, ownedBy_cons, ih (by simpa using h)]
      abel

theorem ownedBy_set {l : List β} {i : Nat} {b : β} (h : l[i]? = some b) (c : β) :
    ownedBy own (l.set i c) = own c + ownedBy own (l.eraseIdx i) := by
  have hi := (List.getElem?_eq_some_iff.mp h).1
  rw [ownedBy_eq_of_getElem? (List.getElem?_set_self hi), List.eraseIdx_set_eq]

end Owned

namespace Triple

variable {α β : Type} {pre part rest : Multiset Nat} {post : α → Multiset Nat → Prop}

theorem ret {a : α} (h : post a pre) : Triple pre (pure a) post := by
  intro heap frame hlive
  exact ⟨a, heap, pre, rfl, hlive, h⟩

/-- A step that uses a part of the blocks, then what follows on the rest and what it leaves. -/
theorem bind {comp : Alloc α} {f : α → Alloc β} {post' : β → Multiset Nat → Prop}
    (hx : Triple part comp post) (hpre : pre = part + rest)
    (hf : ∀ a left, post a left → Triple (left + rest) (f a) post') :
    Triple pre (comp >>= f) post' := by
  intro heap frame hlive
  rw [hpre, add_assoc] at hlive
  obtain ⟨a, heap', left, hrun, hlive', ha⟩ := hx heap _ hlive
  obtain ⟨b, heap'', left', hrun', hlive'', hb⟩ := hf a left ha heap' frame (by rw [hlive', add_assoc])
  refine ⟨b, heap'', left', ?_, hlive'', hb⟩
  show (comp heap).bind _ = _
  rw [hrun]
  exact hrun'

/-- A step that uses none of the blocks. -/
theorem bindNew {comp : Alloc α} {f : α → Alloc β} {post' : β → Multiset Nat → Prop}
    (hx : Triple 0 comp post) (hf : ∀ a left, post a left → Triple (left + pre) (f a) post') :
    Triple pre (comp >>= f) post' := bind hx (zero_add _).symm hf

/-- A step that gives back a part of the blocks. -/
theorem bindFree {comp : Alloc Unit} {f : Unit → Alloc β} {post' : β → Multiset Nat → Prop}
    (hx : Triple part comp fun _ left => left = 0) (hpre : pre = part + rest)
    (hf : Triple rest (f ()) post') : Triple pre (comp >>= f) post' := by
  refine bind hx hpre fun _ left hleft => ?_
  rw [hleft, zero_add]
  exact hf

theorem mono {comp : Alloc α} {post' : α → Multiset Nat → Prop} (hx : Triple pre comp post)
    (h : ∀ a left, post a left → post' a left) : Triple pre comp post' := by
  intro heap frame hlive
  obtain ⟨a, heap', left, hrun, hlive', ha⟩ := hx heap frame hlive
  exact ⟨a, heap', left, hrun, hlive', h a left ha⟩

/-- Blocks that a computation does not use stay. -/
theorem frame {comp : Alloc α} (hx : Triple part comp post) (hpre : pre = part + rest) :
    Triple pre comp fun a left => ∃ own, post a own ∧ left = own + rest := by
  intro heap others hlive
  rw [hpre, add_assoc] at hlive
  obtain ⟨a, heap', left, hrun, hlive', ha⟩ := hx heap _ hlive
  exact ⟨a, heap', left + rest, hrun, by rw [hlive', add_assoc], left, ha, rfl⟩

theorem malloc : Triple 0 Heap.malloc fun p left => left = {p} := by
  intro heap frame hlive
  refine ⟨heap.next, _, {heap.next}, rfl, ?_, rfl⟩
  have hfresh : heap.next ∉ heap.live := fun hmem => lt_irrefl _ (heap.lt_next _ hmem)
  show (insert heap.next heap.live).val = _
  rw [Finset.insert_val_of_notMem hfresh, hlive, zero_add, Multiset.singleton_add]

theorem free (p : Nat) : Triple {p} (Heap.free p) fun _ left => left = 0 := by
  intro heap frame hlive
  have hmem : p ∈ heap.live := by
    rw [← Finset.mem_val, hlive]
    exact Multiset.mem_add.mpr (Or.inl (Multiset.mem_singleton_self p))
  refine ⟨(), _, 0, if_pos hmem, ?_, rfl⟩
  show (heap.live.erase p).val = _
  rw [Finset.erase_val, hlive, Multiset.singleton_add, Multiset.erase_cons_head, zero_add]

theorem freeIfAny (p : Option Nat) :
    Triple (blockIfAny p) (Heap.freeIfAny p) fun _ left => left = 0 := by
  cases p with
  | none => exact ret rfl
  | some p => exact free p

theorem realloc (p : Nat) : Triple {p} (Heap.realloc p) fun q left => left = {q} :=
  bindFree (free p) (add_zero _).symm malloc

theorem mallocs (n : Nat) :
    Triple 0 (Heap.mallocs n) fun ps left => left = ownedBy (fun p => {p}) ps := by
  induction n with
  | zero => exact ret rfl
  | succ n ih =>
    refine bindNew malloc fun p _ hp => bindNew ih fun ps _ hps => ret ?_
    rw [hps, hp, ownedBy_cons]
    abel

/-- A loop that frees what each item owns. -/
theorem forM {l : List β} {f : β → Alloc Unit} {own : β → Multiset Nat}
    (h : ∀ b ∈ l, Triple (own b) (f b) fun _ left => left = 0) :
    Triple (ownedBy own l) (l.forM f) fun _ left => left = 0 := by
  induction l with
  | nil => exact ret rfl
  | cons b l ih =>
    show Triple _ (f b >>= fun _ => l.forM f) _
    exact bindFree (h b List.mem_cons_self) rfl
      (ih fun b' hb' => h b' (List.mem_cons_of_mem _ hb'))

/-- A computation that needs no blocks, started on any heap. -/
theorem run {comp : Alloc α} (hx : Triple 0 comp post) (heap : Heap) :
    ∃ a heap' left, comp heap = some (a, heap') ∧ heap'.live.val = left + heap.live.val ∧
      post a left :=
  hx heap heap.live.val (zero_add _).symm

end Triple

/-- The blocks that were left are new, and they are all that is new. -/
theorem Heap.sdiff_live {heap heap' : Heap} {left : Multiset Nat}
    (h : heap'.live.val = left + heap.live.val) :
    heap.live ⊆ heap'.live ∧ (heap'.live \ heap.live).val = left := by
  refine ⟨Finset.val_le_iff.mp ?_, ?_⟩
  · rw [h]
    exact Multiset.le_add_left _ _
  · rw [Finset.sdiff_val, h]
    exact add_tsub_cancel_right left _

end CPug.Memory
