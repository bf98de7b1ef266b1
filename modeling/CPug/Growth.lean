import CPug.Memory.Block
import Mathlib.Algebra.Ring.Nat

/-!
# The growable arrays

`token_list_add`, `attribute_list_add`, `node_list_add` and `ast_node_add_child` append an item to an
array that doubles when it is full. The first three set the capacity after a successful `realloc`
(`addChecked`); `ast_node_add_child` doubles it before it knows the answer. What they keep up is
`ArrayOf`: it survives every call of the first three (`addChecked_of_failsToGrow`,
`addChecked_of_not_failsToGrow`), and `ast_node_add_child` does the same as they do except in a call
whose `realloc` fails (`runConsistent_iff`).
-/

namespace CPug

open Memory

variable {α : Type}

/-- The value of an `unsigned int`. -/
def uint (n : Nat) : Nat := n % 2 ^ 32

/-- `sizeof` of a pointer, of a `Token` and of an `Attribute`. -/
def sizeofPointer : Nat := 8

def sizeofToken : Nat := 40

def sizeofAttribute : Nat := 24

/-- The array fields of a container: `count`, `capacity`, and the block behind the pointer. -/
structure GrowableArray (α : Type) where
  count : Nat
  capacity : Nat
  block : Block α
deriving Repr, DecidableEq

/-- A call: the item handed over, `none` for `NULL`, and whether `realloc` succeeds if it is called. -/
structure AddCall (α : Type) where
  item : Option α
  reallocOk : Bool
deriving Repr, DecidableEq

/-- `realloc`, which may return `NULL`. -/
def reallocBlock (block : Block α) (slots : Nat) (ok : Bool) : Option (Block α) :=
  if ok then some (block.realloc slots) else none

/-- The last two statements of each function. There is no result if the slot is not allocated. -/
def storeItem (list : GrowableArray α) (item : α) : Option (GrowableArray α) :=
  (list.block.write list.count item).map fun block =>
    { list with block := block, count := uint (list.count + 1) }

/-- The body that three of the four functions have. -/
def addChecked (list : GrowableArray α) (call : AddCall α) : Option (GrowableArray α) :=
  match call.item with
  | none => some list
  | some item =>
    if list.count ≥ list.capacity then
      let newCapacity := uint (list.capacity * 2)
      match reallocBlock list.block newCapacity call.reallocOk with
      | none => some list
      | some block => storeItem { list with capacity := newCapacity, block := block } item
    else storeItem list item

/-! ## The four containers -/

/-- `token_list_create`. The block is one of `Token`, not of pointers to it. -/
def tokenListCreate : GrowableArray α where
  count := 0
  capacity := 10
  block := Block.malloc (10 * sizeofToken / sizeofPointer)

/-- `token_list_add`. -/
def tokenListAdd (list : GrowableArray α) (call : AddCall α) : Option (GrowableArray α) :=
  addChecked list call

/-- `attribute_list_create`. The block is one of `Attribute`, not of pointers to it. -/
def attributeListCreate : GrowableArray α where
  count := 0
  capacity := 5
  block := Block.malloc (5 * sizeofAttribute / sizeofPointer)

/-- `attribute_list_add`. -/
def attributeListAdd (list : GrowableArray α) (call : AddCall α) : Option (GrowableArray α) :=
  addChecked list call

/-- `node_list_create`. -/
def nodeListCreate : GrowableArray α where
  count := 0
  capacity := 10
  block := Block.malloc 10

/-- `node_list_add`. -/
def nodeListAdd (list : GrowableArray α) (call : AddCall α) : Option (GrowableArray α) :=
  addChecked list call

/-- The children of `ast_node_create`. -/
def childrenCreate : GrowableArray α where
  count := 0
  capacity := 5
  block := Block.malloc 5

/-- `ast_node_add_child` on the children of the parent: the capacity is doubled first. The link from the
child to its parent is not part of the array. -/
def astNodeAddChild (parent : GrowableArray α) (call : AddCall α) : Option (GrowableArray α) :=
  match call.item with
  | none => some parent
  | some child =>
    if parent.count ≥ parent.capacity then
      let parent := { parent with capacity := uint (parent.capacity * 2) }
      match reallocBlock parent.block parent.capacity call.reallocOk with
      | none => some parent
      | some newChildren => storeItem { parent with block := newChildren } child
    else storeItem parent child

inductive Container where
  | tokenList
  | attributeList
  | nodeList
  | astNode
deriving Repr, DecidableEq

/-- The fresh container. -/
def Container.create : Container → GrowableArray α
  | tokenList => tokenListCreate
  | attributeList => attributeListCreate
  | nodeList => nodeListCreate
  | astNode => childrenCreate

/-- The function that adds to the container. -/
def Container.add : Container → GrowableArray α → AddCall α → Option (GrowableArray α)
  | tokenList => tokenListAdd
  | attributeList => attributeListAdd
  | nodeList => nodeListAdd
  | astNode => astNodeAddChild

/-- The container after a sequence of calls, unless one of them writes to a slot not allocated. -/
def Container.run (kind : Container) (calls : List (AddCall α)) : Option (GrowableArray α) :=
  calls.foldlM kind.add kind.create

/-! ## What a run keeps up -/

/-- The call asks `realloc` for a larger block and does not get it. -/
def FailsToGrow (list : GrowableArray α) (call : AddCall α) : Prop :=
  call.item ≠ none ∧ list.count ≥ list.capacity ∧ call.reallocOk = false

/-- Consistency in every state of a run. -/
structure RunConsistent (kind : Container) (calls : List (AddCall α)) : Prop where
  allocated : kind.run calls ≠ none
  bounds : ∀ before list, before <+: calls → kind.run before = some list →
    list.count ≤ list.capacity ∧ list.capacity ≤ list.block.size
  unchanged : ∀ before call list, before ++ [call] <+: calls → kind.run before = some list →
    FailsToGrow list call → kind.add list call = some list

/-- The number of items, `NULL` not counted, that the calls hand over. -/
def itemCount (calls : List (AddCall α)) : Nat := (calls.filterMap AddCall.item).length

/-- No call that finds 5, 10, 20, ... children has a failing `realloc`. -/
def NeverRefused (calls : List (AddCall α)) : Prop :=
  ∀ before call, before ++ [call] <+: calls → call.item ≠ none →
    (∃ k, itemCount before = 5 * 2 ^ k) → call.reallocOk = true

/-! ## One call -/

/-- The array holds the items, in the capacity that doubling from `initial` reaches for them. -/
structure ArrayOf (initial : Nat) (list : GrowableArray α) (items : List α) : Prop where
  count_eq : list.count = items.length
  count_le : list.count ≤ list.capacity
  capacity_le : list.capacity ≤ list.block.size
  holds : list.block.Holds items
  doubled : ∃ k, list.capacity = initial * 2 ^ k ∧ (k = 0 ∨ list.capacity < 2 * list.count)

section Calls

variable {initial : Nat} {list : GrowableArray α} {items : List α} {call : AddCall α}

theorem storeItem_arrayOf (hcount : list.count = items.length) (hlt : list.count < list.capacity)
    (hsize : list.capacity ≤ list.block.size) (hholds : list.block.Holds items)
    (hdoubled : ∃ k, list.capacity = initial * 2 ^ k ∧ (k = 0 ∨ list.capacity ≤ 2 * list.count))
    (hsmall : list.count < 2 ^ 31) (item : α) :
    ∃ list', storeItem list item = some list' ∧ ArrayOf initial list' (items ++ [item]) := by
  obtain ⟨block, hwrite, hholds', hsize'⟩ := hholds.write (by omega) item
  have huint : uint (list.count + 1) = list.count + 1 := Nat.mod_eq_of_lt (by omega)
  refine ⟨_, by rw [storeItem, hcount, hwrite]; rfl, ?_⟩
  constructor
  case count_eq =>
    show uint (items.length + 1) = (items ++ [item]).length
    rw [← hcount, huint, hcount, List.length_append, List.length_singleton]
  case count_le =>
    show uint (items.length + 1) ≤ list.capacity
    rw [← hcount, huint]
    exact hlt
  case capacity_le =>
    show list.capacity ≤ block.size
    rwa [hsize']
  case holds => exact hholds'
  case doubled =>
    obtain ⟨k, hk, hcap⟩ := hdoubled
    refine ⟨k, hk, hcap.imp_right fun h => ?_⟩
    show list.capacity < 2 * uint (items.length + 1)
    rw [← hcount, huint]
    omega

theorem ArrayOf.capacity_pos (h : ArrayOf initial list items) (hinitial : 0 < initial) :
    0 < list.capacity := by
  obtain ⟨k, hk, -⟩ := h.doubled
  rw [hk]
  exact Nat.mul_pos hinitial (Nat.two_pow_pos k)

theorem addChecked_of_failsToGrow (h : FailsToGrow list call) : addChecked list call = some list := by
  obtain ⟨hitem, hfull, hrefused⟩ := h
  obtain ⟨item, hitem⟩ := Option.ne_none_iff_exists'.mp hitem
  rw [addChecked, hitem]
  simp [hfull, hrefused, reallocBlock]

/-- A call that is not refused adds its item. -/
theorem addChecked_of_not_failsToGrow (h : ArrayOf initial list items) (hinitial : 0 < initial)
    (hsmall : list.count < 2 ^ 31) (hgrow : ¬ FailsToGrow list call) :
    ∃ list', addChecked list call = some list' ∧
      ArrayOf initial list' (items ++ call.item.toList) := by
  rw [addChecked]
  cases hitem : call.item with
  | none => exact ⟨list, rfl, by simpa using h⟩
  | some item =>
    simp only [Option.toList_some]
    have hpos := h.capacity_pos hinitial
    have hle := h.count_le
    by_cases hfull : list.count ≥ list.capacity
    · have hok : call.reallocOk = true := by
        by_contra hno
        exact hgrow ⟨by simp [hitem], hfull, by simpa using hno⟩
      have huint : uint (list.capacity * 2) = list.capacity * 2 := Nat.mod_eq_of_lt (by omega)
      obtain ⟨k, hk, -⟩ := h.doubled
      simp only [if_pos hfull, hok, reallocBlock, if_true, huint]
      apply storeItem_arrayOf
      · exact h.count_eq
      · show list.count < list.capacity * 2
        omega
      · show list.capacity * 2 ≤ (list.block.realloc (list.capacity * 2)).size
        rw [Block.size_realloc]
      · apply h.holds.realloc
        rw [← h.count_eq]
        omega
      · refine ⟨k + 1, ?_, Or.inr ?_⟩
        · show list.capacity * 2 = initial * 2 ^ (k + 1)
          rw [hk, Nat.pow_succ, Nat.mul_assoc]
        · show list.capacity * 2 ≤ 2 * list.count
          omega
      · exact hsmall
    · rw [if_neg hfull]
      obtain ⟨k, hk, hcap⟩ := h.doubled
      exact storeItem_arrayOf h.count_eq (Nat.not_le.mp hfull) h.capacity_le h.holds
        ⟨k, hk, hcap.imp_right Nat.le_of_lt⟩ hsmall item

/-- `ast_node_add_child` differs from the others only in a call that is refused. -/
theorem astNodeAddChild_eq (h : ¬ FailsToGrow list call) :
    astNodeAddChild list call = addChecked list call := by
  rw [astNodeAddChild, addChecked]
  cases hitem : call.item with
  | none => rfl
  | some item =>
    by_cases hfull : list.count ≥ list.capacity
    · have hok : call.reallocOk = true := by
        by_contra hno
        exact h ⟨by simp [hitem], hfull, by simpa using hno⟩
      simp [hfull, hok, reallocBlock]
    · simp [hfull]

/-- What is left of a refused call of `ast_node_add_child`. -/
theorem astNodeAddChild_of_failsToGrow (h : FailsToGrow list call) :
    astNodeAddChild list call = some { list with capacity := uint (list.capacity * 2) } := by
  obtain ⟨hitem, hfull, hrefused⟩ := h
  obtain ⟨item, hitem⟩ := Option.ne_none_iff_exists'.mp hitem
  rw [astNodeAddChild, hitem]
  simp [hfull, hrefused, reallocBlock]

end Calls

/-! ## Runs -/

/-- The capacity that a container starts with. -/
def Container.initial : Container → Nat
  | tokenList => 10
  | attributeList => 5
  | nodeList => 10
  | astNode => 5

theorem Container.initial_pos (kind : Container) : 0 < kind.initial := by
  cases kind <;> decide

theorem Container.create_arrayOf (kind : Container) :
    ArrayOf kind.initial (kind.create : GrowableArray α) [] := by
  have hsize : (kind.create : GrowableArray α).capacity ≤
      (kind.create : GrowableArray α).block.size := by
    cases kind with
    | tokenList =>
      show 10 ≤ (Block.malloc 50 : Block α).size
      rw [Block.size_malloc]
      omega
    | attributeList =>
      show 5 ≤ (Block.malloc 15 : Block α).size
      rw [Block.size_malloc]
      omega
    | nodeList => exact Nat.le_of_eq (Block.size_malloc 10).symm
    | astNode => exact Nat.le_of_eq (Block.size_malloc 5).symm
  have hcount : (kind.create : GrowableArray α).count = 0 := by cases kind <;> rfl
  have hcapacity : (kind.create : GrowableArray α).capacity = kind.initial := by cases kind <;> rfl
  constructor
  case count_eq => exact hcount
  case count_le => omega
  case capacity_le => exact hsize
  case holds => exact Block.Holds.nil _
  case doubled => exact ⟨0, by rw [hcapacity, Nat.pow_zero, Nat.mul_one], Or.inl rfl⟩

theorem Container.run_concat (kind : Container) (calls : List (AddCall α)) (call : AddCall α) :
    kind.run (calls ++ [call]) = (kind.run calls).bind fun list => kind.add list call := by
  simp [run, List.foldlM_append, Option.bind_eq_bind]

/-- In a call that is not refused the four functions agree. -/
theorem Container.add_of_not_failsToGrow (kind : Container) {list : GrowableArray α}
    {call : AddCall α} (h : ¬ FailsToGrow list call) : kind.add list call = addChecked list call := by
  cases kind with
  | astNode => exact astNodeAddChild_eq h
  | _ => rfl

theorem Container.add_of_failsToGrow {kind : Container} (hkind : kind ≠ .astNode)
    {list : GrowableArray α} {call : AddCall α} (h : FailsToGrow list call) :
    kind.add list call = some list := by
  cases kind with
  | astNode => exact absurd rfl hkind
  | _ => exact addChecked_of_failsToGrow h

/-- An array whose count is reached by doubling is full. -/
theorem ArrayOf.full {initial k : Nat} {list : GrowableArray α} {items : List α}
    (h : ArrayOf initial list items) (hcount : list.count = initial * 2 ^ k) :
    list.count ≥ list.capacity := by
  obtain ⟨j, hj, hcap⟩ := h.doubled
  have hjk : j ≤ k := by
    rcases hcap with rfl | hlt
    · exact Nat.zero_le k
    · have hpow : initial * 2 ^ j < initial * 2 ^ (k + 1) := by
        rw [← hj, Nat.pow_succ, ← Nat.mul_assoc, ← hcount]
        omega
      exact Nat.lt_succ_iff.mp
        ((Nat.pow_lt_pow_iff_right (by decide)).mp (Nat.lt_of_mul_lt_mul_left hpow))
  rw [hj, hcount]
  exact Nat.mul_le_mul_left initial (Nat.pow_le_pow_right (by decide) hjk)

/-- The children are full only where their number is 5, 10, 20, ... -/
theorem not_failsToGrow_of_neverRefused {calls : List (AddCall α)} {call : AddCall α}
    {list : GrowableArray α} (hnever : NeverRefused (calls ++ [call]))
    (h : ArrayOf 5 list (calls.filterMap AddCall.item)) : ¬ FailsToGrow list call := by
  rintro ⟨hitem, hfull, hrefused⟩
  obtain ⟨k, hk, -⟩ := h.doubled
  have hcount : itemCount calls = 5 * 2 ^ k := by
    have hle := h.count_le
    rw [itemCount, ← h.count_eq, ← hk]
    omega
  have hok := hnever calls call (List.prefix_refl _) hitem ⟨k, hcount⟩
  rw [hok] at hrefused
  cases hrefused

theorem NeverRefused.mono {before calls : List (AddCall α)} (h : NeverRefused calls)
    (hpre : before <+: calls) : NeverRefused before :=
  fun before' call hcall => h before' call (hcall.trans hpre)

/-- The array behind the calls of a run in which no doubling of the children is refused. -/
theorem Container.run_arrayOf (kind : Container) {calls : List (AddCall α)}
    (hlen : calls.length ≤ 2 ^ 31) (hnever : kind = .astNode → NeverRefused calls) :
    ∃ list items, kind.run calls = some list ∧ ArrayOf kind.initial list items ∧
      items.length ≤ calls.length ∧
      (kind = .astNode → items = calls.filterMap AddCall.item) := by
  induction calls using List.reverseRecOn with
  | nil => exact ⟨kind.create, [], rfl, kind.create_arrayOf, Nat.le_refl 0, fun _ => rfl⟩
  | append_singleton calls call ih =>
    rw [List.length_append, List.length_singleton] at hlen
    obtain ⟨list, items, hrun, hrep, hitems, hast⟩ := ih (by omega)
      fun hkind => (hnever hkind).mono (List.prefix_append _ _)
    rw [kind.run_concat, hrun, Option.bind_some, List.length_append, List.length_singleton,
      List.filterMap_append]
    by_cases hgrow : FailsToGrow list call
    · have hkind : kind ≠ .astNode := by
        rintro rfl
        rw [hast rfl] at hrep
        exact not_failsToGrow_of_neverRefused (hnever rfl) hrep hgrow
      exact ⟨list, items, Container.add_of_failsToGrow hkind hgrow, hrep, by omega,
        fun h => absurd h hkind⟩
    · have hsmall : list.count < 2 ^ 31 := by
        rw [hrep.count_eq]
        omega
      obtain ⟨list', hadd, hrep'⟩ :=
        addChecked_of_not_failsToGrow hrep kind.initial_pos hsmall hgrow
      refine ⟨list', _, by rw [kind.add_of_not_failsToGrow hgrow, hadd], hrep', ?_, fun hkind => ?_⟩
      · have hitem : call.item.toList.length ≤ 1 := by cases call.item <;> simp
        rw [List.length_append]
        omega
      · rw [hast hkind]
        cases hitem : call.item <;> simp [hitem]

theorem RunConsistent.of_concat {kind : Container} {calls : List (AddCall α)} {call : AddCall α}
    (h : RunConsistent kind (calls ++ [call])) : RunConsistent kind calls where
  allocated := by
    intro hnone
    apply h.allocated
    rw [kind.run_concat, hnone, Option.bind_none]
  bounds before list hpre := h.bounds before list (hpre.trans (List.prefix_append _ _))
  unchanged before call' list hpre := h.unchanged before call' list
    (hpre.trans (List.prefix_append _ _))

theorem runConsistent_of_neverRefused (kind : Container) {calls : List (AddCall α)}
    (hlen : calls.length ≤ 2 ^ 31) (hnever : kind = .astNode → NeverRefused calls) :
    RunConsistent kind calls := by
  have hreach : ∀ before list, before <+: calls → kind.run before = some list →
      ∃ items, ArrayOf kind.initial list items ∧
        (kind = .astNode → items = before.filterMap AddCall.item) := by
    intro before list hpre hrun
    obtain ⟨list', items, hrun', hrep, -, hast⟩ := kind.run_arrayOf
      (Nat.le_trans hpre.length_le hlen) fun hkind => (hnever hkind).mono hpre
    cases hrun.symm.trans hrun'
    exact ⟨items, hrep, hast⟩
  constructor
  case allocated =>
    obtain ⟨list, -, hrun, -⟩ := kind.run_arrayOf hlen hnever
    rw [hrun]
    exact Option.some_ne_none list
  case bounds =>
    intro before list hpre hrun
    obtain ⟨items, hrep, -⟩ := hreach before list hpre hrun
    exact ⟨hrep.count_le, hrep.capacity_le⟩
  case unchanged =>
    intro before call list hpre hrun hgrow
    obtain ⟨items, hrep, hast⟩ := hreach before list ((List.prefix_append _ _).trans hpre) hrun
    apply Container.add_of_failsToGrow _ hgrow
    rintro rfl
    rw [hast rfl] at hrep
    exact not_failsToGrow_of_neverRefused ((hnever rfl).mono hpre) hrep hgrow

/-- A refused doubling of the children leaves a capacity that is not theirs. -/
theorem neverRefused_of_runConsistent {calls : List (AddCall α)} (hlen : calls.length ≤ 2 ^ 31)
    (h : RunConsistent .astNode calls) : NeverRefused calls := by
  induction calls using List.reverseRecOn with
  | nil =>
    intro before call hpre
    cases List.append_eq_nil_iff.mp (List.prefix_nil.mp hpre) |>.2
  | append_singleton calls call ih =>
    rw [List.length_append, List.length_singleton] at hlen
    have hnever := ih (by omega) h.of_concat
    obtain ⟨list, items, hrun, hrep, hitems, hast⟩ :=
      Container.run_arrayOf .astNode (by omega) fun _ => hnever
    rw [hast rfl] at hrep
    intro before call' hpre hitem hcount
    rcases List.prefix_concat_iff.mp hpre with heq | hpre
    · obtain ⟨rfl, hcall⟩ := List.append_inj' heq rfl
      cases hcall
      by_contra hno
      obtain ⟨k, hk⟩ := hcount
      have hfull := hrep.full (hrep.count_eq.trans hk)
      have hgrow : FailsToGrow list call := ⟨hitem, hfull, by simpa using hno⟩
      have hsame := h.unchanged before call list hpre hrun hgrow
      have hcapacity := hrep.capacity_pos (by decide)
      have hle : list.count ≤ before.length := by
        rw [hrep.count_eq]
        exact List.length_filterMap_le _ _
      have huint : uint (list.capacity * 2) = list.capacity * 2 := Nat.mod_eq_of_lt (by omega)
      rw [Container.add, astNodeAddChild_of_failsToGrow hgrow, huint] at hsame
      have := congrArg GrowableArray.capacity (Option.some.inj hsame)
      simp only at this
      omega
    · exact hnever before call' hpre hitem hcount

/-- **Growable arrays.** The arrays of the four containers stay consistent in every run of at most
2^31 calls, except that the children of a node do so exactly when no call that has to double them is
refused. -/
theorem runConsistent_iff (kind : Container) (calls : List (AddCall α))
    (hlen : calls.length ≤ 2 ^ 31) :
    RunConsistent kind calls ↔ (kind = .astNode → NeverRefused calls) := by
  constructor
  · rintro h rfl
    exact neverRefused_of_runConsistent hlen h
  · exact runConsistent_of_neverRefused kind hlen

/-- Seven children, the doubling for the sixth refused. -/
def sevenChildren : List (AddCall Nat) :=
  (List.range 7).map fun child => { item := some child, reallocOk := child != 5 }

theorem runConsistent_iff_sevenChildren :
    RunConsistent .astNode sevenChildren ↔
      (Container.astNode = .astNode → NeverRefused sevenChildren) :=
  runConsistent_iff .astNode sevenChildren (by decide)

/-- The seventh child is written behind the five slots. -/
theorem runConsistent_fails :
    ¬ ∀ (kind : Container) (calls : List (AddCall Nat)), calls.length ≤ 2 ^ 31 →
      RunConsistent kind calls := by
  intro h
  have hrun : Container.astNode.run sevenChildren = none := by decide
  exact (h .astNode sevenChildren (by decide)).allocated hrun

end CPug
