import Mathlib.Logic.Relation
import CPug.Outline.Linked
import CPug.Control

/-!
# The shape of the tree under construction

Whatever tokens `parse_node` rejects on the way, at the top of every round the cells form a tree
that was made in pre-order, one cell for each node that `parse_node` has returned
(`parsePug_treeShape`). The invariant has three parts: the cells are
`Linked` and every one is deeper than its parent, the root apart (`Linked.walkUp`); `current_parent`
is the last node or its parent, since linking a node sets it to one of the two; and the memory is
the one of a state of the spine machine (`Represents`), of which the order is known. On the tokens
of a file the nodes are made in the order of their lines (`parsePugStates_lines`).
-/

namespace CPug

open Outline

/-- The cells form one tree in pre-order, and `current` is on its last path. -/
structure TreeShape (cells : List (Cell ASTNode)) (current : Nat) : Prop where
  root : ∃ children, cells[0]? = some ⟨rootLabel, none, children⟩
  parent : ∀ i, 0 < i → i < cells.length → ∃ p cell, ParentOf cells i p ∧ cells[p]? = some cell ∧
    cell.children.count i = 1
  listed : ∀ p cell i, cells[p]? = some cell → i ∈ cell.children → ParentOf cells i p
  order : preorder cells cells.length [0] = List.range cells.length
  deeper : ∀ i p, ParentOf cells i p → p ≠ 0 →
    cellDepth ASTNode.depth cells p < cellDepth ASTNode.depth cells i
  current : Relation.ReflTransGen (ParentOf cells) (cells.length - 1) current

/-! ## The invariant -/

/-- What a round keeps. -/
structure Shaped (ctx : ParserContext) : Prop where
  linked : Linked rootLabel ctx.memory
  deeper : ∀ i p, ParentOf ctx.memory i p → p ≠ 0 →
    cellDepth ASTNode.depth ctx.memory p < cellDepth ASTNode.depth ctx.memory i
  current : ctx.currentParent = ctx.memory.length - 1 ∨
    ParentOf ctx.memory (ctx.memory.length - 1) ctx.currentParent
  machine : ∃ S, Represents ctx S

theorem shaped_start (tokens : List Token) : Shaped (parsePugStart tokens) := by
  refine ⟨linked_root rootLabel, ?_, Or.inl rfl, _, represents_start tokens⟩
  rintro i p ⟨cell, hcell, hp⟩
  have hroot : (parsePugStart tokens).memory = [⟨rootLabel, none, []⟩] := rfl
  rw [hroot] at hcell
  cases i with
  | zero =>
    cases hcell
    cases hp
  | succ i => simp at hcell

theorem Shaped.advance {ctx : ParserContext} (h : Shaped ctx) (n : Nat) :
    Shaped (parserAdvanceToken ctx n) := by
  obtain ⟨S, hS⟩ := h.machine
  exact ⟨h.linked, h.deeper, h.current, S, hS.advance n⟩

theorem Shaped.currentParent_lt {ctx : ParserContext} (h : Shaped ctx) :
    ctx.currentParent < ctx.memory.length := by
  have hpos := h.linked.length_pos
  rcases h.current with hc | hc
  · omega
  · have := h.linked.lt_of_parentOf hc
    omega

/-- Linking a node keeps the invariant. -/
theorem Shaped.addNode {ctx : ParserContext} (h : Shaped ctx) (node : ASTNode) :
    Shaped (addNode ctx node) := by
  have hpos := h.linked.length_pos
  obtain ⟨S, hS⟩ := h.machine
  have hwalk := @Linked.walkUp ASTNode ASTNode.depth _ _ h.linked node.depth _ h.currentParent_lt
  obtain ⟨hle, hend⟩ := hwalk
  have hmachine := hS.addNode node
  have hcurrent := h.currentParent_lt
  revert hmachine
  unfold CPug.addNode
  generalize (parserGetCurrentToken ctx).any (fun next => decide (node.depth < next.depth)) = deeper
  generalize walkUp ASTNode.depth ctx.memory node.depth ctx.currentParent = p at hle hend
  intro hmachine
  have hp : p < ctx.memory.length := by omega
  refine ⟨h.linked.addChild hp, fun i q hi hq => ?_, ?_, _, hmachine⟩
  · obtain ⟨cell, hcell, -⟩ := id hi
    have hlen := (List.getElem?_eq_some_iff.mp hcell).1
    rw [length_addChild] at hlen
    rcases Nat.lt_succ_iff_lt_or_eq.mp hlen with hlt | rfl
    · have hi := (parentOf_addChild_lt p node hlt).mp hi
      have hqi := h.linked.lt_of_parentOf hi
      rw [cellDepth_addChild_lt p node hlt, cellDepth_addChild_lt p node (by omega)]
      exact h.deeper i q hi hq
    · have hqp : q = p := (parentOf_addChild_length p node).mp hi
      subst hqp
      rw [cellDepth_addChild_length, cellDepth_addChild_lt q node hp]
      exact hend.resolve_left hq
  · show (if deeper then ctx.memory.length else p) = _ ∨ ParentOf _ _ (if deeper then _ else p)
    rw [length_addChild, Nat.add_sub_cancel]
    cases deeper with
    | true => exact Or.inl rfl
    | false => exact Or.inr ((parentOf_addChild_length p node).mpr rfl)

theorem Shaped.round {ctx ctx' : ParserContext} (h : Shaped ctx)
    (hround : parsePugRound ctx = .next ctx') : Shaped ctx' := by
  rcases parsePugRound_next_cases hround with ⟨node, advanced, -, rfl⟩ | ⟨advanced, _, -, -, -, rfl⟩
  · exact (h.advance advanced).addNode node
  · exact h.advance (advanced + 1)

theorem Shaped.treeShape {ctx : ParserContext} (h : Shaped ctx) :
    TreeShape ctx.memory ctx.currentParent where
  root := h.linked.root
  parent i hpos hi := by
    obtain ⟨p, hp⟩ := h.linked.exists_parentOf hpos hi
    have hlt := h.linked.lt_of_parentOf hp
    have hcell : ctx.memory[p]? = some ctx.memory[p] := List.getElem?_eq_getElem (by omega)
    exact ⟨p, _, hp, hcell, h.linked.count_children hcell hp⟩
  listed p cell i hcell hi := h.linked.parentOf_of_mem hcell hi
  order := by
    obtain ⟨S, hS⟩ := h.machine
    rw [hS.memory]
    exact S.preorder_cells rootLabel
  deeper := h.deeper
  current := by
    rcases h.current with hc | hc
    · rw [hc]
    · exact .single hc

/-- The context a run returns is that of its last round, moved to the EOF token. -/
theorem parsePugLoop_last {ctx out : ParserContext} (h : parsePugLoop ctx = some out) :
    ∃ s ∈ parsePugStates ctx, ∃ n, out = parserAdvanceToken s n := by
  induction ctx using parsePug_induction with
  | step ctx ih =>
    cases hround : parsePugRound ctx with
    | hangs =>
      rw [parsePugLoop_hangs hround] at h
      cases h
    | done last =>
      rw [parsePugLoop_done hround] at h
      cases h
      obtain ⟨advanced, -, -, -, -, hlast⟩ := parsePugRound_done_cases hround
      exact ⟨ctx, mem_parsePugStates_self ctx, advanced, hlast⟩
    | next ctx' =>
      rw [parsePugLoop_next hround] at h
      obtain ⟨s, hs, n, hout⟩ := ih ctx' hround h
      exact ⟨s, by rw [parsePugStates_next hround]; exact List.mem_cons_of_mem _ hs, n, hout⟩

theorem shaped_of_mem (tokens : List Token) :
    ∀ s ∈ parsePugStates (parsePugStart tokens), Shaped s :=
  parsePugStates_invariant (fun _ _ h hround => h.round hround) (shaped_start tokens)

/-! ## Lines -/

/-- The line of the node of a cell. -/
def lineOf (cells : List (Cell ASTNode)) (i : Nat) : Nat :=
  (cells[i]?.map fun cell => cell.label.line).getD 0

theorem map_lineOf_range (cells : List (Cell ASTNode)) :
    (List.range cells.length).map (lineOf cells) =
      (cells.map Cell.label).map ASTNode.line := by
  rw [List.map_map]
  apply List.ext_getElem
  · simp
  · intro i h h'
    have hi : i < cells.length := by simpa using h'
    simp [lineOf, List.getElem?_eq_getElem hi]

/-- The lines of the nodes made so far are in order, and no token to come is on a line before. -/
structure LinesInOrder (ctx : ParserContext) : Prop where
  rest : ctx.rest.Pairwise fun a b => a.line ≤ b.line
  made : ((ctx.memory.map Cell.label).map ASTNode.line).Pairwise (· ≤ ·)
  before : ∀ line ∈ (ctx.memory.map Cell.label).map ASTNode.line, ∀ t ∈ ctx.rest, line ≤ t.line

theorem LinesInOrder.advance {ctx : ParserContext} (h : LinesInOrder ctx) (n : Nat) :
    LinesInOrder (parserAdvanceToken ctx n) := by
  refine ⟨?_, h.made, fun line hline t ht => ?_⟩
  · rw [rest_advance]
    exact h.rest.sublist (List.drop_sublist _ _)
  · rw [rest_advance] at ht
    exact h.before line hline t (List.mem_of_mem_drop ht)

theorem LinesInOrder.round {ctx ctx' : ParserContext} (h : LinesInOrder ctx)
    (hround : parsePugRound ctx = .next ctx') : LinesInOrder ctx' := by
  rcases parsePugRound_next_cases hround with ⟨node, advanced, hnode, rfl⟩ |
      ⟨advanced, _, -, -, -, rfl⟩
  · have hadvance := h.advance advanced
    rcases parseNodeFrom_cases ctx.rest with ⟨hn, -⟩ | ⟨_, _, -, -, -, hn⟩ | ⟨hn, -⟩ |
        ⟨token, more, hrest, hs, hn⟩
    · cases hnode.symm.trans hn
    · cases hnode.symm.trans hn
    · cases hnode.symm.trans hn
    · cases hnode.symm.trans hn
      have hline : ((group token more).foldl absorbToken (startNode token)).line = token.line := by
        rw [(foldl_absorbToken_sameHead _ _).line, (startNode_head hs).2.1]
      have htoken : token ∈ ctx.rest := by
        rw [hrest]
        exact List.mem_cons_self
      refine ⟨hadvance.rest, ?_, fun line hmem t ht => ?_⟩
      · rw [labels_addNode, List.map_append, List.pairwise_append]
        refine ⟨h.made, List.pairwise_singleton _ _, fun a ha b hb => ?_⟩
        rw [List.map_singleton, List.mem_singleton] at hb
        rw [hb, hline]
        exact h.before a ha token htoken
      · rw [labels_addNode, List.map_append] at hmem
        rcases List.mem_append.mp hmem with hmem | hmem
        · exact hadvance.before line hmem t ht
        · rw [List.map_singleton, List.mem_singleton] at hmem
          have hmore : t ∈ more := by
            rw [rest_addNode, rest_advance, hrest, Nat.add_comm, List.drop_succ_cons] at ht
            exact List.mem_of_mem_drop ht
          have horder := h.rest
          rw [hrest, List.pairwise_cons] at horder
          rw [hmem, hline]
          exact horder.1 t hmore
  · exact h.advance (advanced + 1)

/-- The tokens of lines are in the order of the lines. -/
theorem tokenizeLines_inOrder (n : Nat) (lines : List CString) :
    (tokenizeLines n lines).Pairwise fun a b => a.line ≤ b.line := by
  induction lines generalizing n with
  | nil => exact List.Pairwise.nil
  | cons line lines ih =>
    unfold tokenizeLines
    rw [List.pairwise_append]
    refine ⟨?_, ih (n + 1), fun a ha b hb => ?_⟩
    · apply List.pairwise_of_forall_mem_list
      intro a ha b hb
      rw [(tokenizeLine_lineToken line n a ha).line, (tokenizeLine_lineToken line n b hb).line]
    · obtain ⟨_, -, k, hk, -, hb⟩ := mem_tokenizeLines hb
      rw [(tokenizeLine_lineToken line n a ha).line, hb.line]
      omega

theorem tokenizeFile_inOrder (content : CString) :
    (tokenizeFile content).Pairwise fun a b => a.line ≤ b.line := by
  rw [tokenizeFile_eq, List.pairwise_append]
  refine ⟨tokenizeLines_inOrder 1 _, List.pairwise_singleton _ _, fun a ha b hb => ?_⟩
  obtain ⟨_, -, k, -, hk, ha⟩ := mem_tokenizeLines ha
  have heof : b.line = (gStrsplit content '\n').length + 1 := by
    rw [List.mem_singleton.mp hb]
    rfl
  rw [ha.line, heof]
  omega

theorem parsePugStates_lines (content : CString) :
    ∀ s ∈ parsePugStates (parsePugStart (tokenizeFile content)), LinesInOrder s := by
  apply @parsePugStates_invariant LinesInOrder fun _ _ h hround => h.round hround
  have hmade : ((parsePugStart (tokenizeFile content)).memory.map Cell.label).map ASTNode.line =
      [0] := rfl
  refine ⟨?_, ?_, fun line hline t _ => ?_⟩
  · exact (tokenizeFile_inOrder content).sublist (List.drop_sublist _ _)
  · rw [hmade]
    exact List.pairwise_singleton _ _
  · rw [hmade, List.mem_singleton] at hline
    rw [hline]
    exact Nat.zero_le _

/-- **The shape of the tree.** On every token list, at the top of every round and at the end, the
cells are those of the root and of the nodes that `parse_node` has returned so far. They form one tree
in pre-order below the root, each listed once, by its parent, each deeper than its parent unless that
is the root, and `current_parent` is the last node or an ancestor of it. On the tokens of a file the
traversal meets the nodes in the order of their lines. -/
theorem parsePug_treeShape :
    (∀ tokens i s, (parsePugStates (parsePugStart tokens))[i]? = some s →
      TreeShape s.memory s.currentParent ∧
        s.memory.map Cell.label = rootLabel ::
          ((parsePugStates (parsePugStart tokens)).take i).filterMap parsedNode) ∧
    (∀ tokens ctx, parsePug tokens = some ctx →
      TreeShape ctx.memory ctx.currentParent ∧
        ctx.memory.map Cell.label = rootLabel ::
          (parsePugStates (parsePugStart tokens)).filterMap parsedNode) ∧
    ∀ content, ∀ s ∈ parsePugStates (parsePugStart (tokenizeFile content)),
      ((preorder s.memory s.memory.length [0]).map (lineOf s.memory)).Pairwise (· ≤ ·) := by
  refine ⟨fun tokens i s hs => ⟨?_, labels_of_getElem? hs⟩,
    fun tokens ctx hctx => ⟨?_, parsePugLoop_labels hctx⟩, fun content s hs => ?_⟩
  · exact (shaped_of_mem tokens s (List.mem_of_getElem? hs)).treeShape
  · obtain ⟨s, hs, n, rfl⟩ := parsePugLoop_last hctx
    exact ((shaped_of_mem tokens s hs).advance n).treeShape
  · rw [(shaped_of_mem _ s hs).treeShape.order, map_lineOf_range]
    exact (parsePugStates_lines content s hs).made

end CPug
