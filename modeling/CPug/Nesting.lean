import CPug.Outline.NearestSmaller
import CPug.ParserRun

/-!
# Nesting follows indentation

When `parse_node` rejects no token, the tree that `parse_pug` builds is the indentation outline:
every node hangs below the last node before it that is shallower, or below the artificial root
(`parsePug_nested`). The invariant of the loop (`OnOutline`) is about the token to come: walking up
from `current_parent`, as the next round will, finds the last node that is shallower than it.
-/

namespace CPug

open Outline

/-- `parse_node` returned a node. -/
def NodeResult.isNode : NodeResult → Bool
  | .node _ _ => true
  | _ => false

/-- At the top of every round that does not stand on EOF, `parse_node` returns a node. -/
def NeverRejects (tokens : List Token) : Prop :=
  ∀ ctx ∈ parsePugStates (parsePugStart tokens),
    (∀ token ∈ parserGetCurrentToken ctx, token.type ≠ .tokenEof) → (parseNode ctx).isNode = true

instance (tokens : List Token) : Decidable (NeverRejects tokens) := by
  unfold NeverRejects
  infer_instance

/-- The cells are nested, and the walk of the next round ends at the nearest shallower one. -/
structure OnOutline (ctx : ParserContext) : Prop where
  nested : Nested ASTNode.depth rootLabel ctx.memory
  walk : ∀ token ∈ parserGetCurrentToken ctx,
    IsNearestSmaller (cellDepth ASTNode.depth ctx.memory) token.depth (ctx.memory.length - 1)
      (walkUp ASTNode.depth ctx.memory token.depth ctx.currentParent)

theorem onOutline_start (tokens : List Token) : OnOutline (parsePugStart tokens) := by
  have hnested : Nested ASTNode.depth rootLabel (parsePugStart tokens).memory := nested_root _ _
  exact ⟨hnested, fun token _ => hnested.walkUp token.depth (Nat.zero_lt_succ 0)⟩

/-- A node has the depth of the token it starts with. -/
theorem parseNode_depth {ctx : ParserContext} {node : ASTNode} {advanced : Nat}
    (h : parseNode ctx = .node node advanced) :
    ∃ token, parserGetCurrentToken ctx = some token ∧ node.depth = token.depth := by
  rw [parserGetCurrentToken_eq_head]
  rcases parseNodeFrom_cases ctx.rest with ⟨hn, -⟩ | ⟨_, _, -, -, -, hn⟩ | ⟨hn, -⟩ |
      ⟨token, more, hrest, hs, hn⟩
  · cases h.symm.trans hn
  · cases h.symm.trans hn
  · cases h.symm.trans hn
  · cases h.symm.trans hn
    refine ⟨token, by rw [hrest]; rfl, ?_⟩
    rw [(foldl_absorbToken_sameHead _ _).depth, (startNode_head hs).1]

/-- The step: linking a node keeps the invariant. -/
theorem OnOutline.addNode {ctx : ParserContext} (h : OnOutline ctx) {node : ASTNode}
    {advanced : Nat} (hnode : parseNode ctx = .node node advanced) :
    OnOutline (addNode (parserAdvanceToken ctx advanced) node) := by
  obtain ⟨token, htoken, hdepth⟩ := parseNode_depth hnode
  have hwalk := h.walk token htoken
  rw [← hdepth] at hwalk
  have hpos := h.nested.length_pos
  set parent := walkUp ASTNode.depth ctx.memory node.depth ctx.currentParent with hparent
  have hnested : Nested ASTNode.depth rootLabel (addChild ctx.memory parent node) :=
    h.nested.addChild hwalk
  refine ⟨hnested, fun next hnext => ?_⟩
  have hcurrent : parserGetCurrentToken (parserAdvanceToken ctx advanced) = some next := hnext
  simp only [CPug.addNode, hcurrent, Option.any_some, memory_advance, currentParent_advance,
    length_addChild, Nat.add_sub_cancel, ← hparent]
  by_cases hdeeper : node.depth < next.depth
  · simp only [hdeeper, decide_true, if_true]
    exact hnested.walkUp next.depth (by simp)
  · simp only [hdeeper, decide_false, Bool.false_eq_true, if_false]
    have hle := hwalk.le
    have hold : IsNearestSmaller (cellDepth ASTNode.depth (addChild ctx.memory parent node))
        node.depth (ctx.memory.length - 1) parent :=
      hwalk.congr fun j hj => cellDepth_addChild_lt parent node (by omega)
    refine hold.trans (Nat.le_of_not_lt hdeeper) (Nat.sub_le _ _) (fun j hj hj' => ?_)
      (hnested.walkUp next.depth (by simp; omega))
    -- The only number left is that of the node just linked.
    have hj : j = ctx.memory.length := by omega
    rw [hj, cellDepth_addChild_length]
    omega

/-- The run: from a context on the outline the loop returns one. -/
theorem parsePugLoop_nested (ctx : ParserContext) (h : OnOutline ctx) (heof : EndsInEof ctx.rest)
    (hnodes : ∀ s ∈ parsePugStates ctx,
      (∀ token ∈ parserGetCurrentToken s, token.type ≠ .tokenEof) → (parseNode s).isNode = true) :
    ∃ out, parsePugLoop ctx = some out ∧ OnOutline out := by
  induction ctx using parsePug_induction with
  | step ctx ih =>
    rcases parseNodeFrom_cases ctx.rest with ⟨hn, hend⟩ | ⟨token, more, hrest, -, hne, hn⟩ |
        ⟨hn, -⟩ | ⟨token, more, hrest, hs, hn⟩
    · obtain ⟨token, more, hrest⟩ := List.exists_cons_of_ne_nil heof.ne_nil
      have hcurrent : parserGetCurrentToken ctx = some token := by
        rw [parserGetCurrentToken_eq_head, hrest]
        rfl
      have htype : token.type = .tokenEof := hend token (by rw [hrest]; rfl)
      have hround : parsePugRound ctx = .done ctx := parsePugRound_done hn hcurrent htype
      exact ⟨ctx, parsePugLoop_done hround, h⟩
    · have hnode := hnodes ctx (mem_parsePugStates_self ctx) fun t ht => by
        rw [parserGetCurrentToken_eq_head, hrest] at ht
        cases ht
        exact hne
      rw [parseNode, hn] at hnode
      cases hnode
    · have hnode := hnodes ctx (mem_parsePugStates_self ctx) fun t ht he => by
        rw [parserGetCurrentToken_eq_head] at ht
        obtain ⟨more, hrest⟩ := List.head?_eq_some_iff.mp ht
        rw [hrest, parseNodeFrom_eof more he] at hn
        cases hn
      rw [parseNode, hn] at hnode
      cases hnode
    · have hround := parsePugRound_node hn
      have hstates := parsePugStates_next hround
      rw [hrest] at heof
      have hrest' : EndsInEof (addNode (parserAdvanceToken ctx (1 + (group token more).length))
          ((group token more).foldl absorbToken (startNode token))).rest := by
        rw [rest_addNode, rest_advance, hrest]
        exact heof.after_group hs
      obtain ⟨out, hout, hon⟩ := ih _ hround (h.addNode hn) hrest' fun s hmem =>
        hnodes s (by rw [hstates]; exact List.mem_cons_of_mem _ hmem)
      exact ⟨out, by rw [parsePugLoop_next hround, hout], hon⟩

/-- **Nesting.** On a token list that ends in EOF and of which `parse_node` rejects no token,
`parse_pug` returns a tree of the nodes that `parse_node` has returned, in the order of creation below
the artificial root. Every one of them hangs below the last node created before it that is shallower,
or below the artificial root, and siblings stand in the order of creation. -/
theorem parsePug_nested {tokens : List Token} (heof : EndsInEof tokens)
    (hnodes : NeverRejects tokens) :
    ∃ ctx, parsePug tokens = some ctx ∧
      ctx.memory.map Cell.label =
        rootLabel :: (parsePugStates (parsePugStart tokens)).filterMap parsedNode ∧
      (rootNode ctx).labels = ctx.memory.map Cell.label ∧
      Nested ASTNode.depth rootLabel ctx.memory := by
  obtain ⟨ctx, hctx, hon⟩ :=
    parsePugLoop_nested (parsePugStart tokens) (onOutline_start tokens) heof hnodes
  have hlabels : ctx.memory.map Cell.label =
      rootLabel :: (parsePugStates (parsePugStart tokens)).filterMap parsedNode :=
    parsePugLoop_labels hctx
  exact ⟨ctx, hctx, hlabels, by rw [labels_rootNode hctx, hlabels], hon.nested⟩

theorem parsePug_nested_list :
    ∃ ctx, parsePug (tokenizeFile "ul\n    li\n  p".toList) = some ctx ∧
      ctx.memory.map Cell.label = rootLabel ::
        (parsePugStates (parsePugStart (tokenizeFile "ul\n    li\n  p".toList))).filterMap
          parsedNode ∧
      (rootNode ctx).labels = ctx.memory.map Cell.label ∧
      Nested ASTNode.depth rootLabel ctx.memory :=
  parsePug_nested ⟨createToken .tokenEof none 0 4 0, by decide +kernel, rfl⟩ (by decide +kernel)

end CPug
