import CPug.Outline.Linked
import CPug.Parser

/-!
# Runs of the parser

`parsePugLoop` is the loop of `parse_pug`, `parsePugStates` the contexts at the top of its rounds.
Memory holds the root and the nodes that `parse_node` has returned (`labels_of_getElem?`).
The rest of the module separates the two things a run does. `parseEntries` is the control: the
nodes that `parse_node` returns, each with the answer of the look-ahead. The memory then follows
from the entries alone: `parsePug_spec` says that the loop returns exactly when the control does,
that the memory it leaves is the one of the spine machine run over the entries, and that it stands
on an EOF token.
-/

namespace CPug

open Outline

/-! ## Progress -/

/-- Everything a round that goes on can do. -/
theorem parsePugRound_next_cases {ctx ctx' : ParserContext} (h : parsePugRound ctx = .next ctx') :
    (∃ node advanced, parseNode ctx = .node node advanced ∧
      ctx' = addNode (parserAdvanceToken ctx advanced) node) ∨
    ∃ advanced token, parseNode ctx = .null advanced ∧
      parserGetCurrentToken (parserAdvanceToken ctx advanced) = some token ∧
      token.type ≠ .tokenEof ∧ ctx' = parserAdvanceToken ctx (advanced + 1) := by
  unfold parsePugRound at h
  split at h
  · cases h
  · rename_i node advanced hn
    cases h
    exact Or.inl ⟨node, advanced, hn, rfl⟩
  · rename_i advanced hn
    dsimp only at h
    split at h
    · rename_i token ht
      split at h
      · cases h
      · rename_i hne
        cases h
        exact Or.inr ⟨advanced, token, hn, ht, hne, by
          simp [parserAdvanceToken, Nat.add_assoc]⟩
    · cases h

/-- The loop ends when `parse_node` has returned `NULL` and the context stands on EOF. -/
theorem parsePugRound_done_cases {ctx out : ParserContext} (h : parsePugRound ctx = .done out) :
    ∃ advanced token, parseNode ctx = .null advanced ∧
      parserGetCurrentToken (parserAdvanceToken ctx advanced) = some token ∧
      token.type = .tokenEof ∧ out = parserAdvanceToken ctx advanced := by
  unfold parsePugRound at h
  split at h
  · cases h
  · cases h
  · rename_i advanced hn
    dsimp only at h
    split at h
    · rename_i token ht
      split at h
      · rename_i heof
        cases h
        exact ⟨advanced, token, hn, ht, heof, rfl⟩
      · cases h
    · cases h

theorem parserGetCurrentToken_eq_head (ctx : ParserContext) :
    parserGetCurrentToken ctx = ctx.rest.head? := by
  rw [parserGetCurrentToken, ParserContext.rest, List.head?_drop]

@[simp] theorem rest_advance (ctx : ParserContext) (n : Nat) :
    (parserAdvanceToken ctx n).rest = ctx.rest.drop n := by
  simp [parserAdvanceToken, ParserContext.rest]

@[simp] theorem memory_advance (ctx : ParserContext) (n : Nat) :
    (parserAdvanceToken ctx n).memory = ctx.memory := rfl

@[simp] theorem currentParent_advance (ctx : ParserContext) (n : Nat) :
    (parserAdvanceToken ctx n).currentParent = ctx.currentParent := rfl

@[simp] theorem currentToken_advance (ctx : ParserContext) (n : Nat) :
    (parserAdvanceToken ctx n).currentToken = ctx.currentToken + n := rfl

@[simp] theorem currentToken_addNode (ctx : ParserContext) (node : ASTNode) :
    (addNode ctx node).currentToken = ctx.currentToken := rfl

@[simp] theorem rest_addNode (ctx : ParserContext) (node : ASTNode) :
    (addNode ctx node).rest = ctx.rest := rfl

/-- A node takes at least one token, and no more than there are. -/
theorem parseNodeFrom_advanced {rest : List Token} {node : ASTNode} {advanced : Nat}
    (h : parseNodeFrom rest = .node node advanced) : 0 < advanced ∧ advanced ≤ rest.length := by
  rcases parseNodeFrom_cases rest with ⟨hn, -⟩ | ⟨_, _, -, -, -, hn⟩ | ⟨hn, -⟩ |
      ⟨token, more, rfl, -, hn⟩
  · rw [hn] at h
    cases h
  · rw [hn] at h
    cases h
  · rw [hn] at h
    cases h
  · rw [hn] at h
    cases h
    have := length_group_le token more
    simp only [List.length_cons]
    omega

/-- A round that goes on consumes tokens. -/
theorem parsePugRound_progress {ctx ctx' : ParserContext} (h : parsePugRound ctx = .next ctx') :
    ctx'.tokens = ctx.tokens ∧ ctx.currentToken < ctx'.currentToken ∧
      ctx'.currentToken ≤ ctx.tokens.length := by
  have hlen : ctx.rest.length = ctx.tokens.length - ctx.currentToken := List.length_drop
  rcases parsePugRound_next_cases h with ⟨node, advanced, hn, rfl⟩ | ⟨advanced, token, -, ht, -, rfl⟩
  · have := parseNodeFrom_advanced hn
    refine ⟨rfl, ?_, ?_⟩
    · rw [currentToken_addNode, currentToken_advance]
      omega
    · rw [currentToken_addNode, currentToken_advance]
      omega
  · have hlt : ctx.currentToken + advanced < ctx.tokens.length :=
      (List.getElem?_eq_some_iff.mp ht).1
    refine ⟨rfl, ?_, ?_⟩
    · rw [currentToken_advance]
      omega
    · rw [currentToken_advance]
      omega

/-! ## The loop -/

/-- The loop of `parse_pug`; `none` when it never ends. -/
def parsePugLoop (ctx : ParserContext) : Option ParserContext :=
  match _h : parsePugRound ctx with
  | .hangs => none
  | .done ctx => some ctx
  | .next ctx => parsePugLoop ctx
termination_by ctx.tokens.length - ctx.currentToken
decreasing_by
  obtain ⟨ht, hlt, hle⟩ := parsePugRound_progress _h
  rw [ht]
  omega

/-- `parse_pug`: the context it leaves, with the tree below cell `0`. -/
def parsePug (tokens : List Token) : Option ParserContext := parsePugLoop (parsePugStart tokens)

/-- The contexts at the top of the rounds of a run, from `ctx` on. -/
def parsePugStates (ctx : ParserContext) : List ParserContext :=
  match _h : parsePugRound ctx with
  | .next next => ctx :: parsePugStates next
  | _ => [ctx]
termination_by ctx.tokens.length - ctx.currentToken
decreasing_by
  obtain ⟨ht, hlt, hle⟩ := parsePugRound_progress _h
  rw [ht]
  omega

/-- The tree below a context's root: `ctx->root_node`. -/
def rootNode (ctx : ParserContext) : Forest ASTNode :=
  extract ctx.memory ctx.memory.length [0]

theorem parsePugLoop_hangs {ctx : ParserContext} (h : parsePugRound ctx = .hangs) :
    parsePugLoop ctx = none := by
  rw [parsePugLoop]
  split <;> simp_all

theorem parsePugLoop_done {ctx ctx' : ParserContext} (h : parsePugRound ctx = .done ctx') :
    parsePugLoop ctx = some ctx' := by
  rw [parsePugLoop]
  split <;> simp_all

theorem parsePugLoop_next {ctx ctx' : ParserContext} (h : parsePugRound ctx = .next ctx') :
    parsePugLoop ctx = parsePugLoop ctx' := by
  rw [parsePugLoop]
  split <;> simp_all

theorem parsePugStates_next {ctx ctx' : ParserContext} (h : parsePugRound ctx = .next ctx') :
    parsePugStates ctx = ctx :: parsePugStates ctx' := by
  rw [parsePugStates]
  split <;> simp_all

theorem parsePugStates_last {ctx : ParserContext} (h : ∀ ctx', parsePugRound ctx ≠ .next ctx') :
    parsePugStates ctx = [ctx] := by
  rw [parsePugStates]
  split <;> simp_all

theorem mem_parsePugStates_self (ctx : ParserContext) : ctx ∈ parsePugStates ctx := by
  rw [parsePugStates]
  split <;> simp

theorem parsePugRound_hangs {ctx : ParserContext} (h : parseNode ctx = .hangs) :
    parsePugRound ctx = .hangs := by
  rw [parsePugRound, h]

theorem parsePugRound_node {ctx : ParserContext} {node : ASTNode} {advanced : Nat}
    (h : parseNode ctx = .node node advanced) :
    parsePugRound ctx = .next (addNode (parserAdvanceToken ctx advanced) node) := by
  rw [parsePugRound, h]

/-- `parse_node` returned `NULL` at the end of the list. -/
theorem parsePugRound_end {ctx : ParserContext} {advanced : Nat}
    (h : parseNode ctx = .null advanced)
    (hcur : parserGetCurrentToken (parserAdvanceToken ctx advanced) = none) :
    parsePugRound ctx = .hangs := by
  simp only [parsePugRound, h, hcur]

/-- `parse_node` returned `NULL` in front of EOF. -/
theorem parsePugRound_done {ctx : ParserContext} {token : Token} {advanced : Nat}
    (h : parseNode ctx = .null advanced)
    (hcur : parserGetCurrentToken (parserAdvanceToken ctx advanced) = some token)
    (ht : token.type = .tokenEof) :
    parsePugRound ctx = .done (parserAdvanceToken ctx advanced) := by
  simp only [parsePugRound, h, hcur, ht, if_true]

/-- `parse_node` returned `NULL` elsewhere: one more token is skipped. -/
theorem parsePugRound_skip {ctx : ParserContext} {token : Token} {advanced : Nat}
    (h : parseNode ctx = .null advanced)
    (hcur : parserGetCurrentToken (parserAdvanceToken ctx advanced) = some token)
    (ht : token.type ≠ .tokenEof) :
    parsePugRound ctx = .next (parserAdvanceToken ctx (advanced + 1)) := by
  simp only [parsePugRound, h, hcur, if_neg ht]
  simp [parserAdvanceToken, Nat.add_assoc]

/-- Induction over the rounds of a run: from a context to the next one. -/
theorem parsePug_induction {motive : ParserContext → Prop}
    (step : ∀ ctx, (∀ ctx', parsePugRound ctx = .next ctx' → motive ctx') → motive ctx)
    (ctx : ParserContext) : motive ctx := by
  induction h : ctx.tokens.length - ctx.currentToken using Nat.strongRecOn generalizing ctx with
  | ind n ih =>
    apply step
    intro ctx' hn
    obtain ⟨ht, hlt, hle⟩ := parsePugRound_progress hn
    exact ih _ (by rw [ht]; omega) ctx' rfl

/-- The invariant rule: what holds at the start and is kept by every round holds at the top of
every round. -/
theorem parsePugStates_invariant {I : ParserContext → Prop}
    (step : ∀ ctx ctx', I ctx → parsePugRound ctx = .next ctx' → I ctx') {ctx : ParserContext}
    (h : I ctx) : ∀ s ∈ parsePugStates ctx, I s := by
  induction ctx using parsePug_induction with
  | step ctx ih =>
    cases hr : parsePugRound ctx with
    | next ctx' =>
      rw [parsePugStates_next hr]
      intro s hs
      rcases List.mem_cons.mp hs with rfl | hs
      · exact h
      · exact ih ctx' hr (step ctx ctx' h hr) s hs
    | hangs =>
      rw [parsePugStates_last (by simp [hr])]
      simpa using h
    | done ctx' =>
      rw [parsePugStates_last (by simp [hr])]
      simpa using h

/-! ## The nodes made -/

/-- The node that `parse_node` returns at the top of a round. -/
def parsedNode (ctx : ParserContext) : Option ASTNode :=
  match parseNode ctx with
  | .node node _ => some node
  | _ => none

theorem parsedNode_of_node {ctx : ParserContext} {node : ASTNode} {advanced : Nat}
    (h : parseNode ctx = .node node advanced) : parsedNode ctx = some node := by
  rw [parsedNode, h]

theorem parsedNode_of_null {ctx : ParserContext} {advanced : Nat}
    (h : parseNode ctx = .null advanced) : parsedNode ctx = none := by
  rw [parsedNode, h]

theorem parsedNode_of_last {ctx : ParserContext} (h : ∀ ctx', parsePugRound ctx ≠ .next ctx') :
    parsedNode ctx = none := by
  cases hn : parseNode ctx with
  | node node advanced => exact absurd (parsePugRound_node hn) (h _)
  | null advanced => exact parsedNode_of_null hn
  | hangs => rw [parsedNode, hn]

theorem labels_addNode (ctx : ParserContext) (node : ASTNode) :
    (addNode ctx node).memory.map Cell.label = ctx.memory.map Cell.label ++ [node] :=
  labels_addChild _ node

/-- The step: a round makes a cell for the node it gets, and no other. -/
theorem labels_round {ctx ctx' : ParserContext} (h : parsePugRound ctx = .next ctx') :
    ctx'.memory.map Cell.label = ctx.memory.map Cell.label ++ (parsedNode ctx).toList := by
  rcases parsePugRound_next_cases h with ⟨node, advanced, hn, rfl⟩ | ⟨advanced, _, hn, -, -, rfl⟩
  · rw [parsedNode_of_node hn, Option.toList_some, labels_addNode, memory_advance]
  · rw [parsedNode_of_null hn, Option.toList_none, List.append_nil, memory_advance]

theorem filterMap_parsedNode_cons (ctx : ParserContext) (states : List ParserContext) :
    (ctx :: states).filterMap parsedNode =
      (parsedNode ctx).toList ++ states.filterMap parsedNode := by
  rw [List.filterMap_cons]
  cases parsedNode ctx <;> rfl

/-- The run: the cells at the top of a round are those of the nodes of the rounds before it. -/
theorem labels_of_getElem? {ctx s : ParserContext} {i : Nat} (h : (parsePugStates ctx)[i]? = some s) :
    s.memory.map Cell.label =
      ctx.memory.map Cell.label ++ ((parsePugStates ctx).take i).filterMap parsedNode := by
  induction ctx using parsePug_induction generalizing i with
  | step ctx ih =>
    have hfirst : (parsePugStates ctx)[0]? = some ctx := by
      rw [parsePugStates]
      split <;> rfl
    cases i with
    | zero =>
      cases hfirst.symm.trans h
      rw [List.take_zero, List.filterMap_nil, List.append_nil]
    | succ i =>
      cases hround : parsePugRound ctx with
      | next ctx' =>
        rw [parsePugStates_next hround, List.getElem?_cons_succ] at h
        rw [parsePugStates_next hround, List.take_succ_cons, filterMap_parsedNode_cons,
          ih ctx' hround h, labels_round hround, List.append_assoc]
      | hangs =>
        rw [parsePugStates_last (by simp [hround])] at h
        cases h
      | done out =>
        rw [parsePugStates_last (by simp [hround])] at h
        cases h

/-- The context that is returned has the nodes of all rounds. -/
theorem parsePugLoop_labels {ctx out : ParserContext} (h : parsePugLoop ctx = some out) :
    out.memory.map Cell.label =
      ctx.memory.map Cell.label ++ (parsePugStates ctx).filterMap parsedNode := by
  induction ctx using parsePug_induction with
  | step ctx ih =>
    cases hround : parsePugRound ctx with
    | next ctx' =>
      rw [parsePugLoop_next hround] at h
      rw [ih ctx' hround h, parsePugStates_next hround, filterMap_parsedNode_cons,
        labels_round hround, List.append_assoc]
    | hangs =>
      rw [parsePugLoop_hangs hround] at h
      cases h
    | done last =>
      have hlast : ∀ ctx', parsePugRound ctx ≠ .next ctx' := by simp [hround]
      rw [parsePugLoop_done hround] at h
      cases h
      obtain ⟨advanced, -, -, -, -, rfl⟩ := parsePugRound_done_cases hround
      rw [parsePugStates_last hlast, filterMap_parsedNode_cons, parsedNode_of_last hlast]
      simp

/-! ## The control -/

/-- The look-ahead of `parse_pug` after a node of depth `depth`. -/
def deeperNext (depth : Nat) (rest : List Token) : Bool :=
  rest.head?.any fun next => decide (depth < next.depth)

/-- The nodes `parse_node` returns on the tokens from `current_token` on, each with the answer of
the look-ahead; `none` when the run never ends. -/
def parseEntries (rest : List Token) : Option (List (ASTNode × Bool)) :=
  match _h : parseNodeFrom rest with
  | .hangs => none
  | .node node advanced =>
    (parseEntries (rest.drop advanced)).map fun entries =>
      (node, deeperNext node.depth (rest.drop advanced)) :: entries
  | .null advanced =>
    match _h' : rest.drop advanced with
    | [] => none
    | token :: more => if token.type = .tokenEof then some [] else parseEntries more
termination_by rest.length
decreasing_by
  · have := parseNodeFrom_advanced _h
    simp only [List.length_drop]
    omega
  · have := congrArg List.length _h'
    simp only [List.length_drop, List.length_cons] at this
    omega

section Entries

variable {rest more : List Token} {token : Token} {node : ASTNode} {advanced : Nat}

theorem parseEntries_hangs (h : parseNodeFrom rest = .hangs) : parseEntries rest = none := by
  rw [parseEntries]
  split <;> simp_all

theorem parseEntries_node (h : parseNodeFrom rest = .node node advanced) :
    parseEntries rest = (parseEntries (rest.drop advanced)).map fun entries =>
      (node, deeperNext node.depth (rest.drop advanced)) :: entries := by
  rw [parseEntries]
  split <;> simp_all

theorem parseEntries_end (h : parseNodeFrom rest = .null advanced) (hd : rest.drop advanced = []) :
    parseEntries rest = none := by
  rw [parseEntries]
  split
  · simp_all
  · simp_all
  · rename_i heq
    cases heq.symm.trans h
    split <;> simp_all

theorem parseEntries_eof (h : parseNodeFrom rest = .null advanced)
    (hd : rest.drop advanced = token :: more) (ht : token.type = .tokenEof) :
    parseEntries rest = some [] := by
  rw [parseEntries]
  split
  · simp_all
  · simp_all
  · rename_i heq
    cases heq.symm.trans h
    split <;> simp_all

theorem parseEntries_skip (h : parseNodeFrom rest = .null advanced)
    (hd : rest.drop advanced = token :: more) (ht : token.type ≠ .tokenEof) :
    parseEntries rest = parseEntries more := by
  rw [parseEntries]
  split
  · simp_all
  · simp_all
  · rename_i heq
    cases heq.symm.trans h
    split <;> simp_all

/-- An accepted token is one entry. -/
theorem parseEntries_accepts (hs : token.type.startsNode = true) (hv : Valued (token :: more)) :
    parseEntries (token :: more) =
      (parseEntries (more.drop (group token more).length)).map fun entries =>
        ((group token more).foldl absorbToken (startNode token),
          deeperNext token.depth (more.drop (group token more).length)) :: entries := by
  have hdepth : ((group token more).foldl absorbToken (startNode token)).depth = token.depth := by
    rw [(foldl_absorbToken_sameHead _ _).depth, (startNode_head hs).1]
  rw [parseEntries_node (parseNodeFrom_of_valued hs hv), hdepth, Nat.add_comm,
    List.drop_succ_cons]

/-- The same with what the node takes standing in the first of two parts. -/
theorem parseEntries_accepts_append {xs ys : List Token} (hs : token.type.startsNode = true)
    (hgroup : group token (xs ++ ys) = group token xs) (hv : Valued (token :: (xs ++ ys))) :
    parseEntries (token :: (xs ++ ys)) =
      (parseEntries (xs.drop (group token xs).length ++ ys)).map fun entries =>
        ((group token xs).foldl absorbToken (startNode token),
          deeperNext token.depth (xs.drop (group token xs).length ++ ys)) :: entries := by
  rw [parseEntries_accepts hs hv, hgroup, List.drop_append_of_le_length (length_group_le token xs)]

/-- A rejected token and the token after it are no entry. -/
theorem parseEntries_rejects {next : Token} (hs : token.type.startsNode = false)
    (ht : token.type ≠ .tokenEof) (hnext : next.type ≠ .tokenEof) :
    parseEntries (token :: next :: more) = parseEntries more :=
  parseEntries_skip (parseNodeFrom_rejects _ hs ht) rfl hnext

end Entries

/-! ### Blocks -/

/-- A token that starts a node and the tokens that the loop after it takes. -/
structure IsBlock (block : Token × List Token) : Prop where
  starts : block.1.type.startsNode = true
  head : block.1.type.isAbsorbed = false
  tag : block.2 ≠ [] → block.1.type = .tokenTag
  absorbs : ∀ t ∈ block.2, absorbs block.1.depth t = true
  valued : Valued block.2

def blockTokens (blocks : List (Token × List Token)) : List Token :=
  blocks.flatMap fun block => block.1 :: block.2

/-- The node made of a block. -/
def blockNode (block : Token × List Token) : ASTNode :=
  block.2.foldl absorbToken (startNode block.1)

section Blocks

variable {block : Token × List Token} {blocks : List (Token × List Token)} {eof : Token}

theorem IsBlock.depth_blockNode (h : IsBlock block) : (blockNode block).depth = block.1.depth := by
  unfold blockNode
  rw [(foldl_absorbToken_sameHead _ _).depth, (startNode_head h.starts).1]

theorem IsBlock.group_append (h : IsBlock block) {more : List Token}
    (hmore : ∀ t ∈ more.head?, t.type.isAbsorbed = false) :
    group block.1 (block.2 ++ more) = block.2 := by
  unfold group
  split
  · apply takeWhile_append_stop h.absorbs
    intro t ht
    simp [CPug.absorbs, hmore t ht]
  · rename_i hne
    by_contra hnil
    exact hne (h.tag (Ne.symm hnil))

theorem valued_blockTokens (h : ∀ block ∈ blocks, IsBlock block) (heof : eof.type = .tokenEof) :
    Valued (blockTokens blocks ++ [eof]) := by
  intro t ht htype
  rcases List.mem_append.mp ht with ht | ht
  · obtain ⟨block, hblock, ht⟩ := List.mem_flatMap.mp ht
    rcases List.mem_cons.mp ht with rfl | ht
    · have hhead := (h block hblock).head
      rw [htype] at hhead
      cases hhead
    · exact (h block hblock).valued t ht htype
  · rw [List.mem_singleton.mp ht, heof] at htype
    cases htype

/-- Every block is one entry, left open when the next block is deeper. -/
theorem parseEntries_blocks (h : ∀ block ∈ blocks, IsBlock block) (heof : eof.type = .tokenEof) :
    parseEntries (blockTokens blocks ++ [eof]) =
      some (Spine.withNext ASTNode.depth eof.depth (blocks.map blockNode)) := by
  induction blocks with
  | nil => exact parseEntries_eof (parseNodeFrom_eof [] heof) rfl heof
  | cons block blocks ih =>
    have hblock := h block List.mem_cons_self
    have hblocks : ∀ b ∈ blocks, IsBlock b := fun b hb => h b (List.mem_cons_of_mem _ hb)
    have htokens : blockTokens (block :: blocks) ++ [eof] =
        block.1 :: (block.2 ++ (blockTokens blocks ++ [eof])) := by
      simp [blockTokens]
    have hvalued := valued_blockTokens h heof
    have hhead : ∀ t ∈ (blockTokens blocks ++ [eof]).head?, t.type.isAbsorbed = false := by
      intro t ht
      cases blocks with
      | nil =>
        cases ht
        rw [heof]
        rfl
      | cons next blocks =>
        cases ht
        exact (hblocks next List.mem_cons_self).head
    have hnext : deeperNext block.1.depth (blockTokens blocks ++ [eof]) =
        decide (block.1.depth < ((blocks.map blockNode).head?.map ASTNode.depth).getD eof.depth) := by
      cases blocks with
      | nil => rfl
      | cons next blocks =>
        show decide (block.1.depth < next.1.depth) = decide (block.1.depth < (blockNode next).depth)
        rw [(hblocks next List.mem_cons_self).depth_blockNode]
    rw [htokens] at hvalued ⊢
    rw [parseEntries_accepts hblock.starts hvalued, hblock.group_append hhead, List.drop_left,
      ih hblocks, hnext, List.map_cons, Spine.withNext, hblock.depth_blockNode]
    rfl

end Blocks

/-- Every entry is the node of an accepted token and its group. -/
theorem mem_parseEntries_group {rest : List Token} {entries : List (ASTNode × Bool)}
    (h : parseEntries rest = some entries) :
    ∀ entry ∈ entries, ∃ token more, token :: more <:+ rest ∧ token.type.startsNode = true ∧
      entry.1 = (group token more).foldl absorbToken (startNode token) := by
  induction hn : rest.length using Nat.strongRecOn generalizing rest entries with
  | ind n ih =>
    subst hn
    rcases parseNodeFrom_cases rest with ⟨hnode, heof⟩ | ⟨token, more, rfl, -, -, hnode⟩ |
        ⟨hnode, -⟩ | ⟨token, more, rfl, hs, hnode⟩
    · cases rest with
      | nil =>
        rw [parseEntries_end hnode rfl] at h
        cases h
      | cons token more =>
        rw [parseEntries_eof hnode rfl (heof token rfl)] at h
        cases h
        simp
    · cases more with
      | nil =>
        rw [parseEntries_end hnode rfl] at h
        cases h
      | cons next more =>
        by_cases hnext : next.type = .tokenEof
        · rw [parseEntries_eof hnode rfl hnext] at h
          cases h
          simp
        · rw [parseEntries_skip hnode rfl hnext] at h
          intro entry hentry
          obtain ⟨t, ts, hsuffix, hrest⟩ :=
            ih more.length (by simp only [List.length_cons]; omega) h rfl entry hentry
          exact ⟨t, ts, hsuffix.trans ((List.suffix_cons _ _).trans (List.suffix_cons _ _)), hrest⟩
    · rw [parseEntries_hangs hnode] at h
      cases h
    · rw [parseEntries_node hnode] at h
      obtain ⟨later, hlater, rfl⟩ := Option.map_eq_some_iff.mp h
      intro entry hentry
      rcases List.mem_cons.mp hentry with rfl | hentry
      · exact ⟨token, more, List.suffix_refl _, hs, rfl⟩
      · have hlt : ((token :: more).drop (1 + (group token more).length)).length <
            (token :: more).length := by
          rw [List.length_drop]
          simp only [List.length_cons]
          omega
        obtain ⟨t, ts, hsuffix, hrest⟩ := ih _ hlt hlater rfl entry hentry
        exact ⟨t, ts, hsuffix.trans (List.drop_suffix _ _), hrest⟩

/-! ## The memory follows the spine machine -/

/-- The memory and the current parent of a context are those of a machine state. -/
structure Represents (ctx : ParserContext) (S : Spine ASTNode) : Prop where
  memory : ctx.memory = S.cells rootLabel
  currentParent : ctx.currentParent = S.focus rootLabel

theorem represents_start (tokens : List Token) : Represents (parsePugStart tokens) Spine.empty :=
  ⟨rfl, rfl⟩

theorem Represents.advance {ctx : ParserContext} {S : Spine ASTNode} (h : Represents ctx S)
    (n : Nat) : Represents (parserAdvanceToken ctx n) S :=
  ⟨h.memory, h.currentParent⟩

/-- Linking a node is one step of the machine. -/
theorem Represents.addNode {ctx : ParserContext} {S : Spine ASTNode} (h : Represents ctx S)
    (node : ASTNode) :
    Represents (addNode ctx node)
      (S.insert ASTNode.depth (node, deeperNext node.depth ctx.rest)) := by
  have hparent : walkUp ASTNode.depth ctx.memory node.depth ctx.currentParent =
      (S.pop ASTNode.depth node.depth).focus rootLabel := by
    rw [h.memory, h.currentParent, Spine.walkUp_focus]
  have hmemory : ctx.memory = (S.pop ASTNode.depth node.depth).cells rootLabel := by
    rw [h.memory, Spine.cells_pop]
  have hdeeper : ((parserGetCurrentToken ctx).any fun next => decide (node.depth < next.depth)) =
      deeperNext node.depth ctx.rest := by
    rw [parserGetCurrentToken_eq_head, deeperNext]
  rw [CPug.addNode, hparent, hdeeper]
  cases deeperNext node.depth ctx.rest with
  | true =>
    rw [Spine.insert_open]
    refine ⟨?_, ?_⟩
    · rw [Spine.cells_push, ← hmemory]
    · rw [if_pos rfl, Spine.focus_push, ← hmemory]
  | false =>
    rw [Spine.insert_closed]
    refine ⟨?_, ?_⟩
    · rw [Spine.cells_add_leaf, ← hmemory]
    · rw [if_neg (by simp), Spine.focus_add]

/-- The loop and the control: the one returns when the other does, and then the memory is that of
the machine run over the entries, and the context stands on an EOF token. -/
theorem parsePugLoop_spec (ctx : ParserContext) {S : Spine ASTNode} (h : Represents ctx S) :
    (parseEntries ctx.rest = none → parsePugLoop ctx = none) ∧
      ∀ entries, parseEntries ctx.rest = some entries →
        ∃ out token, parsePugLoop ctx = some out ∧
          Represents out (S.run ASTNode.depth entries) ∧ out.tokens = ctx.tokens ∧
          parserGetCurrentToken out = some token ∧ token.type = .tokenEof := by
  induction ctx using parsePug_induction generalizing S with
  | step ctx ih =>
    cases hn : parseNodeFrom ctx.rest with
    | hangs =>
      rw [parseEntries_hangs hn, parsePugLoop_hangs (parsePugRound_hangs hn)]
      simp
    | node node advanced =>
      have hr := parsePugRound_node hn
      have hrep := (h.advance advanced).addNode node
      obtain ⟨hnone, hsome⟩ := ih _ hr hrep
      simp only [rest_addNode, rest_advance] at hnone hsome hrep
      rw [parseEntries_node hn, parsePugLoop_next hr]
      refine ⟨fun he => hnone (by simpa using he), fun entries he => ?_⟩
      obtain ⟨entries', he', rfl⟩ := Option.map_eq_some_iff.mp he
      obtain ⟨out, token, hloop, hout, htokens, hcur, heof⟩ := hsome entries' he'
      exact ⟨out, token, hloop, hout, htokens, hcur, heof⟩
    | null advanced =>
      have hcur : parserGetCurrentToken (parserAdvanceToken ctx advanced) =
          (ctx.rest.drop advanced).head? := by
        rw [parserGetCurrentToken_eq_head, rest_advance]
      cases hd : ctx.rest.drop advanced with
      | nil =>
        rw [hd] at hcur
        rw [parseEntries_end hn hd, parsePugLoop_hangs (parsePugRound_end hn hcur)]
        simp
      | cons token more =>
        rw [hd] at hcur
        by_cases ht : token.type = .tokenEof
        · rw [parseEntries_eof hn hd ht, parsePugLoop_done (parsePugRound_done hn hcur ht)]
          refine ⟨by simp, fun entries he => ?_⟩
          cases he
          exact ⟨_, token, rfl, h.advance advanced, rfl, hcur, ht⟩
        · have hr := parsePugRound_skip hn hcur ht
          have hrest : (parserAdvanceToken ctx (advanced + 1)).rest = more := by
            rw [rest_advance, ← List.drop_drop, hd]
            rfl
          have hrep := ih _ hr (h.advance (advanced + 1))
          rw [hrest] at hrep
          rw [parseEntries_skip hn hd ht, parsePugLoop_next hr]
          exact hrep

theorem Represents.rootNode {ctx : ParserContext} {S : Spine ASTNode} (h : Represents ctx S) :
    rootNode ctx = .node rootLabel S.close .nil := by
  have hcells : (S.pop (fun _ => 0) 0).cells rootLabel = S.cells rootLabel :=
    Spine.cells_pop rootLabel 0 S
  rw [CPug.rootNode, h.memory]
  apply Spine.extract_cells
  rw [← hcells, Spine.pop_zero, Spine.length_cells]
  simp [Spine.focus, Spine.outerCells, Spine.openNode]

/-- When the control gives entries, `parse_pug` returns the tree the machine builds from them. -/
theorem parsePug_of_entries {tokens : List Token} {entries : List (ASTNode × Bool)}
    (h : parseEntries tokens = some entries) :
    ∃ ctx, parsePug tokens = some ctx ∧
      Represents ctx (Spine.empty.run ASTNode.depth entries) ∧
      CPug.rootNode ctx = .node rootLabel (Spine.empty.run ASTNode.depth entries).close .nil := by
  have hspec := parsePugLoop_spec (parsePugStart tokens) (represents_start tokens)
  have hrest : (parsePugStart tokens).rest = tokens := List.drop_zero
  rw [hrest] at hspec
  obtain ⟨out, token, hloop, hout, -⟩ := hspec.2 entries h
  exact ⟨out, hloop, hout, hout.rootNode⟩

/-- The forest the machine builds from the entries of a token list. -/
def builtForest (tokens : List Token) : Option (Forest ASTNode) :=
  (parseEntries tokens).map fun entries => (Spine.empty.run ASTNode.depth entries).close

/-- The tree `parse_pug` returns is the built forest below the artificial root, and `parse_pug`
never ends where there is none. -/
theorem parsePug_rootNode (tokens : List Token) :
    (parsePug tokens).map CPug.rootNode =
      (builtForest tokens).map fun f => .node rootLabel f .nil := by
  cases he : parseEntries tokens with
  | none =>
    have hspec := parsePugLoop_spec (parsePugStart tokens) (represents_start tokens)
    have hrest : (parsePugStart tokens).rest = tokens := List.drop_zero
    rw [hrest] at hspec
    rw [parsePug, hspec.1 he, builtForest, he]
    rfl
  | some entries =>
    obtain ⟨ctx, hctx, -, hroot⟩ := parsePug_of_entries he
    rw [hctx, builtForest, he, Option.map_some, hroot]
    rfl

theorem builtForest_labels {tokens : List Token} {f : Forest ASTNode}
    (h : builtForest tokens = some f) :
    ∃ entries, parseEntries tokens = some entries ∧ f.labels = entries.map Prod.fst := by
  obtain ⟨entries, he, rfl⟩ := Option.map_eq_some_iff.mp h
  refine ⟨entries, he, ?_⟩
  rw [Spine.labels_close_run]
  rfl

/-- The tree that `parse_pug` returns has the nodes of the entries below the artificial root. -/
theorem parsePug_labels {tokens : List Token} {ctx : ParserContext}
    (h : parsePug tokens = some ctx) :
    ∃ entries kids, parseEntries tokens = some entries ∧
      CPug.rootNode ctx = .node rootLabel kids .nil ∧ kids.labels = entries.map Prod.fst := by
  have hroot := parsePug_rootNode tokens
  rw [h, Option.map_some] at hroot
  obtain ⟨kids, hkids, hnode⟩ := Option.map_eq_some_iff.mp hroot.symm
  obtain ⟨entries, hentries, hlabels⟩ := builtForest_labels hkids
  exact ⟨entries, kids, hentries, hnode.symm, hlabels⟩

/-- The entries are the nodes of the rounds. -/
theorem entries_eq_parsedNodes {ctx : ParserContext} {entries : List (ASTNode × Bool)}
    (h : parseEntries ctx.rest = some entries) :
    entries.map Prod.fst = (parsePugStates ctx).filterMap parsedNode := by
  induction ctx using parsePug_induction generalizing entries with
  | step ctx ih =>
    cases hn : parseNode ctx with
    | hangs =>
      rw [parseEntries_hangs hn] at h
      cases h
    | node node advanced =>
      have hround := parsePugRound_node hn
      rw [parseEntries_node hn] at h
      obtain ⟨later, hlater, rfl⟩ := Option.map_eq_some_iff.mp h
      have hrest : parseEntries (addNode (parserAdvanceToken ctx advanced) node).rest =
          some later := by rw [rest_addNode, rest_advance, hlater]
      rw [parsePugStates_next hround, filterMap_parsedNode_cons, parsedNode_of_node hn,
        ← ih _ hround hrest]
      rfl
    | null advanced =>
      cases hd : ctx.rest.drop advanced with
      | nil =>
        rw [parseEntries_end hn hd] at h
        cases h
      | cons token more =>
        have hcur : parserGetCurrentToken (parserAdvanceToken ctx advanced) = some token := by
          rw [parserGetCurrentToken_eq_head, rest_advance, hd]
          rfl
        by_cases ht : token.type = .tokenEof
        · have hround := parsePugRound_done hn hcur ht
          rw [parseEntries_eof hn hd ht] at h
          cases h
          rw [parsePugStates_last (by simp [hround]), filterMap_parsedNode_cons,
            parsedNode_of_null hn]
          rfl
        · have hround := parsePugRound_skip hn hcur ht
          have hrest : (parserAdvanceToken ctx (advanced + 1)).rest = more := by
            rw [rest_advance, ← List.drop_drop, hd]
            rfl
          rw [parseEntries_skip hn hd ht, ← hrest] at h
          rw [parsePugStates_next hround, filterMap_parsedNode_cons, parsedNode_of_null hn,
            ← ih _ hround h]
          rfl

/-- The nodes of the returned tree, in pre-order: the root and the nodes of the rounds. -/
theorem labels_rootNode {tokens : List Token} {ctx : ParserContext}
    (h : parsePug tokens = some ctx) :
    (CPug.rootNode ctx).labels =
      rootLabel :: (parsePugStates (parsePugStart tokens)).filterMap parsedNode := by
  obtain ⟨entries, kids, hentries, hnode, hlabels⟩ := parsePug_labels h
  have hrest : parseEntries (parsePugStart tokens).rest = some entries := hentries
  rw [hnode, Forest.labels_node, Forest.labels_nil, List.append_nil, hlabels,
    entries_eq_parsedNodes hrest]

/-- The node that a round gets stands in the returned tree at the place of its cell. -/
theorem labels_rootNode_getElem? {tokens : List Token} {ctx s : ParserContext}
    (h : parsePug tokens = some ctx) (hs : s ∈ parsePugStates (parsePugStart tokens))
    {node : ASTNode} {advanced : Nat} (hn : parseNode s = .node node advanced) :
    (CPug.rootNode ctx).labels[s.memory.length]? = some node := by
  obtain ⟨i, hi⟩ := List.mem_iff_getElem?.mp hs
  obtain ⟨hlt, hget⟩ := List.getElem?_eq_some_iff.mp hi
  have hbefore : s.memory.map Cell.label = rootLabel ::
      ((parsePugStates (parsePugStart tokens)).take i).filterMap parsedNode := labels_of_getElem? hi
  have hlabels : (CPug.rootNode ctx).labels = s.memory.map Cell.label ++
      node :: ((parsePugStates (parsePugStart tokens)).drop (i + 1)).filterMap parsedNode := by
    rw [labels_rootNode h, hbefore, List.cons_append,
      ← List.filterMap_cons_some (parsedNode_of_node hn), ← List.filterMap_append, ← hget,
      ← List.drop_eq_getElem_cons hlt, List.take_append_drop]
  rw [hlabels, ← List.length_map (f := Cell.label), List.getElem?_append_right (le_refl _),
    Nat.sub_self, List.getElem?_cons_zero]

/-! ## Termination -/

/-- The list ends in an EOF token. -/
def EndsInEof (tokens : List Token) : Prop :=
  ∃ eof, tokens.getLast? = some eof ∧ eof.type = .tokenEof

theorem EndsInEof.ne_nil {tokens : List Token} (h : EndsInEof tokens) : tokens ≠ [] := by
  rintro rfl
  obtain ⟨eof, hlast, -⟩ := h
  cases hlast

/-- A token that is not EOF is not the last one. -/
theorem EndsInEof.tail {token : Token} {more : List Token} (h : EndsInEof (token :: more))
    (ht : token.type ≠ .tokenEof) : EndsInEof more := by
  obtain ⟨eof, hlast, he⟩ := h
  cases more with
  | nil =>
    cases hlast
    exact absurd he ht
  | cons next more => exact ⟨eof, by rwa [List.getLast?_cons_cons] at hlast, he⟩

theorem EndsInEof.drop {taken rest : List Token} (h : EndsInEof (taken ++ rest))
    (ht : ∀ token ∈ taken, token.type ≠ .tokenEof) : EndsInEof rest := by
  induction taken with
  | nil => exact h
  | cons token taken ih =>
    exact ih (h.tail (ht token List.mem_cons_self)) fun t hmem => ht t (List.mem_cons_of_mem _ hmem)

theorem mem_group_isAbsorbed {token : Token} {more : List Token} :
    ∀ t ∈ group token more, absorbs token.depth t = true := by
  intro t ht
  rw [group] at ht
  split at ht
  · exact List.mem_takeWhile_imp ht
  · cases ht

theorem mem_group_ne_eof {token : Token} {more : List Token} :
    ∀ t ∈ group token more, t.type ≠ .tokenEof := by
  intro t ht he
  have := mem_group_isAbsorbed t ht
  simp [absorbs, he, TokenType.isAbsorbed] at this

theorem valued_singleton {token : Token} (h : token.type ≠ .tokenAttribute) : Valued [token] := by
  intro t ht htype
  rw [List.mem_singleton.mp ht] at htype
  exact absurd htype h

theorem Valued.append {xs ys : List Token} (hxs : Valued xs) (hys : Valued ys) :
    Valued (xs ++ ys) := by
  intro t ht htype
  rcases List.mem_append.mp ht with ht | ht
  · exact hxs t ht htype
  · exact hys t ht htype

theorem Valued.drop {tokens : List Token} (h : Valued tokens) (n : Nat) : Valued (tokens.drop n) :=
  fun t ht => h t (List.mem_of_mem_drop ht)

/-- What follows a node still ends in EOF. -/
theorem EndsInEof.after_group {token : Token} {more : List Token} (h : EndsInEof (token :: more))
    (hs : token.type.startsNode = true) :
    EndsInEof ((token :: more).drop (1 + (group token more).length)) := by
  have ht : token.type ≠ .tokenEof := ne_eof_of_startsNode hs
  have hmore := h.tail ht
  rw [← group_append_drop token more] at hmore
  rw [Nat.add_comm, List.drop_succ_cons]
  exact hmore.drop mem_group_ne_eof

/-- With a value in every ATTRIBUTE token and an EOF token at the end the control returns. -/
theorem parseEntries_isSome {tokens : List Token} (hv : Valued tokens) (he : EndsInEof tokens) :
    ∃ entries, parseEntries tokens = some entries := by
  induction h : tokens.length using Nat.strongRecOn generalizing tokens with
  | ind n ih =>
    subst h
    rcases parseNodeFrom_cases tokens with ⟨hn, heof⟩ | ⟨token, more, rfl, -, hne, hn⟩ |
        ⟨-, hnv⟩ | ⟨token, more, rfl, hs, hn⟩
    · cases tokens with
      | nil => exact absurd rfl he.ne_nil
      | cons token more => exact ⟨[], parseEntries_eof hn rfl (heof token rfl)⟩
    · have hmore := he.tail hne
      cases more with
      | nil => exact absurd rfl hmore.ne_nil
      | cons next more =>
        by_cases hnext : next.type = .tokenEof
        · exact ⟨[], parseEntries_eof hn rfl hnext⟩
        · have hvmore : Valued more := hv.drop 2
          obtain ⟨entries, hent⟩ := ih more.length (by simp only [List.length_cons]; omega) hvmore
            (hmore.tail hnext) rfl
          exact ⟨entries, by rw [parseEntries_skip hn rfl hnext, hent]⟩
    · exact absurd hv hnv
    · have hlt : ((token :: more).drop (1 + (group token more).length)).length <
          (token :: more).length := by
        rw [List.length_drop]
        simp only [List.length_cons]
        omega
      obtain ⟨entries, hent⟩ := ih _ hlt (hv.drop _) (he.after_group hs) rfl
      exact ⟨_, by rw [parseEntries_node hn, hent]; rfl⟩

end CPug
