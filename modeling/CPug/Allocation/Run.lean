import CPug.Allocation.Nodes
import CPug.Nodes
import CPug.Renderer
import CPug.TreeShape

/-!
# The blocks of a run

`parse_pug`, `render_ast`, `process_pug_file` and the part of `main` that calls them, with the blocks they
allocate and free.
-/

namespace CPug.Allocation

open Memory Outline

/-! ## `ast_node_add_child` and `ast_node_free` -/

/-- `ast_node_add_child`: the array of the parent grows when it is full. -/
def astNodeAddChild (memory : List (Cell ASTNode)) (nodes : List HeapNode) (parent : Nat) :
    Alloc (List HeapNode) :=
  match memory[parent]?, nodes[parent]? with
  | some cell, some heapNode =>
    if cell.children.length ≥ heapNode.childrenCapacity then do
      let children ← Heap.realloc heapNode.children
      pure (nodes.set parent { heapNode with
        children := children, childrenCapacity := heapNode.childrenCapacity * 2 })
    else pure nodes
  | _, _ => Heap.never

/-- `ast_node_free`; `fuel` bounds the depth of the tree. -/
def astNodeFree (memory : List (Cell ASTNode)) (nodes : List HeapNode) : Nat → Nat → Alloc Unit
  | 0, _ => Heap.never
  | fuel + 1, i =>
    match memory[i]?, nodes[i]? with
    | some cell, some heapNode => do
      freeFields heapNode
      cell.children.forM (astNodeFree memory nodes fuel)
      freeNode heapNode
    | _, _ => Heap.never

/-- The nodes in memory are those of the cells. -/
def Holds (memory : List (Cell ASTNode)) (nodes : List HeapNode) : Prop :=
  nodes.map HeapNode.node = memory.map Cell.label

theorem Holds.length_eq {memory : List (Cell ASTNode)} {nodes : List HeapNode}
    (h : Holds memory nodes) : nodes.length = memory.length := by
  have := congrArg List.length h
  simpa using this

theorem Holds.exists_node {memory : List (Cell ASTNode)} {nodes : List HeapNode}
    (h : Holds memory nodes) {i : Nat} {cell : Cell ASTNode} (hi : memory[i]? = some cell) :
    ∃ heapNode, nodes[i]? = some heapNode ∧ heapNode.node = cell.label := by
  have hlt : i < nodes.length := by
    rw [h.length_eq]
    exact (List.getElem?_eq_some_iff.mp hi).1
  have hnode := congrArg (fun l : List ASTNode => l[i]?) h
  rw [List.getElem?_map, List.getElem?_map, hi, List.getElem?_eq_getElem hlt] at hnode
  exact ⟨nodes[i], List.getElem?_eq_getElem hlt, Option.some.inj hnode⟩

/-- A child is linked below a cell that there is. -/
theorem astNodeAddChild_spec {memory : List (Cell ASTNode)} {nodes : List HeapNode} {parent : Nat}
    (h : Holds memory nodes) (hparent : parent < memory.length) :
    Triple (ownedBy HeapNode.owned nodes) (astNodeAddChild memory nodes parent) fun nodes' left =>
      left = ownedBy HeapNode.owned nodes' ∧ Holds memory nodes' := by
  have hcell : memory[parent]? = some memory[parent] := List.getElem?_eq_getElem hparent
  obtain ⟨heapNode, hnode, hlabel⟩ := h.exists_node hcell
  unfold astNodeAddChild
  rw [hcell, hnode]
  dsimp only
  split
  · have hsplit : ownedBy HeapNode.owned nodes = {heapNode.children} +
        (blockIfAny heapNode.tag + blockIfAny heapNode.textContent + blockIfAny heapNode.id +
          classesOwned heapNode.classes + attributesOwned heapNode.attributes +
          {heapNode.block} + ownedBy HeapNode.owned (nodes.eraseIdx parent)) := by
      rw [ownedBy_eq_of_getElem? hnode, HeapNode.owned]
      abel
    refine .bind (.realloc _) hsplit fun children _ hchildren => .ret ⟨?_, ?_⟩
    · rw [hchildren, ownedBy_set hnode, HeapNode.owned]
      abel
    · rw [Holds, List.map_set]
      show (nodes.map HeapNode.node).set parent heapNode.node = _
      rw [h, hlabel]
      apply List.ext_getElem?
      intro i
      rw [List.getElem?_set]
      split
      · rename_i hi
        subst hi
        rw [List.length_map, if_pos hparent, List.getElem?_map, hcell]
        rfl
      · rfl
  · exact .ret ⟨rfl, h⟩

/-- One node, given that the calls for its children free what these own. -/
theorem astNodeFree_node {memory : List (Cell ASTNode)} {nodes : List HeapNode} {fuel i : Nat}
    {cell : Cell ASTNode} {heapNode : HeapNode} {below : Multiset Nat} (hcell : memory[i]? = some cell)
    (hnode : nodes[i]? = some heapNode)
    (hbelow : Triple below (cell.children.forM (astNodeFree memory nodes fuel)) fun _ left =>
      left = 0) :
    Triple (heapNode.owned + below) (astNodeFree memory nodes (fuel + 1) i) fun _ left =>
      left = 0 := by
  rw [astNodeFree, hcell, hnode]
  refine .bind (freeFields_spec heapNode) rfl fun _ _ hleft => ?_
  rw [hleft]
  exact .bindFree hbelow (add_comm _ _) (freeNode_spec heapNode)

/-- The trees of a forest that lies in memory: the induction is on the forest, and a node has more fuel than
its children need. -/
theorem astNodeFree_layout {memory rest : List (Cell ASTNode)} {nodes : List HeapNode}
    (h : Holds memory nodes) {parent : Option Nat} {lo fuel : Nat} {f : Forest ASTNode}
    (hlayout : memory.drop lo = layout parent lo f ++ rest) (hfuel : f.size ≤ fuel) :
    Triple (ownedBy HeapNode.owned ((nodes.drop lo).take f.size))
      ((childIds lo f).forM (astNodeFree memory nodes fuel)) fun _ left => left = 0 := by
  induction f generalizing parent lo fuel rest with
  | nil => exact .ret rfl
  | node a kids next ihk ihn =>
    obtain ⟨hcell, hkids, hnext⟩ := drop_layout_node hlayout
    obtain ⟨heapNode, hnode, -⟩ := h.exists_node hcell
    rw [Forest.size_node] at hfuel
    obtain ⟨fuel, rfl⟩ : ∃ k, fuel = k + 1 := ⟨fuel - 1, by omega⟩
    have hlo : nodes.drop lo = heapNode :: nodes.drop (lo + 1) := by
      obtain ⟨hlt, hget⟩ := List.getElem?_eq_some_iff.mp hnode
      rw [List.drop_eq_getElem_cons hlt, hget]
    have htake : (nodes.drop lo).take (1 + kids.size + next.size) =
        heapNode :: ((nodes.drop (lo + 1)).take kids.size ++
          (nodes.drop (lo + 1 + kids.size)).take next.size) := by
      have hsize : 1 + kids.size + next.size = kids.size + next.size + 1 := by omega
      rw [hlo, hsize, List.take_succ_cons, List.take_add, List.drop_drop]
    rw [Forest.size_node, htake, ownedBy_cons, ownedBy_append, ← add_assoc]
    show Triple _ (astNodeFree memory nodes (fuel + 1) lo >>= fun _ =>
      (childIds (lo + 1 + kids.size) next).forM (astNodeFree memory nodes (fuel + 1))) _
    exact .bindFree (astNodeFree_node hcell hnode (ihk hkids (by omega))) rfl
      (ihn hnext (by omega))

/-- Freeing the root frees every node. -/
theorem astNodeFree_root {ctx : ParserContext} {nodes : List HeapNode} (hshaped : Shaped ctx)
    (h : Holds ctx.memory nodes) :
    Triple (ownedBy HeapNode.owned nodes) (astNodeFree ctx.memory nodes ctx.memory.length 0)
      fun _ left => left = 0 := by
  obtain ⟨S, hS⟩ := hshaped.machine
  have hmemory : ctx.memory = layout none 0 (.node rootLabel S.close .nil) := by
    rw [hS.memory, Spine.cells_eq_layout]
  have hsize : ctx.memory.length = S.close.size + 1 := by
    rw [hmemory, length_layout, Forest.size_node, Forest.size_nil]
    omega
  have hdrop : ctx.memory.drop 0 = layout none 0 (.node rootLabel S.close .nil) ++ [] := by
    rw [List.drop_zero, List.append_nil, hmemory]
  obtain ⟨hcell, hkids, -⟩ := drop_layout_node hdrop
  obtain ⟨heapNode, hnode, -⟩ := h.exists_node hcell
  have hnodes : nodes = heapNode :: (nodes.drop (0 + 1)).take S.close.size := by
    obtain ⟨hlt, hget⟩ := List.getElem?_eq_some_iff.mp hnode
    rw [List.take_of_length_le (by rw [List.length_drop, h.length_eq]; omega), ← hget,
      ← List.drop_eq_getElem_cons hlt, List.drop_zero]
  rw [hsize, hnodes, ownedBy_cons, ← hnodes]
  exact astNodeFree_node hcell hnode (astNodeFree_layout h hkids (le_refl _))

/-! ## `parse_pug` -/

/-- Link the node that `parse_node` returned, if it returned one. -/
def linkNode (ctx : ParserContext) (nodes : List HeapNode) : Option HeapNode → Alloc (List HeapNode)
  | none => pure nodes
  | some heapNode => do
    let parent := walkUp ASTNode.depth ctx.memory heapNode.node.depth ctx.currentParent
    let nodes ← astNodeAddChild ctx.memory nodes parent
    pure (nodes ++ [heapNode])

/-- The loop of `parse_pug`. -/
def parsePugLoop (ctx : ParserContext) (nodes : List HeapNode) :
    Alloc (ParserContext × List HeapNode) :=
  match _h : parsePugRound ctx with
  | .hangs => Heap.never
  | .done out => do
    let _ ← parseNode ctx.rest
    pure (out, nodes)
  | .next next => do
    let made ← parseNode ctx.rest
    let nodes ← linkNode ctx nodes made
    parsePugLoop next nodes
termination_by ctx.tokens.length - ctx.currentToken
decreasing_by
  obtain ⟨ht, hlt, hle⟩ := parsePugRound_progress _h
  rw [ht]
  omega

/-- `parse_pug`. -/
def parsePug (tokens : List Token) : Alloc (ParserContext × List HeapNode) := do
  let root ← astNodeCreate rootLabel
  let tag ← gStrdup
  parsePugLoop (parsePugStart tokens) [{ root with tag := some tag }]

/-- The ids that the nodes made from a context on overwrite. -/
def lostIds (ctx : ParserContext) : Nat :=
  (parsePugStates ctx).foldr (fun s count => overwrittenIds s.rest + count) 0

/-- Linking a node is one step of the memory, and the node is in memory then. -/
theorem linkNode_spec {ctx : ParserContext} {nodes : List HeapNode} (hshaped : Shaped ctx)
    (h : Holds ctx.memory nodes) (heapNode : HeapNode) (advanced : Nat) :
    Triple (ownedBy HeapNode.owned nodes + heapNode.owned) (linkNode ctx nodes (some heapNode))
      fun nodes' left => left = ownedBy HeapNode.owned nodes' ∧
        Holds (addNode (parserAdvanceToken ctx advanced) heapNode.node).memory nodes' := by
  have hwalk := @Linked.walkUp ASTNode ASTNode.depth _ _ hshaped.linked heapNode.node.depth _
    hshaped.currentParent_lt
  have hlt := hshaped.currentParent_lt
  refine .bind (astNodeAddChild_spec h (by omega)) rfl fun nodes' _ hnodes => .ret ?_
  obtain ⟨rfl, hholds⟩ := hnodes
  refine ⟨?_, ?_⟩
  · rw [ownedBy_append, ownedBy_cons, ownedBy_nil, add_zero]
  · rw [Holds, List.map_append, hholds]
    exact (labels_addNode _ _).symm

theorem lostIds_next {ctx next : ParserContext} (h : parsePugRound ctx = .next next) :
    lostIds ctx = overwrittenIds ctx.rest + lostIds next := by
  rw [lostIds, parsePugStates_next h, List.foldr_cons, ← lostIds]

theorem lostIds_done {ctx out : ParserContext} (h : parsePugRound ctx = .done out) :
    lostIds ctx = overwrittenIds ctx.rest := by
  rw [lostIds, parsePugStates_last (by simp [h])]
  rfl

/-- One round: the nodes in memory are those of the cells again. -/
theorem round_spec {ctx next : ParserContext} {nodes : List HeapNode} (hshaped : Shaped ctx)
    (hvalued : Valued ctx.tokens) (h : Holds ctx.memory nodes) (hround : parsePugRound ctx = .next next) :
    Triple (ownedBy HeapNode.owned nodes) (parseNode ctx.rest >>= linkNode ctx nodes)
      fun nodes' left => Holds next.memory nodes' ∧
        ∃ lost, left = ownedBy HeapNode.owned nodes' + lost ∧
          lost.card = overwrittenIds ctx.rest := by
  refine .bindNew (parseNode_spec (hvalued.drop _)) fun made left hparsed => ?_
  rcases parsePugRound_next_cases hround with ⟨node, advanced, hnode, rfl⟩ |
      ⟨advanced, _, hnull, -, -, rfl⟩
  · cases made with
    | none =>
      obtain ⟨⟨n, hnull⟩, -⟩ := hparsed
      rw [CPug.parseNode, hnull] at hnode
      cases hnode
    | some heapNode =>
      obtain ⟨⟨n, hmade⟩, lost, rfl, hlost⟩ := hparsed
      rw [CPug.parseNode, hmade] at hnode
      cases hnode
      have hsplit : heapNode.owned + lost + ownedBy HeapNode.owned nodes =
          ownedBy HeapNode.owned nodes + heapNode.owned + lost := by abel
      refine ((linkNode_spec hshaped h heapNode advanced).frame hsplit).mono fun nodes' left hleft => ?_
      obtain ⟨_, ⟨rfl, hholds⟩, rfl⟩ := hleft
      exact ⟨hholds, lost, rfl, hlost⟩
  · cases made with
    | none =>
      obtain ⟨-, rfl, hzero⟩ := hparsed
      refine .ret ⟨h, 0, ?_, ?_⟩
      · rw [zero_add, add_zero]
      · rw [hzero]
        rfl
    | some heapNode =>
      obtain ⟨⟨n, hmade⟩, -⟩ := hparsed
      rw [CPug.parseNode, hmade] at hnull
      cases hnull

/-- The loop leaves the nodes of the context it ends with, and the ids that were overwritten. -/
theorem parsePugLoop_spec {ctx out : ParserContext} {nodes : List HeapNode} (hshaped : Shaped ctx)
    (hvalued : Valued ctx.tokens) (h : Holds ctx.memory nodes)
    (hout : CPug.parsePugLoop ctx = some out) :
    Triple (ownedBy HeapNode.owned nodes) (parsePugLoop ctx nodes) fun run left =>
      run.1 = out ∧ Holds out.memory run.2 ∧
        ∃ lost, left = ownedBy HeapNode.owned run.2 + lost ∧ lost.card = lostIds ctx := by
  induction ctx using parsePug_induction generalizing nodes with
  | step ctx ih =>
    rw [parsePugLoop]
    split
    · rename_i hround
      rw [parsePugLoop_hangs hround] at hout
      cases hout
    · rename_i last hround
      rw [parsePugLoop_done hround] at hout
      cases hout
      obtain ⟨advanced, _, hnull, -, -, rfl⟩ := parsePugRound_done_cases hround
      refine .bindNew (parseNode_spec (hvalued.drop _)) fun made left hparsed => .ret ?_
      cases made with
      | some heapNode =>
        obtain ⟨⟨n, hmade⟩, -⟩ := hparsed
        rw [CPug.parseNode, hmade] at hnull
        cases hnull
      | none =>
        obtain ⟨-, rfl, hzero⟩ := hparsed
        refine ⟨rfl, h, 0, ?_, ?_⟩
        · rw [zero_add, add_zero]
        · rw [lostIds_done hround]
          exact hzero.symm
    · rename_i next hround
      rw [parsePugLoop_next hround] at hout
      have hnext := parsePugRound_progress hround
      rw [← bind_assoc]
      refine .bind (round_spec hshaped hvalued h hround) (add_zero _).symm fun nodes' _ hnodes' => ?_
      obtain ⟨hholds, lost, rfl, hlost⟩ := hnodes'
      rw [add_zero]
      have hloop := ih next hround (hshaped.round hround) (hnext.1 ▸ hvalued) hholds hout
      refine (hloop.frame rfl).mono fun run left hleft => ?_
      obtain ⟨_, ⟨rfl, hrun, lost', rfl, hlost'⟩, rfl⟩ := hleft
      refine ⟨rfl, hrun, lost' + lost, add_assoc _ _ _, ?_⟩
      rw [Multiset.card_add, hlost, hlost', lostIds_next hround, add_comm]

/-- `parse_pug` leaves the nodes of its tree and the ids that were overwritten. -/
theorem parsePug_spec {tokens : List Token} {out : ParserContext} (hvalued : Valued tokens)
    (hout : CPug.parsePug tokens = some out) :
    Triple 0 (parsePug tokens) fun run left =>
      run.1 = out ∧ Holds out.memory run.2 ∧
        ∃ lost, left = ownedBy HeapNode.owned run.2 + lost ∧
          lost.card = lostIds (parsePugStart tokens) := by
  refine .bindNew (astNodeCreate_spec rootLabel) fun root _ hroot =>
    .bindNew .malloc fun tag left hdup => ?_
  obtain ⟨rfl, hnode, htag, -⟩ := hroot
  have howned : left + (root.owned + 0) =
      ownedBy HeapNode.owned [{ root with tag := some tag }] := by
    rw [hdup, add_zero, owned_tag htag, ownedBy_cons, ownedBy_nil, add_zero]
  rw [howned]
  refine parsePugLoop_spec (shaped_start tokens) hvalued ?_ hout
  show [root.node] = [rootLabel]
  rw [hnode]

/-! ## The renderer -/

/-- `escape_html`: the characters of its buffer. -/
def escapeHtml : Alloc Nat := do
  let escaped ← gStringNew
  gStringRelease escaped

/-- A text is escaped, appended and freed. -/
def appendEscaped : Alloc Unit := do
  let escaped ← escapeHtml
  Heap.free escaped

/-- The same behind a test for `NULL`. -/
def appendIfAny : Option CString → Alloc Unit
  | some _ => appendEscaped
  | none => pure ()

/-- `render_node`; `children` are the calls for the children. -/
def renderNode (minify : Bool) (node : ASTNode) (children : Alloc Unit) : Alloc Unit :=
  if isRoot node then children
  else
    match node.nodeType with
    | .tokenText | .tokenPipe | .tokenDot => appendIfAny node.textContent
    | .tokenComment => if minify then pure () else appendIfAny node.textContent
    | .tokenTag => do
      appendIfAny node.id
      node.classes.forM fun _ => appendEscaped
      if rendersVoid node then pure ()
      else do
        appendIfAny node.textContent
        children
    | _ => pure ()

/-- The loop over siblings. -/
def renderNodes (minify : Bool) : Forest ASTNode → Alloc Unit
  | .nil => pure ()
  | .node node kids next => do
    renderNode minify node (renderNodes minify kids)
    renderNodes minify next

/-- `render_ast`: the characters of the output are the caller's. -/
def renderAst (useTabs : Bool) (tabSize : Nat) (minify : Bool) (root : Forest ASTNode) :
    Alloc (Nat × CString) := do
  let output ← gStringNew
  renderNodes minify root
  let result ← gStringRelease output
  pure (result, CPug.renderAst useTabs tabSize minify root)

/-- A computation that gives back all it takes. -/
abbrev Neat (comp : Alloc Unit) : Prop := Triple 0 comp fun _ left => left = 0

theorem Neat.andThen {first second : Alloc Unit} (h : Neat first) (h' : Neat second) :
    Neat (first >>= fun _ => second) := .bindFree h (add_zero _).symm h'

theorem neat_appendEscaped : Neat appendEscaped := by
  have hescape : Triple 0 escapeHtml fun escaped left => left = {escaped} := by
    refine .bindNew gStringNew_spec fun escaped _ hescaped => ?_
    rw [hescaped, add_zero]
    exact gStringRelease_spec escaped
  refine .bindNew hescape fun escaped _ hescaped => ?_
  rw [hescaped, add_zero]
  exact .free escaped

theorem neat_appendIfAny (text : Option CString) : Neat (appendIfAny text) := by
  cases text with
  | none => exact .ret rfl
  | some text => exact neat_appendEscaped

theorem neat_classes (classes : List CString) : Neat (classes.forM fun _ => appendEscaped) := by
  induction classes with
  | nil => exact .ret rfl
  | cons c classes ih => exact neat_appendEscaped.andThen ih

theorem neat_renderNode (minify : Bool) (node : ASTNode) {children : Alloc Unit}
    (h : Neat children) : Neat (renderNode minify node children) := by
  unfold renderNode
  split
  · exact h
  split
  · exact neat_appendIfAny _
  · exact neat_appendIfAny _
  · exact neat_appendIfAny _
  · split
    · exact .ret rfl
    · exact neat_appendIfAny _
  · refine (neat_appendIfAny _).andThen ((neat_classes _).andThen ?_)
    split
    · exact .ret rfl
    · exact (neat_appendIfAny _).andThen h
  · exact .ret rfl

theorem neat_renderNodes (minify : Bool) (f : Forest ASTNode) : Neat (renderNodes minify f) := by
  induction f with
  | nil => exact .ret rfl
  | node node kids next ihk ihn => exact (neat_renderNode minify node ihk).andThen ihn

theorem renderAst_spec (useTabs : Bool) (tabSize : Nat) (minify : Bool) (root : Forest ASTNode) :
    Triple 0 (renderAst useTabs tabSize minify root) fun result left =>
      left = {result.1} ∧ result.2 = CPug.renderAst useTabs tabSize minify root := by
  refine .bindNew gStringNew_spec fun output _ houtput => ?_
  refine .bindFree (neat_renderNodes minify root) (zero_add _).symm ?_
  rw [houtput, add_zero]
  exact .bind (gStringRelease_spec output) (add_zero _).symm fun result _ hresult =>
    .ret ⟨by rw [hresult, add_zero], rfl⟩

/-! ## `process_pug_file` and `main` -/

/-- `process_pug_file`: the address of the result and its text. -/
def processPugFile (useTabs : Bool) (tabSize : Nat) (minify : Bool) (content : CString) :
    Alloc (Nat × CString) := do
  let tokens ← tokenizeFile content
  let block ← Heap.malloc
  let run ← parsePug (tokens.tokens.map HeapToken.token)
  let result ← renderAst useTabs tabSize minify (rootNode run.1)
  -- `parser_context_free`.
  tokenListFree tokens
  astNodeFree run.1.memory run.2 run.1.memory.length 0
  Heap.free block
  pure result

/-- `main` from the reading of the file on: the output it prints. -/
def compileFile (content : CString) : Alloc CString := do
  let text ← gStrdup
  let tokens ← tokenizeFile content
  tokenListFree tokens
  let html ← processPugFile false 2 false content
  -- `render_free`.
  Heap.free html.1
  Heap.free text
  pure html.2

/-- The ids that the nodes of a text overwrite. -/
def lostIdsOf (content : CString) : Nat := lostIds (parsePugStart (CPug.tokenizeFile content))

theorem processPugFile_spec (useTabs : Bool) (tabSize : Nat) (minify : Bool) (content : CString) :
    Triple 0 (processPugFile useTabs tabSize minify content) fun result left =>
      CPug.processPugFile useTabs tabSize minify content = some result.2 ∧
        ∃ lost, left = {result.1} + lost ∧ lost.card = lostIdsOf content := by
  obtain ⟨out, hout⟩ := exists_parsePug content
  have hvalued : Valued (CPug.tokenizeFile content) := by
    rw [tokenizeFile_eq]
    exact (tokenFile_content content).valued_append
  have hshaped : Shaped out := by
    obtain ⟨s, hs, n, rfl⟩ := parsePugLoop_last hout
    exact (shaped_of_mem _ s hs).advance n
  refine .bindNew (tokenizeFile_spec content) fun tokens _ htokens => ?_
  obtain ⟨rfl, htokens⟩ := htokens
  rw [htokens]
  refine .bindNew .malloc fun block left hblock =>
    .bindNew (parsePug_spec hvalued hout) fun run _ hrun => ?_
  obtain ⟨rfl, hholds, lost, rfl, hlost⟩ := hrun
  refine .bindNew (renderAst_spec _ _ _ _) fun result _ hresult => ?_
  obtain ⟨rfl, htext⟩ := hresult
  have hsplit : ({result.1} : Multiset Nat) + (ownedBy HeapNode.owned run.2 + lost +
      (left + (tokens.owned + 0))) =
        tokens.owned + (ownedBy HeapNode.owned run.2 + ({block} + ({result.1} + lost))) := by
    rw [hblock]
    abel
  refine .bindFree (tokenListFree_spec tokens) hsplit (.bindFree (astNodeFree_root hshaped hholds) rfl
    (.bindFree (.free block) rfl (.ret ⟨?_, lost, rfl, hlost⟩)))
  rw [CPug.processPugFile, hout, htext]
  rfl

/-- Started on any heap, `process_pug_file` returns, which it would not had it freed a block twice or one that
is not its own. The result is a new block of its own; besides it there are as many new blocks as nodes have
overwritten ids. -/
theorem processPugFile_blocks (useTabs : Bool) (tabSize : Nat) (minify : Bool) (content : CString)
    (heap : Heap) :
    ∃ result output heap',
      processPugFile useTabs tabSize minify content heap = some ((result, output), heap') ∧
        CPug.processPugFile useTabs tabSize minify content = some output ∧
        heap.live ⊆ heap'.live ∧ result ∈ heap'.live \ heap.live ∧
        (heap'.live \ heap.live).card = 1 + lostIdsOf content := by
  obtain ⟨⟨result, output⟩, heap', left, hrun, hlive, htext, lost, rfl, hlost⟩ :=
    (processPugFile_spec useTabs tabSize minify content).run heap
  obtain ⟨hsub, hnew⟩ := Heap.sdiff_live hlive
  refine ⟨result, output, heap', hrun, htext, hsub, ?_, ?_⟩
  · rw [← Finset.mem_val, hnew]
    exact Multiset.mem_add.mpr (Or.inl (Multiset.mem_singleton_self result))
  · rw [Finset.card_def, hnew, Multiset.card_add, Multiset.card_singleton, hlost]

theorem compileFile_spec (content : CString) :
    Triple 0 (compileFile content) fun output left =>
      CPug.processPugFile false 2 false content = some output ∧ left.card = lostIdsOf content := by
  refine .bindNew .malloc fun text left htext => ?_
  refine .bindNew (tokenizeFile_spec content) fun tokens _ htokens => ?_
  obtain ⟨rfl, -⟩ := htokens
  refine .bindFree (tokenListFree_spec tokens) rfl ?_
  refine .bindNew (processPugFile_spec false 2 false content) fun html _ hhtml => ?_
  obtain ⟨houtput, lost, rfl, hlost⟩ := hhtml
  have hsplit : ({html.1} : Multiset Nat) + lost + (left + 0) = {html.1} + ({text} + lost) := by
    rw [htext]
    abel
  exact .bindFree (.free html.1) hsplit (.bindFree (.free text) rfl (.ret ⟨houtput, hlost⟩))

theorem lostIds_eq_zero (ctx : ParserContext) :
    lostIds ctx = 0 ↔ ∀ s ∈ parsePugStates ctx, overwrittenIds s.rest = 0 := by
  unfold lostIds
  induction parsePugStates ctx with
  | nil => simp
  | cons s states ih =>
    rw [List.foldr_cons, Nat.add_eq_zero_iff, ih, List.forall_mem_cons]

/-- `main` gives back every block it has taken exactly if no node takes two ID tokens. -/
theorem compileFile_live_iff (content : CString) (heap : Heap) :
    ∃ output heap', compileFile content heap = some (output, heap') ∧
      CPug.processPugFile false 2 false content = some output ∧
      (heap'.live = heap.live ↔
        ∀ ctx ∈ parsePugStates (parsePugStart (CPug.tokenizeFile content)), ∀ token more,
          ctx.rest = token :: more → idCount (group token more) ≤ 1) := by
  obtain ⟨output, heap', left, hrun, hlive, hresult, hcard⟩ := (compileFile_spec content).run heap
  obtain ⟨hsub, hnew⟩ := Heap.sdiff_live hlive
  refine ⟨output, heap', hrun, hresult, ?_⟩
  have hzero : heap'.live = heap.live ↔ lostIdsOf content = 0 := by
    rw [← hcard, Multiset.card_eq_zero, ← hnew, Finset.val_eq_zero, Finset.sdiff_eq_empty_iff_subset]
    constructor
    · intro heq
      rw [heq]
    · intro hle
      exact Finset.Subset.antisymm hle hsub
  rw [hzero, lostIdsOf, lostIds_eq_zero]
  constructor
  · intro h ctx hctx token more hrest
    have := h ctx hctx
    rw [hrest, overwrittenIds] at this
    omega
  · intro h ctx hctx
    cases hrest : ctx.rest with
    | nil => rfl
    | cons token more =>
      have := h ctx hctx token more hrest
      rw [overwrittenIds]
      omega

/-- A node that takes three ID tokens loses two of them. -/
example : lostIdsOf "p#a#b#c\nq#d".toList = 2 := by decide +kernel

end CPug.Allocation
