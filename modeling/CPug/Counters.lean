import CPug.Columns
import CPug.Extent
import CPug.TokenInvariant

/-!
# The counters

The structures of the program count in `unsigned int`: depths, lines, columns, the number of tokens, children,
classes and attributes, and the position in the token list. None of them passes the length of the file by more
than one at any time of a run (`counters_le`), so that on a file of less than `2 ^ 32 - 1` characters no
counter wraps, and the natural numbers of the model are those of the program.
-/

namespace CPug

open Outline

/-! ## Tokens -/

theorem countIndentLevel_le (line : CString) : countIndentLevel line ≤ line.length := by
  fun_induction countIndentLevel line with
  | case1 => exact Nat.le_refl 0
  | case2 rest ih =>
    rw [List.length_cons]
    omega
  | case3 rest _ ih =>
    have hsplit := length_takeWhile_add (· == ' ') rest
    rw [List.length_cons]
    omega
  | case4 => exact Nat.zero_le _

theorem length_gStrsplit_le (content : CString) (delimiter : Char) :
    (gStrsplit content delimiter).length ≤ content.length + 1 := by
  by_cases hnil : content = []
  · rw [hnil]
    exact Nat.zero_le _
  · have hsplit := total_length_splitOn content delimiter
    rw [total_succ List.length] at hsplit
    rw [gStrsplit_of_ne_nil hnil]
    omega

theorem length_line_le {content line : CString} {delimiter : Char}
    (h : line ∈ gStrsplit content delimiter) : line.length ≤ content.length :=
  Nat.le_trans (le_total_of_mem (w := List.length) h) (total_length_gStrsplit_le content delimiter)

/-- The numbers in a token of a file. -/
theorem token_le {content : CString} {t : Token} (h : t ∈ tokenizeFile content)
    (ht : t.type ≠ .tokenEof) :
    t.depth ≤ content.length ∧ t.line ≤ content.length + 1 ∧ t.column ≤ content.length := by
  rcases List.mem_append.mp h with h | h
  · obtain ⟨i, line, hline, hmem⟩ := exists_line_of_mem h
    have hi := (List.getElem?_eq_some_iff.mp hline).1
    have hlines := length_gStrsplit_le content '\n'
    have hlength := length_line_le (List.mem_of_getElem? hline)
    have htoken := tokenizeLine_lineToken line (1 + i) t hmem
    have hcolumn := (tokenizeLine_columnsWithin line (1 + i) t hmem).2
    have hdepth := countIndentLevel_le line
    rw [htoken.depth, htoken.line]
    omega
  · rw [List.mem_singleton.mp h] at ht
    exact absurd rfl ht

/-! ## Nodes -/

/-- The numbers in a node. -/
structure NodeWithin (n : Nat) (node : ASTNode) : Prop where
  depth : node.depth ≤ n
  line : node.line ≤ n
  column : node.column ≤ n
  classes : node.classes.length ≤ n
  attributes : (node.attributes.getD []).length ≤ n

theorem length_parseAttributes_le (value : CString) :
    (parseAttributes value).length ≤ value.length + 1 :=
  Nat.le_trans (List.length_filterMap_le _ _) (length_gStrsplit_le value ',')

/-- A token adds one class at the most, and no more attributes than it takes characters. -/
theorem absorbToken_lists_le (node : ASTNode) (token : Token) :
    (absorbToken node token).classes.length ≤ node.classes.length + 1 ∧
      ((absorbToken node token).attributes.getD []).length ≤
        (node.attributes.getD []).length + token.extent := by
  rw [absorbToken]
  split
  · rename_i taken hstep
    unfold absorbStep at hstep
    split at hstep
    · cases hstep
    split at hstep
    · cases hstep
      exact ⟨Nat.le_succ _, Nat.le_add_right _ _⟩
    · cases hstep
      rw [parseClasses]
      split
      · exact ⟨Nat.le_succ _, Nat.le_add_right _ _⟩
      · exact ⟨by rw [List.length_append, List.length_singleton], Nat.le_add_right _ _⟩
    · rename_i htype
      split at hstep
      · cases hstep
      · rename_i value hvalue
        cases hstep
        have hparsed := length_parseAttributes_le value
        refine ⟨Nat.le_succ _, ?_⟩
        rw [Option.getD_some, List.length_append, Token.extent, htype, hvalue, Option.getD_some]
        show _ ≤ _ + (1 + value.length)
        omega
    · cases hstep
      exact ⟨Nat.le_succ _, Nat.le_add_right _ _⟩
    · cases hstep
      exact ⟨Nat.le_succ _, Nat.le_add_right _ _⟩
    · cases hstep
  · exact ⟨Nat.le_succ _, Nat.le_add_right _ _⟩

theorem foldl_lists_le (tokens : List Token) (node : ASTNode) :
    (tokens.foldl absorbToken node).classes.length ≤ node.classes.length + tokens.length ∧
      ((tokens.foldl absorbToken node).attributes.getD []).length ≤
        (node.attributes.getD []).length + total Token.extent tokens := by
  induction tokens generalizing node with
  | nil => exact ⟨Nat.le_refl _, Nat.le_refl _⟩
  | cons token tokens ih =>
    obtain ⟨hclasses, hattributes⟩ := absorbToken_lists_le node token
    obtain ⟨hclasses', hattributes'⟩ := ih (absorbToken node token)
    rw [List.foldl_cons, List.length_cons, total_cons]
    omega

theorem startNode_lists {token : Token} (hs : token.type.startsNode = true) :
    (startNode token).classes = [] ∧ (startNode token).attributes = none := by
  have he : token.type ≠ .tokenEof := ne_eof_of_startsNode hs
  rw [startNode, parseNodeFrom, if_neg he]
  cases htype : token.type <;> simp [htype, TokenType.startsNode, absorb, astNodeCreate] at hs ⊢

/-- The node of a token of a file and its group. -/
theorem nodeWithin_group {content : CString} {token : Token} {more : List Token}
    (h : token :: more <:+ tokenizeFile content) (hs : token.type.startsNode = true) :
    NodeWithin (content.length + 1) ((group token more).foldl absorbToken (startNode token)) := by
  obtain ⟨hdepth, hline, hcolumn⟩ := token_le (h.subset List.mem_cons_self) (ne_eof_of_startsNode hs)
  have hhead := startNode_head hs
  have hsame := foldl_absorbToken_sameHead (startNode token) (group token more)
  have hlists := foldl_lists_le (group token more) (startNode token)
  rw [(startNode_lists hs).1, (startNode_lists hs).2] at hlists
  have hgroup : (group token more).Sublist (tokenizeFile content) := by
    rw [← take_length_group token more]
    exact (List.take_sublist _ _).trans ((List.sublist_cons_self _ _).trans h.sublist)
  have hcount := hgroup.length_le
  have hextent := total_sublist hgroup Token.extent
  have htokens := length_tokenizeFile_le content
  have hfile := total_extent_tokenizeFile content
  refine ⟨?_, ?_, ?_, ?_, ?_⟩
  · rw [hsame.depth, hhead.1]
    omega
  · rw [hsame.line, hhead.2.1]
    exact hline
  · rw [hsame.column, hhead.2.2]
    omega
  · have hclasses := hlists.1
    rw [List.length_nil] at hclasses
    omega
  · have hattributes := hlists.2
    rw [Option.getD_none, List.length_nil] at hattributes
    omega

/-! ## Runs -/

/-- The nodes in memory are those of tokens and their groups, below the root. -/
def NodesFrom (tokens : List Token) (ctx : ParserContext) : Prop :=
  ctx.tokens = tokens ∧ ∀ node ∈ ctx.memory.map Cell.label, node = rootLabel ∨ ∃ token more,
    token :: more <:+ tokens ∧ token.type.startsNode = true ∧
      node = (group token more).foldl absorbToken (startNode token)

theorem NodesFrom.round {tokens : List Token} {ctx next : ParserContext} (h : NodesFrom tokens ctx)
    (hround : parsePugRound ctx = .next next) : NodesFrom tokens next := by
  obtain ⟨htokens, hnodes⟩ := h
  rcases parsePugRound_next_cases hround with ⟨node, advanced, hnode, rfl⟩ | ⟨_, _, -, -, -, rfl⟩
  · refine ⟨htokens, fun made hmade => ?_⟩
    rw [labels_addNode, memory_advance] at hmade
    rcases List.mem_append.mp hmade with hmade | hmade
    · exact hnodes made hmade
    · rw [List.mem_singleton.mp hmade]
      rcases parseNodeFrom_cases ctx.rest with ⟨hnull, -⟩ | ⟨_, _, -, -, -, hnull⟩ | ⟨hnull, -⟩ |
          ⟨token, more, hrest, hs, hmakes⟩
      · cases hnull.symm.trans hnode
      · cases hnull.symm.trans hnode
      · cases hnull.symm.trans hnode
      · cases hmakes.symm.trans hnode
        refine Or.inr ⟨token, more, ?_, hs, rfl⟩
        rw [← hrest, ← htokens]
        exact List.drop_suffix _ _
  · exact ⟨htokens, hnodes⟩

/-- The root is nobody's child. -/
theorem length_childrenOf_lt {cells : List (Cell ASTNode)} (h : Linked rootLabel cells) (p : Nat) :
    (childrenOf cells p).length < cells.length := by
  obtain ⟨children, hroot⟩ := h.root
  have hzero : 0 ∈ List.range cells.length := List.mem_range.mpr h.length_pos
  have hnot : ¬ ((cells[0]?.bind Cell.parent) == some p) = true := by simp [hroot]
  calc (childrenOf cells p).length < (List.range cells.length).length :=
        List.length_filter_lt_length_iff_exists.mpr ⟨0, hzero, hnot⟩
    _ = cells.length := List.length_range

/-- What a round keeps: the position is in the list, and no more nodes have been made than tokens passed. -/
structure Counted (tokens : List Token) (ctx : ParserContext) : Prop where
  nodes : NodesFrom tokens ctx
  position : ctx.currentToken ≤ ctx.tokens.length
  memory : ctx.memory.length ≤ ctx.currentToken + 1

theorem Counted.round {tokens : List Token} {ctx next : ParserContext} (h : Counted tokens ctx)
    (hround : parsePugRound ctx = .next next) : Counted tokens next := by
  obtain ⟨htokens, hlt, hle⟩ := parsePugRound_progress hround
  refine ⟨h.nodes.round hround, by rw [htokens]; exact hle, ?_⟩
  have hmemory := h.memory
  rcases parsePugRound_next_cases hround with ⟨node, advanced, hnode, rfl⟩ | ⟨_, _, -, -, -, rfl⟩
  · have hlength : (addNode (parserAdvanceToken ctx advanced) node).memory.length =
        ctx.memory.length + 1 := length_addChild _ _
    omega
  · rw [memory_advance]
    omega

theorem counted_start (tokens : List Token) : Counted tokens (parsePugStart tokens) := by
  refine ⟨⟨rfl, fun node hnode => Or.inl (List.mem_singleton.mp hnode)⟩, Nat.zero_le _, Nat.le_refl 1⟩

/-- At any time of a run on the file, the number of tokens, the position in their list and the numbers in
every node are at most the length of the file and one. -/
def CountersWithin (content : CString) : Prop :=
  ∀ ctx ∈ parsePugStates (parsePugStart (tokenizeFile content)),
    ctx.tokens.length ≤ content.length + 1 ∧ ctx.currentToken ≤ content.length + 1 ∧
      ∀ cell ∈ ctx.memory, cell.children.length ≤ content.length + 1 ∧
        (cell.label = rootLabel ∨ NodeWithin (content.length + 1) cell.label)

/-- **No counter wraps**, on a file of less than `2 ^ 32 - 1` characters. -/
theorem counters_le (content : CString) : CountersWithin content := by
  intro ctx hctx
  have hcounted := parsePugStates_invariant (fun _ _ h hround => Counted.round h hround)
    (counted_start (tokenizeFile content)) ctx hctx
  have htokens := length_tokenizeFile_le content
  obtain ⟨⟨hsame, hnodes⟩, hposition, hmemory⟩ := hcounted
  rw [hsame] at hposition ⊢
  refine ⟨htokens, by omega, fun cell hcell => ⟨?_, ?_⟩⟩
  · obtain ⟨i, hi⟩ := List.getElem?_of_mem hcell
    have hlinked := (shaped_of_mem _ ctx hctx).linked
    have hchildren := length_childrenOf_lt hlinked i
    rw [hlinked.children i cell hi]
    omega
  · rcases hnodes cell.label (List.mem_map_of_mem hcell) with hroot | ⟨token, more, hsuffix, hs, hmade⟩
    · exact Or.inl hroot
    · rw [hmade]
      exact Or.inr (nodeWithin_group hsuffix hs)

end CPug
