import CPug.Nodes

/-!
# Pretty and minified output

The tests of the `minify` flag in `render_node` guard two kinds of text: the comments made of COMMENT,
BLOCK_COMMENT, CODE, INCLUDE, EXTENDS, MIXIN and CALL nodes (`isHidden`), and blanks and
line breaks. So the hidden nodes make no difference to the minified output
(`renderNodes_withoutHidden`), and without them the two outputs have the same characters other than
blanks and line breaks (`squeeze_renderNodes`).
-/

namespace CPug

open Outline

/-! ## Characters of the layout -/

/-- The characters that only lay the output out. -/
def isLayout (c : Char) : Bool := c == ' ' || c == '\t' || c == '\n'

/-- A string without spaces, tabs and newlines. -/
def squeeze (s : CString) : CString := s.filter fun c => !isLayout c

theorem squeeze_append (s t : CString) : squeeze (s ++ t) = squeeze s ++ squeeze t :=
  List.filter_append ..

theorem squeeze_eq_nil {s : CString} (h : ∀ c ∈ s, isLayout c = true) : squeeze s = [] := by
  rw [squeeze, List.filter_eq_nil_iff]
  intro c hc
  simp [h c hc]

section Options

variable (useTabs : Bool) (tabSize : Nat) (minify : Bool)

theorem isLayout_of_mem_appendIndent {depth : Nat} {c : Char}
    (h : c ∈ appendIndent useTabs tabSize depth) : isLayout c = true := by
  unfold appendIndent at h
  obtain ⟨unit, hunit, hc⟩ := List.mem_flatten.mp h
  rw [List.eq_of_mem_replicate hunit] at hc
  split at hc
  · rw [List.mem_singleton.mp hc]
    rfl
  · rw [List.eq_of_mem_replicate hc]
    rfl

@[simp] theorem squeeze_appendIndent (depth : Nat) :
    squeeze (appendIndent useTabs tabSize depth) = [] :=
  squeeze_eq_nil fun _ => isLayout_of_mem_appendIndent useTabs tabSize

/-- Layout that is left out of the minified output is not seen. -/
theorem squeeze_unlessMinified {s : CString} (h : squeeze s = []) :
    squeeze (unlessMinified minify s) = [] := by
  unfold unlessMinified
  split
  · rfl
  · exact h

@[simp] theorem squeeze_newline : squeeze (unlessMinified minify ['\n']) = [] :=
  squeeze_unlessMinified minify rfl

@[simp] theorem squeeze_indent (depth : Nat) :
    squeeze (unlessMinified minify (appendIndent useTabs tabSize depth)) = [] :=
  squeeze_unlessMinified minify (squeeze_appendIndent useTabs tabSize depth)

@[simp] theorem squeeze_newline_indent (depth : Nat) :
    squeeze (unlessMinified minify ('\n' :: appendIndent useTabs tabSize depth)) = [] :=
  squeeze_unlessMinified minify (squeeze_appendIndent useTabs tabSize depth)

/-! ## One node -/

/-- The nodes of which the minified output has nothing. -/
def isHidden (node : ASTNode) : Bool :=
  match node.nodeType with
  | .tokenComment | .tokenBlockComment | .tokenCode | .tokenInclude | .tokenExtends
  | .tokenMixin | .tokenCall => true
  | _ => false

theorem squeeze_renderText (minify' : Bool) (node : ASTNode) :
    squeeze (renderText useTabs tabSize minify node) =
      squeeze (renderText useTabs tabSize minify' node) := by
  unfold renderText
  cases node.textContent with
  | none => rfl
  | some text =>
    dsimp only
    split
    · rfl
    · rw [squeeze_append, squeeze_append, squeeze_newline_indent, squeeze_newline_indent]

theorem squeeze_renderChildren (node : ASTNode) (hasChildren : Bool) (children : CString)
    (h : hasChildren = false → children = []) :
    squeeze (renderChildren useTabs tabSize minify node hasChildren children) =
      squeeze children := by
  unfold renderChildren
  cases hasChildren with
  | true =>
    have hbefore : squeeze (if node.textContent.isNone || node.isBlock then
        unlessMinified minify ['\n'] else []) = [] := by
      split
      · exact squeeze_newline minify
      · rfl
    have hafter : squeeze (if node.isInline then [] else
        unlessMinified minify (appendIndent useTabs tabSize node.depth)) = [] := by
      split
      · rfl
      · exact squeeze_indent useTabs tabSize minify _
    rw [if_pos rfl, squeeze_append, squeeze_append, hbefore, hafter, List.nil_append,
      List.append_nil]
  | false =>
    rw [if_neg (by simp), h rfl]
    split
    · exact squeeze_newline_indent useTabs tabSize minify _
    · rfl

/-- A node that is not hidden has the same characters in both outputs, up to the layout. -/
theorem squeeze_renderNode {node : ASTNode} (hhidden : isHidden node = false)
    {hasChildren : Bool} {children children' : CString}
    (h : hasChildren = false → children = [] ∧ children' = [])
    (hc : squeeze children = squeeze children') :
    squeeze (renderNode useTabs tabSize false node hasChildren children) =
      squeeze (renderNode useTabs tabSize true node hasChildren children') := by
  unfold renderNode
  by_cases hroot : isRoot node = true
  · rw [if_pos hroot, if_pos hroot, hc]
  rw [if_neg hroot, if_neg hroot, squeeze_append, squeeze_append, squeeze_indent, squeeze_indent,
    List.nil_append, List.nil_append]
  cases htype : node.nodeType with
  | tokenTag =>
    dsimp only
    split
    · simp only [squeeze_append, squeeze_newline]
    · simp only [squeeze_append, squeeze_newline]
      rw [squeeze_renderText useTabs tabSize false true,
        squeeze_renderChildren useTabs tabSize false node _ _ fun hn => (h hn).1,
        squeeze_renderChildren useTabs tabSize true node _ _ fun hn => (h hn).2, hc]
  | tokenText | tokenPipe | tokenDot | tokenDoctype | tokenInterpolation =>
    simp only [squeeze_append, squeeze_newline]
  | tokenClass | tokenId | tokenAttribute | tokenIndentation | tokenEof => rfl
  | tokenComment | tokenBlockComment | tokenCode | tokenInclude | tokenExtends | tokenMixin
  | tokenCall => simp [isHidden, htype] at hhidden

/-- The minified output has nothing of a hidden node. -/
theorem renderNode_hidden {node : ASTNode} (hhidden : isHidden node = true)
    (hroot : isRoot node = false) (hasChildren : Bool) (children : CString) :
    renderNode useTabs tabSize true node hasChildren children = [] := by
  unfold renderNode
  rw [if_neg (by simp [hroot])]
  cases htype : node.nodeType with
  | tokenComment | tokenBlockComment | tokenCode | tokenInclude | tokenExtends | tokenMixin
  | tokenCall => rfl
  | tokenTag | tokenClass | tokenId | tokenAttribute | tokenText | tokenIndentation | tokenDot
  | tokenPipe | tokenInterpolation | tokenDoctype | tokenEof =>
    simp [isHidden, htype] at hhidden

theorem renderText_minified (node : ASTNode) :
    renderText useTabs tabSize true node = (node.textContent.map escapeHtml).getD [] := by
  unfold renderText unlessMinified
  cases node.textContent with
  | none => rfl
  | some text =>
    dsimp only
    split <;> rfl

/-- Children that append nothing may be there or not. -/
theorem renderChildren_minified (node : ASTNode) {hasChildren : Bool} {children : CString}
    (h : hasChildren = false → children = []) :
    renderChildren useTabs tabSize true node hasChildren children = children := by
  unfold renderChildren
  cases hasChildren with
  | true => simp [unlessMinified]
  | false =>
    rw [h rfl]
    simp [unlessMinified]

/-- A TAG node in the minified output. -/
theorem renderNode_tag {node : ASTNode} (htype : node.nodeType = .tokenTag)
    (hroot : isRoot node = false) {hasChildren : Bool} {children : CString}
    (h : hasChildren = false → children = []) :
    renderNode useTabs tabSize true node hasChildren children =
      if rendersVoid node then renderOpening node ++ " />".toList
      else renderOpening node ++ ['>'] ++ (node.textContent.map escapeHtml).getD [] ++ children ++
        "</".toList ++ node.tag.getD "div".toList ++ ['>'] := by
  unfold renderNode
  rw [if_neg (by simp [hroot]), htype, renderText_minified,
    renderChildren_minified useTabs tabSize node h]
  simp [unlessMinified]

/-- The minified output does not ask whether there are children when these append nothing. -/
theorem renderNode_children (node : ASTNode) {hasChildren hasChildren' : Bool}
    {children : CString} (h : hasChildren = false → children = [])
    (h' : hasChildren' = false → children = []) :
    renderNode useTabs tabSize true node hasChildren children =
      renderNode useTabs tabSize true node hasChildren' children := by
  unfold renderNode
  rw [renderChildren_minified useTabs tabSize node h, renderChildren_minified useTabs tabSize node h']

/-! ## Trees -/

/-- The forest without its hidden nodes and what is below them. -/
def withoutHidden (f : Forest ASTNode) : Forest ASTNode := f.prune isHidden

/-- The hidden nodes make no difference to the minified output. -/
theorem renderNodes_withoutHidden {f : Forest ASTNode}
    (h : ∀ node ∈ f.labels, isHidden node = true → isRoot node = false) :
    renderNodes useTabs tabSize true (withoutHidden f) = renderNodes useTabs tabSize true f := by
  induction f with
  | nil => rfl
  | node node kids next ihk ihn =>
    have hkids := ihk fun a ha =>
      h a (List.mem_cons_of_mem _ (List.mem_append_left _ ha))
    have hnext := ihn fun a ha =>
      h a (List.mem_cons_of_mem _ (List.mem_append_right _ ha))
    unfold withoutHidden at hkids hnext ⊢
    cases hhidden : isHidden node with
    | true =>
      rw [Forest.prune_node_of_drops hhidden, renderNodes,
        renderNode_hidden useTabs tabSize hhidden (h node List.mem_cons_self hhidden),
        List.nil_append, hnext]
    | false =>
      rw [Forest.prune_node_of_keeps hhidden, renderNodes, renderNodes, hnext, hkids]
      congr 1
      apply renderNode_children
      · intro hnil
        have hnil' : kids.prune isHidden = .nil := by
          simpa using hnil
        rw [← hkids, hnil', renderNodes]
      · intro hnil
        have hnil' : kids = .nil := by simpa using hnil
        rw [hnil', renderNodes]

/-- Without hidden nodes both outputs have the same characters, up to the layout. -/
theorem squeeze_renderNodes {f : Forest ASTNode}
    (h : ∀ node ∈ f.labels, isHidden node = false) :
    squeeze (renderNodes useTabs tabSize false f) = squeeze (renderNodes useTabs tabSize true f) := by
  induction f with
  | nil => rfl
  | node node kids next ihk ihn =>
    have hkids := ihk fun a ha => h a (List.mem_cons_of_mem _ (List.mem_append_left _ ha))
    have hnext := ihn fun a ha => h a (List.mem_cons_of_mem _ (List.mem_append_right _ ha))
    rw [renderNodes, renderNodes, squeeze_append, squeeze_append, hnext]
    congr 1
    refine squeeze_renderNode useTabs tabSize (h node List.mem_cons_self) (fun hnil => ?_) hkids
    have hnil' : kids = .nil := by simpa using hnil
    rw [hnil']
    exact ⟨rfl, rfl⟩

end Options

/-! ## The tree of the parser -/

/-- In the tree of any token list only TAG nodes can be taken for the root. -/
theorem parsePug_hidden {tokens : List Token} {ctx : ParserContext}
    (h : parsePug tokens = some ctx) :
    ∀ node ∈ (rootNode ctx).labels, isHidden node = true → isRoot node = false := by
  obtain ⟨kids, hnode, hnodes⟩ := parsePug_nodes h
  intro node hmem hhidden
  rw [hnode, Forest.labels_node, Forest.labels_nil, List.append_nil] at hmem
  rcases List.mem_cons.mp hmem with rfl | hmem
  · cases hhidden
  · obtain ⟨token, more, -, hs, heq⟩ := hnodes node hmem
    have hsame := foldl_absorbToken_sameHead (startNode token) (group token more)
    rw [← heq] at hsame
    by_cases ht : token.type = .tokenTag
    · have htype : (startNode token).nodeType = .tokenTag := by
        simp [startNode, parseNodeFrom, ht, absorb, astNodeCreate]
      simp [isHidden, hsame.nodeType, htype] at hhidden
    · rw [isRoot, hsame.tag]
      exact (startNode_of_ne_tag hs ht).2.2.1

/-- **Pretty and minified output.** For the tree of any token list, leaving out the COMMENT,
BLOCK_COMMENT, CODE, INCLUDE, EXTENDS, MIXIN and CALL nodes does not change the minified output, and
without them the pretty output is the minified one up to spaces, tabs and newlines. -/
theorem renderAst_pretty {tokens : List Token} {ctx : ParserContext}
    (h : parsePug tokens = some ctx) (useTabs : Bool) (tabSize : Nat) :
    renderAst useTabs tabSize true (rootNode ctx) =
        renderAst useTabs tabSize true (withoutHidden (rootNode ctx)) ∧
      squeeze (renderAst useTabs tabSize false (withoutHidden (rootNode ctx))) =
        squeeze (renderAst useTabs tabSize true (withoutHidden (rootNode ctx))) :=
  ⟨(renderNodes_withoutHidden useTabs tabSize (parsePug_hidden h)).symm,
    squeeze_renderNodes useTabs tabSize fun _ hmem => Forest.mem_labels_prune hmem⟩

theorem renderAst_pretty_paragraph :
    ∃ ctx, parsePug (tokenizeFile "p.x a\n  // b\n  | c".toList) = some ctx ∧
      renderAst false 2 true (rootNode ctx) =
          renderAst false 2 true (withoutHidden (rootNode ctx)) ∧
        squeeze (renderAst false 2 false (withoutHidden (rootNode ctx))) =
          squeeze (renderAst false 2 true (withoutHidden (rootNode ctx))) := by
  obtain ⟨ctx, hctx⟩ := exists_parsePug "p.x a\n  // b\n  | c".toList
  exact ⟨ctx, hctx, renderAst_pretty hctx false 2⟩

end CPug
