import CPug.Document

/-!
# The document of the pretty output

The pretty output has comments and line breaks that the minified one has not, and breaks a line within
elements, so that a reader gets other texts from it. `seen` is what counts in a document: its elements,
doctypes and texts, without comments and without the blanks of the texts. With any options a reader gets
a document in which the same is seen as in that of the tree (`readHtml_renderAst`).

`Says` is `ReadAs` up to what is seen. What `render_node` appends is taken apart into pieces that say
something (an opening tag, a text, a closing tag) and layout, which says nothing.
-/

namespace CPug

open Outline

/-! ## What is seen -/

/-- What is seen of a document: texts without blanks, character by character, and no comments. -/
def seen : Forest HtmlNode → Forest HtmlNode
  | .nil => .nil
  | .node (.text s) _ next => textPieces (squeeze s) ++ seen next
  | .node (.comment _) _ next => seen next
  | .node (.doctype s) kids next => .node (.doctype s) (seen kids) (seen next)
  | .node (.element name attrs) kids next => .node (.element name attrs) (seen kids) (seen next)
  | .node (.void name attrs) kids next => .node (.void name attrs) (seen kids) (seen next)

theorem textPieces_append (s t : CString) : textPieces (s ++ t) = textPieces s ++ textPieces t := by
  induction s with
  | nil => rfl
  | cons c s ih => rw [List.cons_append, textPieces, textPieces, Forest.node_append, ih]

@[simp] theorem seen_append (f g : Forest HtmlNode) : seen (f ++ g) = seen f ++ seen g := by
  induction f with
  | nil => rfl
  | node a kids next _ ih =>
    rw [Forest.node_append]
    cases a with
    | text s => rw [seen, seen, ih, Forest.append_assoc]
    | comment s => rw [seen, seen, ih]
    | doctype | element | void => rw [seen, seen, ih, Forest.node_append]

theorem seen_textPieces (s : CString) : seen (textPieces s) = textPieces (squeeze s) := by
  induction s with
  | nil => rfl
  | cons c s ih =>
    have hsplit : squeeze (c :: s) = squeeze [c] ++ squeeze s := squeeze_append [c] s
    rw [textPieces, seen, ih, hsplit, textPieces_append]

theorem seen_text (s : CString) : seen (.leaf (.text s)) = textPieces (squeeze s) := Forest.append_nil _

/-- Joining texts changes nothing that is seen. -/
theorem seen_attach (f : Forest HtmlNode) (a : HtmlNode) (kids : Forest HtmlNode) :
    seen (f.attach HtmlNode.join a kids) = seen f ++ seen (.node a kids .nil) := by
  induction f with
  | nil => rfl
  | node b below next _ ih =>
    by_cases hnext : next = .nil
    · subst hnext
      rw [Forest.attach]
      cases hjoin : HtmlNode.join b a with
      | none =>
        show seen (.node b below .nil ++ .node a kids .nil) = _
        rw [seen_append]
      | some c =>
        cases b with
        | text s =>
          cases a with
          | text t =>
            cases hjoin
            simp only [seen, squeeze_append, textPieces_append, Forest.append_nil]
          | doctype | comment | element | void => cases hjoin
        | doctype | comment | element | void => cases hjoin
    · rw [Forest.attach_node_of_ne_nil b below hnext]
      show seen (.node b below .nil ++ next.attach HtmlNode.join a kids) =
        seen (.node b below .nil ++ next) ++ _
      rw [seen_append, seen_append, ih, Forest.append_assoc]

theorem seen_node {kids kids' : Forest HtmlNode} (h : seen kids = seen kids') (a : HtmlNode)
    (next : Forest HtmlNode) : seen (.node a kids next) = seen (.node a kids' next) := by
  cases a with
  | text | comment => rfl
  | doctype | element | void => rw [seen, seen, h]

theorem seen_joined (f done : Forest HtmlNode) :
    seen (f.joined HtmlNode.join done) = seen done ++ seen f := by
  induction f generalizing done with
  | nil => exact (Forest.append_nil _).symm
  | node a kids next ihk ihn =>
    have hkids : seen (kids.joined HtmlNode.join .nil) = seen kids := ihk .nil
    rw [Forest.joined_node, ihn, seen_attach, seen_node hkids, Forest.append_assoc, ← seen_append]
    rfl

/-- What is seen of the document of a tree. -/
theorem seen_document (f : Forest ASTNode) : seen (document f) = seen (pieces f) := by
  rw [document, seen_joined]
  rfl

/-! ## Reading up to what is seen -/

/-- What is written is read as something in which the same is seen. -/
def Says (written : CString) (f : Forest HtmlNode) : Prop :=
  ∃ g, ReadAs written g ∧ g.Childless HtmlNode.alone ∧ seen g = seen f

theorem says_nil : Says [] .nil := ⟨.nil, readAs_nil, trivial, rfl⟩

theorem Says.append {s t : CString} {f g : Forest HtmlNode} (hs : Says s f) (ht : Says t g) :
    Says (s ++ t) (f ++ g) := by
  obtain ⟨f', hread, hchildless, hseen⟩ := hs
  obtain ⟨g', hread', hchildless', hseen'⟩ := ht
  exact ⟨f' ++ g', hread.append hread', Forest.childless_append hchildless hchildless', by
    rw [seen_append, seen_append, hseen, hseen']⟩

/-- What says nothing may stand behind. -/
theorem Says.before {s t : CString} {f : Forest HtmlNode} (hs : Says s f) (ht : Says t .nil) :
    Says (s ++ t) f := by
  simpa only [Forest.append_nil] using hs.append ht

/-- What says nothing may stand in front. -/
theorem Says.behind {s t : CString} {f : Forest HtmlNode} (ht : Says t f) (hs : Says s .nil) :
    Says (s ++ t) f := hs.append ht

theorem says_escaped (s : CString) : Says (escapeHtml s) (textPieces s) :=
  ⟨textPieces s, readAs_escaped s, childless_textPieces s, rfl⟩

theorem says_raw {s : CString} (h : '<' ∉ s ∧ '&' ∉ s) : Says s (textPieces s) :=
  ⟨textPieces s, readAs_raw h, childless_textPieces s, rfl⟩

/-- A leaf is read as a leaf. -/
theorem says_leaf {written : CString} {a : HtmlNode} (h : ReadAs written (.leaf a)) :
    Says written (.leaf a) := ⟨.leaf a, h, ⟨fun _ => rfl, trivial, trivial⟩, rfl⟩

/-- Layout says nothing. -/
theorem says_layout {s : CString} (h : ∀ c ∈ s, isLayout c = true) : Says s .nil := by
  have hraw : '<' ∉ s ∧ '&' ∉ s :=
    ⟨fun hmem => Bool.noConfusion (h _ hmem), fun hmem => Bool.noConfusion (h _ hmem)⟩
  refine ⟨textPieces s, readAs_raw hraw, childless_textPieces s, ?_⟩
  rw [seen_textPieces, squeeze_eq_nil h]
  rfl

/-- A comment says nothing. -/
theorem says_comment {text : CString} (h : ¬ "-->".toList <:+: text) :
    Says ("<!--".toList ++ text ++ " -->".toList) .nil := by
  refine ⟨.leaf (.comment (text ++ [' '])), fun rest => ?_, ⟨fun _ => rfl, trivial, trivial⟩, rfl⟩
  have hcat : "<!--".toList ++ text ++ " -->".toList ++ rest =
      '<' :: ("!--".toList ++ (text ++ " -->".toList ++ rest)) := by simp
  rw [hcat, readEvents_markup (readMarkup_comment h rest)]
  rfl

/-! ## One node -/

section Options

variable (useTabs : Bool) (tabSize : Nat) (minify : Bool)

theorem says_unlessMinified {s : CString} (h : Says s .nil) : Says (unlessMinified minify s) .nil := by
  unfold unlessMinified
  split
  · exact says_nil
  · exact h

theorem says_newline : Says (unlessMinified minify ['\n']) .nil :=
  says_unlessMinified minify (says_layout fun _ hc => List.mem_singleton.mp hc ▸ rfl)

theorem says_appendIndent (depth : Nat) : Says (appendIndent useTabs tabSize depth) .nil :=
  says_layout fun _ => isLayout_of_mem_appendIndent useTabs tabSize

theorem says_indent (depth : Nat) :
    Says (unlessMinified minify (appendIndent useTabs tabSize depth)) .nil :=
  says_unlessMinified minify (says_appendIndent useTabs tabSize depth)

theorem says_newline_indent (depth : Nat) :
    Says (unlessMinified minify ('\n' :: appendIndent useTabs tabSize depth)) .nil := by
  apply says_unlessMinified
  apply says_layout
  intro c hc
  rcases List.mem_cons.mp hc with rfl | hc
  · rfl
  · exact isLayout_of_mem_appendIndent useTabs tabSize hc

theorem says_renderText (node : ASTNode) :
    Says (renderText useTabs tabSize minify node) (textPieces (node.textContent.getD [])) := by
  unfold renderText
  cases node.textContent with
  | none => exact says_nil
  | some text =>
    dsimp only
    split
    · exact says_escaped text
    · exact (says_escaped text).behind (says_newline_indent useTabs tabSize minify _)

theorem says_renderChildren (node : ASTNode) {hasChildren : Bool} {children : CString}
    {kids : Forest HtmlNode} (hkids : Says children kids)
    (hempty : hasChildren = false → kids = .nil) :
    Says (renderChildren useTabs tabSize minify node hasChildren children) kids := by
  unfold renderChildren
  cases hasChildren with
  | true =>
    rw [if_pos rfl]
    refine (hkids.behind ?_).before ?_
    · split
      · exact says_newline minify
      · exact says_nil
    · split
      · exact says_nil
      · exact says_indent useTabs tabSize minify _
  | false =>
    rw [if_neg (by simp), hempty rfl]
    split
    · exact says_newline_indent useTabs tabSize minify _
    · exact says_nil

/-- The text of a debug comment does not end it; only the pretty output has any. -/
def Unbroken (node : ASTNode) : Prop :=
  isCodeLike node = true → ¬ "-->".toList <:+: node.textContent.getD []

instance (node : ASTNode) : Decidable (Unbroken node) :=
  inferInstanceAs (Decidable (_ → _))

theorem Unbroken.debugText {node : ASTNode} (h : Unbroken node) (hdebug : isDebug node = true) :
    ¬ "-->".toList <:+: CPug.debugText node := by
  by_cases hcode : isCodeLike node = true
  · rw [infix_debugText_codeLike hcode]
    exact h hcode
  · have hcomment : node.nodeType = .tokenComment := by simpa [isDebug, hcode] using hdebug
    exact infix_debugText_comment hcomment

/-- A debug comment says nothing. -/
theorem says_renderNode_debug {node : ASTNode} (hdebug : isDebug node = true)
    (hroot : isRoot node = false) (h : minify = false → Unbroken node) (hasChildren : Bool)
    (children : CString) :
    Says (renderNode useTabs tabSize minify node hasChildren children) .nil := by
  cases minify with
  | true =>
    have hhidden : isHidden node = true := by
      unfold isDebug isCodeLike at hdebug
      cases htype : node.nodeType <;> simp [isHidden, htype] at hdebug ⊢
    rw [renderNode_hidden useTabs tabSize hhidden hroot]
    exact says_nil
  | false =>
    have hcat : renderNode useTabs tabSize false node hasChildren children =
        appendIndent useTabs tabSize node.depth ++
          ("<!--".toList ++ debugText node ++ " -->".toList) ++ ['\n'] := by
      rw [renderNode_debug hdebug hroot]
      simp
    rw [hcat]
    exact ((says_comment ((h rfl).debugText hdebug)).behind (says_appendIndent useTabs tabSize _)).before
      (says_newline false)

/-- What one call of `render_node` appends says what the node contributes to the document. -/
theorem says_renderNode {node : ASTNode} (hmade : Made node) (hread : Readable node)
    (hunbroken : minify = false → Unbroken node) {hasChildren : Bool} {children : CString}
    {kids : Forest HtmlNode} (hkids : Says children kids) (hempty : hasChildren = false → kids = .nil) :
    Says (renderNode useTabs tabSize minify node hasChildren children) (nodePieces node kids) := by
  cases hroot : isRoot node with
  | true =>
    rw [nodePieces, if_pos hroot, renderNode, if_pos hroot]
    exact hkids
  | false =>
    have hnewline := says_newline minify
    have hindent := says_indent useTabs tabSize minify node.depth
    by_cases hdebug : isDebug node = true
    · have hnone : nodePieces node kids = .nil := by
        unfold isDebug isCodeLike at hdebug
        rw [nodePieces, if_neg (by simp [hroot])]
        cases htype : node.nodeType <;> simp [htype] at hdebug ⊢
      rw [hnone]
      exact says_renderNode_debug useTabs tabSize minify hdebug hroot hunbroken _ _
    rw [nodePieces, if_neg (by simp [hroot]), renderNode, if_neg (by simp [hroot])]
    cases htype : node.nodeType with
    | tokenTag =>
      dsimp only
      split
      · exact ((says_leaf (readAs_void hmade hread htype)).before hnewline).behind hindent
      · obtain ⟨inner, hinner, hchildless, hseen⟩ :=
          (says_renderText useTabs tabSize minify node).append
            (says_renderChildren useTabs tabSize minify node hkids hempty)
        have helement : Says (renderOpening node ++ ['>'] ++ renderText useTabs tabSize minify node ++
            renderChildren useTabs tabSize minify node hasChildren children ++ "</".toList ++
            node.tag.getD "div".toList ++ ['>'])
            (.node (.element (node.tag.getD "div".toList) (htmlAttributes node))
              (textPieces (node.textContent.getD []) ++ kids) .nil) := by
          refine ⟨.node (.element (node.tag.getD "div".toList) (htmlAttributes node)) inner .nil, ?_,
            ⟨fun h => Bool.noConfusion h, hchildless, trivial⟩, seen_node hseen _ _⟩
          have h := readAs_element hmade hread htype hinner
          simpa only [List.append_assoc] using h
        exact (helement.before hnewline).behind hindent
    | tokenDoctype =>
      refine Says.behind (Says.before (says_leaf (readAs_doctype ?_)) hnewline) hindent
      cases htext : node.textContent with
      | none => decide
      | some text => exact hread.doctype htype text htext
    | tokenText | tokenPipe | tokenDot =>
      refine Says.behind (Says.before ?_ hnewline) hindent
      cases node.textContent with
      | none => exact says_nil
      | some text => exact says_escaped text
    | tokenInterpolation =>
      refine Says.behind (Says.before ?_ hnewline) hindent
      cases htext : node.textContent with
      | none => exact says_nil
      | some text =>
        obtain ⟨hlt, hamp⟩ := hread.interpolation htype text htext
        exact says_raw (by simp [hlt, hamp])
    | tokenComment | tokenCode | tokenInclude | tokenExtends | tokenMixin | tokenCall =>
      exact absurd (by simp [isDebug, isCodeLike, htype]) hdebug
    | tokenBlockComment | tokenClass | tokenId | tokenAttribute | tokenIndentation | tokenEof =>
      exact Says.before hindent says_nil

/-! ## Trees -/

theorem says_renderNodes {f : Forest ASTNode}
    (h : ∀ node ∈ f.labels, Made node ∧ Readable node ∧ (minify = false → Unbroken node)) :
    Says (renderNodes useTabs tabSize minify f) (pieces f) := by
  induction f with
  | nil => exact says_nil
  | node a kids next ihk ihn =>
    have hkids := ihk fun node hn => h node (List.mem_cons_of_mem _ (List.mem_append_left _ hn))
    have hnext := ihn fun node hn => h node (List.mem_cons_of_mem _ (List.mem_append_right _ hn))
    obtain ⟨hmade, hread, hunbroken⟩ := h a List.mem_cons_self
    refine (says_renderNode useTabs tabSize minify hmade hread hunbroken hkids fun hnone => ?_).append
      hnext
    have hnil : kids = .nil := by simpa using hnone
    rw [hnil]
    rfl

end Options

/-- A reader gets a document in which the same is seen. -/
theorem Says.readHtml {written : CString} {f : Forest HtmlNode} (h : Says written f) :
    ∃ d, CPug.readHtml written = some d ∧ seen d = seen f := by
  obtain ⟨g, hread, hchildless, hseen⟩ := h
  have hevents := hread []
  rw [List.append_nil, readEvents_nil, Option.map_some, List.append_nil] at hevents
  refine ⟨g.joined HtmlNode.join .nil, ?_, ?_⟩
  · rw [CPug.readHtml, hevents, Option.bind_some, assemble_events hchildless]
  · rw [seen_joined, hseen]
    rfl

/-- **Options do not change the meaning.** Whatever the template and the options, a reader of the output
gets a document in which the same is seen as in that of the tree, if what the renderer writes as it is
leaves the markup alone. -/
theorem readHtml_renderAst {content : CString} {ctx : ParserContext}
    (h : parsePug (tokenizeFile content) = some ctx) (useTabs : Bool) (tabSize : Nat) (minify : Bool)
    (hread : ∀ node ∈ (rootNode ctx).labels, Readable node)
    (hunbroken : minify = false → ∀ node ∈ (rootNode ctx).labels, Unbroken node) :
    ∃ d, readHtml (renderAst useTabs tabSize minify (rootNode ctx)) = some d ∧
      seen d = seen (document (rootNode ctx)) := by
  obtain ⟨kids, hroot, hmade⟩ := parsePug_made h
  have hlabels : (rootNode ctx).labels = rootLabel :: kids.labels := by simp [hroot]
  have hpieces : pieces (rootNode ctx) = pieces kids := by
    rw [hroot, pieces, pieces, Forest.append_nil, nodePieces, if_pos (by decide)]
  rw [seen_document, hpieces, hroot, renderAst_root]
  apply Says.readHtml
  apply says_renderNodes
  intro node hnode
  have hmem : node ∈ (rootNode ctx).labels := by
    rw [hlabels]
    exact List.mem_cons_of_mem _ hnode
  exact ⟨hmade node hnode, hread node hmem, fun hm => hunbroken hm node hmem⟩

theorem readHtml_renderAst_list :
    ∃ ctx, parsePug (tokenizeFile "ul\n  li(x='1') a < b\n  //- note\n  | c\n  br".toList) = some ctx ∧
      ∃ d, readHtml (renderAst true 4 false (rootNode ctx)) = some d ∧
        seen d = seen (document (rootNode ctx)) := by
  obtain ⟨ctx, hctx⟩ := exists_parsePug "ul\n  li(x='1') a < b\n  //- note\n  | c\n  br".toList
  have hread : ∀ ctx ∈ parsePug (tokenizeFile "ul\n  li(x='1') a < b\n  //- note\n  | c\n  br".toList),
      ∀ node ∈ (rootNode ctx).labels, Readable node ∧ Unbroken node := by decide +kernel
  exact ⟨ctx, hctx, readHtml_renderAst hctx true 4 false (fun node hn => (hread ctx hctx node hn).1)
    fun _ node hn => (hread ctx hctx node hn).2⟩

end CPug
