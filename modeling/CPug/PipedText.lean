import CPug.Composition
import CPug.PrettyPrint
import CPug.RoundTrip
import CPug.TextPieces

/-!
# Inline text and piped text

The text of an element can stand behind its head or on a line `| text` below, one level deeper. The
two ways give different trees: the content of the TAG node, or a TEXT node as its first child. Both
are printed by `printPiped`, with a mark for each element; `processPugFile_piped` says that the
minified output does not depend on the marks.
-/

namespace CPug

open Outline

/-- The head of an element and its text. Between the parentheses stands any text without
parentheses. -/
structure PipedElement where
  tag : CString
  id : Option CString
  classes : List CString
  attributes : Option CString
  text : Option CString
  tag_ok : IsTagName tag
  tag_noKeyword : NoKeyword tag
  tag_ne_root : tag ≠ "root".toList
  id_ok : ∀ word ∈ id, IsWord word
  classes_ok : ∀ word ∈ classes, IsWord word
  attributes_ok : ∀ value ∈ attributes, '(' ∉ value ∧ ')' ∉ value ∧ '\n' ∉ value
  text_ok : ∀ t ∈ text, '#' ∉ t ∧ '\n' ∉ t ∧ (skipWhitespace t).head? ≠ some '.'

/-! ## Printing -/

def printParens : Option CString → CString
  | none => []
  | some value => '(' :: (value ++ [')'])

/-- What follows the tag name, with `tail` after the head. -/
def printParts (e : PipedElement) (tail : CString) : CString :=
  printId e.id ++ (printClasses e.classes ++ (printParens e.attributes ++ tail))

/-- The line of an element of level `k`, with `tail` after the head. -/
def elementLine (k : Nat) (e : PipedElement) (tail : CString) : CString :=
  List.replicate (2 * k) ' ' ++ (e.tag ++ printParts e tail)

/-- The line of a piped text of level `k`. -/
def pipeLine (k : Nat) (text : CString) : CString :=
  List.replicate (2 * k) ' ' ++ '|' :: ' ' :: text

/-- The lines of an element of level `k`; the text is piped when the mark is set. -/
def elementLines (k : Nat) (p : PipedElement × Bool) : List CString :=
  match p.1.text, p.2 with
  | some text, true => [elementLine k p.1 [], pipeLine (k + 1) text]
  | text, _ => [elementLine k p.1 (printText text)]

/-- One element after the other, parents before children. -/
def printPiped (f : Forest (PipedElement × Bool)) : CString :=
  ['\n'].intercalate ((f.withLevel 0).labels.flatMap fun p => elementLines p.1 p.2)

/-! ## The tokens of a line -/

def parensTokens (depth : Nat) : Option CString → List Token
  | none => []
  | some value => [createToken .tokenAttribute (some value) depth 0 0]

/-- The tokens of a head, without the TAG token. -/
def headParts (depth : Nat) (e : PipedElement) : List Token :=
  idTokens depth e.id ++ (classTokens depth e.classes ++ parensTokens depth e.attributes)

/-- The token of the text behind a head. -/
def inlineTokens (depth : Nat) (text : Option CString) : List Token :=
  textToken depth 0 0 (skipWhitespace (text.getD []))

/-- A TAG token and what its node takes. -/
def tagBlock (depth : Nat) (e : PipedElement) (tail : List Token) : Token × List Token :=
  (createToken .tokenTag (some e.tag) depth 0 0, headParts depth e ++ tail)

def pipeBlock (depth : Nat) (text : CString) : Token × List Token :=
  (createToken .tokenPipe (some (skipWhitespace text)) depth 0 0, [])

/-- The blocks of the lines of an element. -/
def elementBlocks (k : Nat) (p : PipedElement × Bool) : List (Token × List Token) :=
  match p.1.text, p.2 with
  | some text, true => [tagBlock k p.1 [], pipeBlock (k + 1) text]
  | text, _ => [tagBlock k p.1 (inlineTokens k text)]

section Line

variable {k : Nat} {e : PipedElement}

theorem delimited_parens {attributes : Option CString} {rest : CString} (h : Delimited rest) :
    Delimited (printParens attributes ++ rest) := by
  cases attributes with
  | none => exact h
  | some value => exact .cons (Or.inr (Or.inr (Or.inl rfl))) _

theorem delimited_printParts {tail : CString} (h : Delimited tail) :
    Delimited (printParts e tail) :=
  delimited_id (delimited_classes (delimited_parens h))

theorem loopTokens_parens {attributes : Option CString} {rest : CString}
    (h : ∀ value ∈ attributes, '(' ∉ value ∧ ')' ∉ value ∧ '\n' ∉ value) :
    loopTokens k (printParens attributes ++ rest) =
      parensTokens k attributes ++ loopTokens k rest := by
  cases attributes with
  | none => rfl
  | some value =>
    obtain ⟨hopen, hclose, -⟩ := h value rfl
    have hprint : printParens (some value) ++ rest = '(' :: (value ++ ')' :: rest) := by
      simp [printParens]
    rw [hprint, loopTokens_paren (balanced_of_not_mem hopen hclose)]
    rfl

/-- The tokens of a head and of what stands behind it. -/
theorem tokenizeLine_elementLine {tail : CString} (h : Delimited tail) (lineNumber : Nat) :
    (tokenizeLine (elementLine k e tail) lineNumber).map Token.unplaced =
      (tagBlock k e (loopTokens k tail)).1 :: (tagBlock k e (loopTokens k tail)).2 := by
  have hindent : countIndentLevel (elementLine k e tail) = k := by
    unfold elementLine
    rw [countIndentLevel_level _ (e.tag_ok.stopsAt_blank _)]
  have hblank : ∀ c ∈ List.replicate (2 * k) ' ', isBlank c = true :=
    fun c hc => isBlank_of_mem_replicate rfl hc
  have hstop : StopsAt isTagChar (printParts e tail) := (delimited_printParts h).stopsAt_tag
  unfold elementLine at hindent ⊢
  rw [tokenizeLine_tag hblank e.tag_ok e.tag_noKeyword hstop, hindent,
    tokenizeLoop_tag _ _ _ _ e.tag_ok hstop, List.map_cons, loopTokens_eq]
  unfold printParts tagBlock headParts
  rw [loopTokens_id e.id_ok (delimited_classes (delimited_parens h)),
    loopTokens_classes e.classes_ok (delimited_parens h), loopTokens_parens e.attributes_ok,
    List.append_assoc, List.append_assoc]
  rfl

/-- The tokens of the text behind a head. -/
theorem loopTokens_printText {text : Option CString}
    (h : ∀ t ∈ text, '#' ∉ t ∧ '\n' ∉ t ∧ (skipWhitespace t).head? ≠ some '.') :
    loopTokens k (printText text) = inlineTokens k text := by
  cases text with
  | none => exact congrArg (List.map Token.unplaced) (tokenizeLoop_nil k 0 0 0)
  | some t =>
    obtain ⟨hhash, -, hdot⟩ := h t rfl
    have hskip : '#' ∉ skipWhitespace t := fun hmem => hhash ((List.dropWhile_sublist _).mem hmem)
    have hhead : ∀ c ∈ (skipWhitespace t).head?, c ≠ '#' ∧ c ≠ '.' := by
      intro c hc
      refine ⟨?_, ?_⟩
      · rintro rfl
        exact hskip (List.mem_of_mem_head? hc)
      · rintro rfl
        exact hdot hc
    unfold loopTokens printText inlineTokens
    rw [tokenizeLoop_blank_text _ _ _ _ hhead, tokenizeText_text _ _ _ _ _ hskip, Option.getD_some]
    unfold textToken
    split <;> rfl

/-- A line that starts with a pipe is one token. -/
theorem tokenizeLine_pipeLine (text : CString) (lineNumber : Nat) :
    (tokenizeLine (pipeLine k text) lineNumber).map Token.unplaced = [(pipeBlock k text).1] := by
  have hstop : StopsAt isBlank ('|' :: ' ' :: text) := StopsAt.cons rfl _
  have hindent : countIndentLevel (pipeLine k text) = k := by
    unfold pipeLine
    rw [countIndentLevel_level _ hstop]
  have hblank : ∀ c ∈ List.replicate (2 * k) ' ', isBlank c = true :=
    fun c hc => isBlank_of_mem_replicate rfl hc
  have hskip : skipWhitespace (pipeLine k text) = '|' :: ' ' :: text :=
    skipWhitespace_append hblank hstop
  unfold tokenizeLine
  dsimp only
  rw [hskip, hindent]
  simp only [restToken, skipWhitespace_space]
  rfl

end Line

/-! ## The tokens of the file -/

section File

variable {k : Nat}

/-- The tokens of a head are such that the loop takes, and none is a text. -/
theorem mem_headParts {e : PipedElement} {t : Token} (h : t ∈ headParts k e) :
    absorbs k t = true ∧ t.value ≠ none ∧ t.type ≠ .tokenText ∧ t.type ≠ .tokenInterpolation := by
  simp only [headParts, List.mem_append] at h
  rcases h with h | h | h
  · obtain ⟨word, rfl⟩ := mem_idTokens h
    simp [absorbs, createToken, TokenType.isAbsorbed]
  · obtain ⟨word, rfl⟩ := mem_classTokens h
    simp [absorbs, createToken, TokenType.isAbsorbed]
  · cases hattrs : e.attributes with
    | none => simp [hattrs, parensTokens] at h
    | some value =>
      rw [hattrs, parensTokens, List.mem_singleton] at h
      simp [h, absorbs, createToken, TokenType.isAbsorbed]

theorem isBlock_tagBlock (e : PipedElement) {tail : List Token}
    (htail : ∀ t ∈ tail, absorbs k t = true) (hvalued : Valued tail) :
    IsBlock (tagBlock k e tail) := by
  refine ⟨rfl, rfl, fun _ => rfl, fun t ht => ?_, fun t ht htype => ?_⟩
  · show absorbs k t = true
    rcases List.mem_append.mp ht with ht | ht
    · exact (mem_headParts ht).1
    · exact htail t ht
  · rcases List.mem_append.mp ht with ht | ht
    · exact (mem_headParts ht).2.1
    · exact hvalued t ht htype

theorem mem_inlineTokens {text : Option CString} :
    ∀ t ∈ inlineTokens k text, t.type = .tokenText ∧ t.depth = k := by
  intro t ht
  unfold inlineTokens textToken at ht
  split at ht
  · rw [List.mem_singleton.mp ht]
    exact ⟨rfl, rfl⟩
  · cases ht

theorem isBlock_elementBlocks (p : PipedElement × Bool) :
    ∀ block ∈ elementBlocks k p, IsBlock block := by
  have hinline : ∀ text, IsBlock (tagBlock k p.1 (inlineTokens k text)) := by
    intro text
    apply isBlock_tagBlock
    · intro t ht
      simp [absorbs, mem_inlineTokens t ht, TokenType.isAbsorbed]
    · intro t ht htype
      rw [(mem_inlineTokens t ht).1] at htype
      cases htype
  have hhead : IsBlock (tagBlock k p.1 []) := isBlock_tagBlock p.1 (by simp) (by simp [Valued])
  have hpipe : ∀ text, IsBlock (pipeBlock (k + 1) text) := fun text =>
    ⟨rfl, rfl, fun h => absurd rfl h, by simp [pipeBlock], by simp [Valued, pipeBlock]⟩
  unfold elementBlocks
  intro block hblock
  split at hblock
  · simp only [List.mem_cons, List.not_mem_nil, or_false] at hblock
    rcases hblock with rfl | rfl
    · exact hhead
    · exact hpipe _
  · rw [List.mem_singleton.mp hblock]
    exact hinline _

/-- The lines of an element have its blocks as tokens. -/
theorem tokenizeLines_elementLines (p : PipedElement × Bool) (lineNumber : Nat) :
    (tokenizeLines lineNumber (elementLines k p)).map Token.unplaced =
      blockTokens (elementBlocks k p) := by
  have hinline : ∀ text, p.1.text = text →
      (tokenizeLine (elementLine k p.1 (printText text)) lineNumber).map Token.unplaced =
        blockTokens [tagBlock k p.1 (inlineTokens k text)] := by
    rintro text rfl
    rw [tokenizeLine_elementLine (delimited_text p.1.text), loopTokens_printText p.1.text_ok]
    simp [blockTokens]
  unfold elementLines elementBlocks
  split
  · have hnil : loopTokens k [] = [] := congrArg (List.map Token.unplaced) (tokenizeLoop_nil k 0 0 0)
    rw [tokenizeLines, tokenizeLines, tokenizeLines, List.append_nil, List.map_append,
      tokenizeLine_elementLine .nil, tokenizeLine_pipeLine, hnil]
    simp [blockTokens, pipeBlock]
  · rw [tokenizeLines, tokenizeLines, List.append_nil, hinline _ rfl]

/-- An element takes one or two lines. -/
theorem not_mem_newline_elementLines (p : PipedElement × Bool) :
    ∀ line ∈ elementLines k p, '\n' ∉ line := by
  have hspaces : ∀ n, '\n' ∉ List.replicate n ' ' := by
    intro n hmem
    have := List.eq_of_mem_replicate hmem
    cases this
  have hid := not_mem_newline_printId p.1.id_ok
  have hclasses := not_mem_newline_printClasses p.1.classes_ok
  have hparens : '\n' ∉ printParens p.1.attributes := by
    cases h : p.1.attributes with
    | none => simp [printParens]
    | some value => simpa [printParens] using (p.1.attributes_ok value h).2.2
  have hline : ∀ tail, '\n' ∉ tail → '\n' ∉ elementLine k p.1 tail := by
    intro tail htail
    simp [elementLine, printParts, hspaces, p.1.tag_ok.not_mem, hid, hclasses, hparens, htail,
      isTagChar, isalnum]
  have htext : ∀ t, p.1.text = some t → '\n' ∉ t := fun t ht => (p.1.text_ok t ht).2.1
  unfold elementLines
  intro line hmem
  split at hmem
  · rename_i t hsome _
    simp only [List.mem_cons, List.not_mem_nil, or_false] at hmem
    rcases hmem with rfl | rfl
    · exact hline [] (by simp)
    · simp [pipeLine, hspaces, htext t hsome]
  · rw [List.mem_singleton.mp hmem]
    apply hline
    cases h : p.1.text with
    | none => simp [printText]
    | some t => simpa [printText] using htext t h

/-- The blocks of the elements of a forest, the top level being `k`. -/
def forestBlocks (k : Nat) (f : Forest (PipedElement × Bool)) : List (Token × List Token) :=
  (f.withLevel k).labels.flatMap fun p => elementBlocks p.1 p.2

theorem tokenizeLines_elements (ps : List (Nat × PipedElement × Bool)) (lineNumber : Nat) :
    (tokenizeLines lineNumber (ps.flatMap fun p => elementLines p.1 p.2)).map Token.unplaced =
      blockTokens (ps.flatMap fun p => elementBlocks p.1 p.2) := by
  induction ps generalizing lineNumber with
  | nil => rfl
  | cons p ps ih =>
    rw [List.flatMap_cons, List.flatMap_cons, tokenizeLines_append, List.map_append,
      tokenizeLines_elementLines, ih]
    unfold blockTokens
    rw [List.flatMap_append]

theorem tokenizeFile_printPiped (f : Forest (PipedElement × Bool)) :
    (tokenizeFile (printPiped f)).map Token.unplaced =
      blockTokens (forestBlocks 0 f) ++ [eofToken] := by
  have hlines : ∀ line ∈ (f.withLevel 0).labels.flatMap (fun p => elementLines p.1 p.2),
      '\n' ∉ line := by
    intro line hline
    obtain ⟨p, -, hline⟩ := List.mem_flatMap.mp hline
    exact not_mem_newline_elementLines p.2 line hline
  unfold printPiped forestBlocks
  rw [tokenizeFile_eq, fileTokens_intercalate hlines, List.map_append, tokenizeLines_elements]
  rfl

end File

/-! ## The tree -/

/-- The node of an element, with the nodes of its children and of the elements after it. A piped
text is the first child. -/
def elementForest (k : Nat) (p : PipedElement × Bool) (kids next : Forest ASTNode) :
    Forest ASTNode :=
  match p.1.text, p.2 with
  | some text, true =>
    .node (blockNode (tagBlock k p.1 [])) (.node (blockNode (pipeBlock (k + 1) text)) .nil kids) next
  | text, _ => .node (blockNode (tagBlock k p.1 (inlineTokens k text))) kids next

/-- The nodes of a forest of elements, the top level being `k`. -/
def builtNodes (k : Nat) : Forest (PipedElement × Bool) → Forest ASTNode
  | .nil => .nil
  | .node p kids next => elementForest k p (builtNodes (k + 1) kids) (builtNodes k next)

theorem depth_tagBlock (k : Nat) (e : PipedElement) (tail : List Token) :
    (blockNode (tagBlock k e tail)).depth = k := by
  unfold blockNode
  rw [(foldl_absorbToken_sameHead _ _).depth]
  exact (startNode_head rfl).1

theorem leveled_builtNodes (k : Nat) (f : Forest (PipedElement × Bool)) :
    Leveled ASTNode.depth k (builtNodes k f) := by
  induction f generalizing k with
  | nil => trivial
  | node p kids next ihk ihn =>
    unfold builtNodes elementForest
    split
    · exact ⟨depth_tagBlock k p.1 _, ⟨rfl, trivial, ihk (k + 1)⟩, ihn k⟩
    · exact ⟨depth_tagBlock k p.1 _, ihk (k + 1), ihn k⟩

theorem labels_builtNodes (k : Nat) (f : Forest (PipedElement × Bool)) :
    (builtNodes k f).labels = (forestBlocks k f).map blockNode := by
  induction f generalizing k with
  | nil => rfl
  | node p kids next ihk ihn =>
    have hblocks : forestBlocks k (.node p kids next) =
        elementBlocks k p ++ (forestBlocks (k + 1) kids ++ forestBlocks k next) := by
      simp [forestBlocks, Forest.withLevel]
    rw [hblocks, List.map_append, List.map_append, ← ihk, ← ihn, builtNodes]
    unfold elementForest elementBlocks
    split <;> rfl

/-- The lines of a forest of elements make its tree. -/
theorem builtForest_printPiped (f : Forest (PipedElement × Bool)) :
    builtForest ((tokenizeFile (printPiped f)).map Token.unplaced) = some (builtNodes 0 f) := by
  have hblocks : ∀ block ∈ forestBlocks 0 f, IsBlock block := by
    intro block hblock
    obtain ⟨p, -, hblock⟩ := List.mem_flatMap.mp hblock
    exact isBlock_elementBlocks p.2 block hblock
  unfold builtForest
  rw [tokenizeFile_printPiped, parseEntries_blocks hblocks rfl, Option.map_some,
    Spine.close_run_withNext, ← labels_builtNodes, outline_labels (leveled_builtNodes 0 f)]

/-! ## The output -/

section Render

variable {k : Nat} {e : PipedElement} (useTabs : Bool) (tabSize : Nat)

/-- The node of a head has no text yet. -/
theorem blockNode_head (k : Nat) (e : PipedElement) :
    (blockNode (tagBlock k e [])).nodeType = .tokenTag ∧
      (blockNode (tagBlock k e [])).tag = some e.tag ∧
      (blockNode (tagBlock k e [])).textContent = none := by
  have hsame := foldl_absorbToken_sameHead (startNode (tagBlock k e []).1) (tagBlock k e []).2
  refine ⟨hsame.nodeType, hsame.tag, ?_⟩
  apply foldl_absorbToken_other
  intro t ht
  have hparts : (tagBlock k e []).2 = headParts k e := List.append_nil _
  rw [hparts] at ht
  exact (mem_headParts ht).2.2

/-- The text behind a head only changes the content. -/
theorem blockNode_inline (k : Nat) (e : PipedElement) (text : Option CString) :
    ∃ content isInline, blockNode (tagBlock k e (inlineTokens k text)) =
        { blockNode (tagBlock k e []) with textContent := content, isInline := isInline } ∧
      (content.map escapeHtml).getD [] =
        escapeHtml (gStrstrip (skipWhitespace (text.getD []))) := by
  obtain ⟨-, -, hnone⟩ := blockNode_head k e
  have hsplit : ∀ tail, blockNode (tagBlock k e tail) =
      tail.foldl absorbToken (blockNode (tagBlock k e [])) := by
    intro tail
    unfold blockNode tagBlock
    rw [List.foldl_append, List.append_nil]
  rw [hsplit]
  unfold inlineTokens textToken
  split
  · refine ⟨some (gStrstrip (skipWhitespace (text.getD []))), true, ?_, rfl⟩
    have hdepth := depth_tagBlock k e []
    simp [absorbToken, absorbStep, createToken, hdepth, hnone, appendText]
  · rename_i hlen
    have hnil : skipWhitespace (text.getD []) = [] := by
      apply List.eq_nil_of_length_eq_zero
      omega
    refine ⟨none, (blockNode (tagBlock k e [])).isInline, ?_, ?_⟩
    · rw [List.foldl_nil, ← hnone]
    · rw [hnil]
      rfl

theorem isRoot_tagBlock (k : Nat) (e : PipedElement) (tail : List Token) :
    isRoot (blockNode (tagBlock k e tail)) = false := by
  have hsame := foldl_absorbToken_sameHead (startNode (tagBlock k e tail).1) (tagBlock k e tail).2
  have htag : (blockNode (tagBlock k e tail)).tag = some e.tag := hsame.tag
  unfold isRoot
  rw [htag]
  simpa using e.tag_ne_root

/-- A TAG node with its text inside. -/
theorem renderNode_inline (text : Option CString) {hasChildren : Bool} {children : CString}
    (h : hasChildren = false → children = []) :
    renderNode useTabs tabSize true (blockNode (tagBlock k e (inlineTokens k text))) hasChildren
        children =
      renderNode useTabs tabSize true (blockNode (tagBlock k e [])) true
        (escapeHtml (gStrstrip (skipWhitespace (text.getD []))) ++ children) := by
  obtain ⟨htype, -, hnone⟩ := blockNode_head k e
  have hroot := isRoot_tagBlock k e []
  obtain ⟨content, isInline, hnode, hcontent⟩ := blockNode_inline k e text
  rw [hnode]
  generalize blockNode (tagBlock k e []) = head at htype hroot hnone
  let inner : ASTNode := { head with textContent := content, isInline := isInline }
  have hinner := @renderNode_tag useTabs tabSize inner htype hroot hasChildren children h
  have hhead := @renderNode_tag useTabs tabSize head htype hroot true
    (escapeHtml (gStrstrip (skipWhitespace (text.getD []))) ++ children) (by simp)
  have hopening : renderOpening inner = renderOpening head := rfl
  have hvoid : rendersVoid inner = rendersVoid head := rfl
  have htext : inner.textContent = content := rfl
  rw [hopening, hvoid, htext, hcontent] at hinner
  rw [hhead, hnone]
  refine hinner.trans ?_
  show _ = if rendersVoid head then _ else _
  simp [inner]

/-- A piped text. -/
theorem renderNode_piped (text : CString) :
    renderNode useTabs tabSize true (blockNode (pipeBlock k text)) false [] =
      escapeHtml (gStrstrip (skipWhitespace text)) := by
  have hnode : blockNode (pipeBlock k text) = { astNodeCreate .tokenText k with
      textContent := some (gStrstrip (skipWhitespace text)), isBlock := true } := rfl
  rw [hnode]
  unfold renderNode unlessMinified
  simp [isRoot, astNodeCreate]

/-- The node of an element in the minified output, wherever its text stands. -/
theorem renderNodes_elementForest (p : PipedElement × Bool) (kids next : Forest ASTNode) :
    renderNodes useTabs tabSize true (elementForest k p kids next) =
      renderNode useTabs tabSize true (blockNode (tagBlock k p.1 [])) true
          (escapeHtml (gStrstrip (skipWhitespace (p.1.text.getD []))) ++
            renderNodes useTabs tabSize true kids) ++
        renderNodes useTabs tabSize true next := by
  unfold elementForest
  split
  · rename_i text htext hmark
    rw [renderNodes, renderNodes, renderNodes, htext, Option.getD_some, ← renderNode_piped]
    rfl
  · rename_i hno
    rw [renderNodes, renderNode_inline]
    intro hnil
    have hkids : kids = .nil := by simpa using hnil
    rw [hkids, renderNodes]

/-- The minified output of the tree does not depend on the marks. -/
theorem renderNodes_builtNodes (k : Nat) (f : Forest (PipedElement × Bool))
    (mark : PipedElement × Bool → Bool) :
    renderNodes useTabs tabSize true (builtNodes k (f.map fun p => (p.1, mark p))) =
      renderNodes useTabs tabSize true (builtNodes k f) := by
  induction f generalizing k with
  | nil => rfl
  | node p kids next ihk ihn =>
    rw [Forest.map_node, builtNodes, builtNodes, renderNodes_elementForest,
      renderNodes_elementForest, ihk, ihn]

end Render

/-- **Inline text and piped text are equivalent.** Moving the texts of any elements of a forest to
piped lines leaves the minified output as it is. -/
theorem processPugFile_piped (f : Forest (PipedElement × Bool)) (useTabs : Bool) (tabSize : Nat) :
    ∃ output, processPugFile useTabs tabSize true (printPiped f) = some output ∧
      processPugFile useTabs tabSize true (printPiped (f.map fun p => (p.1, false))) =
        some output := by
  have hprocess : ∀ g, processPugFile useTabs tabSize true (printPiped g) =
      some (renderNodes useTabs tabSize true (builtNodes 0 g)) := by
    intro g
    have hforest := builtForest_unplaced (tokenizeFile (printPiped g))
    rw [builtForest_printPiped] at hforest
    obtain ⟨built, hbuilt, hmap⟩ := Option.map_eq_some_iff.mp hforest.symm
    rw [processPugFile_eq, hbuilt, Option.map_some, ← renderNodes_unplaced, hmap]
  refine ⟨_, hprocess f, ?_⟩
  rw [hprocess, renderNodes_builtNodes useTabs tabSize 0 f fun _ => false]

end CPug
