import CPug.Element

/-!
# Printing a forest and reading it back

`printForest` writes a forest of elements, one line each, indented by level. Reading it back gives
the forest: `parsePug_printForest`. The steps are the tokens of the file (`tokenizeFile_printForest`),
the entries of the parser (`parseEntries_items`), and the theorem that the spine machine computes
the outline of its entries.
-/

namespace CPug

open Outline

/-- The elements of a forest with their levels, parents before children. -/
def items (f : Forest Element) : List (Nat × Element) := (f.withLevel 0).labels

/-- One element per line. -/
def printForest (f : Forest Element) : CString := ['\n'].intercalate ((items f).map printLine)

/-- The node of an element of level `p.1`: what `ast_node_create` sets, and the parts of the line. -/
def elementNode (p : Nat × Element) : ASTNode :=
  { astNodeCreate .tokenTag p.1 with
    tag := some p.2.tag
    id := p.2.id
    classes := p.2.classes
    attributes := p.2.attributes.map (List.map fun attr => ⟨attr.1, attr.2, .attrString⟩)
    textContent := p.2.text
    isInline := p.2.text.isSome }

/-! ## The tokens of the file -/

def itemTokens (ps : List (Nat × Element)) : List Token :=
  ps.flatMap fun p => headTokens p.1 p.2.toHead

def eofToken : Token := createToken .tokenEof none 0 0 0

theorem IsPair.not_mem_newline {attr : CString × CString} (h : IsPair attr) :
    '\n' ∉ printAttribute attr := by
  intro hmem
  rcases List.mem_append.mp hmem with hmem | hmem
  · exact h.name.not_mem rfl hmem
  · simp only [quoted, List.mem_cons, List.mem_append, List.not_mem_nil, or_false] at hmem
    rcases hmem with hmem | hmem | hmem | hmem
    · simp at hmem
    · simp at hmem
    · have := h.value _ hmem
      simp [isValueStop] at this
    · simp at hmem

theorem IsWord.not_mem_newline {word : CString} (h : IsWord word) : '\n' ∉ word := by
  intro hmem
  have := h.2 _ hmem
  simp [isWordChar, isalnum] at this

theorem not_mem_newline_printId {id : Option CString} (h : ∀ word ∈ id, IsWord word) :
    '\n' ∉ printId id := by
  cases id with
  | none => simp [printId]
  | some word => simpa [printId] using (h word rfl).not_mem_newline

theorem not_mem_newline_printClasses {classes : List CString} (h : ∀ word ∈ classes, IsWord word) :
    '\n' ∉ printClasses classes := by
  intro hmem
  obtain ⟨word, hword, hmem⟩ := List.mem_flatMap.mp hmem
  rcases List.mem_cons.mp hmem with hmem | hmem
  · simp at hmem
  · exact (h word hword).not_mem_newline hmem

/-- An element takes one line. -/
theorem not_mem_newline_printLine (p : Nat × Element) : '\n' ∉ printLine p := by
  obtain ⟨k, e⟩ := p
  have htag : '\n' ∉ e.tag := by
    intro hmem
    have := e.tag_ok.all _ hmem
    simp [isTagChar, isalnum] at this
  have hid := not_mem_newline_printId e.id_ok
  have hclasses := not_mem_newline_printClasses e.classes_ok
  have hattrs : '\n' ∉ printAttributes e.attributes := by
    cases h : e.attributes with
    | none => simp [printAttributes]
    | some attrs =>
      have hall : ∀ c ∈ [','].intercalate (attrs.map printAttribute), c ≠ '\n' := by
        refine forall_mem_intercalate (p := fun c => c ≠ '\n') (by decide) ?_
        intro piece hpiece c hc
        obtain ⟨attr, hattr, rfl⟩ := List.mem_map.mp hpiece
        rintro rfl
        exact (e.attributes_ok attrs h attr hattr).not_mem_newline hc
      have hnot : '\n' ∉ [','].intercalate (attrs.map printAttribute) := fun h => hall _ h rfl
      simpa [printAttributes] using hnot
  have htext : '\n' ∉ printText e.text := by
    cases h : e.text with
    | none => simp [printText]
    | some t => simpa [printText] using (e.text_ok t h).singleLine
  simp [printLine, printHead, htag, hid, hclasses, hattrs, htext]

theorem printLine_ne_nil (p : Nat × Element) : printLine p ≠ [] := by
  obtain ⟨c, cs, htag, -⟩ := p.2.tag_ok
  simp [printLine, printHead, htag]

/-- The lines of the printed file. -/
theorem gStrsplit_printForest (f : Forest Element) :
    gStrsplit (printForest f) '\n' = (items f).map printLine := by
  rw [printForest]
  cases hi : items f with
  | nil => rfl
  | cons p ps =>
    have hne : ['\n'].intercalate ((p :: ps).map printLine) ≠ [] := by
      intro h
      cases ps with
      | nil => exact printLine_ne_nil p (by simpa using h)
      | cons q ps => simp [List.intercalate_cons_cons] at h
    rw [gStrsplit_of_ne_nil hne, List.splitOn_intercalate]
    · intro line hline
      obtain ⟨q, -, rfl⟩ := List.mem_map.mp hline
      exact not_mem_newline_printLine q
    · simp

theorem tokenizeLines_printLine (ps : List (Nat × Element)) (lineNumber : Nat) :
    (tokenizeLines lineNumber (ps.map printLine)).map Token.unplaced = itemTokens ps := by
  induction ps generalizing lineNumber with
  | nil => rfl
  | cons p ps ih =>
    rw [List.map_cons, tokenizeLines, List.map_append, tokenizeLine_printLine, ih]
    rfl

theorem tokenizeFile_printForest (f : Forest Element) :
    (tokenizeFile (printForest f)).map Token.unplaced = itemTokens (items f) ++ [eofToken] := by
  rw [tokenizeFile_eq, fileTokens, gStrsplit_printForest, List.map_append, tokenizeLines_printLine]
  rfl

/-! ## The node of a line -/

section Node

variable {node : ASTNode} {depth : Nat}

theorem gStrstrip_word {word : CString} (h : IsWord word) : gStrstrip word = word := by
  refine gStrstrip_eq_self (stripped_of_forall fun c hc => ?_)
  have hword := h.2 c hc
  have hne : ∀ d, isWordChar d = false → c ≠ d := by
    rintro d hd rfl
    rw [hword] at hd
    cases hd
  simp [gAsciiIsspace, hne ' ' rfl, hne '\t' rfl, hne '\n' rfl,
    hne '\r' rfl, hne '\x0c' rfl]

theorem foldl_idTokens (hd : node.depth = depth) (hnone : node.id = none) {id : Option CString}
    (hid : ∀ word ∈ id, IsWord word) :
    (idTokens depth id).foldl absorbToken node = { node with id := id } := by
  subst hd
  cases id with
  | none =>
    cases node
    cases hnone
    rfl
  | some word => simp [idTokens, absorbToken, absorbStep, createToken, gStrstrip_word (hid word rfl)]

theorem foldl_classTokens (hd : node.depth = depth) {classes : List CString}
    (hclasses : ∀ word ∈ classes, IsWord word) :
    (classTokens depth classes).foldl absorbToken node =
      { node with classes := node.classes ++ classes } := by
  subst hd
  induction classes generalizing node with
  | nil => simp [classTokens]
  | cons word classes ih =>
    have hword := (hclasses word List.mem_cons_self).1
    have hstep : absorbToken node (createToken .tokenClass (some word) node.depth 0 0) =
        { node with classes := node.classes ++ [word] } := by
      simp [absorbToken, absorbStep, createToken, parseClasses, hword]
    have hrest := @ih { node with classes := node.classes ++ [word] }
      fun w h => hclasses w (List.mem_cons_of_mem _ h)
    rw [classTokens, List.map_cons, List.foldl_cons, hstep]
    rw [classTokens] at hrest
    rw [hrest]
    simp

theorem parseAttributes_print {attrs : List (CString × CString)} (h : ∀ attr ∈ attrs, IsPair attr) :
    parseAttributes ([','].intercalate (attrs.map printAttribute)) =
      attrs.map fun attr => ⟨attr.1, attr.2, .attrString⟩ := by
  have hcomma : ∀ piece ∈ attrs.map printAttribute, ',' ∉ piece := by
    intro piece hpiece hmem
    obtain ⟨attr, hattr, rfl⟩ := List.mem_map.mp hpiece
    rcases List.mem_append.mp hmem with hmem | hmem
    · exact (h attr hattr).name.not_mem rfl hmem
    · simp only [quoted, List.mem_cons, List.mem_append, List.not_mem_nil, or_false] at hmem
      rcases hmem with hmem | hmem | hmem | hmem
      · simp at hmem
      · simp at hmem
      · have := (h attr hattr).value _ hmem
        simp [isValueStop] at this
      · simp at hmem
  rw [parseAttributes_intercalate hcomma]
  clear hcomma
  induction attrs with
  | nil => rfl
  | cons attr attrs ih =>
    have hattr : parseAttributePair (printAttribute attr) = some ⟨attr.1, attr.2, .attrString⟩ :=
      parseAttributePair_quoted (h attr List.mem_cons_self).name (Or.inr rfl)
    rw [List.map_cons, List.filterMap_cons_some hattr, List.map_cons,
      ih fun a ha => h a (List.mem_cons_of_mem _ ha)]

theorem foldl_attributeTokens (hd : node.depth = depth) (hnone : node.attributes = none)
    {attrs : Option (List (CString × CString))} (h : ∀ l ∈ attrs, ∀ attr ∈ l, IsPair attr) :
    (attributeTokens depth attrs).foldl absorbToken node =
      { node with
        attributes := attrs.map (List.map fun attr => ⟨attr.1, attr.2, .attrString⟩) } := by
  subst hd
  cases attrs with
  | none =>
    cases node
    cases hnone
    rfl
  | some l =>
    simp [attributeTokens, absorbToken, absorbStep, createToken, parseAttributes_print (h l rfl),
      hnone]

theorem foldl_textTokens (hd : node.depth = depth) (hnone : node.textContent = none)
    (hinline : node.isInline = false) {text : Option CString} (h : ∀ t ∈ text, IsText t) :
    (textTokens depth text).foldl absorbToken node =
      { node with textContent := text, isInline := text.isSome } := by
  subst hd
  cases text with
  | none =>
    cases node
    cases hnone
    cases hinline
    rfl
  | some t =>
    simp [textTokens, absorbToken, absorbStep, createToken, appendText, hnone,
      gStrstrip_eq_self (h t rfl).stripped]

/-- The node that the tokens of a line make. -/
theorem foldl_partTokens (p : Nat × Element) :
    (partTokens p.1 p.2.toHead).foldl absorbToken (startNode (tagToken p.1 p.2.toHead)) =
      elementNode p := by
  obtain ⟨k, e⟩ := p
  let node : ASTNode := { astNodeCreate .tokenTag k with tag := some e.tag }
  let attributes : Option (List Attribute) :=
    e.attributes.map (List.map fun attr => ⟨attr.1, attr.2, .attrString⟩)
  have hstart : startNode (tagToken k e.toHead) = node := rfl
  have hid : (idTokens k e.id).foldl absorbToken node = { node with id := e.id } :=
    foldl_idTokens rfl rfl e.id_ok
  have hclasses : (classTokens k e.classes).foldl absorbToken { node with id := e.id } =
      { node with id := e.id, classes := e.classes } :=
    foldl_classTokens rfl e.classes_ok
  have hattrs : (attributeTokens k e.attributes).foldl absorbToken
      { node with id := e.id, classes := e.classes } =
        { node with id := e.id, classes := e.classes, attributes := attributes } :=
    foldl_attributeTokens rfl rfl e.attributes_ok
  have htext : (textTokens k e.text).foldl absorbToken
      { node with id := e.id, classes := e.classes, attributes := attributes } =
        elementNode (k, e) :=
    foldl_textTokens rfl rfl rfl e.text_ok
  rw [partTokens, List.foldl_append, List.foldl_append, List.foldl_append, hstart, hid, hclasses,
    hattrs, htext]

end Node

/-! ## The entries -/

/-- The tokens of the line of an element. -/
def lineBlock (p : Nat × Element) : Token × List Token :=
  (tagToken p.1 p.2.toHead, partTokens p.1 p.2.toHead)

theorem isBlock_lineBlock (p : Nat × Element) : IsBlock (lineBlock p) where
  starts := rfl
  head := rfl
  tag _ := rfl
  absorbs _ ht := (mem_partTokens ht).1
  valued _ ht _ := (mem_partTokens ht).2

/-- Every line is one entry, left open when the next line is deeper. -/
theorem parseEntries_items (ps : List (Nat × Element)) :
    parseEntries (itemTokens ps ++ [eofToken]) =
      some (Spine.withNext ASTNode.depth 0 (ps.map elementNode)) := by
  have hblocks : ∀ block ∈ ps.map lineBlock, IsBlock block := by
    intro block hblock
    obtain ⟨p, -, rfl⟩ := List.mem_map.mp hblock
    exact isBlock_lineBlock p
  have htokens : itemTokens ps = blockTokens (ps.map lineBlock) := by
    unfold itemTokens blockTokens
    rw [List.flatMap_map]
    rfl
  have hnodes : (ps.map lineBlock).map blockNode = ps.map elementNode := by
    rw [List.map_map]
    apply List.map_congr_left
    intro p _
    exact foldl_partTokens p
  rw [htokens, parseEntries_blocks hblocks rfl, hnodes]
  rfl

/-! ## The round trip -/

/-- **Round trip.** For every forest of elements, the tokenizer and the parser return from the
printed forest a root whose children are that forest: node for node the parts of the element, at the
depth of its level. -/
theorem parsePug_printForest (f : Forest Element) :
    ∃ ctx kids, parsePug (tokenizeFile (printForest f)) = some ctx ∧
      rootNode ctx = .node rootLabel kids .nil ∧
      kids.map ASTNode.unplaced = (f.withLevel 0).map elementNode := by
  have hunplaced := builtForest_unplaced (tokenizeFile (printForest f))
  rw [tokenizeFile_printForest, builtForest, parseEntries_items, Option.map_some,
    Spine.close_run_withNext] at hunplaced
  obtain ⟨kids, hkids, hmap⟩ := Option.map_eq_some_iff.mp hunplaced.symm
  obtain ⟨entries, hentries, hclose⟩ := Option.map_eq_some_iff.mp hkids
  obtain ⟨ctx, hctx, -, hroot⟩ := parsePug_of_entries hentries
  refine ⟨ctx, kids, hctx, by rw [hroot, hclose], ?_⟩
  have hdepth : ∀ p, (elementNode p).depth = p.1 := fun p => rfl
  have hleveled : Leveled ASTNode.depth 0 ((f.withLevel 0).map elementNode) :=
    (leveled_withLevel f 0).map hdepth
  rw [hmap, items, ← Forest.labels_map, outline_labels hleveled]

end CPug
