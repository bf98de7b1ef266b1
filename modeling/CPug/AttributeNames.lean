import CPug.Elements
import CPug.Shorthands

/-!
# The attributes of an opening tag

Three emitters write attributes into an opening tag: the id, the classes and the list that comes from
parentheses (`openingAttributes`). They do not look at each other, nor does `parse_attributes` look at
what the list already holds. So a name is repeated exactly when the parentheses of the element repeat
it, or when they hold `id` or `class` beside a shorthand (`attributesOnce_iff`).
-/

namespace CPug

open Outline

/-- The attributes that are written for a node, each with what follows its name. A value that holds a quote
is one value here, whatever a reader makes of what comes behind the quote. -/
def openingAttributes (node : ASTNode) : List (CString × CString) :=
  (match node.id with
    | some id => [("id".toList, "=\"".toList ++ escapeHtml id ++ "\"".toList)]
    | none => []) ++
  (if node.classes = [] then []
    else [("class".toList,
      "=\"".toList ++ [' '].intercalate (node.classes.map escapeHtml) ++ "\"".toList)]) ++
  (node.attributes.getD []).map fun attr => (attr.name,
    if attr.type ≠ .attrBoolean then "=\"".toList ++ attr.value ++ "\"".toList else [])

/-- One attribute in the markup. -/
def writeAttribute (attr : CString × CString) : CString := ' ' :: (attr.1 ++ attr.2)

/-- No name is written twice; names that a reader would find behind a quote in a value do not count. -/
def AttributesOnce (node : ASTNode) : Prop := ((openingAttributes node).map Prod.fst).Nodup

/-- The names that `parse_attributes` finds in the parentheses of an ATTRIBUTE token. -/
def listedNames (token : Token) : List CString :=
  if token.type = .tokenAttribute then (parseAttributes (token.value.getD [])).map Attribute.name
  else []

/-- The tokens behind a TAG list no name twice in parentheses, and none that a shorthand stands for. -/
structure ListedOnce (tokens : List Token) : Prop where
  nodup : (tokens.flatMap listedNames).Nodup
  id : (∃ t ∈ tokens, t.type = .tokenId) → "id".toList ∉ tokens.flatMap listedNames
  classes : (∃ t ∈ tokens, t.type = .tokenClass) → "class".toList ∉ tokens.flatMap listedNames

/-! ## What is written -/

/-- The opening tag is the name of the tag and these attributes. -/
theorem renderOpening_attributes (node : ASTNode) :
    renderOpening node =
      '<' :: node.tag.getD "div".toList ++ (openingAttributes node).flatMap writeAttribute := by
  have hid : (match node.id with
      | some id => [("id".toList, "=\"".toList ++ escapeHtml id ++ "\"".toList)]
      | none => []).flatMap writeAttribute = renderId node.id := by
    cases node.id with
    | none => rfl
    | some id => rw [List.flatMap_singleton, renderId_some]; rfl
  have hclasses : (if node.classes = [] then []
      else [("class".toList,
        "=\"".toList ++ [' '].intercalate (node.classes.map escapeHtml) ++ "\"".toList)]).flatMap
        writeAttribute = renderClasses node.classes := by
    unfold renderClasses
    split
    · rfl
    · rw [List.flatMap_singleton]
      rfl
  have hattributes : ((node.attributes.getD []).map fun attr => (attr.name,
      if attr.type ≠ .attrBoolean then "=\"".toList ++ attr.value ++ "\"".toList else [])).flatMap
        writeAttribute = renderAttributes (node.attributes.getD []) := by
    rw [List.flatMap_map, renderAttributes]
    rfl
  rw [openingAttributes, List.flatMap_append, List.flatMap_append, hid, hclasses, hattributes,
    renderOpening]
  simp only [List.append_assoc]

/-- Which names are written for a node. -/
theorem attributesOnce_node_iff (node : ASTNode) :
    AttributesOnce node ↔ ((node.attributes.getD []).map Attribute.name).Nodup ∧
      (node.id ≠ none → "id".toList ∉ (node.attributes.getD []).map Attribute.name) ∧
      (node.classes ≠ [] → "class".toList ∉ (node.attributes.getD []).map Attribute.name) := by
  have hnames : ((node.attributes.getD []).map fun attr => (attr.name,
      if attr.type ≠ .attrBoolean then "=\"".toList ++ attr.value ++ "\"".toList else [])).map
        Prod.fst = (node.attributes.getD []).map Attribute.name := by
    rw [List.map_map]
    rfl
  have hne : "id".toList ≠ "class".toList := by decide
  rw [AttributesOnce, openingAttributes, List.map_append, List.map_append, hnames]
  generalize (node.attributes.getD []).map Attribute.name = names
  cases node.id with
  | none =>
    by_cases hc : node.classes = []
    · simp [hc]
    · simp [hc, and_comm]
  | some id =>
    by_cases hc : node.classes = []
    · simp [hc, and_comm]
    · simp [hc]
      tauto

/-! ## What the loop after a TAG collects -/

/-- The names, the id and the classes of a node after it took tokens of a line. -/
theorem foldl_absorbToken_names {node : ASTNode} {tokens : List Token}
    (h : ∀ t ∈ tokens, absorbs node.depth t = true)
    (hlines : ∀ t ∈ tokens, ∃ indentLevel lineNumber, LineToken indentLevel lineNumber t) :
    ((tokens.foldl absorbToken node).attributes.getD []).map Attribute.name =
        (node.attributes.getD []).map Attribute.name ++ tokens.flatMap listedNames ∧
      ((tokens.foldl absorbToken node).id ≠ none ↔
        node.id ≠ none ∨ ∃ t ∈ tokens, t.type = .tokenId) ∧
      ((tokens.foldl absorbToken node).classes ≠ [] ↔
        node.classes ≠ [] ∨ ∃ t ∈ tokens, t.type = .tokenClass) := by
  induction tokens generalizing node with
  | nil => simp
  | cons t tokens ih =>
    obtain ⟨hclasses, hid, hattributes⟩ := absorbToken_taken (h t List.mem_cons_self)
    obtain ⟨_, _, hline⟩ := hlines t List.mem_cons_self
    obtain ⟨value, hvalue, hok⟩ := hline.value
    have hdepth : (absorbToken node t).depth = node.depth := (absorbToken_sameHead node t).depth
    obtain ⟨hnames', hid', hclasses'⟩ := @ih (absorbToken node t)
      (fun t' ht' => by rw [hdepth]; exact h t' (List.mem_cons_of_mem _ ht'))
      (fun t' ht' => hlines t' (List.mem_cons_of_mem _ ht'))
    rw [List.foldl_cons, List.flatMap_cons, List.exists_mem_cons_iff, List.exists_mem_cons_iff]
    refine ⟨?_, ?_, ?_⟩
    · rw [hnames', hattributes, listedNames]
      by_cases htype : t.type = .tokenAttribute
      · rw [if_pos ⟨htype, by simp [hvalue]⟩, if_pos htype, List.map_append, List.append_assoc]
      · rw [if_neg fun hn => htype hn.1, if_neg htype, List.nil_append]
    · rw [hid', hid, ← or_assoc]
      refine or_congr ?_ Iff.rfl
      by_cases htype : t.type = .tokenId
      · simp [htype]
      · simp [htype]
    · rw [hclasses', hclasses, ← or_assoc]
      refine or_congr ?_ Iff.rfl
      by_cases htype : t.type = .tokenClass
      · rw [htype] at hok
        rw [if_pos htype, hvalue, Option.getD_some, parseClasses, if_neg hok.1]
        simp [htype]
      · simp [htype]

/-- A new node has no attributes. -/
theorem startNode_tag_parts {token : Token} (h : token.type = .tokenTag) :
    (startNode token).depth = token.depth ∧ (startNode token).attributes = none ∧
      (startNode token).id = none ∧ (startNode token).classes = [] := by
  simp [startNode, parseNodeFrom, h, absorb, astNodeCreate]

/-- **Attributes.** For every file and every element that is rendered: no attribute name is written
twice in its opening tag exactly when the tokens behind its TAG token list none twice. -/
theorem attributesOnce_iff (content : CString) :
    ∃ ctx, parsePug (tokenizeFile content) = some ctx ∧ ∀ useTabs tabSize minify,
      processPugFile useTabs tabSize minify content =
          some ((emissions useTabs tabSize minify (rootNode ctx)).flatMap Emission.written) ∧
        ∀ element ∈ openedElements (emissions useTabs tabSize minify (rootNode ctx)),
          ∃ token more, token :: more <:+ tokenizeFile content ∧ token.type = .tokenTag ∧
            element = (group token more).foldl absorbToken (startNode token) ∧
            (AttributesOnce element ↔ ListedOnce (group token more)) := by
  obtain ⟨ctx, hctx⟩ := exists_parsePug content
  obtain ⟨kids, hroot, hnodes⟩ := parsePug_nodes hctx
  refine ⟨ctx, hctx, fun useTabs tabSize minify => ⟨?_, fun element helement => ?_⟩⟩
  · rw [processPugFile, hctx, Option.map_some, flatMap_written, renderAst]
  rw [openedElements, filterMap_markup_emissions, opened_skeleton] at helement
  obtain ⟨hvisit, hisElement⟩ := List.mem_filter.mp helement
  have hlabel := Forest.mem_labels_of_mem_visit hvisit
  rw [isElement, Bool.and_eq_true, Bool.not_eq_true', decide_eq_true_eq] at hisElement
  rw [hroot, Forest.labels_node, Forest.labels_nil, List.append_nil] at hlabel
  rcases List.mem_cons.mp hlabel with rfl | hlabel
  · exact absurd hisElement.1 (by decide)
  obtain ⟨token, more, hsuffix, hs, heq⟩ := hnodes element hlabel
  have htype : token.type = .tokenTag := by
    by_contra hne
    have hsame := foldl_absorbToken_sameHead (startNode token) (group token more)
    rw [← heq] at hsame
    exact (startNode_of_ne_tag hs hne).2.1 (hsame.nodeType.symm.trans hisElement.2)
  refine ⟨token, more, hsuffix, htype, heq, ?_⟩
  obtain ⟨hdepth, hattributes, hid, hclasses⟩ := startNode_tag_parts htype
  have habsorbs : ∀ t ∈ group token more, absorbs (startNode token).depth t = true := by
    intro t ht
    rw [group, if_pos htype] at ht
    rw [hdepth]
    exact List.mem_takeWhile_imp ht
  have hlines : ∀ t ∈ group token more, ∃ indentLevel lineNumber, LineToken indentLevel lineNumber t := by
    intro t ht
    have hmem : t ∈ tokenizeFile content := by
      have hgroup := group_append_drop token more
      refine hsuffix.subset (List.mem_cons_of_mem _ ?_)
      rw [← hgroup]
      exact List.mem_append_left _ ht
    rcases List.mem_append.mp hmem with hmem | hmem
    · exact mem_fileTokens hmem
    · exact absurd (by rw [List.mem_singleton.mp hmem]; rfl) (mem_group_ne_eof t ht)
  obtain ⟨hnames, hids, hclassNames⟩ := foldl_absorbToken_names habsorbs hlines
  rw [← heq, hattributes, Option.getD_none, List.map_nil, List.nil_append] at hnames
  rw [← heq, hid] at hids
  rw [← heq, hclasses] at hclassNames
  rw [attributesOnce_node_iff, hnames, hids, hclassNames]
  simp only [ne_eq, not_true_eq_false, false_or]
  exact ⟨fun h => ⟨h.1, h.2.1, h.2.2⟩, fun h => ⟨h.nodup, h.id, h.classes⟩⟩

/-- A class in parentheses beside a shorthand class is written on its own. -/
theorem attributesOnce_fails :
    ¬ ∀ content useTabs tabSize minify ctx, parsePug (tokenizeFile content) = some ctx →
      ∀ element ∈ openedElements (emissions useTabs tabSize minify (rootNode ctx)),
        AttributesOnce element := by
  intro h
  let element := [createToken .tokenClass (some "x".toList) 0 1 2,
      createToken .tokenAttribute (some "class='y'".toList) 0 1 2].foldl absorbToken
    (startNode (createToken .tokenTag (some "p".toList) 0 1 0))
  have hrun : (parsePug (tokenizeFile "p.x(class='y')".toList)).map rootNode =
      some (.node rootLabel (.leaf element) .nil) := by decide +kernel
  obtain ⟨ctx, hctx, hroot⟩ := Option.map_eq_some_iff.mp hrun
  have helement : element ∈ openedElements (emissions false 2 true (rootNode ctx)) := by
    rw [hroot]
    decide +kernel
  have honce := h _ false 2 true ctx hctx element helement
  have hnames : (openingAttributes element).map Prod.fst = ["class".toList, "class".toList] := by
    decide +kernel
  rw [AttributesOnce, hnames] at honce
  simp at honce

end CPug
