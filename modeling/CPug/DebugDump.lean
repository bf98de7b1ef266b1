import CPug.Outline.Arities
import CPug.SingleLine

/-!
# The dump of a tree

`ast_node_print` writes one line for each node: its tag, id, classes and text, and behind them in
parentheses its type, depth, number of children and position. `readDump` reads the lines back: the fields in
front from the left, those in parentheses from the right, since a text may look like anything. The number of
children gives the nesting. For every file the dump of its tree is read as the tree
(`readDump_astNodePrint`).
-/

namespace CPug

open Outline

/-! ## Printing -/

/-- `%u`. -/
def printUnsigned (n : Nat) : CString := Nat.toDigits 10 n

/-- What `ast_node_print_internal` writes in front of the parentheses, without the indentation. -/
def dumpHead (node : ASTNode) : CString :=
  '<' :: (node.tag.getD "text".toList ++
    ((node.id.map fun id => " id=\"".toList ++ (id ++ ['"'])).getD [] ++
      ((if node.classes = [] then []
          else " class=\"".toList ++ ([' '].intercalate node.classes ++ ['"'])) ++
        '>' :: (node.textContent.map fun text => ' ' :: text).getD [])))

/-- What it writes in parentheses. -/
def dumpInfo (node : ASTNode) (childrenCount : Nat) : CString :=
  "type: ".toList ++ (tokenTypeToString node.nodeType ++ (", depth: ".toList ++
    (printUnsigned node.depth ++ (", children: ".toList ++ (printUnsigned childrenCount ++
      (", line: ".toList ++ (printUnsigned node.line ++ (", col: ".toList ++
        (printUnsigned node.column ++ [')'])))))))))

/-- The line of a node. -/
def dumpLine (indentLevel : Nat) (node : ASTNode) (childrenCount : Nat) : CString :=
  (List.replicate indentLevel "  ".toList).flatten ++
    (dumpHead node ++ (" (".toList ++ dumpInfo node childrenCount))

/-- `ast_node_print_internal`, over the siblings as well. -/
def astNodePrintInternal (indentLevel : Nat) : Forest ASTNode → CString
  | .nil => []
  | .node node kids next =>
    dumpLine indentLevel node kids.width ++ '\n' :: astNodePrintInternal (indentLevel + 1) kids ++
      astNodePrintInternal indentLevel next

/-- `ast_node_print`. -/
def astNodePrint (node : Forest ASTNode) (indentLevel : Nat) : CString :=
  astNodePrintInternal indentLevel node

/-! ## Reading -/

/-- What the dump shows of a node. -/
structure DumpEntry where
  indentLevel : Nat
  tag : CString
  id : Option CString
  classes : Option CString
  textContent : Option CString
  nodeType : CString
  depth : Nat
  line : Nat
  column : Nat
deriving Repr, DecidableEq

/-- An attribute in front of the rest of the line, if there is one. -/
def readQuoted (key s : CString) : Option CString × CString :=
  if key.isPrefixOf s then
    (some ((s.drop key.length).takeWhile (· != '"')), ((s.drop key.length).dropWhile (· != '"')).drop 1)
  else (none, s)

/-- The text between `>` and the parentheses. -/
def readText : CString → Option CString
  | [] => none
  | _ :: text => some text

def readUnsigned (s : CString) : Nat := Nat.ofDigitChars 10 s 0

/-- Read a line: the number of children and what is shown of the node. -/
def readDumpLine (s : CString) : Option (Nat × DumpEntry) :=
  let head := (s.reverse.dropWhile (· != '(')).reverse.dropLast.dropLast
  let info := (s.reverse.takeWhile (· != '(')).reverse
  let body := (head.dropWhile (· == ' ')).drop 1
  let afterTag := body.dropWhile fun c => c != ' ' && c != '>'
  let id := readQuoted " id=\"".toList afterTag
  let classes := readQuoted " class=\"".toList id.2
  match (info.splitOn ' ').map List.dropLast with
  | [_, nodeType, _, depth, _, children, _, line, _, column] =>
    some (readUnsigned children, {
      indentLevel := (head.takeWhile (· == ' ')).length / 2
      tag := body.takeWhile fun c => c != ' ' && c != '>'
      id := id.1
      classes := classes.1
      textContent := readText (classes.2.drop 1)
      nodeType := nodeType
      depth := readUnsigned depth
      line := readUnsigned line
      column := readUnsigned column })
  | _ => none

/-- Read a dump. -/
def readDump (s : CString) : Option (Forest DumpEntry) :=
  ((s.splitOn '\n').dropLast.mapM readDumpLine).map Forest.ofArities

/-- What the dump shows of a node at an indentation. -/
def dumpEntry (p : Nat × ASTNode) : DumpEntry where
  indentLevel := p.1
  tag := p.2.tag.getD "text".toList
  id := p.2.id
  classes := if p.2.classes = [] then none else some ([' '].intercalate p.2.classes)
  textContent := p.2.textContent
  nodeType := tokenTypeToString p.2.nodeType
  depth := p.2.depth
  line := p.2.line
  column := p.2.column

/-! ## What the fields are made of -/

/-- The tag, the id and the classes of the node are words. -/
structure Worded (node : ASTNode) : Prop where
  tag : ∀ tag ∈ node.tag, ∀ c ∈ tag, isWordChar c = true
  id : ∀ id ∈ node.id, ∀ c ∈ id, isWordChar c = true
  classes : ∀ word ∈ node.classes, ∀ c ∈ word, isWordChar c = true

/-- So are the values of TAG, ID and CLASS tokens. -/
def WordValued (token : Token) : Prop :=
  token.type = .tokenTag ∨ token.type = .tokenId ∨ token.type = .tokenClass →
    ∀ c ∈ token.value.getD [], isWordChar c = true

theorem isWordChar_of_isTagChar {c : Char} (h : isTagChar c = true) : isWordChar c = true := by
  rw [isWordChar, ← isTagChar, h, Bool.true_or]

theorem ne_of_isWordChar {c d : Char} (hc : isWordChar c = true) (hd : isWordChar d = false) : c ≠ d := by
  rintro rfl
  rw [hc] at hd
  cases hd

theorem wordValued_of_mem {content : CString} {token : Token} (h : token ∈ tokenizeFile content) :
    WordValued token := by
  intro htype
  rcases List.mem_append.mp h with h | h
  · obtain ⟨-, -, -, value, hvalue, -, hok⟩ := fileToken_ok h
    rw [hvalue, Option.getD_some]
    rcases htype with htype | htype | htype
    · rw [htype] at hok
      exact fun c hc => isWordChar_of_isTagChar (IsTagName.all hok c hc)
    · rw [htype] at hok
      exact hok
    · rw [htype] at hok
      exact hok.2
  · rw [List.mem_singleton.mp h]
    exact fun _ hc => nomatch hc

theorem worded_startNode {token : Token} (hs : token.type.startsNode = true) (h : WordValued token) :
    Worded (startNode token) := by
  have hword : ∀ s : CString, s.all isWordChar = true → ∀ c ∈ s, isWordChar c = true :=
    fun s => List.all_eq_true.mp
  suffices htag : ∀ tag ∈ (startNode token).tag, ∀ c ∈ tag, isWordChar c = true by
    refine ⟨htag, ?_, ?_⟩
    · intro id hid
      rw [startNode, parseNodeFrom, if_neg (ne_eof_of_startsNode hs)] at hid
      cases hty : token.type <;> simp [hty, TokenType.startsNode, absorb, astNodeCreate] at hs hid
    · intro word hmem
      rw [startNode, parseNodeFrom, if_neg (ne_eof_of_startsNode hs)] at hmem
      cases hty : token.type <;> simp [hty, TokenType.startsNode, absorb, astNodeCreate] at hs hmem
  rw [startNode, parseNodeFrom, if_neg (ne_eof_of_startsNode hs)]
  cases hty : token.type with
  | tokenTag =>
    intro tag htag
    cases htag
    have hvalue := h (Or.inl hty)
    cases hv : token.value with
    | none => exact hword _ rfl
    | some value => rwa [hv] at hvalue
  | tokenDoctype | tokenInclude | tokenExtends | tokenMixin | tokenCall =>
    intro tag htag
    cases htag
    exact hword _ rfl
  | tokenText | tokenPipe | tokenDot | tokenCode | tokenComment | tokenBlockComment
  | tokenInterpolation =>
    intro tag htag
    cases htag
  | tokenClass | tokenId | tokenAttribute | tokenIndentation | tokenEof =>
    rw [hty] at hs
    cases hs

theorem Worded.absorbToken {node : ASTNode} (hnode : Worded node) {token : Token}
    (h : WordValued token) : Worded (absorbToken node token) := by
  rw [CPug.absorbToken]
  split
  · rename_i node' hstep
    unfold absorbStep at hstep
    split at hstep
    · cases hstep
    split at hstep
    · rename_i hty
      cases hstep
      refine ⟨hnode.tag, ?_, hnode.classes⟩
      intro id hid c hc
      cases hid
      exact h (Or.inr (Or.inl hty)) c (gStrstrip_subset _ c hc)
    · rename_i hty
      cases hstep
      rw [parseClasses]
      split
      · exact hnode
      · refine ⟨hnode.tag, hnode.id, ?_⟩
        intro word hword c hc
        rcases List.mem_append.mp hword with hword | hword
        · exact hnode.classes word hword c hc
        · rw [List.mem_singleton.mp hword] at hc
          exact h (Or.inr (Or.inr hty)) c hc
    · split at hstep
      · cases hstep
      · cases hstep
        exact ⟨hnode.tag, hnode.id, hnode.classes⟩
    · cases hstep
      exact ⟨hnode.tag, hnode.id, hnode.classes⟩
    · cases hstep
      exact ⟨hnode.tag, hnode.id, hnode.classes⟩
    · cases hstep
  · exact hnode

theorem Worded.foldl_absorbToken {node : ASTNode} (hnode : Worded node) {tokens : List Token}
    (h : ∀ token ∈ tokens, WordValued token) : Worded (tokens.foldl CPug.absorbToken node) := by
  induction tokens generalizing node with
  | nil => exact hnode
  | cons token tokens ih =>
    exact ih (hnode.absorbToken (h token List.mem_cons_self)) fun t ht => h t (List.mem_cons_of_mem _ ht)

/-- The nodes of a file. -/
theorem worded_of_mem {content : CString} {ctx : ParserContext}
    (h : parsePug (tokenizeFile content) = some ctx) :
    ∀ node ∈ (rootNode ctx).labels, Worded node := by
  obtain ⟨kids, hroot, hnodes⟩ := parsePug_nodes h
  intro node hnode
  rw [hroot, Forest.labels_node, Forest.labels_nil, List.append_nil] at hnode
  rcases List.mem_cons.mp hnode with rfl | hnode
  · refine ⟨?_, fun _ hmem => (nomatch hmem), fun _ hmem => (nomatch hmem)⟩
    intro tag htag
    cases htag
    exact List.all_eq_true.mp rfl
  · obtain ⟨token, more, hsuffix, hs, rfl⟩ := hnodes node hnode
    have hvalued : ∀ t ∈ token :: more, WordValued t := fun t ht =>
      wordValued_of_mem (hsuffix.subset ht)
    refine (worded_startNode hs (hvalued token List.mem_cons_self)).foldl_absorbToken ?_
    intro t ht
    rw [← take_length_group token more] at ht
    exact hvalued t (List.mem_cons_of_mem _ (List.mem_of_mem_take ht))

/-! ## One line -/

theorem readUnsigned_printUnsigned (n : Nat) : readUnsigned (printUnsigned n) = n :=
  Nat.ofDigitChars_ten_toDigits

/-- The words in parentheses. -/
def infoWords (node : ASTNode) (childrenCount : Nat) : List CString :=
  ["type:".toList, tokenTypeToString node.nodeType ++ [','], "depth:".toList,
    printUnsigned node.depth ++ [','], "children:".toList, printUnsigned childrenCount ++ [','],
    "line:".toList, printUnsigned node.line ++ [','], "col:".toList, printUnsigned node.column ++ [')']]

theorem dumpInfo_eq (node : ASTNode) (childrenCount : Nat) :
    dumpInfo node childrenCount = [' '].intercalate (infoWords node childrenCount) := by
  simp only [infoWords, List.intercalate_cons_cons, List.intercalate_singleton, List.append_assoc]
  rfl

/-- The characters of the words in parentheses. -/
def isInfoChar (c : Char) : Bool := c.isAlphanum || c == '_' || c == ':' || c == ',' || c == ')'

theorem isInfoChar_infoWords (node : ASTNode) (childrenCount : Nat) :
    ∀ word ∈ infoWords node childrenCount, ∀ c ∈ word, isInfoChar c = true := by
  have hnumber : ∀ n, ∀ c ∈ printUnsigned n, isInfoChar c = true := by
    intro n c hc
    have := Nat.isDigit_of_mem_toDigits (by decide) (by decide) hc
    simp [isInfoChar, Char.isAlphanum, this]
  have htype : ∀ type, ∀ c ∈ tokenTypeToString type, isInfoChar c = true := by
    intro type
    cases type <;> exact List.all_eq_true.mp rfl
  have hlast : ∀ {s : CString} {d : Char}, (∀ c ∈ s, isInfoChar c = true) → isInfoChar d = true →
      ∀ c ∈ s ++ [d], isInfoChar c = true := by
    intro s d hs hd c hc
    rcases List.mem_append.mp hc with hc | hc
    · exact hs c hc
    · rw [List.mem_singleton.mp hc]
      exact hd
  intro word hword
  simp only [infoWords, List.mem_cons, List.not_mem_nil, or_false] at hword
  rcases hword with rfl | rfl | rfl | rfl | rfl | rfl | rfl | rfl | rfl | rfl
  · exact List.all_eq_true.mp rfl
  · exact hlast (htype _) rfl
  · exact List.all_eq_true.mp rfl
  · exact hlast (hnumber _) rfl
  · exact List.all_eq_true.mp rfl
  · exact hlast (hnumber _) rfl
  · exact List.all_eq_true.mp rfl
  · exact hlast (hnumber _) rfl
  · exact List.all_eq_true.mp rfl
  · exact hlast (hnumber _) rfl

theorem not_mem_infoWords {d : Char} (hd : isInfoChar d = false) (node : ASTNode) (childrenCount : Nat) :
    ∀ word ∈ infoWords node childrenCount, d ∉ word := by
  intro word hword hmem
  have := isInfoChar_infoWords node childrenCount word hword d hmem
  rw [hd] at this
  cases this

theorem not_mem_dumpInfo {d : Char} (hd : isInfoChar d = false) (hspace : d ≠ ' ') (node : ASTNode)
    (childrenCount : Nat) : d ∉ dumpInfo node childrenCount := by
  rw [dumpInfo_eq]
  have hall := forall_mem_intercalate (p := fun c => c ≠ d) hspace.symm
    fun word hword c hc he => not_mem_infoWords hd node childrenCount word hword (he ▸ hc)
  exact fun hmem => hall d hmem rfl

/-- What stands in parentheses is split into its words. -/
theorem splitOn_dumpInfo (node : ASTNode) (childrenCount : Nat) :
    ((dumpInfo node childrenCount).splitOn ' ').map List.dropLast =
      (infoWords node childrenCount).map List.dropLast := by
  rw [dumpInfo_eq, List.splitOn_intercalate]
  · exact not_mem_infoWords rfl node childrenCount
  · exact List.cons_ne_nil _ _

/-- The last parenthesis of a line opens what stands behind it. -/
theorem split_last {head info : CString} (h : '(' ∉ info) :
    ((head ++ '(' :: info).reverse.takeWhile (· != '(')).reverse = info ∧
      ((head ++ '(' :: info).reverse.dropWhile (· != '(')).reverse = head ++ ['('] := by
  have hinfo := forall_ne_of_not_mem (mt List.mem_reverse.mp h)
  have hreverse : (head ++ '(' :: info).reverse = info.reverse ++ '(' :: head.reverse := by simp
  rw [hreverse, takeWhile_append_stop hinfo (.cons rfl _), dropWhile_append_stop hinfo (.cons rfl _)]
  simp

theorem readQuoted_append {key value : CString} (h : '"' ∉ value) (rest : CString) :
    readQuoted key (key ++ (value ++ '"' :: rest)) = (some value, rest) := by
  have hvalue := forall_ne_of_not_mem h
  have hpre : key.isPrefixOf (key ++ (value ++ '"' :: rest)) = true :=
    List.isPrefixOf_iff_prefix.mpr (List.prefix_append _ _)
  rw [readQuoted, if_pos hpre, List.drop_left, takeWhile_append_stop hvalue (.cons rfl _),
    dropWhile_append_stop hvalue (.cons rfl _)]
  rfl

/-- The attributes of the head of a line, and its text. -/
theorem readQuoted_head {node : ASTNode} (h : Worded node) :
    let text := (node.textContent.map fun text => ' ' :: text).getD []
    let classes := (if node.classes = [] then []
      else " class=\"".toList ++ ([' '].intercalate node.classes ++ ['"']))
    readQuoted " id=\"".toList
        ((node.id.map fun id => " id=\"".toList ++ (id ++ ['"'])).getD [] ++ (classes ++ '>' :: text)) =
      (node.id, classes ++ '>' :: text) ∧
    readQuoted " class=\"".toList (classes ++ '>' :: text) =
      (if node.classes = [] then none else some ([' '].intercalate node.classes), '>' :: text) := by
  intro text classes
  constructor
  · cases hid : node.id with
    | none =>
      rw [Option.map_none, Option.getD_none, List.nil_append, readQuoted, if_neg]
      show ¬ _
      unfold classes
      split <;> simp [List.isPrefixOf]
    | some id =>
      have hquote : '"' ∉ id := fun hmem => ne_of_isWordChar (h.id id hid _ hmem) rfl rfl
      have hcat : " id=\"".toList ++ (id ++ ['"']) ++ (classes ++ '>' :: text) =
          " id=\"".toList ++ (id ++ '"' :: (classes ++ '>' :: text)) := by simp
      rw [Option.map_some, Option.getD_some, hcat, readQuoted_append hquote]
  · unfold classes
    split
    · rw [List.nil_append, readQuoted, if_neg (by simp [List.isPrefixOf])]
    · have hsep : ' ' ≠ '"' := by decide
      have hall := forall_mem_intercalate (p := fun c => c ≠ '"') hsep
        fun word hword c hc => ne_of_isWordChar (h.classes word hword c hc) rfl
      have hquote : '"' ∉ [' '].intercalate node.classes := fun hmem => hall _ hmem rfl
      have hcat : " class=\"".toList ++ ([' '].intercalate node.classes ++ ['"']) ++ '>' :: text =
          " class=\"".toList ++ ([' '].intercalate node.classes ++ '"' :: ('>' :: text)) := by simp
      rw [hcat, readQuoted_append hquote]

/-- The indentation of a line. -/
theorem flatten_indent (indentLevel : Nat) :
    (List.replicate indentLevel "  ".toList).flatten = List.replicate (indentLevel * 2) ' ' := by
  have hunit : "  ".toList = List.replicate 2 ' ' := rfl
  rw [hunit, List.flatten_replicate_replicate]

/-- The line of a node is read as the node. -/
theorem readDumpLine_dumpLine {node : ASTNode} (h : Worded node) (indentLevel childrenCount : Nat) :
    readDumpLine (dumpLine indentLevel node childrenCount) =
      some (childrenCount, dumpEntry (indentLevel, node)) := by
  obtain ⟨hid, hclasses⟩ := readQuoted_head h
  have hline : dumpLine indentLevel node childrenCount =
      (List.replicate (indentLevel * 2) ' ' ++ dumpHead node ++ [' ']) ++
        '(' :: dumpInfo node childrenCount := by
    rw [dumpLine, flatten_indent]
    simp only [List.append_assoc]
    rfl
  obtain ⟨hinfo, hhead⟩ := @split_last (List.replicate (indentLevel * 2) ' ' ++ dumpHead node ++ [' '])
    (dumpInfo node childrenCount) (not_mem_dumpInfo rfl (by decide) node childrenCount)
  have hwords : ((dumpInfo node childrenCount).splitOn ' ').map List.dropLast =
      ["type:".toList.dropLast, tokenTypeToString node.nodeType, "depth:".toList.dropLast,
        printUnsigned node.depth, "children:".toList.dropLast, printUnsigned childrenCount,
        "line:".toList.dropLast, printUnsigned node.line, "col:".toList.dropLast,
        printUnsigned node.column] := by
    rw [splitOn_dumpInfo]
    simp only [infoWords, List.map_cons, List.map_nil, List.dropLast_concat]
  have hblank : ∀ c ∈ List.replicate (indentLevel * 2) ' ', (c == ' ') = true := by simp
  have hstop : StopsAt (· == ' ') (dumpHead node) := StopsAt.cons (by decide) _
  have htag : ∀ c ∈ node.tag.getD "text".toList, (c != ' ' && c != '>') = true := by
    intro c hc
    have hword : isWordChar c = true := by
      cases ht : node.tag with
      | none =>
        rw [ht] at hc
        exact List.all_eq_true.mp (rfl : "text".toList.all isWordChar = true) c hc
      | some tag =>
        rw [ht] at hc
        exact h.tag tag ht c hc
    have hspace : c ≠ ' ' := ne_of_isWordChar hword rfl
    have hgt : c ≠ '>' := ne_of_isWordChar hword rfl
    simp [hspace, hgt]
  have hafter : StopsAt (fun c => c != ' ' && c != '>')
      ((node.id.map fun id => " id=\"".toList ++ (id ++ ['"'])).getD [] ++
        ((if node.classes = [] then []
            else " class=\"".toList ++ ([' '].intercalate node.classes ++ ['"'])) ++
          '>' :: (node.textContent.map fun text => ' ' :: text).getD [])) := by
    cases node.id with
    | some id => exact StopsAt.cons (by decide) _
    | none =>
      split
      · exact StopsAt.cons (by decide) _
      · exact StopsAt.cons (by decide) _
  have htext : readText ((node.textContent.map fun text => ' ' :: text).getD []) =
      node.textContent := by
    cases node.textContent <;> rfl
  have hbody : (dumpHead node).drop 1 = node.tag.getD "text".toList ++ _ := rfl
  unfold readDumpLine
  rw [hline, hinfo, hhead, List.dropLast_concat, List.dropLast_concat]
  dsimp only
  rw [hwords, dropWhile_append_stop hblank hstop, takeWhile_append_stop hblank hstop, hbody,
    dropWhile_append_stop htag hafter, takeWhile_append_stop htag hafter, hid, hclasses]
  dsimp only
  rw [List.drop_one, List.tail_cons, htext, List.length_replicate, Nat.mul_div_cancel _ Nat.zero_lt_two]
  simp only [readUnsigned_printUnsigned]
  rfl

/-! ## The tree -/

theorem newline_notMem_dumpHead {node : ASTNode} (h : SingleLine node) : '\n' ∉ dumpHead node := by
  have htag : '\n' ∉ node.tag.getD "text".toList := newline_notMem_getD h.tag (of_decide_eq_true rfl)
  have hid : '\n' ∉ (node.id.map fun id => " id=\"".toList ++ (id ++ ['"'])).getD [] := by
    cases hid : node.id with
    | none => exact List.not_mem_nil
    | some id =>
      have hnot := h.id id hid
      simp [hnot]
  have hclasses : '\n' ∉ (if node.classes = [] then []
      else " class=\"".toList ++ ([' '].intercalate node.classes ++ ['"'])) := by
    split
    · exact List.not_mem_nil
    · have hsep : ' ' ≠ '\n' := by decide
      have hall := forall_mem_intercalate (p := fun c => c ≠ '\n') hsep
        fun word hword c hc he => h.classes word hword (he ▸ hc)
      have hnot : '\n' ∉ [' '].intercalate node.classes := fun hmem => hall _ hmem rfl
      simp [hnot]
  have htext : '\n' ∉ (node.textContent.map fun text => ' ' :: text).getD [] := by
    cases ht : node.textContent with
    | none => exact List.not_mem_nil
    | some text => simpa using h.text text ht
  rw [dumpHead]
  simp only [List.mem_cons, List.mem_append, not_or]
  exact ⟨by decide, htag, hid, hclasses, by decide, htext⟩

/-- A node takes one line. -/
theorem newline_notMem_dumpLine {node : ASTNode} (h : SingleLine node) (indentLevel childrenCount : Nat) :
    '\n' ∉ dumpLine indentLevel node childrenCount := by
  have hinfo : '\n' ∉ dumpInfo node childrenCount :=
    not_mem_dumpInfo rfl (by decide) node childrenCount
  have hindent : '\n' ∉ List.replicate (indentLevel * 2) ' ' := fun hmem =>
    absurd (List.eq_of_mem_replicate hmem) (by decide)
  rw [dumpLine, flatten_indent]
  simp only [List.mem_append, not_or]
  exact ⟨hindent, newline_notMem_dumpHead h, of_decide_eq_true rfl, hinfo⟩

/-- The lines of the dump, in pre-order. -/
def dumpLines (indentLevel : Nat) (f : Forest ASTNode) : List CString :=
  (f.withLevel indentLevel).arities.map fun p => dumpLine p.2.1 p.2.2 p.1

theorem width_withLevel (f : Forest ASTNode) (k : Nat) : (f.withLevel k).width = f.width := by
  rw [← Forest.width_map Prod.snd, Forest.map_snd_withLevel]

theorem astNodePrintInternal_eq (indentLevel : Nat) (f : Forest ASTNode) :
    astNodePrintInternal indentLevel f = (dumpLines indentLevel f).flatMap (· ++ ['\n']) := by
  induction f generalizing indentLevel with
  | nil => rfl
  | node node kids next ihk ihn =>
    have hlines : dumpLines indentLevel (.node node kids next) =
        dumpLine indentLevel node kids.width ::
          (dumpLines (indentLevel + 1) kids ++ dumpLines indentLevel next) := by
      rw [dumpLines, Forest.withLevel, Forest.arities, width_withLevel, List.map_cons, List.map_append]
      rfl
    rw [astNodePrintInternal, ihk, ihn, hlines, List.flatMap_cons, List.flatMap_append]
    simp

theorem splitOn_lines {lines : List CString} (h : ∀ line ∈ lines, '\n' ∉ line) :
    (lines.flatMap (· ++ ['\n'])).splitOn '\n' = lines ++ [[]] := by
  induction lines with
  | nil => rfl
  | cons line lines ih =>
    have hcat : (line :: lines).flatMap (· ++ ['\n']) =
        line ++ '\n' :: lines.flatMap (· ++ ['\n']) := by simp
    rw [hcat, List.splitOn_append_cons_self_of_not_mem (h line List.mem_cons_self),
      ih fun l hl => h l (List.mem_cons_of_mem _ hl)]
    rfl

theorem mapM_readDumpLine {ps : List (Nat × (Nat × ASTNode))} (h : ∀ p ∈ ps, Worded p.2.2) :
    (ps.map fun p => dumpLine p.2.1 p.2.2 p.1).mapM readDumpLine =
      some (ps.map fun p => (p.1, dumpEntry p.2)) := by
  induction ps with
  | nil => rfl
  | cons p ps ih =>
    rw [List.map_cons, List.mapM_cons, readDumpLine_dumpLine (h p List.mem_cons_self),
      ih fun q hq => h q (List.mem_cons_of_mem _ hq)]
    rfl

theorem readDump_astNodePrintInternal {f : Forest ASTNode}
    (h : ∀ node ∈ f.labels, Worded node ∧ SingleLine node) (indentLevel : Nat) :
    readDump (astNodePrintInternal indentLevel f) = some ((f.withLevel indentLevel).map dumpEntry) := by
  have hnodes : ∀ p ∈ (f.withLevel indentLevel).arities, Worded p.2.2 ∧ SingleLine p.2.2 := by
    intro p hp
    apply h
    rw [← Forest.map_snd_withLevel f indentLevel, Forest.labels_map]
    exact List.mem_map_of_mem (Forest.mem_labels_of_mem_arities hp)
  have hlines : ∀ line ∈ dumpLines indentLevel f, '\n' ∉ line := by
    intro line hline
    obtain ⟨p, hp, rfl⟩ := List.mem_map.mp hline
    exact newline_notMem_dumpLine (hnodes p hp).2 _ _
  rw [readDump, astNodePrintInternal_eq, splitOn_lines hlines, List.dropLast_concat, dumpLines,
    mapM_readDumpLine fun p hp => (hnodes p hp).1, Option.map_some, ← Forest.arities_map,
    Forest.ofArities_arities]

/-- **The dump can be read back.** For every file, whatever its texts look like, the dump of its tree is read
as that tree: each node at its place, with its tag, id, classes, text, type, depth and position. -/
theorem readDump_astNodePrint (content : CString) :
    ∃ ctx, parsePug (tokenizeFile content) = some ctx ∧ ∀ indentLevel,
      readDump (astNodePrint (rootNode ctx) indentLevel) =
        some (((rootNode ctx).withLevel indentLevel).map dumpEntry) := by
  obtain ⟨ctx, hctx⟩ := exists_parsePug content
  exact ⟨ctx, hctx, readDump_astNodePrintInternal fun node hnode =>
    ⟨worded_of_mem hctx node hnode, singleLine_of_mem hctx node hnode⟩⟩

end CPug
