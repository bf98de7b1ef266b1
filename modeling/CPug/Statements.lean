import CPug.Composition
import CPug.RoundTrip

/-!
# Templates with every kind of line

`printForest` knows elements only. A `Statement` is an element or a directive: one of the lines that
begin with a keyword or a mark and go on with a text (`lineTypes`): doctypes, piped texts, comments, code,
includes, mixins and their calls. `printTemplate` writes a forest of statements, one line each, indented by
level, and `parsePug_printTemplate` reads it back. Whatever stands below a directive is its child.
-/

namespace CPug

open Outline

/-- What begins a line that is not an element. -/
def mark : TokenType → CString
  | .tokenDoctype => "doctype".toList
  | .tokenInclude => "include".toList
  | .tokenExtends => "extends".toList
  | .tokenMixin => "mixin".toList
  | .tokenCall => ['+']
  | .tokenBlockComment => "//-".toList
  | .tokenComment => "//".toList
  | .tokenPipe => ['|']
  | .tokenCode => ['-']
  | _ => []

/-- A line that is not an element, with what makes its text readable again. -/
structure Directive where
  type : TokenType
  text : CString
  type_ok : type ∈ lineTypes
  singleLine : '\n' ∉ text
  stripped : Stripped text

/-- A line of a template. -/
inductive Statement where
  | element (e : Element)
  | directive (d : Directive)

/-! ## Printing -/

/-- A line without its indentation. -/
def printStatement : Statement → CString
  | .element e => printHead e.toHead
  | .directive d => mark d.type ++ ' ' :: d.text

/-- The line of a statement of level `p.1`. -/
def statementLine (p : Nat × Statement) : CString :=
  List.replicate (2 * p.1) ' ' ++ printStatement p.2

/-- One statement per line, parents before children. -/
def printTemplate (f : Forest Statement) : CString :=
  ['\n'].intercalate ((f.withLevel 0).labels.map statementLine)

/-! ## Nodes -/

/-- The tag that `parse_node` gives a directive. -/
def directiveTag : TokenType → Option CString
  | .tokenDoctype => some "doctype".toList
  | .tokenInclude => some "include".toList
  | .tokenExtends => some "extends".toList
  | .tokenMixin => some "mixin".toList
  | .tokenCall => some "call".toList
  | _ => none

/-- The node of a directive of level `k`; a piped text is a TEXT node. -/
def directiveNode (k : Nat) (d : Directive) : ASTNode :=
  { astNodeCreate d.type k with
    nodeType := if d.type = .tokenPipe then .tokenText else d.type
    tag := directiveTag d.type
    textContent := some d.text
    isBlock := decide (d.type = .tokenPipe) }

/-- The node of a statement of level `p.1`. -/
def statementNode (p : Nat × Statement) : ASTNode :=
  match p.2 with
  | .element e => elementNode (p.1, e)
  | .directive d => directiveNode p.1 d

/-! ## The tokens of a line -/

/-- The value of the token of a directive: the text of a comment keeps the space in front of it. -/
def directiveValue (d : Directive) : CString :=
  if d.type = .tokenComment ∨ d.type = .tokenBlockComment then ' ' :: d.text else d.text

/-- The tokens of a line, the first one apart. -/
def statementBlock (p : Nat × Statement) : Token × List Token :=
  match p.2 with
  | .element e => lineBlock (p.1, e)
  | .directive d => (createToken d.type (some (directiveValue d)) p.1 0 0, [])

/-- A mark is not blank. -/
theorem stopsAt_mark {type : TokenType} (h : type ∈ lineTypes) (rest : CString) :
    StopsAt isBlank (mark type ++ rest) := by
  simp only [lineTypes, List.mem_cons, List.not_mem_nil, or_false] at h
  rcases h with rfl | rfl | rfl | rfl | rfl | rfl | rfl | rfl | rfl <;> exact StopsAt.cons rfl _

theorem not_mem_newline_mark (type : TokenType) : '\n' ∉ mark type := by
  cases type <;> decide

/-- Blanks are spaces to `g_strstrip`. -/
theorem skipWhitespace_of_stripped {s : CString} (h : Stripped s) : skipWhitespace s = s := by
  cases s with
  | nil => rfl
  | cons c s =>
    have hspace := h.1 c rfl
    have hblank : isBlank c = false := by
      simp only [gAsciiIsspace, Bool.or_eq_false_iff] at hspace
      simp [isBlank, hspace.1.1.1.1, hspace.1.1.1.2]
    exact List.dropWhile_cons_of_neg (by simp [hblank])

/-- A line that begins with a mark is one token; comments take what follows as it is. -/
theorem tokenizeLine_mark {type : TokenType} (h : type ∈ lineTypes) {line text : CString}
    (hskip : skipWhitespace line = mark type ++ ' ' :: text) (lineNumber : Nat) :
    tokenizeLine line lineNumber =
      [createToken type
        (some (if type = .tokenComment ∨ type = .tokenBlockComment then ' ' :: text
          else skipWhitespace (' ' :: text)))
        (countIndentLevel line) lineNumber (blankCount line)] := by
  rw [tokenizeLine_eq, hskip]
  simp only [lineTypes, List.mem_cons, List.not_mem_nil, or_false] at h
  rcases h with rfl | rfl | rfl | rfl | rfl | rfl | rfl | rfl | rfl <;> rfl

section Directive

variable (d : Directive)

theorem gStrstrip_directiveValue : gStrstrip (directiveValue d) = d.text := by
  unfold directiveValue
  split
  · have hblank : Blank [' '] := fun c hc => List.mem_singleton.mp hc ▸ rfl
    have h := gStrstrip_blank_append hblank d.text
    rw [gStrstrip_eq_self d.stripped] at h
    exact h
  · exact gStrstrip_eq_self d.stripped

/-- A directive is one token. -/
theorem tokenizeLine_directive (k lineNumber : Nat) :
    (tokenizeLine (statementLine (k, .directive d)) lineNumber).map Token.unplaced =
      [createToken d.type (some (directiveValue d)) k 0 0] := by
  have hstop := stopsAt_mark d.type_ok (' ' :: d.text)
  have hindent : countIndentLevel (statementLine (k, .directive d)) = k :=
    countIndentLevel_level k hstop
  have hblank : ∀ c ∈ List.replicate (2 * k) ' ', isBlank c = true :=
    fun c hc => isBlank_of_mem_replicate rfl hc
  have hskip : skipWhitespace (statementLine (k, .directive d)) = mark d.type ++ ' ' :: d.text :=
    skipWhitespace_append hblank hstop
  rw [tokenizeLine_mark d.type_ok hskip, hindent, skipWhitespace_space,
    skipWhitespace_of_stripped d.stripped]
  rfl

/-- The node that the token of a directive starts. -/
theorem startNode_directive (k : Nat) :
    startNode (createToken d.type (some (directiveValue d)) k 0 0) = directiveNode k d := by
  have hstrip := gStrstrip_directiveValue d
  obtain ⟨type, text, htype, hline, hstripped⟩ := d
  unfold directiveNode
  dsimp only at hstrip ⊢
  simp only [lineTypes, List.mem_cons, List.not_mem_nil, or_false] at htype
  rcases htype with rfl | rfl | rfl | rfl | rfl | rfl | rfl | rfl | rfl <;>
    simp [startNode, parseNodeFrom, createToken, hstrip, directiveTag, astNodeCreate]

end Directive

/-- The tokens of a line, up to their positions. -/
theorem tokenizeLine_statementLine (p : Nat × Statement) (lineNumber : Nat) :
    (tokenizeLine (statementLine p) lineNumber).map Token.unplaced =
      (statementBlock p).1 :: (statementBlock p).2 := by
  obtain ⟨k, e | d⟩ := p
  · exact tokenizeLine_printLine (k, e) lineNumber
  · exact tokenizeLine_directive d k lineNumber

theorem isBlock_statementBlock (p : Nat × Statement) : IsBlock (statementBlock p) := by
  obtain ⟨k, e | d⟩ := p
  · exact isBlock_lineBlock (k, e)
  · obtain ⟨type, text, htype, hline, hstripped⟩ := d
    have hstarts : type.startsNode = true ∧ type.isAbsorbed = false := by
      simp only [lineTypes, List.mem_cons, List.not_mem_nil, or_false] at htype
      rcases htype with rfl | rfl | rfl | rfl | rfl | rfl | rfl | rfl | rfl <;> exact ⟨rfl, rfl⟩
    exact {
      starts := hstarts.1
      head := hstarts.2
      tag := fun hne => absurd rfl hne
      absorbs := List.forall_mem_nil _
      valued := List.forall_mem_nil _ }

theorem blockNode_statementBlock (p : Nat × Statement) :
    blockNode (statementBlock p) = statementNode p := by
  obtain ⟨k, e | d⟩ := p
  · exact foldl_partTokens (k, e)
  · exact startNode_directive d k

/-! ## The file -/

/-- A statement takes one line. -/
theorem not_mem_newline_statementLine (p : Nat × Statement) : '\n' ∉ statementLine p := by
  obtain ⟨k, e | d⟩ := p
  · exact not_mem_newline_printLine (k, e)
  · simp [statementLine, printStatement, not_mem_newline_mark, d.singleLine]

theorem tokenizeLines_statementLine (ps : List (Nat × Statement)) (lineNumber : Nat) :
    (tokenizeLines lineNumber (ps.map statementLine)).map Token.unplaced =
      blockTokens (ps.map statementBlock) := by
  induction ps generalizing lineNumber with
  | nil => rfl
  | cons p ps ih =>
    rw [List.map_cons, tokenizeLines, List.map_append, tokenizeLine_statementLine, ih]
    rfl

theorem tokenizeFile_printTemplate (f : Forest Statement) :
    (tokenizeFile (printTemplate f)).map Token.unplaced =
      blockTokens ((f.withLevel 0).labels.map statementBlock) ++ [eofToken] := by
  have hlines : ∀ line ∈ (f.withLevel 0).labels.map statementLine, '\n' ∉ line := by
    intro line hline
    obtain ⟨p, -, rfl⟩ := List.mem_map.mp hline
    exact not_mem_newline_statementLine p
  rw [printTemplate, tokenizeFile_eq, fileTokens_intercalate hlines, List.map_append,
    tokenizeLines_statementLine]
  rfl

/-- The lines of a template make its tree. -/
theorem builtForest_printTemplate (f : Forest Statement) :
    builtForest ((tokenizeFile (printTemplate f)).map Token.unplaced) =
      some ((f.withLevel 0).map statementNode) := by
  have hblocks : ∀ block ∈ (f.withLevel 0).labels.map statementBlock, IsBlock block := by
    intro block hblock
    obtain ⟨p, -, rfl⟩ := List.mem_map.mp hblock
    exact isBlock_statementBlock p
  have hdepth : ∀ p, (statementNode p).depth = p.1 := by
    rintro ⟨k, e | d⟩ <;> rfl
  have hleveled : Leveled ASTNode.depth 0 ((f.withLevel 0).map statementNode) :=
    (leveled_withLevel f 0).map hdepth
  have hnodes : ((f.withLevel 0).labels.map statementBlock).map blockNode =
      ((f.withLevel 0).map statementNode).labels := by
    rw [List.map_map, Forest.labels_map]
    exact List.map_congr_left fun p _ => blockNode_statementBlock p
  rw [tokenizeFile_printTemplate, builtForest, parseEntries_blocks hblocks rfl, Option.map_some,
    Spine.close_run_withNext, hnodes, outline_labels hleveled]

/-- **Round trip of templates.** For every forest of elements, doctypes, piped texts, comments, code,
includes, mixins and calls, in any nesting, the tokenizer and the parser return from the printed template
a root whose children are that forest: each statement its own node at the depth of its level. -/
theorem parsePug_printTemplate (f : Forest Statement) :
    ∃ ctx kids, parsePug (tokenizeFile (printTemplate f)) = some ctx ∧
      rootNode ctx = .node rootLabel kids .nil ∧
      kids.map ASTNode.unplaced = (f.withLevel 0).map statementNode := by
  have hbuilt := builtForest_printTemplate f
  rw [builtForest_unplaced] at hbuilt
  obtain ⟨kids, hkids, hmap⟩ := Option.map_eq_some_iff.mp hbuilt
  obtain ⟨entries, hentries, hclose⟩ := Option.map_eq_some_iff.mp hkids
  obtain ⟨ctx, hctx, -, hroot⟩ := parsePug_of_entries hentries
  exact ⟨ctx, kids, hctx, by rw [hroot, hclose], hmap⟩

end CPug
