import CPug.Calls
import CPug.Escaping
import CPug.Nodes

/-!
# Where a debug comment ends

In pretty mode COMMENT nodes and code-like nodes are rendered as HTML comments. A reader ends a comment
at the first `-->` (`readComment`). The text of a COMMENT is escaped and has no `>`; the text of the
others is written as it is, so the comment of such a node ends where `render_node` ends it exactly when
there is no `-->` in the text (`debugComment_iff`). None can straddle the end of the text, since a space
follows it.
-/

namespace CPug

open Outline

/-- Read the body of an HTML comment, behind its `<!--`: what comes before the first `-->`, and the
rest of the input behind that. -/
def readComment : CString → Option (CString × CString)
  | [] => none
  | c :: s =>
    if "-->".toList.isPrefixOf (c :: s) then some ([], (c :: s).drop 3)
    else (readComment s).map fun read => (c :: read.1, read.2)

/-- The nodes of the second branch that writes comments. -/
def isCodeLike (node : ASTNode) : Bool :=
  match node.nodeType with
  | .tokenCode | .tokenInclude | .tokenExtends | .tokenMixin | .tokenCall => true
  | _ => false

/-- The nodes that are rendered as comments. -/
def isDebug (node : ASTNode) : Bool := decide (node.nodeType = .tokenComment) || isCodeLike node

/-- What is written behind `<!--`, up to the last space. -/
def debugText (node : ASTNode) : CString :=
  if node.nodeType = .tokenComment then ' ' :: (node.textContent.map escapeHtml).getD []
  else ' ' :: (tokenTypeToString node.nodeType ++ ": ".toList ++ node.textContent.getD [])

/-- The call writes one comment, and reading the output from behind its `<!--` the first `-->` is the
one it writes at the end. -/
def ClosesItself (useTabs : Bool) (tabSize : Nat) (output : CString) (call : CString × ASTNode) :
    Prop :=
  ∃ after, output = call.1 ++ appendIndent useTabs tabSize call.2.depth ++ "<!--".toList ++
      debugText call.2 ++ " -->\n".toList ++ after ∧
    readComment (debugText call.2 ++ " -->\n".toList ++ after) =
      some (debugText call.2 ++ [' '], '\n' :: after)

/-! ## Occurrences -/

/-- A pattern without the character `d` does not reach over a `d`. -/
theorem prefix_append_cons_iff {d : Char} {p : CString} (hd : d ∉ p) (s r : CString) :
    p <+: s ++ d :: r ↔ p <+: s := by
  induction s generalizing p with
  | nil =>
    cases p with
    | nil => simp
    | cons c p =>
      simp only [List.mem_cons, not_or] at hd
      rw [List.nil_append, List.cons_prefix_cons]
      constructor
      · exact fun h => absurd h.1.symm hd.1
      · exact fun h => by simp at h
  | cons c s ih =>
    cases p with
    | nil => simp
    | cons c' p =>
      simp only [List.mem_cons, not_or] at hd
      rw [List.cons_append, List.cons_prefix_cons, List.cons_prefix_cons, ih hd.2]

/-- A pattern does not begin in a text without its first character. -/
theorem infix_append_iff {d : Char} {p t : CString} (hd : d ∉ t) (s : CString) :
    d :: p <:+: t ++ s ↔ d :: p <:+: s := by
  induction t with
  | nil => rfl
  | cons c t ih =>
    simp only [List.mem_cons, not_or] at hd
    rw [List.cons_append, List.infix_cons_iff, List.cons_prefix_cons, ih hd.2]
    constructor
    · rintro (h | h)
      · exact absurd h.1 hd.1
      · exact h
    · exact Or.inr

/-- The first `-->` behind a text and a space is the one written there, unless the text has one. -/
theorem readComment_append (text rest : CString) :
    readComment (text ++ " -->".toList ++ rest) = some (text ++ [' '], rest) ↔
      ¬ "-->".toList <:+: text := by
  have hspace : ' ' ∉ "-->".toList := by decide
  induction text with
  | nil =>
    constructor
    · intro _ h
      exact absurd (List.infix_nil.mp h) (by decide)
    · intro _
      rfl
  | cons c text ih =>
    have hassoc : c :: text ++ " -->".toList ++ rest = (c :: text) ++ ' ' :: ("-->".toList ++ rest) := by
      simp
    have hpre := prefix_append_cons_iff hspace (c :: text) ("-->".toList ++ rest)
    rw [← hassoc] at hpre
    rw [List.infix_cons_iff, ← hpre, not_or, List.cons_append, List.cons_append, readComment]
    by_cases h : "-->".toList <+: c :: (text ++ " -->".toList ++ rest)
    · rw [if_pos (List.isPrefixOf_iff_prefix.mpr h)]
      constructor
      · intro he
        cases he
      · exact fun hn => absurd h hn.1
    · rw [if_neg (mt List.isPrefixOf_iff_prefix.mp h), and_iff_right h]
      refine Iff.trans ?_ ih
      cases readComment (text ++ " -->".toList ++ rest) with
      | none => simp
      | some read => simp [Prod.ext_iff]

/-! ## One node -/

section Node

variable {node : ASTNode}

theorem infix_debugText_comment (h : node.nodeType = .tokenComment) :
    ¬ "-->".toList <:+: debugText node := by
  rw [debugText, if_pos h]
  intro hinfix
  have hmem : '>' ∈ ' ' :: (node.textContent.map escapeHtml).getD [] := hinfix.subset (by decide)
  rcases List.mem_cons.mp hmem with hmem | hmem
  · exact absurd hmem (by decide)
  · cases ht : node.textContent with
    | none => simp [ht] at hmem
    | some text =>
      rw [ht] at hmem
      exact ((safeEncoding_escapeHtml text).safe _ hmem).2.1 rfl

theorem infix_debugText_codeLike (h : isCodeLike node = true) :
    "-->".toList <:+: debugText node ↔ "-->".toList <:+: node.textContent.getD [] := by
  have hne : node.nodeType ≠ .tokenComment := by
    intro he
    simp [isCodeLike, he] at h
  have hname : '-' ∉ ' ' :: (tokenTypeToString node.nodeType ++ ": ".toList) := by
    unfold isCodeLike at h
    split at h <;> first | (simp only [*]; decide) | cases h
  rw [debugText, if_neg hne, ← List.cons_append]
  exact infix_append_iff hname _

/-- What `render_node` appends for the node. -/
theorem renderNode_debug (h : isDebug node = true) (hroot : isRoot node = false) (useTabs : Bool)
    (tabSize : Nat) (hasChildren : Bool) (children : CString) :
    renderNode useTabs tabSize false node hasChildren children =
      appendIndent useTabs tabSize node.depth ++ "<!--".toList ++ debugText node ++
        " -->\n".toList := by
  unfold renderNode debugText
  rw [if_neg (by simp [hroot])]
  unfold isDebug isCodeLike at h
  cases ht : node.nodeType <;> simp [ht, unlessMinified] at h ⊢

end Node

/-- For a node that is called at all. -/
theorem closesItself_iff {useTabs : Bool} {tabSize : Nat} {f : Forest ASTNode}
    {call : CString × ASTNode} (hcall : call ∈ calls useTabs tabSize false [] f)
    (hdebug : isDebug call.2 = true) (hroot : isRoot call.2 = false) :
    ClosesItself useTabs tabSize (renderNodes useTabs tabSize false f) call ↔
      (isCodeLike call.2 = true → ¬ "-->".toList <:+: call.2.textContent.getD []) := by
  obtain ⟨hasChildren, children, after, hout⟩ := calls_split useTabs tabSize false hcall
  rw [List.nil_append, renderNode_debug hdebug hroot] at hout
  have hread : ClosesItself useTabs tabSize (renderNodes useTabs tabSize false f) call ↔
      ¬ "-->".toList <:+: debugText call.2 := by
    rw [← readComment_append _ ('\n' :: after)]
    have hend : ∀ rest : CString, debugText call.2 ++ " -->\n".toList ++ rest =
        debugText call.2 ++ " -->".toList ++ '\n' :: rest := by
      intro rest
      simp
    constructor
    · rintro ⟨after', hout', hread⟩
      rw [hout] at hout'
      have hafter : after = after' := by
        simpa only [List.append_assoc, List.append_cancel_left_eq] using hout'
      rw [← hafter, hend] at hread
      exact hread
    · intro hread
      refine ⟨after, ?_, ?_⟩
      · rw [hout]
        simp only [List.append_assoc]
      · rw [hend]
        exact hread
  rw [hread]
  cases hcode : isCodeLike call.2 with
  | true =>
    rw [infix_debugText_codeLike hcode]
    simp
  | false =>
    have hcomment : call.2.nodeType = .tokenComment := by simpa [isDebug, hcode] using hdebug
    simpa using infix_debugText_comment hcomment

/-- For every file, in pretty mode: the comment of a node ends where `render_node` ends it exactly when
the node is a COMMENT or its text has no `-->`. -/
theorem debugComment_iff (content : CString) (useTabs : Bool) (tabSize : Nat) :
    ∃ ctx output, parsePug (tokenizeFile content) = some ctx ∧
      processPugFile useTabs tabSize false content = some output ∧
      ∀ call ∈ calls useTabs tabSize false [] (rootNode ctx), isDebug call.2 = true →
        (ClosesItself useTabs tabSize output call ↔
          (isCodeLike call.2 = true → ¬ "-->".toList <:+: call.2.textContent.getD [])) := by
  obtain ⟨ctx, hctx⟩ := exists_parsePug content
  obtain ⟨kids, hnode, hmade⟩ := parsePug_made hctx
  refine ⟨ctx, renderAst useTabs tabSize false (rootNode ctx), hctx, ?_, fun call hcall hdebug => ?_⟩
  · rw [processPugFile, hctx, Option.map_some]
  · refine closesItself_iff hcall hdebug ?_
    have hlabel := mem_labels_of_mem_calls hcall
    rw [hnode, Forest.labels_node, Forest.labels_nil, List.append_nil] at hlabel
    rcases List.mem_cons.mp hlabel with hlabel | hlabel
    · rw [hlabel] at hdebug
      cases hdebug
    · cases hroot : isRoot call.2 with
      | false => rfl
      | true => simp [isDebug, isCodeLike, (hmade _ hlabel).root hroot] at hdebug

/-- The text of a CODE node ends its comment. -/
theorem debugComment_fails :
    ¬ ∀ content useTabs tabSize ctx, parsePug (tokenizeFile content) = some ctx →
      ∀ call ∈ calls useTabs tabSize false [] (rootNode ctx), isDebug call.2 = true →
        ClosesItself useTabs tabSize (renderAst useTabs tabSize false (rootNode ctx)) call := by
  intro h
  let code := startNode (createToken .tokenCode (some "x --> y".toList) 0 1 0)
  have hrun : (parsePug (tokenizeFile "- x --> y".toList)).map rootNode =
      some (.node rootLabel (.leaf code) .nil) := by decide +kernel
  obtain ⟨ctx, hctx, hroot⟩ := Option.map_eq_some_iff.mp hrun
  have hcall : ([], code) ∈ calls false 2 false [] (rootNode ctx) := by
    rw [hroot]
    decide +kernel
  have hcloses := h _ false 2 ctx hctx _ hcall rfl
  exact (closesItself_iff hcall rfl rfl).mp hcloses rfl (by decide +kernel)

end CPug
