import CPug.Attributes
import CPug.Control
import CPug.Renderer

/-!
# What the parser puts into a node

`Made` collects what holds of every node that `parse_node` returns on the tokens of a file: a TAG
node has a tag name, no node is marked void, only a TAG can be called `root`, and the attributes are
those that `parse_attributes` makes. It holds of the node of each accepted token and is kept by
every token the node takes, and so of every node of the tree (`parsePug_made`).
-/

namespace CPug

open Outline

/-- What holds of every node of the tree of a file. -/
structure Made (node : ASTNode) : Prop where
  isVoid : node.isVoid = false
  tagName : node.nodeType = .tokenTag → ∃ name, node.tag = some name ∧ IsTagName name
  root : isRoot node = true → node.nodeType = .tokenTag
  attributes : ∀ attr ∈ node.attributes.getD [], Parsed attr

/-- A TAG token has a tag name. -/
def TagNamed (token : Token) : Prop :=
  token.type = .tokenTag → ∃ name, token.value = some name ∧ IsTagName name

theorem tagNamed_of_mem {content : CString} {token : Token} (h : token ∈ tokenizeFile content) :
    TagNamed token := by
  intro htype
  rcases List.mem_append.mp h with h | h
  · obtain ⟨_, _, hline⟩ := mem_fileTokens h
    obtain ⟨value, hvalue, hok⟩ := hline.value
    rw [htype] at hok
    exact ⟨value, hvalue, hok⟩
  · rw [List.mem_singleton.mp h] at htype
    cases htype

/-- A token other than TAG starts a node that is none, and whose tag, if it has one, is a fixed
word. -/
theorem startNode_of_ne_tag {token : Token} (hs : token.type.startsNode = true)
    (ht : token.type ≠ .tokenTag) :
    (startNode token).isVoid = false ∧ (startNode token).nodeType ≠ .tokenTag ∧
      isRoot (startNode token) = false ∧ (startNode token).attributes = none := by
  have he : token.type ≠ .tokenEof := ne_eof_of_startsNode hs
  rw [startNode, parseNodeFrom, if_neg he]
  cases hty : token.type <;>
    simp [hty, TokenType.startsNode, astNodeCreate, isRoot] at hs ht ⊢

theorem made_startNode {token : Token} (hs : token.type.startsNode = true) (h : TagNamed token) :
    Made (startNode token) := by
  by_cases ht : token.type = .tokenTag
  · obtain ⟨name, hname, hok⟩ := h ht
    have hnode : startNode token = { astNodeCreate token.type token.depth with
        line := token.line, column := token.column, tag := some name } := by
      simp [startNode, parseNodeFrom, ht, absorb, hname]
    rw [hnode]
    exact ⟨rfl, fun _ => ⟨name, rfl, hok⟩, fun _ => ht, by simp [astNodeCreate]⟩
  · obtain ⟨hvoid, htype, hroot, hattrs⟩ := startNode_of_ne_tag hs ht
    refine ⟨hvoid, fun h => absurd h htype, fun h => ?_, by simp [hattrs]⟩
    rw [hroot] at h
    cases h

theorem Made.absorbToken {node : ASTNode} (h : Made node) (token : Token) :
    Made (absorbToken node token) := by
  have hsame := absorbToken_sameHead node token
  refine ⟨hsame.isVoid.trans h.isVoid, fun ht => ?_, fun hr => ?_, fun attr hattr => ?_⟩
  · rw [hsame.nodeType] at ht
    rw [hsame.tag]
    exact h.tagName ht
  · rw [isRoot, hsame.tag] at hr
    rw [hsame.nodeType]
    exact h.root hr
  · rcases absorbToken_attributes node token with heq | ⟨value, heq⟩
    · rw [heq] at hattr
      exact h.attributes attr hattr
    · rw [heq, Option.getD_some] at hattr
      rcases List.mem_append.mp hattr with hattr | hattr
      · exact h.attributes attr hattr
      · exact parsed_of_mem hattr

theorem Made.foldl_absorbToken {node : ASTNode} (h : Made node) (tokens : List Token) :
    Made (tokens.foldl CPug.absorbToken node) := by
  induction tokens generalizing node with
  | nil => exact h
  | cons token tokens ih => exact ih (h.absorbToken token)

/-- `parse_pug` returns on the tokens of a file. -/
theorem exists_parsePug (content : CString) : ∃ ctx, parsePug (tokenizeFile content) = some ctx := by
  have hfile := tokenFile_content content
  obtain ⟨entries, hentries⟩ := parseEntries_isSome hfile.valued_append hfile.endsInEof
  obtain ⟨ctx, hctx, -⟩ := parsePug_of_entries hentries
  exact ⟨ctx, by rw [tokenizeFile_eq, hctx]⟩

/-- The tree of any token list is a forest of nodes made of a token and its group, below the
artificial root. -/
theorem parsePug_nodes {tokens : List Token} {ctx : ParserContext}
    (h : parsePug tokens = some ctx) :
    ∃ kids, rootNode ctx = .node rootLabel kids .nil ∧ ∀ node ∈ kids.labels, ∃ token more,
      token :: more <:+ tokens ∧ token.type.startsNode = true ∧
        node = (group token more).foldl absorbToken (startNode token) := by
  obtain ⟨entries, kids, hentries, hnode, hlabels⟩ := parsePug_labels h
  refine ⟨kids, hnode, fun node hmem => ?_⟩
  rw [hlabels] at hmem
  obtain ⟨entry, hentry, rfl⟩ := List.mem_map.mp hmem
  exact mem_parseEntries_group hentries entry hentry

/-- The tree of a file is a forest of such nodes below the artificial root. -/
theorem parsePug_made {content : CString} {ctx : ParserContext}
    (h : parsePug (tokenizeFile content) = some ctx) :
    ∃ kids, rootNode ctx = .node rootLabel kids .nil ∧ ∀ node ∈ kids.labels, Made node := by
  obtain ⟨kids, hnode, hnodes⟩ := parsePug_nodes h
  refine ⟨kids, hnode, fun node hmem => ?_⟩
  obtain ⟨token, more, hsuffix, hs, rfl⟩ := hnodes node hmem
  have htoken := hsuffix.subset List.mem_cons_self
  exact (made_startNode hs (tagNamed_of_mem htoken)).foldl_absorbToken _

end CPug
