import CPug.PrettyDocument
import CPug.Statements

/-!
# The document of a printed template

`templateDocument` says what a forest of statements means, without tokens, nodes or the renderer: elements
with their attributes and texts, doctypes and piped texts. The other directives have no part in it, and what
stands below a directive or below a void element is lost. For every template of statements that HTML can say,
a reader of the output in any mode sees this document (`readHtml_printTemplate`).
-/

namespace CPug

open Outline

/-- What a directive stands for. -/
def directiveDocument (d : Directive) : Forest HtmlNode :=
  match d.type with
  | .tokenDoctype => .leaf (.doctype d.text)
  | .tokenPipe => .leaf (.text d.text)
  | _ => .nil

/-- The document a forest of statements stands for. -/
def templateDocument : Forest Statement → Forest HtmlNode
  | .nil => .nil
  | .node (.element e) kids next =>
    if e.isVoid then .leaf (.void e.tag e.htmlAttributes) ++ templateDocument next
    else
      .node (.element e.tag e.htmlAttributes)
        ((match e.text with
          | some text => .leaf (.text text)
          | none => .nil) ++ templateDocument kids) (templateDocument next)
  | .node (.directive d) _ next => directiveDocument d ++ templateDocument next

/-- A directive that HTML can say: a doctype without `>`, and no end of a comment in what is written into
one as it is. -/
structure Directive.Sayable (d : Directive) : Prop where
  doctype : d.type = .tokenDoctype → '>' ∉ d.text
  comment : d.type ≠ .tokenPipe → d.type ≠ .tokenComment → ¬ "-->".toList <:+: d.text

/-- A statement that HTML can say. -/
def Statement.Sayable : Statement → Prop
  | .element e => Expressible e
  | .directive d => d.Sayable

/-! ## Nodes -/

section Directive

variable (k : Nat) (d : Directive)

theorem isRoot_directiveNode : isRoot (directiveNode k d) = false := by
  obtain ⟨type, text, htype, hline, hstripped⟩ := d
  apply decide_eq_false
  intro hroot
  cases type <;> simp [directiveNode, directiveTag] at hroot

/-- The node of a directive has the type of its token, that of a piped text is TEXT. -/
theorem nodeType_directiveNode_ne {type : TokenType} (h : type ∉ lineTypes) (htext : type ≠ .tokenText) :
    (directiveNode k d).nodeType ≠ type := by
  intro htype
  unfold directiveNode at htype
  dsimp only at htype
  split at htype
  · exact htext htype.symm
  · exact h (htype ▸ d.type_ok)

theorem made_directiveNode : Made (directiveNode k d) where
  isVoid := rfl
  tagName htag := absurd htag (nodeType_directiveNode_ne k d (by decide) (by decide))
  root hroot := by
    rw [isRoot_directiveNode] at hroot
    cases hroot
  attributes _ hattr := absurd hattr List.not_mem_nil

variable {d}

theorem readable_directiveNode (h : d.Sayable) : Readable (directiveNode k d) where
  attributes _ hattr := absurd hattr List.not_mem_nil
  interpolation htype := absurd htype (nodeType_directiveNode_ne k d (by decide) (by decide))
  doctype htype text htext := by
    cases htext
    apply h.doctype
    unfold directiveNode at htype
    dsimp only at htype
    split at htype
    · cases htype
    · exact htype

theorem unbroken_directiveNode (h : d.Sayable) : Unbroken (directiveNode k d) := by
  intro hcode
  have htype : (directiveNode k d).nodeType = if d.type = .tokenPipe then .tokenText else d.type := rfl
  apply h.comment
  · intro hpipe
    rw [if_pos hpipe] at htype
    simp [isCodeLike, htype] at hcode
  · intro hcomment
    rw [if_neg (by simp [hcomment]), hcomment] at htype
    simp [isCodeLike, htype] at hcode

/-- A directive has no children in the document. -/
theorem seen_nodePieces_directive (children : Forest HtmlNode) :
    seen (nodePieces (directiveNode k d) children) = seen (directiveDocument d) := by
  rw [nodePieces, if_neg (by simp [isRoot_directiveNode])]
  obtain ⟨type, text, htype, hline, hstripped⟩ := d
  simp only [lineTypes, List.mem_cons, List.not_mem_nil, or_false] at htype
  rcases htype with rfl | rfl | rfl | rfl | rfl | rfl | rfl | rfl | rfl
  case inr.inr.inr.inr.inr.inr.inr.inl =>
    exact (seen_textPieces text).trans (seen_text text).symm
  all_goals rfl

end Directive

theorem Statement.Sayable.node {s : Statement} (h : s.Sayable) (k : Nat) :
    Made (statementNode (k, s)) ∧ Readable (statementNode (k, s)) ∧ Unbroken (statementNode (k, s)) := by
  cases s with
  | element e =>
    exact ⟨made_elementNode h k, readable_elementNode h k, fun hcode => Bool.noConfusion hcode⟩
  | directive d =>
    exact ⟨made_directiveNode k d, readable_directiveNode k h, unbroken_directiveNode k h⟩

/-! ## Trees -/

/-- The tree of a template has the document of the template. -/
theorem seen_pieces_template {f : Forest Statement} (h : ∀ s ∈ f.labels, s.Sayable) (k : Nat) :
    seen (pieces ((f.withLevel k).map statementNode)) = seen (templateDocument f) := by
  induction f generalizing k with
  | nil => rfl
  | node s kids next ihk ihn =>
    have hs := h s List.mem_cons_self
    have hkids := ihk (fun t ht => h t (List.mem_cons_of_mem _ (List.mem_append_left _ ht))) (k + 1)
    have hnext := ihn (fun t ht => h t (List.mem_cons_of_mem _ (List.mem_append_right _ ht))) k
    rw [Forest.withLevel, Forest.map_node, pieces, seen_append, hnext]
    cases s with
    | directive d =>
      rw [templateDocument, seen_append]
      congr 1
      exact seen_nodePieces_directive k _
    | element e =>
      have hvoids : rendersVoid (elementNode (k, e)) = e.isVoid := by
        simp [rendersVoid, elementNode, astNodeCreate, Element.isVoid]
      show seen (nodePieces (elementNode (k, e)) _) ++ _ = _
      rw [nodePieces, if_neg (by simp [isRoot_elementNode hs])]
      show seen (if rendersVoid (elementNode (k, e)) = true then _ else _) ++ _ = _
      rw [hvoids, htmlAttributes_elementNode, templateDocument]
      split
      · rw [seen_append]
        rfl
      · have htext : seen (textPieces (e.text.getD [])) =
            seen (match e.text with
              | some text => .leaf (.text text)
              | none => .nil) := by
          cases e.text with
          | none => rfl
          | some text => exact (seen_textPieces text).trans (seen_text text).symm
        show Forest.node _ (seen (textPieces (e.text.getD []) ++ _)) .nil ++ _ = _
        rw [seen_append, hkids, htext, ← seen_append]
        rfl

/-- **What a template means.** For every forest of elements and directives all of which HTML can say (`Sayable`),
in any nesting and with any options, a reader of the output that the pipeline gives for the printed template gets a document
in which the same is seen as in the one the template stands for. -/
theorem readHtml_printTemplate {f : Forest Statement} (h : ∀ s ∈ f.labels, s.Sayable) (useTabs : Bool)
    (tabSize : Nat) (minify : Bool) :
    ∃ html d, processPugFile useTabs tabSize minify (printTemplate f) = some html ∧
      readHtml html = some d ∧ seen d = seen (templateDocument f) := by
  have hrender := builtForest_printTemplate f
  rw [builtForest_unplaced] at hrender
  obtain ⟨kids, hkids, hmap⟩ := Option.map_eq_some_iff.mp hrender
  have hsays : Says (renderNodes useTabs tabSize minify ((f.withLevel 0).map statementNode))
      (pieces ((f.withLevel 0).map statementNode)) := by
    apply says_renderNodes
    intro node hnode
    rw [Forest.labels_map] at hnode
    obtain ⟨⟨k, s⟩, hp, rfl⟩ := List.mem_map.mp hnode
    have hs : s.Sayable := by
      apply h
      rw [← Forest.map_snd_withLevel f 0, Forest.labels_map]
      exact List.mem_map_of_mem hp
    obtain ⟨hmade, hread, hunbroken⟩ := hs.node k
    exact ⟨hmade, hread, fun _ => hunbroken⟩
  obtain ⟨d, hread, hseen⟩ := hsays.readHtml
  refine ⟨_, d, ?_, hread, hseen.trans (seen_pieces_template h 0)⟩
  rw [processPugFile_eq, hkids, Option.map_some, ← hmap, renderNodes_unplaced]

def noteDirective (type : TokenType) (h : type ∈ lineTypes) : Directive where
  type := type
  text := "note".toList
  type_ok := h
  singleLine := of_decide_eq_true rfl
  stripped := ⟨fun _ hc => Option.some.inj hc ▸ rfl, fun _ hc => Option.some.inj hc ▸ rfl⟩

/-- A doctype, the element `p.lead 1 < 2`, and below it a piped text and a comment. -/
def noteTemplate : Forest Statement :=
  .node (.directive (noteDirective .tokenDoctype (of_decide_eq_true rfl))) .nil
    (.node (.element leadElement)
      (.node (.directive (noteDirective .tokenPipe (of_decide_eq_true rfl))) .nil
        (.leaf (.directive (noteDirective .tokenBlockComment (of_decide_eq_true rfl))))) .nil)

theorem readHtml_printTemplate_note :
    ∃ html d, processPugFile true 2 false (printTemplate noteTemplate) = some html ∧
      readHtml html = some d ∧ seen d = seen (templateDocument noteTemplate) := by
  apply readHtml_printTemplate
  have hnote : ∀ type h, (noteDirective type h).Sayable := fun type h =>
    ⟨fun _ hmem => absurd hmem (of_decide_eq_true rfl), fun _ _ hend =>
      absurd (hend.subset List.mem_cons_self) (of_decide_eq_true rfl)⟩
  intro s hs
  simp only [noteTemplate, Forest.leaf, Forest.labels_node, Forest.labels_nil, List.append_nil,
    List.mem_cons, List.nil_append, List.not_mem_nil, or_false] at hs
  rcases hs with rfl | rfl | rfl | rfl
  · exact hnote _ _
  · exact ⟨by decide, fun _ h => (by cases h), fun h => (by cases h)⟩
  · exact hnote _ _
  · exact hnote _ _

end CPug
