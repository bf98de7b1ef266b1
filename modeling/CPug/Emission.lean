import CPug.Renderer

/-!
# What the renderer emits

`emissions` follows `render_node` and lists what is appended piece by piece, so that tags can be told
from text: the pieces put together are the output (`flatMap_written`).

* `skeleton` is what is left of it without the text: which tags are emitted, and in which order, does
  not depend on the options (`filterMap_markup_emissions`).
* `entered` are the nodes whose children `render_node` visits, `isElement` those that get a tag:
  `opened_skeleton` and `closed_skeleton` say for which nodes of the tree a tag is emitted.
-/

namespace CPug

open Outline

/-- A tag of an element. -/
inductive Markup where
  | opening (node : ASTNode)
  | closing (node : ASTNode)
  | selfClosed (node : ASTNode)
deriving Repr, DecidableEq

namespace Markup

/-- The text appended for it. -/
def written : Markup → CString
  | opening node => renderOpening node ++ ['>']
  | closing node => "</".toList ++ node.tag.getD "div".toList ++ ['>']
  | selfClosed node => renderOpening node ++ " />".toList

@[simp] theorem written_opening (node : ASTNode) :
    (opening node).written = renderOpening node ++ ['>'] := rfl

@[simp] theorem written_closing (node : ASTNode) :
    (closing node).written = "</".toList ++ node.tag.getD "div".toList ++ ['>'] := rfl

@[simp] theorem written_selfClosed (node : ASTNode) :
    (selfClosed node).written = renderOpening node ++ " />".toList := rfl

/-- The element that starts here. -/
def opened? : Markup → Option ASTNode
  | opening node | selfClosed node => some node
  | closing _ => none

/-- The element that ends here. -/
def closed? : Markup → Option ASTNode
  | closing node => some node
  | _ => none

/-- The element that is void. -/
def selfClosed? : Markup → Option ASTNode
  | selfClosed node => some node
  | _ => none

theorem filterMap_opened_element (node : ASTNode) (inner : List Markup) :
    (opening node :: (inner ++ [closing node])).filterMap opened? =
      node :: inner.filterMap opened? := by
  rw [List.filterMap_cons_some (f := opened?) rfl, List.filterMap_append,
    List.filterMap_cons_none (f := opened?) rfl, List.filterMap_nil, List.append_nil]

theorem filterMap_closed_element (node : ASTNode) (inner : List Markup) :
    (opening node :: (inner ++ [closing node])).filterMap closed? =
      inner.filterMap closed? ++ [node] := by
  rw [List.filterMap_cons_none (f := closed?) rfl, List.filterMap_append,
    List.filterMap_cons_some (f := closed?) rfl, List.filterMap_nil]

theorem filterMap_selfClosed_element (node : ASTNode) (inner : List Markup) :
    (opening node :: (inner ++ [closing node])).filterMap selfClosed? =
      inner.filterMap selfClosed? := by
  rw [List.filterMap_cons_none (f := selfClosed?) rfl, List.filterMap_append,
    List.filterMap_cons_none (f := selfClosed?) rfl, List.filterMap_nil, List.append_nil]

end Markup

/-- One piece of the output. -/
inductive Emission where
  | plain (text : CString)
  | doctype (text : CString)
  | tag (markup : Markup)
deriving Repr, DecidableEq

namespace Emission

/-- The text appended for it. -/
def written : Emission → CString
  | plain text => text
  | doctype text => "<!DOCTYPE ".toList ++ text ++ ['>']
  | tag markup => markup.written

def markup? : Emission → Option Markup
  | tag markup => some markup
  | _ => none

variable (text : CString) (markup : Markup) (rest : List Emission)

@[simp] theorem written_plain : (plain text).written = text := rfl

@[simp] theorem written_doctype :
    (doctype text).written = "<!DOCTYPE ".toList ++ text ++ ['>'] := rfl

@[simp] theorem written_tag : (tag markup).written = markup.written := rfl

@[simp] theorem filterMap_markup_plain :
    (plain text :: rest).filterMap markup? = rest.filterMap markup? := rfl

@[simp] theorem filterMap_markup_doctype :
    (doctype text :: rest).filterMap markup? = rest.filterMap markup? := rfl

@[simp] theorem filterMap_markup_tag :
    (tag markup :: rest).filterMap markup? = markup :: rest.filterMap markup? := rfl

end Emission

section Options

variable (useTabs : Bool) (tabSize : Nat) (minify : Bool)

/-- The children of a TAG node, as in `renderChildren`. -/
def childrenEmissions (node : ASTNode) (hasChildren : Bool) (children : List Emission) :
    List Emission :=
  if hasChildren then
    .plain (if node.textContent.isNone || node.isBlock then unlessMinified minify ['\n'] else []) ::
      (children ++
        [.plain (if node.isInline then []
          else unlessMinified minify (appendIndent useTabs tabSize node.depth))])
  else if node.textContent.isSome && node.isBlock then
    [.plain (unlessMinified minify ('\n' :: appendIndent useTabs tabSize node.depth))]
  else []

/-- What one call of `render_node` appends, as in `renderNode`. -/
def nodeEmissions (node : ASTNode) (hasChildren : Bool) (children : List Emission) :
    List Emission :=
  if isRoot node then children
  else
    .plain (unlessMinified minify (appendIndent useTabs tabSize node.depth)) ::
      match node.nodeType with
      | .tokenDoctype =>
        [.doctype (node.textContent.getD "html".toList), .plain (unlessMinified minify ['\n'])]
      | .tokenText | .tokenPipe | .tokenDot =>
        [.plain ((node.textContent.map escapeHtml).getD []),
          .plain (unlessMinified minify ['\n'])]
      | .tokenInterpolation =>
        [.plain ((node.textContent.map fun text => "#\x7b ".toList ++ text ++ " \x7d".toList).getD []),
          .plain (unlessMinified minify ['\n'])]
      | .tokenComment =>
        [.plain (unlessMinified minify
          ("<!-- ".toList ++ (node.textContent.map escapeHtml).getD [] ++ " -->\n".toList))]
      | .tokenBlockComment => []
      | .tokenCode | .tokenInclude | .tokenExtends | .tokenMixin | .tokenCall =>
        [.plain (unlessMinified minify
          ("<!-- ".toList ++ tokenTypeToString node.nodeType ++ ": ".toList ++
            node.textContent.getD [] ++ " -->\n".toList))]
      | .tokenTag =>
        if rendersVoid node then
          [.tag (.selfClosed node), .plain (unlessMinified minify ['\n'])]
        else
          .tag (.opening node) :: .plain (renderText useTabs tabSize minify node) ::
            (childrenEmissions useTabs tabSize minify node hasChildren children ++
              [.tag (.closing node), .plain (unlessMinified minify ['\n'])])
      | _ => []

/-- What the loop over siblings appends, piece by piece. -/
def emissions : Forest ASTNode → List Emission
  | .nil => []
  | .node node kids next =>
      nodeEmissions useTabs tabSize minify node (decide (kids ≠ .nil)) (emissions kids) ++
        emissions next

theorem written_childrenEmissions (node : ASTNode) (hasChildren : Bool) (children : List Emission) :
    (childrenEmissions useTabs tabSize minify node hasChildren children).flatMap Emission.written =
      renderChildren useTabs tabSize minify node hasChildren
        (children.flatMap Emission.written) := by
  cases hasChildren with
  | true => simp [childrenEmissions, renderChildren]
  | false =>
    by_cases htext : (node.textContent.isSome && node.isBlock) = true
    · simp only [childrenEmissions, renderChildren, htext, Bool.false_eq_true, if_false, if_true,
        List.flatMap_cons, List.flatMap_nil, Emission.written_plain, List.append_nil]
    · simp only [childrenEmissions, renderChildren, htext, Bool.false_eq_true, if_false,
        List.flatMap_nil]

theorem written_nodeEmissions (node : ASTNode) (hasChildren : Bool) (children : List Emission) :
    (nodeEmissions useTabs tabSize minify node hasChildren children).flatMap Emission.written =
      renderNode useTabs tabSize minify node hasChildren
        (children.flatMap Emission.written) := by
  by_cases hroot : isRoot node = true
  · simp only [nodeEmissions, renderNode, if_pos hroot]
  simp only [nodeEmissions, renderNode, if_neg hroot, List.flatMap_cons,
    Emission.written_plain]
  refine congrArg _ ?_
  cases ht : node.nodeType with
  | tokenTag =>
    by_cases hv : rendersVoid node = true
    · simp [hv]
    · simp [hv, written_childrenEmissions]
  | _ => simp

/-- The pieces are the output. -/
theorem flatMap_written (f : Forest ASTNode) :
    (emissions useTabs tabSize minify f).flatMap Emission.written =
      renderNodes useTabs tabSize minify f := by
  induction f with
  | nil => rfl
  | node a kids next ihk ihn =>
    rw [emissions, List.flatMap_append, written_nodeEmissions, ihk, ihn, renderNodes]

end Options

/-! ## The tags -/

/-- The tags that are emitted. -/
def skeleton : Forest ASTNode → List Markup
  | .nil => []
  | .node node kids next =>
      (if isRoot node then skeleton kids
      else if node.nodeType = .tokenTag then
        if rendersVoid node then [.selfClosed node]
        else .opening node :: (skeleton kids ++ [.closing node])
      else []) ++ skeleton next

theorem filterMap_markup_childrenEmissions (useTabs : Bool) (tabSize : Nat) (minify : Bool)
    (node : ASTNode) {hasChildren : Bool} {children : List Emission}
    (h : hasChildren = false → children = []) :
    (childrenEmissions useTabs tabSize minify node hasChildren children).filterMap
      Emission.markup? = children.filterMap Emission.markup? := by
  rw [childrenEmissions]
  cases hasChildren with
  | true => simp
  | false =>
    rw [if_neg (by simp), h rfl]
    split <;> rfl

theorem filterMap_markup_emissions (useTabs : Bool) (tabSize : Nat) (minify : Bool)
    (f : Forest ASTNode) :
    (emissions useTabs tabSize minify f).filterMap Emission.markup? = skeleton f := by
  induction f with
  | nil => rfl
  | node a kids next ihk ihn =>
    have hnil : decide (kids ≠ .nil) = false → emissions useTabs tabSize minify kids = [] := by
      intro h
      have hkids : kids = .nil := by simpa using h
      rw [hkids]
      rfl
    have hkids := filterMap_markup_childrenEmissions useTabs tabSize minify a hnil
    rw [emissions, List.filterMap_append, ihn, skeleton, nodeEmissions]
    refine congrArg (· ++ skeleton next) ?_
    by_cases hroot : isRoot a = true
    · rw [if_pos hroot, if_pos hroot, ihk]
    rw [if_neg hroot, if_neg hroot]
    cases ht : a.nodeType with
    | tokenTag =>
      by_cases hv : rendersVoid a = true
      · simp [hv]
      · simp only [hv, Emission.filterMap_markup_plain, Emission.filterMap_markup_tag,
          List.filterMap_append, hkids, ihk, if_true, Bool.false_eq_true, if_false]
        rfl
    | _ => rfl

/-! ## The nodes that get a tag -/

/-- `render_node` visits the children of the node. -/
def entered (node : ASTNode) : Bool :=
  isRoot node || (decide (node.nodeType = .tokenTag) && !rendersVoid node)

/-- `render_node` emits a tag for the node. -/
def isElement (node : ASTNode) : Bool := !isRoot node && decide (node.nodeType = .tokenTag)

/-- Which tags are opened: those of the visited elements, in document order. -/
theorem opened_skeleton (f : Forest ASTNode) :
    (skeleton f).filterMap Markup.opened? = (f.visit entered).filter isElement := by
  induction f with
  | nil => rfl
  | node a kids next ihk ihn =>
    rw [Forest.visit_node, ← List.cons_append, List.filter_append, skeleton,
      List.filterMap_append, ihn]
    refine congrArg (· ++ (next.visit entered).filter isElement) ?_
    by_cases hroot : isRoot a = true
    · have he : entered a = true := by simp [entered, hroot]
      have hel : isElement a = false := by simp [isElement, hroot]
      rw [if_pos hroot, if_pos he, List.filter_cons_of_neg (by simp [hel]), ihk]
    · by_cases ht : a.nodeType = .tokenTag
      · have hel : isElement a = true := by simp [isElement, hroot, ht]
        rw [if_neg hroot, if_pos ht, List.filter_cons_of_pos hel]
        by_cases hv : rendersVoid a = true
        · have he : entered a = false := by simp [entered, hroot, hv]
          simp [hv, he, Markup.opened?]
        · have he : entered a = true := by simp [entered, ht, hv]
          simp [hv, he, Markup.filterMap_opened_element, ihk]
      · have he : entered a = false := by simp [entered, hroot, ht]
        have hel : isElement a = false := by simp [isElement, ht]
        rw [if_neg hroot, if_neg ht, List.filter_cons_of_neg (by simp [hel]), he]
        rfl

/-- Which tags are closed: those opened that are not void. -/
theorem closed_skeleton (f : Forest ASTNode) :
    ((skeleton f).filterMap Markup.closed?).Perm
      (((skeleton f).filterMap Markup.opened?).filter fun node => !rendersVoid node) := by
  induction f with
  | nil => exact .refl _
  | node a kids next ihk ihn =>
    rw [skeleton, List.filterMap_append, List.filterMap_append, List.filter_append]
    refine List.Perm.append ?_ ihn
    split
    · exact ihk
    split
    · split
      · rename_i hv
        simp [Markup.closed?, Markup.opened?, hv]
      · rename_i hv
        rw [Markup.filterMap_closed_element, Markup.filterMap_opened_element,
          List.filter_cons_of_pos (by simpa using hv)]
        exact (List.perm_append_singleton _ _).trans (ihk.cons a)
    · exact .refl _

/-- Which tags are self-closed: those opened that are void. -/
theorem selfClosed_skeleton (f : Forest ASTNode) :
    (skeleton f).filterMap Markup.selfClosed? =
      ((skeleton f).filterMap Markup.opened?).filter rendersVoid := by
  induction f with
  | nil => rfl
  | node a kids next ihk ihn =>
    rw [skeleton, List.filterMap_append, List.filterMap_append, List.filter_append, ihn]
    refine congrArg (· ++ ((skeleton next).filterMap Markup.opened?).filter rendersVoid) ?_
    split
    · exact ihk
    split
    · split
      · rename_i hv
        simp [Markup.selfClosed?, Markup.opened?, hv]
      · rename_i hv
        rw [Markup.filterMap_selfClosed_element, Markup.filterMap_opened_element,
          List.filter_cons_of_neg hv, ihk]
    · rfl

end CPug
