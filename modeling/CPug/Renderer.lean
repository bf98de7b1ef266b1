import CPug.ParserRun

/-!
# The renderer

`pug_renderer.h` and `process_pug_file`. The functions that append to the output `GString` return
what they append. `renderNode` is the body of `render_node` for one node, given what the recursive
calls append for its children; `renderNodes` is the loop over siblings.
-/

namespace CPug

open Outline

/-- `void_tags`. -/
def voidTags : List CString :=
  ["area".toList, "base".toList, "br".toList, "col".toList, "embed".toList, "hr".toList,
    "img".toList, "input".toList, "link".toList, "meta".toList, "param".toList, "source".toList,
    "track".toList, "wbr".toList]

/-- `is_void_tag`. -/
def isVoidTag (tag : Option CString) : Bool := tag.any fun name => voidTags.contains name

/-- One character through `escape_html`. -/
def escapeChar (c : Char) : CString :=
  if c = '&' then "&amp;".toList
  else if c = '<' then "&lt;".toList
  else if c = '>' then "&gt;".toList
  else if c = '"' then "&quot;".toList
  else if c = '\'' then "&#39;".toList
  else [c]

/-- `escape_html`. -/
def escapeHtml (input : CString) : CString := input.flatMap escapeChar

/-- `token_type_to_string`. -/
def tokenTypeToString : TokenType → CString
  | .tokenTag => "TAG".toList
  | .tokenClass => "CLASS".toList
  | .tokenId => "ID".toList
  | .tokenAttribute => "ATTRIBUTE".toList
  | .tokenText => "TEXT".toList
  | .tokenIndentation => "INDENTATION".toList
  | .tokenDot => "DOT".toList
  | .tokenPipe => "PIPE".toList
  | .tokenComment => "COMMENT".toList
  | .tokenInterpolation => "INTERPOLATION".toList
  | .tokenCode => "CODE".toList
  | .tokenDoctype => "DOCTYPE".toList
  | .tokenInclude => "INCLUDE".toList
  | .tokenExtends => "EXTENDS".toList
  | .tokenBlockComment => "BLOCK_COMMENT".toList
  | .tokenMixin => "MIXIN".toList
  | .tokenCall => "CALL".toList
  | .tokenEof => "EOF".toList

/-- One round of the loop of `render_attributes`. -/
def renderAttribute (attr : Attribute) : CString :=
  ' ' :: attr.name ++
    if attr.type ≠ .attrBoolean then "=\"".toList ++ attr.value ++ "\"".toList else []

/-- `render_attributes`. -/
def renderAttributes (attrs : List Attribute) : CString := attrs.flatMap renderAttribute

/-- `render_classes`. -/
def renderClasses (classes : List CString) : CString :=
  if classes = [] then []
  else " class=\"".toList ++ [' '].intercalate (classes.map escapeHtml) ++ "\"".toList

/-- The id attribute in the TAG case of `render_node`. -/
def renderId (id : Option CString) : CString :=
  match id with
  | some id => " id=\"".toList ++ escapeHtml id ++ "\"".toList
  | none => []

/-- The opening tag in the TAG case of `render_node`, up to its end. -/
def renderOpening (node : ASTNode) : CString :=
  '<' :: node.tag.getD "div".toList ++ renderId node.id ++ renderClasses node.classes ++
    renderAttributes (node.attributes.getD [])

/-- A TAG node without children and closing tag. -/
def rendersVoid (node : ASTNode) : Bool := node.isVoid || isVoidTag node.tag

/-- The test by which `render_node` recognises the artificial root. -/
def isRoot (node : ASTNode) : Bool := node.tag = some "root".toList

section Options

variable (useTabs : Bool) (tabSize : Nat) (minify : Bool)

/-- `append_indent`. -/
def appendIndent (depth : Nat) : CString :=
  (List.replicate depth (if useTabs then ['\t'] else List.replicate tabSize ' ')).flatten

/-- What is appended only when the output is not minified. -/
def unlessMinified (s : CString) : CString := if minify then [] else s

/-- The text of a TAG node. -/
def renderText (node : ASTNode) : CString :=
  match node.textContent with
  | none => []
  | some text =>
    if node.isInline then escapeHtml text
    else
      unlessMinified minify ('\n' :: appendIndent useTabs tabSize (node.depth + 1)) ++
        escapeHtml text

/-- The children of a TAG node, with the line breaks around them. -/
def renderChildren (node : ASTNode) (hasChildren : Bool) (children : CString) : CString :=
  if hasChildren then
    (if node.textContent.isNone || node.isBlock then unlessMinified minify ['\n'] else []) ++
      children ++
      if node.isInline then [] else unlessMinified minify (appendIndent useTabs tabSize node.depth)
  else if node.textContent.isSome && node.isBlock then
    unlessMinified minify ('\n' :: appendIndent useTabs tabSize node.depth)
  else []

/-- `render_node` for one node; `children` is what the calls for its children append. -/
def renderNode (node : ASTNode) (hasChildren : Bool) (children : CString) : CString :=
  if isRoot node then children
  else
    unlessMinified minify (appendIndent useTabs tabSize node.depth) ++
      match node.nodeType with
      | .tokenDoctype =>
        "<!DOCTYPE ".toList ++ node.textContent.getD "html".toList ++ ['>'] ++
          unlessMinified minify ['\n']
      | .tokenText | .tokenPipe | .tokenDot =>
        (node.textContent.map escapeHtml).getD [] ++ unlessMinified minify ['\n']
      | .tokenInterpolation =>
        (node.textContent.map fun text => "#\x7b ".toList ++ text ++ " \x7d".toList).getD [] ++
          unlessMinified minify ['\n']
      | .tokenComment =>
        unlessMinified minify
          ("<!-- ".toList ++ (node.textContent.map escapeHtml).getD [] ++ " -->\n".toList)
      | .tokenBlockComment => []
      | .tokenCode | .tokenInclude | .tokenExtends | .tokenMixin | .tokenCall =>
        unlessMinified minify
          ("<!-- ".toList ++ tokenTypeToString node.nodeType ++ ": ".toList ++
            node.textContent.getD [] ++ " -->\n".toList)
      | .tokenTag =>
        if rendersVoid node then
          renderOpening node ++ " />".toList ++ unlessMinified minify ['\n']
        else
          renderOpening node ++ ['>'] ++ renderText useTabs tabSize minify node ++
            renderChildren useTabs tabSize minify node hasChildren children ++
            "</".toList ++ node.tag.getD "div".toList ++ ['>'] ++ unlessMinified minify ['\n']
      | _ => []

/-- The loop over siblings. -/
def renderNodes : Forest ASTNode → CString
  | .nil => []
  | .node node kids next =>
      renderNode useTabs tabSize minify node (decide (kids ≠ .nil)) (renderNodes kids) ++
        renderNodes next

/-- `render_ast`. -/
def renderAst (root : Forest ASTNode) : CString := renderNodes useTabs tabSize minify root

/-- `process_pug_file`; `none` when `parse_pug` never ends. -/
def processPugFile (content : CString) : Option CString :=
  (parsePug (tokenizeFile content)).map fun ctx => renderAst useTabs tabSize minify (rootNode ctx)

end Options

theorem renderId_some (id : CString) :
    renderId (some id) = " id=\"".toList ++ escapeHtml id ++ "\"".toList := rfl

theorem renderNodes_append (useTabs : Bool) (tabSize : Nat) (minify : Bool) (f g : Forest ASTNode) :
    renderNodes useTabs tabSize minify (f ++ g) =
      renderNodes useTabs tabSize minify f ++ renderNodes useTabs tabSize minify g := by
  induction f with
  | nil => rfl
  | node a kids next _ ih => simp only [Forest.node_append, renderNodes, ih, List.append_assoc]

/-- The artificial root appends what its children append. -/
theorem renderAst_root (useTabs : Bool) (tabSize : Nat) (minify : Bool) (f : Forest ASTNode) :
    renderAst useTabs tabSize minify (.node rootLabel f .nil) =
      renderNodes useTabs tabSize minify f := by
  have h : isRoot rootLabel = true := by decide
  simp [renderAst, renderNodes, renderNode, h]

end CPug
