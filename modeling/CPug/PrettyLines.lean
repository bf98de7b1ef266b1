import CPug.LineStarts
import CPug.SingleLine

/-!
# The lines of the pretty output

What `render_node` appends in pretty mode is made of three things: indentations of a level, newlines, and
text. `layoutNodes` lists them without looking at `use_tabs` and `tab_size`, which only choose what a level
of indentation is written as (`renderNodes_layout`). No string of the tree has a newline in it
(`singleLine_of_mem`), so that the newlines of the layout are those of the output, and its lines are the
same for all options up to the width of their indentations (`processPugFile_lines`).
-/

namespace CPug

open Outline

/-! ## The layout -/

/-- A piece of the pretty output. -/
inductive Segment where
  | indent (level : Nat)
  | newline
  | text (s : CString)
deriving Repr, DecidableEq

/-- What is appended for it. -/
def Segment.write (useTabs : Bool) (tabSize : Nat) : Segment → CString
  | indent level => appendIndent useTabs tabSize level
  | newline => ['\n']
  | text s => s

/-- What is appended for a list of them. -/
def writeSegments (useTabs : Bool) (tabSize : Nat) (segments : List Segment) : CString :=
  segments.flatMap (Segment.write useTabs tabSize)

/-- The text of a TAG node, as in `renderText`. -/
def layoutText (node : ASTNode) : List Segment :=
  match node.textContent with
  | none => []
  | some text =>
    if node.isInline then [.text (escapeHtml text)]
    else [.newline, .indent (node.depth + 1), .text (escapeHtml text)]

/-- The children of a TAG node, as in `renderChildren`. -/
def layoutChildren (node : ASTNode) (hasChildren : Bool) (children : List Segment) : List Segment :=
  if hasChildren then
    (if node.textContent.isNone || node.isBlock then [.newline] else []) ++ children ++
      if node.isInline then [] else [.indent node.depth]
  else if node.textContent.isSome && node.isBlock then [.newline, .indent node.depth]
  else []

/-- One node, as in `renderNode`. -/
def layoutNode (node : ASTNode) (hasChildren : Bool) (children : List Segment) : List Segment :=
  if isRoot node then children
  else
    .indent node.depth ::
      match node.nodeType with
      | .tokenDoctype =>
        [.text ("<!DOCTYPE ".toList ++ node.textContent.getD "html".toList ++ ['>']), .newline]
      | .tokenText | .tokenPipe | .tokenDot =>
        [.text ((node.textContent.map escapeHtml).getD []), .newline]
      | .tokenInterpolation =>
        [.text ((node.textContent.map fun text => "#\x7b ".toList ++ text ++ " \x7d".toList).getD []),
          .newline]
      | .tokenComment =>
        [.text ("<!-- ".toList ++ (node.textContent.map escapeHtml).getD [] ++ " -->".toList), .newline]
      | .tokenBlockComment => []
      | .tokenCode | .tokenInclude | .tokenExtends | .tokenMixin | .tokenCall =>
        [.text ("<!-- ".toList ++ tokenTypeToString node.nodeType ++ ": ".toList ++
          node.textContent.getD [] ++ " -->".toList), .newline]
      | .tokenTag =>
        if rendersVoid node then [.text (renderOpening node ++ " />".toList), .newline]
        else
          .text (renderOpening node ++ ['>']) :: (layoutText node ++
            layoutChildren node hasChildren children ++
            [.text ("</".toList ++ node.tag.getD "div".toList ++ ['>']), .newline])
      | _ => []

/-- The loop over siblings. -/
def layoutNodes : Forest ASTNode → List Segment
  | .nil => []
  | .node node kids next =>
      layoutNode node (decide (kids ≠ .nil)) (layoutNodes kids) ++ layoutNodes next

section Options

variable (useTabs : Bool) (tabSize : Nat)

@[simp] theorem writeSegments_nil : writeSegments useTabs tabSize [] = [] := rfl

@[simp] theorem writeSegments_cons (segment : Segment) (rest : List Segment) :
    writeSegments useTabs tabSize (segment :: rest) =
      segment.write useTabs tabSize ++ writeSegments useTabs tabSize rest := List.flatMap_cons

@[simp] theorem writeSegments_append (xs ys : List Segment) :
    writeSegments useTabs tabSize (xs ++ ys) =
      writeSegments useTabs tabSize xs ++ writeSegments useTabs tabSize ys := List.flatMap_append

theorem renderText_layout (node : ASTNode) :
    renderText useTabs tabSize false node = writeSegments useTabs tabSize (layoutText node) := by
  rw [renderText, layoutText]
  cases node.textContent with
  | none => rfl
  | some text =>
    cases node.isInline with
    | true => simp [Segment.write]
    | false => simp [Segment.write, unlessMinified]

theorem renderChildren_layout (node : ASTNode) (hasChildren : Bool) (children : List Segment) :
    renderChildren useTabs tabSize false node hasChildren (writeSegments useTabs tabSize children) =
      writeSegments useTabs tabSize (layoutChildren node hasChildren children) := by
  rw [renderChildren, layoutChildren]
  cases hasChildren with
  | true =>
    simp only [if_true, writeSegments_append]
    congr 1
    · congr 1
      split <;> rfl
    · split
      · rfl
      · simp [Segment.write, unlessMinified]
  | false =>
    simp only [Bool.false_eq_true, if_false]
    split
    · simp [Segment.write, unlessMinified]
    · rfl

theorem renderNode_layout (node : ASTNode) (hasChildren : Bool) (children : List Segment) :
    renderNode useTabs tabSize false node hasChildren (writeSegments useTabs tabSize children) =
      writeSegments useTabs tabSize (layoutNode node hasChildren children) := by
  rw [renderNode, layoutNode]
  split
  · rfl
  · rw [writeSegments_cons]
    refine congrArg (appendIndent useTabs tabSize node.depth ++ ·) ?_
    cases node.nodeType
    case tokenTag =>
      dsimp only
      split
      · simp [Segment.write, unlessMinified]
      · simp [Segment.write, unlessMinified, renderText_layout, renderChildren_layout]
    all_goals simp [Segment.write, unlessMinified]

/-- The layout is that of the output, for all options. -/
theorem renderNodes_layout (f : Forest ASTNode) :
    renderNodes useTabs tabSize false f = writeSegments useTabs tabSize (layoutNodes f) := by
  induction f with
  | nil => rfl
  | node node kids next ihk ihn =>
    rw [renderNodes, layoutNodes, writeSegments_append, ihk, ihn, renderNode_layout]

end Options

/-! ## Lines -/

theorem newline_notMem_escapeHtml {s : CString} (h : '\n' ∉ s) : '\n' ∉ escapeHtml s := by
  intro hmem
  obtain ⟨c, hc, hmem⟩ := List.mem_flatMap.mp hmem
  by_cases hspecial : c ∈ specialChars
  · simp only [specialChars, List.mem_cons, List.not_mem_nil, or_false] at hspecial
    rcases hspecial with rfl | rfl | rfl | rfl | rfl <;> revert hmem <;> decide
  · rw [escapeChar_of_not_mem hspecial, List.mem_singleton] at hmem
    rw [← hmem] at hc
    exact h hc

theorem newline_notMem_renderId {id : Option CString} (h : ∀ s ∈ id, '\n' ∉ s) :
    '\n' ∉ renderId id := by
  cases id with
  | none => exact List.not_mem_nil
  | some id =>
    have hid := newline_notMem_escapeHtml (h id rfl)
    rw [renderId_some, List.mem_append, List.mem_append, not_or, not_or]
    exact ⟨⟨by decide, hid⟩, by decide⟩

theorem newline_notMem_renderClasses {classes : List CString} (h : ∀ s ∈ classes, '\n' ∉ s) :
    '\n' ∉ renderClasses classes := by
  have hjoined : '\n' ∉ [' '].intercalate (classes.map escapeHtml) := by
    intro hmem
    refine forall_mem_intercalate (p := fun c => c ≠ '\n') (by decide) ?_ '\n' hmem rfl
    intro piece hpiece c hc heq
    obtain ⟨name, hname, rfl⟩ := List.mem_map.mp hpiece
    rw [heq] at hc
    exact newline_notMem_escapeHtml (h name hname) hc
  rw [renderClasses]
  split
  · exact List.not_mem_nil
  · rw [List.mem_append, List.mem_append, not_or, not_or]
    exact ⟨⟨by decide, hjoined⟩, by decide⟩

theorem newline_notMem_renderAttributes {attrs : List Attribute}
    (h : ∀ attr ∈ attrs, '\n' ∉ attr.name ∧ '\n' ∉ attr.value) : '\n' ∉ renderAttributes attrs := by
  intro hmem
  obtain ⟨attr, hattr, hmem⟩ := List.mem_flatMap.mp hmem
  obtain ⟨hname, hvalue⟩ := h attr hattr
  rw [renderAttribute] at hmem
  rcases List.mem_append.mp hmem with hmem | hmem
  · rcases List.mem_cons.mp hmem with heq | hmem
    · cases heq
    · exact hname hmem
  · split at hmem
    · rw [List.mem_append, List.mem_append] at hmem
      rcases hmem with (hmem | hmem) | hmem
      · revert hmem
        decide
      · exact hvalue hmem
      · revert hmem
        decide
    · cases hmem

/-- The opening tag is on one line. -/
theorem SingleLine.renderOpening {node : ASTNode} (h : SingleLine node) :
    '\n' ∉ CPug.renderOpening node := by
  have htag : '\n' ∉ node.tag.getD "div".toList := newline_notMem_getD h.tag (by decide)
  have hid := newline_notMem_renderId h.id
  have hclasses := newline_notMem_renderClasses h.classes
  have hattributes := newline_notMem_renderAttributes h.attributes
  rw [CPug.renderOpening, List.mem_append, List.mem_append, List.mem_append, List.mem_cons]
  rintro ((((heq | hmem) | hmem) | hmem) | hmem)
  · cases heq
  · exact htag hmem
  · exact hid hmem
  · exact hclasses hmem
  · exact hattributes hmem

/-- The texts of a layout are on one line each. -/
def FlatTexts (segments : List Segment) : Prop := ∀ s, Segment.text s ∈ segments → '\n' ∉ s

theorem FlatTexts.append {xs ys : List Segment} (hx : FlatTexts xs) (hy : FlatTexts ys) :
    FlatTexts (xs ++ ys) := fun s hs => (List.mem_append.mp hs).elim (hx s) (hy s)

theorem flatTexts_layoutText {node : ASTNode} (h : SingleLine node) : FlatTexts (layoutText node) := by
  intro s hs
  rw [layoutText] at hs
  cases htext : node.textContent with
  | none =>
    rw [htext] at hs
    cases hs
  | some text =>
    have hflat := newline_notMem_escapeHtml (h.text text htext)
    rw [htext] at hs
    dsimp only at hs
    split at hs
    · simp at hs
      rwa [hs]
    · simp at hs
      rwa [hs]

theorem flatTexts_layoutChildren (node : ASTNode) (hasChildren : Bool) {children : List Segment}
    (h : FlatTexts children) : FlatTexts (layoutChildren node hasChildren children) := by
  intro s hs
  rw [layoutChildren] at hs
  split at hs
  · rcases List.mem_append.mp hs with hs | hs
    · rcases List.mem_append.mp hs with hs | hs
      · split at hs <;> simp at hs
      · exact h s hs
    · split at hs <;> simp at hs
  · split at hs <;> simp at hs

theorem flatTexts_line {s : CString} (h : '\n' ∉ s) : FlatTexts [.text s, .newline] := by
  intro t ht
  simp at ht
  rwa [ht]

theorem newline_notMem_tokenTypeToString (type : TokenType) : '\n' ∉ tokenTypeToString type := by
  cases type <;> decide

theorem flatTexts_layoutNode {node : ASTNode} (h : SingleLine node) (hasChildren : Bool)
    {children : List Segment} (hchildren : FlatTexts children) :
    FlatTexts (layoutNode node hasChildren children) := by
  have hplain : '\n' ∉ node.textContent.getD [] := newline_notMem_getD h.text (by simp)
  have hhtml : '\n' ∉ node.textContent.getD ['h', 't', 'm', 'l'] :=
    newline_notMem_getD h.text (by decide)
  have hescaped : '\n' ∉ (node.textContent.map escapeHtml).getD [] := by
    cases htext : node.textContent with
    | none => simp
    | some text => exact newline_notMem_escapeHtml (h.text text htext)
  have hinterpolated : '\n' ∉
      (node.textContent.map fun text => "#\x7b ".toList ++ text ++ " \x7d".toList).getD [] := by
    cases htext : node.textContent with
    | none => simp
    | some text => simp [h.text text htext]
  have htag : '\n' ∉ node.tag.getD ['d', 'i', 'v'] := newline_notMem_getD h.tag (by decide)
  have htype := newline_notMem_tokenTypeToString
  have hopening := h.renderOpening
  rw [layoutNode]
  split
  · exact hchildren
  · refine @FlatTexts.append [.indent node.depth] _ (by simp [FlatTexts]) ?_
    cases node.nodeType
    case tokenTag =>
      dsimp only
      split
      · exact flatTexts_line (by simp [hopening])
      · refine @FlatTexts.append [.text _] _ (fun s hs => ?_) (((flatTexts_layoutText h).append
          (flatTexts_layoutChildren node hasChildren hchildren)).append (flatTexts_line ?_))
        · cases List.mem_singleton.mp hs
          simp [hopening]
        · simp [htag]
    case tokenInterpolation => exact flatTexts_line hinterpolated
    all_goals first
      | exact flatTexts_line (by simp [hplain, hhtml, hescaped, htype])
      | exact fun s hs => nomatch hs

theorem flatTexts_layoutNodes {f : Forest ASTNode} (h : ∀ node ∈ f.labels, SingleLine node) :
    FlatTexts (layoutNodes f) := by
  induction f with
  | nil => exact fun s hs => nomatch hs
  | node node kids next ihk ihn =>
    refine FlatTexts.append (flatTexts_layoutNode (h node List.mem_cons_self) _ (ihk fun n hn => ?_))
      (ihn fun n hn => ?_)
    · exact h n (List.mem_cons_of_mem _ (List.mem_append_left _ hn))
    · exact h n (List.mem_cons_of_mem _ (List.mem_append_right _ hn))

/-- The lines of what is written are those of the layout. -/
theorem splitOn_writeSegments (useTabs : Bool) (tabSize : Nat) {segments : List Segment}
    (h : FlatTexts segments) :
    (writeSegments useTabs tabSize segments).splitOn '\n' =
      (segments.splitOn .newline).map (writeSegments useTabs tabSize) := by
  have hjoin : ∀ lines : List (List Segment),
      writeSegments useTabs tabSize ([.newline].intercalate lines) =
        ['\n'].intercalate (lines.map (writeSegments useTabs tabSize)) := by
    intro lines
    induction lines with
    | nil => rfl
    | cons line lines ih =>
      by_cases hnil : lines = []
      · rw [hnil, List.intercalate_singleton, List.map_singleton, List.intercalate_singleton]
      · rw [List.intercalate_cons_of_ne_nil hnil, List.map_cons,
          List.intercalate_cons_of_ne_nil (by simpa using hnil), writeSegments_append,
          writeSegments_append, ih]
        rfl
  have hflat : ∀ line ∈ (segments.splitOn .newline).map (writeSegments useTabs tabSize), '\n' ∉ line := by
    intro line hline hmem
    obtain ⟨pieces, hpieces, rfl⟩ := List.mem_map.mp hline
    obtain ⟨segment, hsegment, hmem⟩ := List.mem_flatMap.mp hmem
    obtain ⟨hin, hne⟩ := mem_of_mem_splitOn segments pieces hpieces segment hsegment
    cases segment with
    | indent level => exact mem_appendIndent hmem rfl
    | newline => exact hne rfl
    | text s => exact h s hin hmem
  have hsegments : [.newline].intercalate (segments.splitOn .newline) = segments :=
    List.intercalate_splitOn Segment.newline
  conv_lhs => rw [← hsegments, hjoin]
  exact List.splitOn_intercalate _ hflat (by simp)

/-- **The lines of the output do not depend on the options.** The layout of the tree of a file is made of
newlines, of texts without newlines and of indentations of some level. For any `use_tabs` and `tab_size`
the pretty output is the layout with every level written as the options say, and its lines are those of the
layout: another setting adds or removes no line, no text adds one, and nothing changes in a line but the
width of its indentations. -/
theorem processPugFile_lines (content : CString) :
    ∃ ctx, parsePug (tokenizeFile content) = some ctx ∧ FlatTexts (layoutNodes (rootNode ctx)) ∧
      (∀ line ∈ (layoutNodes (rootNode ctx)).splitOn .newline, Segment.newline ∉ line) ∧
      ∀ useTabs tabSize, ∃ html, processPugFile useTabs tabSize false content = some html ∧
        html = writeSegments useTabs tabSize (layoutNodes (rootNode ctx)) ∧
        html.splitOn '\n' =
          ((layoutNodes (rootNode ctx)).splitOn .newline).map (writeSegments useTabs tabSize) := by
  obtain ⟨ctx, hctx⟩ := exists_parsePug content
  have hflat := flatTexts_layoutNodes (singleLine_of_mem hctx)
  refine ⟨ctx, hctx, hflat, fun line hline hmem => ?_,
    fun useTabs tabSize => ⟨_, by rw [processPugFile, hctx, Option.map_some], ?_, ?_⟩⟩
  · exact (mem_of_mem_splitOn _ line hline _ hmem).2 rfl
  · rw [renderAst, renderNodes_layout]
  · rw [renderAst, renderNodes_layout, splitOn_writeSegments useTabs tabSize hflat]

end CPug
