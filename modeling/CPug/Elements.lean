import CPug.Emission
import CPug.Nodes

/-!
# No element is lost

`shown` lists the TAG nodes of a tree that ought to be seen: those without a comment, a block
comment, a mixin or a void tag above them. `elementsRendered_iff` says when `render_ast` emits just
their tags: exactly when none of them is called `root` and all nodes above them are TAG nodes. The
renderer takes any node called `root` for the artificial one, and only the TAG case of `render_node`
goes on to the children, although `parse_pug` gives children to nodes of every type.
-/

namespace CPug

open Outline

/-- A comment, a block comment, a mixin or a void tag. -/
def hidesChildren (node : ASTNode) : Bool :=
  decide (node.nodeType = .tokenComment) || decide (node.nodeType = .tokenBlockComment) ||
    decide (node.nodeType = .tokenMixin) ||
      (decide (node.nodeType = .tokenTag) && isVoidTag node.tag)

/-- A TAG node, given with those above it, that ought to be seen. -/
def isShown (entry : List ASTNode × ASTNode) : Bool :=
  decide (entry.2.nodeType = .tokenTag) && entry.1.all fun node => !hidesChildren node

/-- The nodes that ought to be seen, in document order. -/
def shown (f : Forest ASTNode) : List ASTNode :=
  ((f.withAncestors []).filter isShown).map Prod.snd

/-- The elements whose opening tag is emitted, in the order of the output. -/
def openedElements (es : List Emission) : List ASTNode :=
  (es.filterMap Emission.markup?).filterMap Markup.opened?

/-- The elements whose closing tag is emitted, in the order of the output. -/
def closedElements (es : List Emission) : List ASTNode :=
  (es.filterMap Emission.markup?).filterMap Markup.closed?

/-- With all options the tree `root` is rendered with one opening tag for each node of `kids` that
ought to be seen, in document order, and with one closing tag for each of them that is not void. -/
structure ElementsRendered (root kids : Forest ASTNode) : Prop where
  opened : ∀ useTabs tabSize minify,
    openedElements (emissions useTabs tabSize minify root) = shown kids
  closed : ∀ useTabs tabSize minify,
    (closedElements (emissions useTabs tabSize minify root)).Perm
      ((shown kids).filter fun node => !isVoidTag node.tag)

/-- The node is not called `root`, and all nodes above it are TAG nodes. -/
def isReached (entry : List ASTNode × ASTNode) : Bool :=
  !isRoot entry.2 && entry.1.all fun node => decide (node.nodeType = .tokenTag)

/-! ## Lists -/

/-- A stronger filter leaves the same values only when it leaves the same elements. -/
theorem map_filter_eq_iff {α β : Type} {p q : α → Bool} {f : α → β} {l : List α}
    (hpq : ∀ a ∈ l, p a = true → q a = true) :
    (l.filter p).map f = (l.filter q).map f ↔ ∀ a ∈ l, q a = true → p a = true := by
  have hsub : (l.filter p).Sublist (l.filter q) := by
    have hboth : l.filter p = (l.filter q).filter p := by
      rw [List.filter_filter]
      refine List.filter_congr fun a ha => ?_
      cases hp : p a with
      | false => simp
      | true => simp [hpq a ha hp]
    rw [hboth]
    exact List.filter_sublist
  constructor
  · intro h a ha hq
    have hlen := congrArg List.length h
    rw [List.length_map, List.length_map] at hlen
    have hmem : a ∈ l.filter p := by
      rw [hsub.eq_of_length hlen]
      exact List.mem_filter.mpr ⟨ha, hq⟩
    exact (List.mem_filter.mp hmem).2
  · intro h
    refine congrArg (List.map f) (List.filter_congr fun a ha => ?_)
    exact Bool.eq_iff_iff.mpr ⟨hpq a ha, h a ha⟩

/-! ## The nodes that are reached -/

theorem Made.rendersVoid {node : ASTNode} (h : Made node) : rendersVoid node = isVoidTag node.tag := by
  rw [CPug.rendersVoid, h.isVoid, Bool.false_or]

theorem not_isVoidTag_of_isRoot {node : ASTNode} (h : isRoot node = true) :
    isVoidTag node.tag = false := by
  have htag : node.tag = some "root".toList := by simpa [isRoot] using h
  rw [htag]
  decide

/-- The children that `render_node` visits are those of the TAG nodes that hide nothing. -/
theorem Made.entered {node : ASTNode} (h : Made node) :
    entered node = (decide (node.nodeType = .tokenTag) && !hidesChildren node) := by
  by_cases ht : node.nodeType = .tokenTag
  · have hhides : hidesChildren node = isVoidTag node.tag := by simp [hidesChildren, ht]
    rw [CPug.entered, h.rendersVoid, hhides]
    cases hroot : isRoot node with
    | false => simp
    | true => simp [ht, not_isVoidTag_of_isRoot hroot]
  · have hroot : isRoot node = false := by
      cases hr : isRoot node with
      | false => rfl
      | true => exact absurd (h.root hr) ht
    simp [CPug.entered, ht, hroot]

section Tree

variable {kids : Forest ASTNode}

/-- Which nodes get a tag. -/
theorem rendered_iff (hmade : ∀ node ∈ kids.labels, Made node) {entry : List ASTNode × ASTNode}
    (hentry : entry ∈ kids.withAncestors []) :
    (entry.1.all entered && isElement entry.2) = (isShown entry && isReached entry) := by
  obtain ⟨-, habove⟩ := Forest.mem_of_mem_withAncestors hentry
  have hall : entry.1.all entered = (entry.1.all (fun node => !hidesChildren node) &&
      entry.1.all fun node => decide (node.nodeType = .tokenTag)) := by
    rw [Bool.eq_iff_iff, Bool.and_eq_true, List.all_eq_true, List.all_eq_true, List.all_eq_true,
      ← forall₂_and]
    refine forall₂_congr fun node hnode => ?_
    rw [(hmade node ((habove node hnode).resolve_left (by simp))).entered, Bool.and_eq_true,
      and_comm]
  rw [hall, isElement, isShown, isReached]
  ac_rfl

theorem opened_eq (hmade : ∀ node ∈ kids.labels, Made node) :
    (skeleton kids).filterMap Markup.opened? =
      ((kids.withAncestors []).filter fun entry => isShown entry && isReached entry).map
        Prod.snd := by
  have hvisit : kids.visit entered = _ := Forest.visit_eq_filter kids List.all_nil
  rw [opened_skeleton, hvisit, List.filter_map, List.filter_filter]
  refine congrArg (List.map Prod.snd) (List.filter_congr fun entry hentry => ?_)
  rw [← rendered_iff hmade hentry]
  exact Bool.and_comm _ _

theorem skeleton_root (kids : Forest ASTNode) :
    skeleton (.node rootLabel kids .nil) = skeleton kids := by
  have hroot : isRoot rootLabel = true := by decide
  rw [skeleton, if_pos hroot, skeleton, List.append_nil]

theorem elementsRendered_iff_of_made (hmade : ∀ node ∈ kids.labels, Made node) :
    ElementsRendered (.node rootLabel kids .nil) kids ↔
      ∀ entry ∈ kids.withAncestors [], isShown entry = true → isReached entry = true := by
  have hopened : ∀ useTabs tabSize minify,
      openedElements (emissions useTabs tabSize minify (.node rootLabel kids .nil)) =
        (skeleton kids).filterMap Markup.opened? := fun useTabs tabSize minify => by
    rw [openedElements, filterMap_markup_emissions, skeleton_root]
  have hiff : (skeleton kids).filterMap Markup.opened? = shown kids ↔
      ∀ entry ∈ kids.withAncestors [], isShown entry = true → isReached entry = true := by
    rw [opened_eq hmade, shown,
      map_filter_eq_iff fun entry _ h => (Bool.and_eq_true_iff.mp h).1]
    refine forall₂_congr fun entry _ => ⟨fun h hs => (Bool.and_eq_true_iff.mp (h hs)).2, fun h hs => ?_⟩
    rw [hs, h hs, Bool.and_self]
  rw [← hiff]
  refine ⟨fun h => ?_, fun h => ⟨fun useTabs tabSize minify => ?_, fun useTabs tabSize minify => ?_⟩⟩
  · rw [← h.opened false 0 false, hopened]
  · rw [hopened, h]
  · have hclosed := closed_skeleton kids
    rw [h] at hclosed
    rw [closedElements, filterMap_markup_emissions, skeleton_root]
    refine hclosed.trans (List.Perm.of_eq (List.filter_congr fun node hnode => ?_))
    obtain ⟨entry, hentry, rfl⟩ := List.mem_map.mp hnode
    have hlabel := (Forest.mem_of_mem_withAncestors (List.mem_filter.mp hentry).1).1
    rw [(hmade _ hlabel).rendersVoid]

end Tree

/-- For every file: `render_ast` emits the tags of the elements that ought to be seen exactly when
none of them is called `root` or has a node above it that is not a TAG node. -/
theorem elementsRendered_iff (content : CString) :
    ∃ ctx kids, parsePug (tokenizeFile content) = some ctx ∧
      rootNode ctx = .node rootLabel kids .nil ∧
      (∀ useTabs tabSize minify, renderAst useTabs tabSize minify (rootNode ctx) =
        (emissions useTabs tabSize minify (rootNode ctx)).flatMap Emission.written) ∧
      (ElementsRendered (rootNode ctx) kids ↔
        ∀ entry ∈ kids.withAncestors [], isShown entry = true →
          isRoot entry.2 = false ∧ ∀ node ∈ entry.1, node.nodeType = .tokenTag) := by
  obtain ⟨ctx, hctx⟩ := exists_parsePug content
  obtain ⟨kids, hroot, hmade⟩ := parsePug_made hctx
  refine ⟨ctx, kids, hctx, hroot, fun useTabs tabSize minify => ?_, ?_⟩
  · rw [flatMap_written, renderAst]
  · rw [hroot, elementsRendered_iff_of_made hmade]
    simp [isReached]

/-- The tag below a line of text is lost. -/
theorem elementsRendered_fails :
    ¬ ∀ content ctx kids, parsePug (tokenizeFile content) = some ctx →
      rootNode ctx = .node rootLabel kids .nil → ElementsRendered (rootNode ctx) kids := by
  intro h
  let text := startNode (createToken .tokenPipe (some "x".toList) 0 1 0)
  let tag := startNode (createToken .tokenTag (some "p".toList) 1 2 2)
  have hrun : (parsePug (tokenizeFile "| x\n  p".toList)).map rootNode =
      some (.node rootLabel (.node text (.leaf tag) .nil) .nil) := by decide +kernel
  obtain ⟨ctx, hctx, hroot⟩ := Option.map_eq_some_iff.mp hrun
  have hopened := (h _ ctx _ hctx hroot).opened false 0 false
  rw [hroot] at hopened
  exact absurd hopened (by decide +kernel)

end CPug
