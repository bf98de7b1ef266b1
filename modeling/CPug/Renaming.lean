import CPug.Calls
import CPug.Nodes

/-!
# Renaming a tag

A node of the tree is given by its place in the pre-order, place `0` being the artificial root. The
output is a context around what `render_node` appends for the node, and the context does not depend on
the node (`renderNodes_modify`), so a name that is not void turns up in its own two tags only
(`renameTag_iff`). The exception is the name `root`: the renderer takes any node of that name for the
artificial root and leaves its tags out.
-/

namespace CPug

open Outline

/-- Give the node another tag. -/
def setTag (name : CString) (node : ASTNode) : ASTNode := { node with tag := some name }

/-- The attributes of the opening tag. -/
def openingFields (node : ASTNode) : CString :=
  renderId node.id ++ renderClasses node.classes ++ renderAttributes (node.attributes.getD [])

/-- The outputs are equal, or one comes from the other by putting `b` for `a` in the opening and in the
closing tag of one element, which has the attributes of the node. -/
def RenamesTag (node : ASTNode) (a b out out' : CString) : Prop :=
  out = out' ∨ ∃ before inner after,
    out = before ++ '<' :: a ++ openingFields node ++ '>' :: inner ++ "</".toList ++ a ++
        '>' :: after ∧
      out' = before ++ '<' :: b ++ openingFields node ++ '>' :: inner ++ "</".toList ++ b ++
        '>' :: after

/-- The output cut where the node at a place is rendered: what stands before it and after it, and the
children it has. -/
structure Cut where
  before : CString
  kids : Forest ASTNode
  after : CString

section Options

variable (useTabs : Bool) (tabSize : Nat) (minify : Bool)

/-- The cut at place `i`. -/
def cutAt : Forest ASTNode → Nat → Cut
  | .nil, _ => ⟨[], .nil, []⟩
  | .node _ kids next, 0 => ⟨[], kids, renderNodes useTabs tabSize minify next⟩
  | .node node kids next, i + 1 =>
    let behind := renderNodes useTabs tabSize minify next
    if i < kids.size then
      let inner := cutAt kids i
      if isRoot node then { inner with after := inner.after ++ behind }
      else
        { inner with
          before := beforeChildren useTabs tabSize minify node ++ inner.before
          after := inner.after ++ (afterChildren useTabs tabSize minify node ++ behind) }
    else
      let later := cutAt next (i - kids.size)
      { later with
        before := renderNode useTabs tabSize minify node (decide (kids ≠ .nil))
          (renderNodes useTabs tabSize minify kids) ++ later.before }

/-- The output with the name `name` in the tags of the element at place `i`, which is `node` otherwise. -/
def taggedOutput (f : Forest ASTNode) (i : Nat) (node : ASTNode) (name : CString) : CString :=
  let cut := cutAt useTabs tabSize minify f i
  cut.before ++ unlessMinified minify (appendIndent useTabs tabSize node.depth) ++
    '<' :: name ++ openingFields node ++ '>' ::
      (renderText useTabs tabSize minify node ++
        renderChildren useTabs tabSize minify node (decide (cut.kids ≠ .nil))
          (renderNodes useTabs tabSize minify cut.kids)) ++
    "</".toList ++ name ++ '>' :: (unlessMinified minify ['\n'] ++ cut.after)

/-- A node that is not entered appends the same whatever its children append. -/
theorem renderNode_not_entered {node : ASTNode} (h : entered node = false) (hasChildren : Bool)
    (children children' : CString) :
    renderNode useTabs tabSize minify node hasChildren children =
      renderNode useTabs tabSize minify node hasChildren children' := by
  simp only [entered, Bool.or_eq_false_iff] at h
  unfold renderNode
  simp only [h.1, Bool.false_eq_true, if_false]
  cases htype : node.nodeType with
  | tokenTag =>
    have hvoid : rendersVoid node = true := by
      have := h.2
      rw [htype] at this
      simpa using this
    simp only [hvoid, if_true]
  | _ => rfl

/-- What stands around the node at place `i` does not depend on the node. -/
theorem renderNodes_modify {f : Forest ASTNode} {above path : List ASTNode} {node : ASTNode} {i : Nat}
    (h : (f.withAncestors above)[i]? = some (path, node)) (hpath : path.all entered = true)
    (g : ASTNode → ASTNode) :
    renderNodes useTabs tabSize minify (f.modify g i) =
      (cutAt useTabs tabSize minify f i).before ++
        renderNode useTabs tabSize minify (g node)
          (decide ((cutAt useTabs tabSize minify f i).kids ≠ .nil))
          (renderNodes useTabs tabSize minify (cutAt useTabs tabSize minify f i).kids) ++
        (cutAt useTabs tabSize minify f i).after := by
  induction f generalizing above i with
  | nil => cases h
  | node a kids next ihk ihn =>
    rw [Forest.withAncestors_node] at h
    cases i with
    | zero =>
      cases h
      rfl
    | succ i =>
      rw [List.getElem?_cons_succ] at h
      by_cases hi : i < kids.size
      · rw [List.getElem?_append_left (by rwa [Forest.length_withAncestors])] at h
        have ha : entered a = true := by
          have hsuffix := Forest.suffix_of_mem_withAncestors (List.mem_of_getElem? h)
          exact List.all_eq_true.mp hpath a (hsuffix.subset List.mem_cons_self)
        have hkids : decide (kids.modify g i ≠ .nil) = true := by
          rw [decide_eq_true_eq, Ne, Forest.modify_eq_nil_iff]
          rintro rfl
          simp at hi
        rw [Forest.modify_succ_of_lt g a next hi, renderNodes, cutAt, if_pos hi, hkids]
        by_cases hroot : isRoot a = true
        · rw [renderNode_root _ _ _ hroot, ihk h, if_pos hroot]
          simp only [List.append_assoc]
        · rw [renderNode_entered _ _ _ (by simpa using hroot) ha, ihk h, if_neg hroot]
          simp only [List.append_assoc]
      · rw [List.getElem?_append_right (by rw [Forest.length_withAncestors]; omega),
          Forest.length_withAncestors] at h
        rw [Forest.modify_succ_of_le g a next (by omega), renderNodes, ihn h, cutAt, if_neg hi]
        simp only [List.append_assoc]

/-- Below a node that is not entered a node has no influence. -/
theorem renderNodes_modify_hidden {f : Forest ASTNode} {above path : List ASTNode} {node : ASTNode}
    {i : Nat} (h : (f.withAncestors above)[i]? = some (path, node)) (habove : above.all entered = true)
    (hpath : path.all entered = false) (g : ASTNode → ASTNode) :
    renderNodes useTabs tabSize minify (f.modify g i) = renderNodes useTabs tabSize minify f := by
  induction f generalizing above i with
  | nil => cases h
  | node a kids next ihk ihn =>
    rw [Forest.withAncestors_node] at h
    cases i with
    | zero =>
      cases h
      rw [habove] at hpath
      cases hpath
    | succ i =>
      rw [List.getElem?_cons_succ] at h
      by_cases hi : i < kids.size
      · rw [List.getElem?_append_left (by rwa [Forest.length_withAncestors])] at h
        have hnil : decide (kids.modify g i ≠ .nil) = decide (kids ≠ .nil) := by
          simp only [Ne, Forest.modify_eq_nil_iff]
        rw [Forest.modify_succ_of_lt g a next hi, renderNodes, renderNodes, hnil]
        refine congrArg (· ++ renderNodes useTabs tabSize minify next) ?_
        cases ha : entered a with
        | true => rw [ihk h (by simp [ha, habove])]
        | false => exact renderNode_not_entered _ _ _ ha _ _ _
      · rw [List.getElem?_append_right (by rw [Forest.length_withAncestors]; omega),
          Forest.length_withAncestors] at h
        rw [Forest.modify_succ_of_le g a next (by omega), renderNodes, renderNodes, ihn h habove]

/-! ## One node -/

section Node

variable {node : ASTNode}

theorem isRoot_setTag {name : CString} : isRoot (setTag name node) = true ↔ name = "root".toList := by
  simp [isRoot, setTag]

/-- A node with the name `name` is the same text around the two places where the name stands. -/
theorem renderNode_setTag (htype : node.nodeType = .tokenTag) (hvoid : node.isVoid = false)
    {name : CString} (hname : isVoidTag (some name) = false) (hroot : name ≠ "root".toList)
    (hasChildren : Bool) (children : CString) :
    renderNode useTabs tabSize minify (setTag name node) hasChildren children =
      unlessMinified minify (appendIndent useTabs tabSize node.depth) ++ '<' :: name ++
        openingFields node ++ '>' :: (renderText useTabs tabSize minify node ++
          renderChildren useTabs tabSize minify node hasChildren children) ++
        "</".toList ++ name ++ '>' :: unlessMinified minify ['\n'] := by
  have hvoids : rendersVoid (setTag name node) = false := by
    simp only [rendersVoid, setTag, hvoid, hname, Bool.or_self]
  have htype' : (setTag name node).nodeType = .tokenTag := htype
  have hopening : renderOpening (setTag name node) = '<' :: name ++ openingFields node := by
    simp [renderOpening, openingFields, setTag]
  have htext : renderText useTabs tabSize minify (setTag name node) =
      renderText useTabs tabSize minify node := rfl
  have hchildren : renderChildren useTabs tabSize minify (setTag name node) hasChildren children =
      renderChildren useTabs tabSize minify node hasChildren children := rfl
  have hdepth : (setTag name node).depth = node.depth := rfl
  have htag : (setTag name node).tag.getD "div".toList = name := rfl
  rw [renderNode, if_neg (mt isRoot_setTag.mp hroot)]
  simp only [htype', hvoids, hopening, htext, hchildren, hdepth, htag, Bool.false_eq_true, if_false,
    List.append_assoc, List.cons_append, List.nil_append]

/-- The children stand between the tags. -/
theorem length_children_le {hasChildren : Bool} {children : CString}
    (hnil : hasChildren = false → children = []) :
    children.length ≤ (renderText useTabs tabSize minify node ++
      renderChildren useTabs tabSize minify node hasChildren children).length := by
  cases hasChildren with
  | true =>
    simp only [renderChildren, if_true, List.length_append]
    omega
  | false =>
    rw [hnil rfl]
    exact Nat.zero_le _

/-- A node that is rendered has its name in its own tags. -/
theorem renderNodes_setTag {f : Forest ASTNode} {above path : List ASTNode} {i : Nat}
    (h : (f.withAncestors above)[i]? = some (path, node)) (hpath : path.all entered = true)
    (htype : node.nodeType = .tokenTag) (hvoid : node.isVoid = false) {name : CString}
    (hname : isVoidTag (some name) = false) (hroot : name ≠ "root".toList) :
    renderNodes useTabs tabSize minify (f.modify (setTag name) i) =
      taggedOutput useTabs tabSize minify f i node name := by
  rw [renderNodes_modify useTabs tabSize minify h hpath,
    renderNode_setTag useTabs tabSize minify htype hvoid hname hroot, taggedOutput]
  simp only [List.append_assoc, List.cons_append]

end Node

end Options

/-! ## Trees -/

theorem RenamesTag.symm {node : ASTNode} {a b out out' : CString} (h : RenamesTag node a b out out') :
    RenamesTag node b a out' out := by
  rcases h with h | ⟨before, inner, after, hout, hout'⟩
  · exact Or.inl h.symm
  · exact Or.inr ⟨before, inner, after, hout', hout⟩

/-- With tags for `b` and none for `root` the output is too long to be a renaming. -/
theorem not_renamesTag_root {node : ASTNode} {b before inner after outer outer' children : CString}
    (hlen : children.length ≤ inner.length) :
    ¬ RenamesTag node "root".toList b (outer ++ children ++ outer')
      (outer ++ (before ++ '<' :: b ++ openingFields node ++ '>' :: inner ++ "</".toList ++ b ++
        '>' :: after) ++ outer') := by
  rintro (h | ⟨before', inner', after', hout, hout'⟩)
  · have := congrArg List.length h
    simp only [List.length_append, List.length_cons] at this
    omega
  · have h := congrArg List.length hout
    have h' := congrArg List.length hout'
    have hroot : "root".toList.length = 4 := rfl
    have hslash : "</".toList.length = 2 := rfl
    simp only [List.length_append, List.length_cons, hroot, hslash] at h h'
    omega

/-- A node that is rendered cannot be renamed from `root`: only the other name gives it tags. -/
theorem not_renamesTag_of_root {f : Forest ASTNode} {above path : List ASTNode} {node : ASTNode} {i : Nat}
    (h : (f.withAncestors above)[i]? = some (path, node)) (hpath : path.all entered = true)
    (htype : node.nodeType = .tokenTag) (hvoid : node.isVoid = false) {name : CString}
    (hname : isVoidTag (some name) = false) (hroot : name ≠ "root".toList) (useTabs : Bool)
    (tabSize : Nat) (minify : Bool) :
    ¬ RenamesTag node "root".toList name
      (renderNodes useTabs tabSize minify (f.modify (setTag "root".toList) i))
      (renderNodes useTabs tabSize minify (f.modify (setTag name) i)) := by
  have hbare : isRoot (setTag "root".toList node) = true := isRoot_setTag.mpr rfl
  rw [renderNodes_modify useTabs tabSize minify h hpath (setTag "root".toList),
    renderNode_root useTabs tabSize minify hbare,
    renderNodes_setTag useTabs tabSize minify h hpath htype hvoid hname hroot, taggedOutput]
  generalize cutAt useTabs tabSize minify f i = cut
  have hlen : (renderNodes useTabs tabSize minify cut.kids).length ≤
      (renderText useTabs tabSize minify node ++ renderChildren useTabs tabSize minify node
        (decide (cut.kids ≠ .nil)) (renderNodes useTabs tabSize minify cut.kids)).length := by
    apply length_children_le
    intro hk
    have hkids : cut.kids = .nil := by simpa using hk
    rw [hkids, renderNodes]
  have hnot := @not_renamesTag_root node name
    (unlessMinified minify (appendIndent useTabs tabSize node.depth)) _
    (unlessMinified minify ['\n']) cut.before cut.after _ hlen
  simpa only [List.append_assoc, List.cons_append] using hnot

/-- Every node of the parser comes without the mark of a void element. -/
theorem parsePug_isVoid {tokens : List Token} {ctx : ParserContext}
    (h : parsePug tokens = some ctx) : ∀ node ∈ (rootNode ctx).labels, node.isVoid = false := by
  obtain ⟨kids, hnode, hnodes⟩ := parsePug_nodes h
  intro node hmem
  rw [hnode, Forest.labels_node, Forest.labels_nil, List.append_nil] at hmem
  rcases List.mem_cons.mp hmem with rfl | hmem
  · rfl
  · obtain ⟨token, more, -, hs, rfl⟩ := hnodes node hmem
    rw [(foldl_absorbToken_sameHead _ _).isVoid]
    by_cases ht : token.type = .tokenTag
    · simp [startNode, parseNodeFrom, ht, absorb, astNodeCreate]
    · exact (startNode_of_ne_tag hs ht).1

/-- **Renaming a tag.** In the tree of any token list, a TAG node other than the artificial root gets
the tag `a` or the tag `b`, neither of them void. The outputs differ just by these names in its own
tags if and only if the node is not rendered, or the names are equal, or none of them is `root`. The
tags are those of the element at the place of the node: with any name but `root` the output is the
same around them. -/
theorem renameTag_iff {tokens : List Token} {ctx : ParserContext} (h : parsePug tokens = some ctx)
    {i : Nat} {path : List ASTNode} {node : ASTNode}
    (hi : ((rootNode ctx).withAncestors [])[i + 1]? = some (path, node))
    (htype : node.nodeType = .tokenTag) {a b : CString} (ha : isVoidTag (some a) = false)
    (hb : isVoidTag (some b) = false) (useTabs : Bool) (tabSize : Nat) (minify : Bool) :
    (RenamesTag node a b
        (renderAst useTabs tabSize minify ((rootNode ctx).modify (setTag a) (i + 1)))
        (renderAst useTabs tabSize minify ((rootNode ctx).modify (setTag b) (i + 1))) ↔
      path.all entered = false ∨ a = b ∨ (a ≠ "root".toList ∧ b ≠ "root".toList)) ∧
    (path.all entered = true → ∀ name, isVoidTag (some name) = false → name ≠ "root".toList →
      renderAst useTabs tabSize minify ((rootNode ctx).modify (setTag name) (i + 1)) =
        taggedOutput useTabs tabSize minify (rootNode ctx) (i + 1) node name) := by
  have hvoid : node.isVoid = false :=
    parsePug_isVoid h node (Forest.mem_of_mem_withAncestors (List.mem_of_getElem? hi)).1
  have htags : path.all entered = true → ∀ name, isVoidTag (some name) = false →
      name ≠ "root".toList →
        renderNodes useTabs tabSize minify ((rootNode ctx).modify (setTag name) (i + 1)) =
          taggedOutput useTabs tabSize minify (rootNode ctx) (i + 1) node name :=
    fun hpath name hname hroot =>
      renderNodes_setTag useTabs tabSize minify hi hpath htype hvoid hname hroot
  unfold renderAst
  refine ⟨?_, htags⟩
  cases hpath : path.all entered with
  | false =>
    have hhidden := renderNodes_modify_hidden useTabs tabSize minify hi List.all_nil hpath
    rw [hhidden, hhidden]
    exact iff_of_true (Or.inl rfl) (Or.inl rfl)
  | true =>
    have htagged := htags hpath
    have hrefused : ∀ name, isVoidTag (some name) = false → name ≠ "root".toList →
        ¬ RenamesTag node "root".toList name
          (renderNodes useTabs tabSize minify ((rootNode ctx).modify (setTag "root".toList) (i + 1)))
          (renderNodes useTabs tabSize minify ((rootNode ctx).modify (setTag name) (i + 1))) :=
      fun name hname hroot =>
        not_renamesTag_of_root hi hpath htype hvoid hname hroot useTabs tabSize minify
    by_cases hab : a = b
    · subst hab
      exact iff_of_true (Or.inl rfl) (Or.inr (Or.inl rfl))
    by_cases hra : a = "root".toList
    · have hrb : b ≠ "root".toList := fun hrb => hab (hra.trans hrb.symm)
      subst hra
      refine iff_of_false (hrefused b hb hrb) ?_
      rintro (hf | hf | hf)
      · cases hf
      · exact hab hf
      · exact hf.1 rfl
    by_cases hrb : b = "root".toList
    · subst hrb
      refine iff_of_false (fun h => hrefused a ha hra h.symm) ?_
      rintro (hf | hf | hf)
      · cases hf
      · exact hab hf
      · exact hf.2 rfl
    have hrenames : RenamesTag node a b _ _ :=
      Or.inr ⟨_, _, _, htagged a ha hra, htagged b hb hrb⟩
    exact iff_of_true hrenames (Or.inr (Or.inr ⟨hra, hrb⟩))

theorem renameTag_iff_nested :
    ∃ (ctx : ParserContext) (path : List ASTNode) (node : ASTNode),
      parsePug (tokenizeFile "ul\n  li a".toList) = some ctx ∧
      (RenamesTag node "li".toList "dd".toList
          (renderAst false 2 true ((rootNode ctx).modify (setTag "li".toList) 2))
          (renderAst false 2 true ((rootNode ctx).modify (setTag "dd".toList) 2)) ↔
        path.all entered = false ∨ "li".toList = "dd".toList ∨
          ("li".toList ≠ "root".toList ∧ "dd".toList ≠ "root".toList)) ∧
      renderAst false 2 true ((rootNode ctx).modify (setTag "dd".toList) 2) =
        taggedOutput false 2 true (rootNode ctx) 2 node "dd".toList := by
  let list := startNode (createToken .tokenTag (some "ul".toList) 0 1 0)
  let item := absorbToken (startNode (createToken .tokenTag (some "li".toList) 1 2 2))
    (createToken .tokenText (some "a".toList) 1 2 5)
  have hrun : (parsePug (tokenizeFile "ul\n  li a".toList)).map rootNode =
      some (.node rootLabel (.node list (.leaf item) .nil) .nil) := by decide +kernel
  obtain ⟨ctx, hctx, hroot⟩ := Option.map_eq_some_iff.mp hrun
  have hi : ((rootNode ctx).withAncestors [])[1 + 1]? = some ([list, rootLabel], item) := by
    rw [hroot]
    rfl
  have hli : isVoidTag (some "li".toList) = false := by decide
  have hdd : isVoidTag (some "dd".toList) = false := by decide
  obtain ⟨hrenames, htagged⟩ := renameTag_iff hctx hi rfl hli hdd false 2 true
  exact ⟨ctx, _, _, hctx, hrenames, htagged (by decide +kernel) "dd".toList hdd (by decide)⟩

/-- A tag renamed to `root` loses its tags. -/
theorem renameTag_fails :
    ¬ ∀ tokens ctx i path node a b useTabs tabSize minify, parsePug tokens = some ctx →
      ((rootNode ctx).withAncestors [])[i + 1]? = some (path, node) → node.nodeType = .tokenTag →
      IsTagName a → isVoidTag (some a) = false → IsTagName b → isVoidTag (some b) = false →
      RenamesTag node a b
        (renderAst useTabs tabSize minify ((rootNode ctx).modify (setTag a) (i + 1)))
        (renderAst useTabs tabSize minify ((rootNode ctx).modify (setTag b) (i + 1))) := by
  intro h
  let node := startNode (createToken .tokenTag (some "p".toList) 0 1 0)
  have hrun : (parsePug (tokenizeFile "p".toList)).map rootNode =
      some (.node rootLabel (.leaf node) .nil) := by decide +kernel
  obtain ⟨ctx, hctx, hroot⟩ := Option.map_eq_some_iff.mp hrun
  have hi : ((rootNode ctx).withAncestors [])[0 + 1]? = some ([rootLabel], node) := by
    rw [hroot]
    rfl
  have hp : IsTagName "p".toList := ⟨'p', [], rfl, rfl, by simp⟩
  have hr : IsTagName "root".toList := ⟨'r', "oot".toList, rfl, rfl, List.all_eq_true.mp rfl⟩
  have hrenames := h _ ctx 0 _ _ "root".toList "p".toList false 2 true hctx hi rfl hr (by decide) hp
    (by decide)
  have hbare : renderAst false 2 true ((Forest.node rootLabel (.leaf node) .nil).modify
      (setTag "root".toList) (0 + 1)) = [] := by decide +kernel
  have htags : renderAst false 2 true ((Forest.node rootLabel (.leaf node) .nil).modify
      (setTag "p".toList) (0 + 1)) = "<p></p>".toList := by decide +kernel
  rw [hroot, hbare, htags] at hrenames
  exact @not_renamesTag_root node "p".toList [] [] [] [] [] [] le_rfl hrenames

end CPug
