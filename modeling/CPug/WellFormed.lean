import CPug.Elements
import CPug.Outline.TagSequence

/-!
# Minified output is well formed

`scanTags` reads the tags of an output from each `<` to the next `>`. `wellFormed_minified`: on the
minified output of the tree of a file they are nested, and those that are self-closed are the void
elements that are rendered, provided that the texts which the renderer does not escape (attribute
names and values, interpolations, doctypes) are free of markup.
-/

namespace CPug

open Outline

/-! ## Reading tags -/

/-- What stands between `<` and `>`, as a tag; a doctype declaration is none. -/
def readTag (body : CString) : Option (Tag CString) :=
  if gStrHasPrefix body "!DOCTYPE ".toList then none
  else if body.head? = some '/' then some (.closed (body.drop 1))
  else
    let name := body.takeWhile (· != ' ')
    some (if body.getLast? = some '/' then .alone name else .opened name)

/-- The tags of an output; `none` when a `<` has no `>` after it. -/
def scanTags (output : CString) : Option (List (Tag CString)) :=
  (bracketed '<' '>' none output).map fun bodies => bodies.filterMap readTag

theorem scanTags_text {text : CString} (h : '<' ∉ text) (rest : CString) :
    scanTags (text ++ rest) = scanTags rest := by
  rw [scanTags, bracketed_text h, scanTags]

theorem scanTags_piece {body : CString} (h : '>' ∉ body) (rest : CString) :
    scanTags ('<' :: (body ++ '>' :: rest)) =
      (scanTags rest).map ((readTag body).toList ++ ·) := by
  rw [scanTags, bracketed_piece h, scanTags, Option.map_map, Option.map_map]
  refine congrArg (Option.map · _) (funext fun bodies => ?_)
  cases hr : readTag body <;> simp [hr]

/-- What the renderer writes after the name of an opening tag. -/
structure IsFields (s : CString) : Prop where
  not_mem : '>' ∉ s
  shape : s = [] ∨ ∃ t, s = ' ' :: (t ++ ['"'])

theorem IsFields.nil : IsFields [] := ⟨by simp, Or.inl rfl⟩

theorem IsFields.append {s t : CString} (hs : IsFields s) (ht : IsFields t) : IsFields (s ++ t) := by
  refine ⟨by simp [hs.not_mem, ht.not_mem], ?_⟩
  rcases hs.shape with rfl | ⟨a, rfl⟩
  · exact ht.shape
  · rcases ht.shape with rfl | ⟨b, rfl⟩
    · exact Or.inr ⟨a, by simp⟩
    · exact Or.inr ⟨a ++ '"' :: ' ' :: b, by simp⟩

section Tag

variable {name fields : CString}

theorem takeWhile_name (h : IsTagName name) {rest : CString} (hrest : StopsAt (· != ' ') rest) :
    (name ++ rest).takeWhile (· != ' ') = name :=
  takeWhile_append_stop (forall_ne_of_not_mem (h.not_mem rfl)) hrest

/-- A body that starts with a tag name is not a closing tag and not a declaration. -/
theorem readTag_name (h : IsTagName name) {rest : CString} (hrest : StopsAt (· != ' ') rest) :
    readTag (name ++ rest) =
      some (if (name ++ rest).getLast? = some '/' then .alone name else .opened name) := by
  have htake := takeWhile_name h hrest
  obtain ⟨c, cs, rfl, hc, -⟩ := h
  have hbang : c ≠ '!' := by rintro rfl; cases hc
  have hslash : c ≠ '/' := by rintro rfl; cases hc
  rw [List.cons_append] at htake ⊢
  have hdoctype : gStrHasPrefix (c :: (cs ++ rest)) "!DOCTYPE ".toList = false := by
    simp [gStrHasPrefix, List.isPrefixOf, hbang.symm]
  rw [readTag, hdoctype, if_neg (by simp), if_neg (by simpa using hslash)]
  dsimp only
  rw [htake]

theorem readTag_opening (hname : IsTagName name) (hfields : IsFields fields) :
    readTag (name ++ fields) = some (.opened name) := by
  rcases hfields.shape with rfl | ⟨t, rfl⟩
  · have hlast : name.getLast? ≠ some '/' := fun h =>
      hname.not_mem (d := '/') rfl (List.mem_of_getLast? h)
    rw [readTag_name hname (.nil _), List.append_nil, if_neg hlast]
  · have hcat : name ++ ' ' :: (t ++ ['"']) = (name ++ ' ' :: t) ++ ['"'] := by simp
    rw [readTag_name hname (.cons rfl _), hcat, List.getLast?_concat, if_neg (by simp)]

theorem readTag_selfClosed (hname : IsTagName name) (hfields : IsFields fields) :
    readTag (name ++ (fields ++ " /".toList)) = some (.alone name) := by
  have hstop : StopsAt (· != ' ') (fields ++ " /".toList) := by
    rcases hfields.shape with rfl | ⟨t, rfl⟩
    · exact .cons rfl _
    · exact .cons rfl _
  have hcat : name ++ (fields ++ " /".toList) = (name ++ (fields ++ [' '])) ++ ['/'] := by simp
  rw [readTag_name hname hstop, hcat, List.getLast?_concat, if_pos rfl]

theorem readTag_closing (name : CString) : readTag ('/' :: name) = some (.closed name) := rfl

theorem readTag_doctype (text : CString) : readTag ("!DOCTYPE ".toList ++ text) = none := by
  rw [readTag, if_pos]
  simp [gStrHasPrefix]

end Tag

/-! ## Text without markup -/

/-- Neither an angle bracket nor a double quote. -/
def Plain (s : CString) : Prop := ∀ c ∈ s, c ≠ '<' ∧ c ≠ '>' ∧ c ≠ '"'

instance (s : CString) : Decidable (Plain s) := List.decidableBAll _ s

theorem Plain.not_lt {s : CString} (h : Plain s) : '<' ∉ s := fun hmem => (h _ hmem).1 rfl

theorem Plain.not_gt {s : CString} (h : Plain s) : '>' ∉ s := fun hmem => (h _ hmem).2.1 rfl

theorem plain_escapeChar (c : Char) : Plain (escapeChar c) := by
  unfold escapeChar
  split
  · decide
  split
  · decide
  split
  · decide
  split
  · decide
  split
  · decide
  · intro d hd
    rw [List.mem_singleton.mp hd]
    exact ⟨by assumption, by assumption, by assumption⟩

/-- No text, id or class contributes an angle bracket or a quote. -/
theorem plain_escapeHtml (s : CString) : Plain (escapeHtml s) := by
  intro c hc
  obtain ⟨d, -, hd⟩ := List.mem_flatMap.mp hc
  exact plain_escapeChar d c hd

/-- The texts of the node that the renderer does not escape are free of markup. -/
structure PlainParts (node : ASTNode) : Prop where
  attributes : ∀ attr ∈ node.attributes.getD [], Plain attr.name ∧ Plain attr.value
  text : node.nodeType = .tokenInterpolation ∨ node.nodeType = .tokenDoctype →
    ∀ text ∈ node.textContent, Plain text

instance (node : ASTNode) : Decidable (PlainParts node) :=
  decidable_of_iff ((∀ attr ∈ node.attributes.getD [], Plain attr.name ∧ Plain attr.value) ∧
      (node.nodeType = .tokenInterpolation ∨ node.nodeType = .tokenDoctype →
        ∀ text ∈ node.textContent, Plain text))
    ⟨fun h => ⟨h.1, h.2⟩, fun h => ⟨h.attributes, h.text⟩⟩

/-! ## Opening tags -/

theorem isFields_value {key value : CString} (hkey : '>' ∉ key) (hvalue : '>' ∉ value) :
    IsFields (' ' :: (key ++ "=\"".toList ++ value ++ "\"".toList)) := by
  refine ⟨by simp [hkey, hvalue], Or.inr ⟨key ++ "=\"".toList ++ value, by simp⟩⟩

theorem isFields_renderId (id : Option CString) : IsFields (renderId id) := by
  cases id with
  | none => exact .nil
  | some id =>
    have heq : renderId (some id) =
        ' ' :: ("id".toList ++ "=\"".toList ++ escapeHtml id ++ "\"".toList) := by
      simp [renderId_some]
    rw [heq]
    exact isFields_value (by decide) (plain_escapeHtml id).not_gt

theorem isFields_renderClasses (classes : List CString) : IsFields (renderClasses classes) := by
  rw [renderClasses]
  split
  · exact .nil
  · have hvalue : '>' ∉ [' '].intercalate (classes.map escapeHtml) := by
      have hall : ∀ c ∈ [' '].intercalate (classes.map escapeHtml), c ≠ '>' := by
        refine forall_mem_intercalate (p := fun c => c ≠ '>') (by decide) fun piece hpiece c hc => ?_
        obtain ⟨name, -, rfl⟩ := List.mem_map.mp hpiece
        exact (plain_escapeHtml name c hc).2.1
      exact fun hmem => hall _ hmem rfl
    have heq : " class=\"".toList ++ [' '].intercalate (classes.map escapeHtml) ++ "\"".toList =
        ' ' :: ("class".toList ++ "=\"".toList ++ [' '].intercalate (classes.map escapeHtml) ++
          "\"".toList) := by simp
    rw [heq]
    exact isFields_value (by decide) hvalue

theorem isFields_renderAttributes {attrs : List Attribute}
    (h : ∀ attr ∈ attrs, Parsed attr ∧ Plain attr.name ∧ Plain attr.value) :
    IsFields (renderAttributes attrs) := by
  induction attrs with
  | nil => exact .nil
  | cons attr attrs ih =>
    obtain ⟨hparsed, hname, hvalue⟩ := h attr List.mem_cons_self
    have hrest := ih fun a ha => h a (List.mem_cons_of_mem _ ha)
    have hattr : IsFields (renderAttribute attr) := by
      rw [renderAttribute, if_pos (by simp [hparsed.type])]
      have heq : ' ' :: attr.name ++ ("=\"".toList ++ attr.value ++ "\"".toList) =
          ' ' :: (attr.name ++ "=\"".toList ++ attr.value ++ "\"".toList) := by simp
      rw [heq]
      exact isFields_value hname.not_gt hvalue.not_gt
    exact hattr.append hrest

/-- An opening tag, up to its end: the name and what follows it. -/
theorem renderOpening_eq {node : ASTNode} (hmade : Made node) (hplain : PlainParts node)
    (ht : node.nodeType = .tokenTag) :
    ∃ name fields, node.tag = some name ∧ IsTagName name ∧ IsFields fields ∧
      renderOpening node = '<' :: (name ++ fields) := by
  obtain ⟨name, htag, hname⟩ := hmade.tagName ht
  refine ⟨name, renderId node.id ++ renderClasses node.classes ++
    renderAttributes (node.attributes.getD []), htag, hname, ?_, by simp [renderOpening, htag]⟩
  exact ((isFields_renderId _).append (isFields_renderClasses _)).append
    (isFields_renderAttributes fun attr hattr =>
      ⟨hmade.attributes attr hattr, hplain.attributes attr hattr⟩)

/-! ## Reading what is emitted -/

/-- The tag that is read where `markup` was written. -/
def Markup.tag : Markup → Tag CString
  | .opening node => .opened (node.tag.getD "div".toList)
  | .closing node => .closed (node.tag.getD "div".toList)
  | .selfClosed node => .alone (node.tag.getD "div".toList)

/-- In front of anything, the tag of the piece is read and no other. -/
def Scannable (e : Emission) : Prop :=
  ∀ rest, scanTags (e.written ++ rest) =
    (scanTags rest).map ((e.markup?.map Markup.tag).toList ++ ·)

theorem scannable_plain {text : CString} (h : '<' ∉ text) : Scannable (.plain text) := by
  intro rest
  rw [Emission.written_plain, scanTags_text h]
  simp [Emission.markup?]

theorem scannable_doctype {text : CString} (h : '>' ∉ text) : Scannable (.doctype text) := by
  intro rest
  have hbody : '>' ∉ "!DOCTYPE ".toList ++ text := by simp [h]
  have hcat : "<!DOCTYPE ".toList ++ text ++ ['>'] ++ rest =
      '<' :: (("!DOCTYPE ".toList ++ text) ++ '>' :: rest) := by simp
  rw [Emission.written_doctype, hcat, scanTags_piece hbody, readTag_doctype]
  rfl

section Node

variable {node : ASTNode} (hmade : Made node) (hplain : PlainParts node)
  (ht : node.nodeType = .tokenTag)

include hmade hplain ht

theorem scannable_opening : Scannable (.tag (.opening node)) := by
  intro rest
  obtain ⟨name, fields, htag, hname, hfields, hopen⟩ := renderOpening_eq hmade hplain ht
  have hbody : '>' ∉ name ++ fields := by simp [hname.not_mem (d := '>') rfl, hfields.not_mem]
  have hcat : renderOpening node ++ ['>'] ++ rest = '<' :: ((name ++ fields) ++ '>' :: rest) := by
    simp [hopen]
  rw [Emission.written_tag, Markup.written_opening, hcat, scanTags_piece hbody,
    readTag_opening hname hfields, Emission.markup?, Option.map_some, Markup.tag, htag]
  rfl

theorem scannable_selfClosed : Scannable (.tag (.selfClosed node)) := by
  intro rest
  obtain ⟨name, fields, htag, hname, hfields, hopen⟩ := renderOpening_eq hmade hplain ht
  have hbody : '>' ∉ name ++ (fields ++ " /".toList) := by
    simp [hname.not_mem (d := '>') rfl, hfields.not_mem]
  have hcat : renderOpening node ++ " />".toList ++ rest =
      '<' :: ((name ++ (fields ++ " /".toList)) ++ '>' :: rest) := by simp [hopen]
  rw [Emission.written_tag, Markup.written_selfClosed, hcat, scanTags_piece hbody,
    readTag_selfClosed hname hfields, Emission.markup?, Option.map_some, Markup.tag, htag]
  rfl

omit hplain in
theorem scannable_closing : Scannable (.tag (.closing node)) := by
  intro rest
  obtain ⟨name, htag, hname⟩ := hmade.tagName ht
  have hbody : '>' ∉ '/' :: name := by simp [hname.not_mem (d := '>') rfl]
  have hcat : "</".toList ++ name ++ ['>'] ++ rest = '<' :: (('/' :: name) ++ '>' :: rest) := by
    simp
  rw [Emission.written_tag, Markup.written_closing, htag, Option.getD_some, hcat,
    scanTags_piece hbody, readTag_closing, Emission.markup?, Option.map_some, Markup.tag, htag]
  rfl

end Node

theorem scanTags_emissions {es : List Emission} (h : ∀ e ∈ es, Scannable e) :
    scanTags (es.flatMap Emission.written) =
      some ((es.filterMap Emission.markup?).map Markup.tag) := by
  induction es with
  | nil => rfl
  | cons e es ih =>
    rw [List.flatMap_cons, h e List.mem_cons_self, ih fun e' he => h e' (List.mem_cons_of_mem _ he)]
    cases hm : e.markup? <;> simp [hm]

theorem scannable_childrenEmissions (useTabs : Bool) (tabSize : Nat) (node : ASTNode)
    (hasChildren : Bool) {children : List Emission} (h : ∀ e ∈ children, Scannable e) :
    ∀ e ∈ childrenEmissions useTabs tabSize true node hasChildren children, Scannable e := by
  have hempty : Scannable (.plain []) := scannable_plain (by simp)
  intro e he
  cases hasChildren with
  | true =>
    simp only [childrenEmissions, unlessMinified, if_true, ite_self, List.mem_cons,
      List.mem_append, List.not_mem_nil, or_false] at he
    rcases he with rfl | he | rfl
    · exact hempty
    · exact h e he
    · exact hempty
  | false =>
    simp only [childrenEmissions, unlessMinified, Bool.false_eq_true, if_true, if_false] at he
    split at he
    · rw [List.mem_singleton.mp he]
      exact hempty
    · cases he

/-- What one call of `render_node` appends to a minified output can be read. -/
theorem scannable_nodeEmissions (useTabs : Bool) (tabSize : Nat) {node : ASTNode}
    (hmade : Made node) (hplain : PlainParts node) (hasChildren : Bool) {children : List Emission}
    (h : ∀ e ∈ children, Scannable e) :
    ∀ e ∈ nodeEmissions useTabs tabSize true node hasChildren children, Scannable e := by
  have hempty : Scannable (.plain []) := scannable_plain (by simp)
  have hescaped : ∀ text : Option CString, '<' ∉ (text.map escapeHtml).getD [] := by
    rintro (_ | text)
    · simp
    · exact (plain_escapeHtml text).not_lt
  intro e he
  rw [nodeEmissions] at he
  split at he
  · exact h e he
  rcases List.mem_cons.mp he with rfl | he
  · exact hempty
  cases ht : node.nodeType with
  | tokenTag =>
    rw [ht] at he
    dsimp only [unlessMinified, if_true] at he
    split at he
    · simp only [List.mem_cons, List.not_mem_nil, or_false] at he
      rcases he with rfl | rfl
      · exact scannable_selfClosed hmade hplain ht
      · exact hempty
    · simp only [List.mem_cons, List.mem_append, List.not_mem_nil, or_false] at he
      rcases he with rfl | rfl | he | rfl | rfl
      · exact scannable_opening hmade hplain ht
      · refine scannable_plain ?_
        rw [renderText]
        cases htext : node.textContent with
        | none => simp
        | some text =>
          have := hescaped (some text)
          simpa [unlessMinified] using this
      · exact scannable_childrenEmissions useTabs tabSize node hasChildren h e he
      · exact scannable_closing hmade ht
      · exact hempty
  | tokenDoctype =>
    rw [ht] at he
    simp only [unlessMinified, if_true, List.mem_cons, List.not_mem_nil, or_false] at he
    rcases he with rfl | rfl
    · refine scannable_doctype ?_
      cases htext : node.textContent with
      | none => decide
      | some text => exact (hplain.text (Or.inr ht) text htext).not_gt
    · exact hempty
  | tokenInterpolation =>
    rw [ht] at he
    simp only [unlessMinified, if_true, List.mem_cons, List.not_mem_nil, or_false] at he
    rcases he with rfl | rfl
    · refine scannable_plain ?_
      cases htext : node.textContent with
      | none => simp
      | some text => simpa using (hplain.text (Or.inl ht) text htext).not_lt
    · exact hempty
  | tokenText | tokenPipe | tokenDot =>
    rw [ht] at he
    simp only [unlessMinified, if_true, List.mem_cons, List.not_mem_nil, or_false] at he
    rcases he with rfl | rfl
    · exact scannable_plain (hescaped _)
    · exact hempty
  | tokenComment | tokenCode | tokenInclude | tokenExtends | tokenMixin | tokenCall =>
    rw [ht] at he
    simp only [unlessMinified, if_true, List.mem_cons, List.not_mem_nil, or_false] at he
    rw [he]
    exact hempty
  | _ =>
    rw [ht] at he
    cases he

theorem scannable_emissions (useTabs : Bool) (tabSize : Nat) {f : Forest ASTNode}
    (h : ∀ node ∈ f.labels, Made node ∧ PlainParts node) :
    ∀ e ∈ emissions useTabs tabSize true f, Scannable e := by
  induction f with
  | nil => simp [emissions]
  | node a kids next ihk ihn =>
    have hkids := ihk fun node hn => h node (List.mem_cons_of_mem _ (List.mem_append_left _ hn))
    have hnext := ihn fun node hn => h node (List.mem_cons_of_mem _ (List.mem_append_right _ hn))
    obtain ⟨hmade, hplain⟩ := h a List.mem_cons_self
    intro e he
    rcases List.mem_append.mp he with he | he
    · exact scannable_nodeEmissions useTabs tabSize hmade hplain _ hkids e he
    · exact hnext e he

/-! ## Nesting -/

/-- The tags of a tree are nested. -/
theorem wellNested_skeleton (f : Forest ASTNode) : WellNested ((skeleton f).map Markup.tag) := by
  induction f with
  | nil => exact .nil
  | node a kids next ihk ihn =>
    rw [skeleton, List.map_append]
    refine .append ?_ ihn
    split
    · exact ihk
    split
    · split
      · exact .alone _
      · rw [List.map_cons, List.map_append]
        exact .element _ ihk
    · exact .nil

theorem alone_map_tag (ms : List Markup) :
    (ms.map Markup.tag).filterMap Tag.alone? =
      (ms.filterMap Markup.selfClosed?).map fun node => node.tag.getD "div".toList := by
  rw [List.filterMap_map, List.map_filterMap]
  refine congrArg (List.filterMap · ms) (funext fun m => ?_)
  cases m <;> rfl

/-- The names of the void elements that are rendered, in document order. -/
def renderedVoids (f : Forest ASTNode) : List CString :=
  ((f.withAncestors []).filter fun entry =>
    entry.1.all entered && isElement entry.2 && rendersVoid entry.2).map fun entry =>
      entry.2.tag.getD "div".toList

theorem renderedVoids_eq (f : Forest ASTNode) :
    renderedVoids f =
      (((f.visit entered).filter isElement).filter rendersVoid).map fun node =>
        node.tag.getD "div".toList := by
  have hvisit : f.visit entered = _ := Forest.visit_eq_filter f List.all_nil
  rw [hvisit, List.filter_map, List.filter_filter, List.filter_map, List.filter_filter, List.map_map,
    renderedVoids]
  refine congrArg _ (List.filter_congr fun entry _ => ?_)
  simp only [Function.comp_apply]
  ac_rfl

/-- On the minified output of the tree of a file the tags are nested and none is left open, and the
self-closed ones are the void elements that are rendered. -/
theorem wellFormed_minified {content : CString} {ctx : ParserContext}
    (h : parsePug (tokenizeFile content) = some ctx)
    (hplain : ∀ node ∈ (rootNode ctx).labels, PlainParts node) (useTabs : Bool) (tabSize : Nat) :
    ∃ tags, scanTags (renderAst useTabs tabSize true (rootNode ctx)) = some tags ∧
      closes [] tags = true ∧ tags.filterMap Tag.alone? = renderedVoids (rootNode ctx) := by
  obtain ⟨kids, hroot, hmade⟩ := parsePug_made h
  have hlabels : (rootNode ctx).labels = rootLabel :: kids.labels := by simp [hroot]
  have hscan : ∀ e ∈ emissions useTabs tabSize true kids, Scannable e :=
    scannable_emissions useTabs tabSize fun node hnode =>
      ⟨hmade node hnode, hplain node (by rw [hlabels]; exact List.mem_cons_of_mem _ hnode)⟩
  refine ⟨(skeleton (rootNode ctx)).map Markup.tag, ?_, (wellNested_skeleton _).closes, ?_⟩
  · rw [hroot, renderAst_root, ← flatMap_written, scanTags_emissions hscan,
      filterMap_markup_emissions, skeleton_root]
  · rw [alone_map_tag, selfClosed_skeleton, opened_skeleton, renderedVoids_eq]

theorem wellFormed_minified_list :
    ∃ ctx tags, parsePug (tokenizeFile "ul\n  li(x='1') a < b\n  br".toList) = some ctx ∧
      scanTags (renderAst false 2 true (rootNode ctx)) = some tags ∧ closes [] tags = true ∧
      tags.filterMap Tag.alone? = renderedVoids (rootNode ctx) := by
  obtain ⟨ctx, hctx⟩ := exists_parsePug "ul\n  li(x='1') a < b\n  br".toList
  have hplain : ∀ ctx ∈ parsePug (tokenizeFile "ul\n  li(x='1') a < b\n  br".toList),
      ∀ node ∈ (rootNode ctx).labels, PlainParts node := by decide +kernel
  obtain ⟨tags, htags⟩ := wellFormed_minified hctx (hplain ctx hctx) false 2
  exact ⟨ctx, tags, hctx, htags⟩

end CPug
