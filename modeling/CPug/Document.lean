import CPug.ClassBuffer
import CPug.Composition
import CPug.HtmlReader
import CPug.PrettyPrint
import CPug.RoundTrip

/-!
# The document of a template

`document` says what a tree means: the elements with their attributes, the texts, the doctypes, where
the nodes that the renderer passes over have no part and texts side by side are one text. The reader gets
this document from the minified output (`readHtml_minified`), and from a printed forest of elements, through
tokenizer, parser and renderer, the elements themselves (`readHtml_printForest`).
-/

namespace CPug

open Outline

/-! ## The meaning of a tree -/

/-- The attributes of an element: those of its shorthands, then those in parentheses. -/
def htmlAttributes (node : ASTNode) : List (CString × CString) :=
  (node.id.map fun id => ("id".toList, id)).toList ++
    (if node.classes = [] then [] else [("class".toList, [' '].intercalate node.classes)]) ++
    (node.attributes.getD []).map fun attr => (attr.name, attr.value)

/-- A text as a reader meets it, character by character. -/
def textPieces : CString → Forest HtmlNode
  | [] => .nil
  | c :: s => .node (.text [c]) .nil (textPieces s)

/-- What a node contributes, where its children contribute `children`. -/
def nodePieces (node : ASTNode) (children : Forest HtmlNode) : Forest HtmlNode :=
  if isRoot node then children
  else
    match node.nodeType with
    | .tokenDoctype => .leaf (.doctype (node.textContent.getD "html".toList))
    | .tokenText | .tokenPipe | .tokenDot => textPieces (node.textContent.getD [])
    | .tokenInterpolation =>
      textPieces
        ((node.textContent.map fun text => "#\x7b ".toList ++ text ++ " \x7d".toList).getD [])
    | .tokenTag =>
      let name := node.tag.getD "div".toList
      if rendersVoid node then .leaf (.void name (htmlAttributes node))
      else
        .node (.element name (htmlAttributes node))
          (textPieces (node.textContent.getD []) ++ children) .nil
    | _ => .nil

/-- What the nodes of a forest contribute. -/
def pieces : Forest ASTNode → Forest HtmlNode
  | .nil => .nil
  | .node node kids next => nodePieces node (pieces kids) ++ pieces next

/-- The document of a tree. -/
def document (f : Forest ASTNode) : Forest HtmlNode := (pieces f).joined HtmlNode.join .nil

/-- What the renderer writes as it is leaves the markup around it alone. -/
structure Readable (node : ASTNode) : Prop where
  attributes : ∀ attr ∈ node.attributes.getD [],
    '>' ∉ attr.name ∧ '"' ∉ attr.value ∧ ¬ HasEntity attr.value
  interpolation : node.nodeType = .tokenInterpolation →
    ∀ text ∈ node.textContent, '<' ∉ text ∧ '&' ∉ text
  doctype : node.nodeType = .tokenDoctype → ∀ text ∈ node.textContent, '>' ∉ text

instance (s : CString) : Decidable (HasEntity s) :=
  List.decidableBEx (fun entry : CString × Char => entry.1 <:+: s) entityTable

instance (node : ASTNode) : Decidable (Readable node) :=
  decidable_of_iff ((∀ attr ∈ node.attributes.getD [],
        '>' ∉ attr.name ∧ '"' ∉ attr.value ∧ ¬ HasEntity attr.value) ∧
      (node.nodeType = .tokenInterpolation → ∀ text ∈ node.textContent, '<' ∉ text ∧ '&' ∉ text) ∧
      (node.nodeType = .tokenDoctype → ∀ text ∈ node.textContent, '>' ∉ text))
    ⟨fun h => ⟨h.1, h.2.1, h.2.2⟩, fun h => ⟨h.attributes, h.interpolation, h.doctype⟩⟩

/-! ## Reading what is written -/

/-- In front of anything, the events of the forest are read. -/
def ReadAs (written : CString) (f : Forest HtmlNode) : Prop :=
  ∀ rest, readEvents (written ++ rest) =
    (readEvents rest).map (f.events HtmlNode.name HtmlNode.alone ++ ·)

theorem readAs_nil : ReadAs [] .nil := by
  intro rest
  simp [Forest.events]

theorem ReadAs.append {s t : CString} {f g : Forest HtmlNode} (hs : ReadAs s f) (ht : ReadAs t g) :
    ReadAs (s ++ t) (f ++ g) := by
  intro rest
  rw [List.append_assoc, hs, ht, Option.map_map, Forest.events_append]
  refine congrArg (Option.map · _) (funext fun events => ?_)
  exact (List.append_assoc _ _ _).symm

theorem events_textPieces (s : CString) :
    (textPieces s).events HtmlNode.name HtmlNode.alone = textEvents s := by
  induction s with
  | nil => rfl
  | cons c s ih =>
    rw [textPieces, Forest.events, ih]
    rfl

theorem readAs_escaped (s : CString) : ReadAs (escapeHtml s) (textPieces s) := by
  intro rest
  rw [readEvents_escapeHtml, events_textPieces]

theorem readAs_raw {s : CString} (h : '<' ∉ s ∧ '&' ∉ s) : ReadAs s (textPieces s) := by
  intro rest
  rw [readEvents_raw h, events_textPieces]

theorem readAs_doctype {text : CString} (h : '>' ∉ text) :
    ReadAs ("<!DOCTYPE ".toList ++ text ++ ['>']) (.leaf (.doctype text)) := by
  intro rest
  have hcat : "<!DOCTYPE ".toList ++ text ++ ['>'] ++ rest =
      '<' :: ("!DOCTYPE ".toList ++ (text ++ '>' :: rest)) := by simp
  rw [hcat, readEvents_markup (readMarkup_doctype h rest)]
  rfl

/-! ### Attributes -/

/-- In front of what ends the tag, the attributes are read; they do not go on with the name of the tag. -/
structure FieldsOf (written : CString) (attributes : List (CString × CString)) : Prop where
  read : ∀ rest, readFields (written ++ rest) =
    (readFields rest).map fun fields =>
      { fields with attributes := attributes ++ fields.attributes }
  stops : ∀ rest, StopsAt isNameChar rest → StopsAt isNameChar (written ++ rest)

theorem fieldsOf_nil : FieldsOf [] [] where
  read rest := by simp
  stops _ h := h

theorem FieldsOf.append {s t : CString} {as bs : List (CString × CString)} (hs : FieldsOf s as)
    (ht : FieldsOf t bs) : FieldsOf (s ++ t) (as ++ bs) where
  read rest := by
    rw [List.append_assoc, hs.read, ht.read, Option.map_map]
    refine congrArg (Option.map · _) (funext fun fields => ?_)
    simp
  stops rest h := by
    rw [List.append_assoc]
    exact hs.stops _ (ht.stops _ h)

/-- One attribute, its value as it is written. -/
theorem fieldsOf_value {name value : CString} (hname : '=' ∉ name) (hgt : '>' ∉ name)
    (hvalue : '"' ∉ value) :
    FieldsOf (' ' :: (name ++ "=\"".toList ++ value ++ "\"".toList))
      [(name, decodeEntities value)] where
  read rest := by
    have hcat : ' ' :: (name ++ "=\"".toList ++ value ++ "\"".toList) ++ rest =
        ' ' :: (name ++ '=' :: '"' :: (value ++ '"' :: rest)) := by simp
    rw [hcat, readFields_attribute hname hgt hvalue]
    rfl
  stops rest _ := .cons rfl _

/-- One attribute, its value escaped. -/
theorem fieldsOf_escaped {name : CString} (hname : '=' ∉ name) (hgt : '>' ∉ name)
    (value : CString) :
    FieldsOf (' ' :: (name ++ "=\"".toList ++ escapeHtml value ++ "\"".toList))
      [(name, value)] := by
  have hquote : '"' ∉ escapeHtml value := fun hmem =>
    ((safeEncoding_escapeHtml value).safe _ hmem).2.2.1 rfl
  have h := fieldsOf_value hname hgt hquote
  rwa [decodeEntities_escapeHtml] at h

theorem fieldsOf_renderId (id : Option CString) :
    FieldsOf (renderId id) (id.map fun id => ("id".toList, id)).toList := by
  cases id with
  | none => exact fieldsOf_nil
  | some id => exact @fieldsOf_escaped "id".toList (by decide) (by decide) id

theorem fieldsOf_renderClasses (classes : List CString) :
    FieldsOf (renderClasses classes)
      (if classes = [] then [] else [("class".toList, [' '].intercalate classes)]) := by
  rw [renderClasses]
  split
  · exact fieldsOf_nil
  · rw [intercalate_map_escapeHtml]
    exact @fieldsOf_escaped "class".toList (by decide) (by decide) _

theorem fieldsOf_renderAttributes {attrs : List Attribute} (hparsed : ∀ attr ∈ attrs, Parsed attr)
    (h : ∀ attr ∈ attrs, '>' ∉ attr.name ∧ '"' ∉ attr.value ∧ ¬ HasEntity attr.value) :
    FieldsOf (renderAttributes attrs) (attrs.map fun attr => (attr.name, attr.value)) := by
  induction attrs with
  | nil => exact fieldsOf_nil
  | cons attr attrs ih =>
    obtain ⟨hgt, hquote, hentity⟩ := h attr List.mem_cons_self
    have hattr := hparsed attr List.mem_cons_self
    have hone : FieldsOf (renderAttribute attr) [(attr.name, attr.value)] := by
      have hvalue := fieldsOf_value hattr.name_eq hgt hquote
      rw [(decodeEntities_eq_self_iff attr.value).mpr hentity] at hvalue
      rw [renderAttribute, if_pos (by simp [hattr.type])]
      simpa using hvalue
    exact hone.append (ih (fun a ha => hparsed a (List.mem_cons_of_mem _ ha))
      fun a ha => h a (List.mem_cons_of_mem _ ha))

/-! ### Elements -/

section Element

variable {node : ASTNode} (hmade : Made node) (hread : Readable node)
  (htype : node.nodeType = .tokenTag)

include hmade hread htype

/-- An opening tag: its name, then the attributes. -/
theorem renderOpening_fields :
    ∃ name written, node.tag = some name ∧ IsTagName name ∧
      renderOpening node = '<' :: (name ++ written) ∧ FieldsOf written (htmlAttributes node) := by
  obtain ⟨name, htag, hname⟩ := hmade.tagName htype
  refine ⟨name, renderId node.id ++ renderClasses node.classes ++
    renderAttributes (node.attributes.getD []), htag, hname, by simp [renderOpening, htag], ?_⟩
  exact ((fieldsOf_renderId _).append (fieldsOf_renderClasses _)).append
    (fieldsOf_renderAttributes hmade.attributes hread.attributes)

theorem readAs_void :
    ReadAs (renderOpening node ++ " />".toList)
      (.leaf (.void (node.tag.getD "div".toList) (htmlAttributes node))) := by
  intro rest
  obtain ⟨name, written, htag, hname, hopen, hfields⟩ := renderOpening_fields hmade hread htype
  have hcat : renderOpening node ++ " />".toList ++ rest =
      '<' :: (name ++ (written ++ (" />".toList ++ rest))) := by simp [hopen]
  have hstop : StopsAt isNameChar (" />".toList ++ rest) :=
    StopsAt.cons (by rfl : isNameChar ' ' = false) _
  have hmarkup : readMarkup (name ++ (written ++ (" />".toList ++ rest))) =
      some (.alone (.void name (htmlAttributes node)), rest) := by
    rw [readMarkup_opening hname (hfields.stops _ hstop), hfields.read,
      readFields_selfClose, Option.map_some, Option.map_some, List.append_nil]
    rfl
  rw [hcat, readEvents_markup hmarkup, htag]
  rfl

/-- An element is read as an element, with what is read between its tags below it. -/
theorem readAs_element {inner : CString} {kids : Forest HtmlNode} (hinner : ReadAs inner kids) :
    ReadAs (renderOpening node ++ ['>'] ++ inner ++ "</".toList ++ node.tag.getD "div".toList ++ ['>'])
      (.node (.element (node.tag.getD "div".toList) (htmlAttributes node)) kids .nil) := by
  intro rest
  obtain ⟨name, written, htag, hname, hopen, hfields⟩ := renderOpening_fields hmade hread htype
  have hcat : renderOpening node ++ ['>'] ++ inner ++ "</".toList ++ name ++ ['>'] ++ rest =
      '<' :: (name ++ (written ++ '>' :: (inner ++ '<' :: '/' :: (name ++ '>' :: rest)))) := by
    simp [hopen]
  have hopening : ∀ after, readMarkup (name ++ (written ++ '>' :: after)) =
      some (.opens (.element name (htmlAttributes node)), after) := by
    intro after
    rw [readMarkup_opening hname (hfields.stops _ (.cons rfl _)), hfields.read,
      readFields_close, Option.map_some, Option.map_some, List.append_nil]
    rfl
  have hclosing := readMarkup_closing (hname.not_mem (d := '>') rfl) rest
  rw [htag, Option.getD_some, hcat, readEvents_markup (hopening _), hinner,
    readEvents_markup hclosing, Option.map_map, Option.map_map, Forest.events]
  refine congrArg (Option.map · _) (funext fun events => ?_)
  simp [HtmlNode.alone, HtmlNode.name, Forest.events]

end Element

/-! ### Trees -/

/-- What one call of `render_node` appends to a minified output. -/
theorem readAs_renderNode (useTabs : Bool) (tabSize : Nat) {node : ASTNode} (hmade : Made node)
    (hread : Readable node) {hasChildren : Bool} {children : CString} {kids : Forest HtmlNode}
    (hkids : ReadAs children kids) (hempty : hasChildren = false → children = []) :
    ReadAs (renderNode useTabs tabSize true node hasChildren children) (nodePieces node kids) := by
  unfold nodePieces
  cases hroot : isRoot node with
  | true =>
    rw [if_pos rfl, renderNode, if_pos hroot]
    exact hkids
  | false =>
    rw [if_neg (by simp)]
    by_cases htype : node.nodeType = .tokenTag
    · rw [renderNode_tag useTabs tabSize htype hroot hempty, htype]
      dsimp only
      split
      · exact readAs_void hmade hread htype
      · have htext : ReadAs ((node.textContent.map escapeHtml).getD [])
            (textPieces (node.textContent.getD [])) := by
          cases node.textContent with
          | none => exact readAs_nil
          | some text => exact readAs_escaped text
        have h := readAs_element hmade hread htype (htext.append hkids)
        simpa only [List.append_assoc] using h
    · rw [renderNode, if_neg (by simp [hroot])]
      simp only [unlessMinified, if_true, List.nil_append, List.append_nil]
      cases hty : node.nodeType with
      | tokenTag => exact absurd hty htype
      | tokenDoctype =>
        refine readAs_doctype ?_
        cases htext : node.textContent with
        | none => decide
        | some text => exact hread.doctype hty text htext
      | tokenText | tokenPipe | tokenDot =>
        cases node.textContent with
        | none => exact readAs_nil
        | some text => exact readAs_escaped text
      | tokenInterpolation =>
        cases htext : node.textContent with
        | none => exact readAs_nil
        | some text =>
          obtain ⟨hlt, hamp⟩ := hread.interpolation hty text htext
          exact readAs_raw (by simp [hlt, hamp])
      | _ => exact readAs_nil

theorem readAs_renderNodes (useTabs : Bool) (tabSize : Nat) {f : Forest ASTNode}
    (h : ∀ node ∈ f.labels, Made node ∧ Readable node) :
    ReadAs (renderNodes useTabs tabSize true f) (pieces f) := by
  induction f with
  | nil => exact readAs_nil
  | node a kids next ihk ihn =>
    have hkids := ihk fun node hn => h node (List.mem_cons_of_mem _ (List.mem_append_left _ hn))
    have hnext := ihn fun node hn => h node (List.mem_cons_of_mem _ (List.mem_append_right _ hn))
    obtain ⟨hmade, hread⟩ := h a List.mem_cons_self
    refine (readAs_renderNode useTabs tabSize hmade hread hkids fun hnone => ?_).append hnext
    have hnil : kids = .nil := by simpa using hnone
    rw [hnil]
    rfl

/-- The pieces that stand alone have nothing below them. -/
theorem childless_textPieces (s : CString) : (textPieces s).Childless HtmlNode.alone := by
  induction s with
  | nil => trivial
  | cons c s ih => exact ⟨fun _ => rfl, trivial, ih⟩

theorem childless_nodePieces (node : ASTNode) {kids : Forest HtmlNode}
    (h : kids.Childless HtmlNode.alone) : (nodePieces node kids).Childless HtmlNode.alone := by
  have hleaf : ∀ label, (Forest.leaf label : Forest HtmlNode).Childless HtmlNode.alone :=
    fun _ => ⟨fun _ => rfl, trivial, trivial⟩
  unfold nodePieces
  split
  · exact h
  cases node.nodeType with
  | tokenTag =>
    dsimp only
    split
    · exact hleaf _
    · refine ⟨fun hno => ?_, Forest.childless_append (childless_textPieces _) h, trivial⟩
      cases hno
  | tokenDoctype => exact hleaf _
  | tokenText | tokenPipe | tokenDot | tokenInterpolation => exact childless_textPieces _
  | _ => trivial

theorem childless_pieces (f : Forest ASTNode) : (pieces f).Childless HtmlNode.alone := by
  induction f with
  | nil => trivial
  | node a kids next ihk ihn => exact Forest.childless_append (childless_nodePieces a ihk) ihn

/-- A reader of the minified output of a forest gets its document. -/
theorem readHtml_renderNodes (useTabs : Bool) (tabSize : Nat) {f : Forest ASTNode}
    (h : ∀ node ∈ f.labels, Made node ∧ Readable node) :
    readHtml (renderNodes useTabs tabSize true f) = some (document f) := by
  have hevents := readAs_renderNodes useTabs tabSize h []
  rw [List.append_nil, readEvents_nil, Option.map_some, List.append_nil] at hevents
  rw [readHtml, hevents, Option.bind_some, assemble_events (childless_pieces f), document]

/-- **Meaning.** Whatever the template, a reader of the minified output gets the document of the tree, if
what the renderer writes as it is leaves the markup alone. -/
theorem readHtml_minified {content : CString} {ctx : ParserContext}
    (h : parsePug (tokenizeFile content) = some ctx)
    (hread : ∀ node ∈ (rootNode ctx).labels, Readable node) (useTabs : Bool) (tabSize : Nat) :
    readHtml (renderAst useTabs tabSize true (rootNode ctx)) = some (document (rootNode ctx)) := by
  obtain ⟨kids, hroot, hmade⟩ := parsePug_made h
  have hlabels : (rootNode ctx).labels = rootLabel :: kids.labels := by simp [hroot]
  have hdocument : document (rootNode ctx) = document kids := by
    rw [hroot, document, pieces, pieces, Forest.append_nil, nodePieces, if_pos (by decide), document]
  rw [hdocument, hroot, renderAst_root]
  exact readHtml_renderNodes useTabs tabSize fun node hnode =>
    ⟨hmade node hnode, hread node (by rw [hlabels]; exact List.mem_cons_of_mem _ hnode)⟩

theorem readHtml_minified_list :
    ∃ ctx, parsePug (tokenizeFile "ul\n  li(x='1') a < b\n  | c\n  br".toList) = some ctx ∧
      readHtml (renderAst false 2 true (rootNode ctx)) = some (document (rootNode ctx)) := by
  obtain ⟨ctx, hctx⟩ := exists_parsePug "ul\n  li(x='1') a < b\n  | c\n  br".toList
  have hread : ∀ ctx ∈ parsePug (tokenizeFile "ul\n  li(x='1') a < b\n  | c\n  br".toList),
      ∀ node ∈ (rootNode ctx).labels, Readable node := by decide +kernel
  exact ⟨ctx, hctx, readHtml_minified hctx (hread ctx hctx) false 2⟩

/-! ## Printed forests -/

/-- The attributes an element stands for. -/
def Head.htmlAttributes (e : Head) : List (CString × CString) :=
  (e.id.map fun id => ("id".toList, id)).toList ++
    (if e.classes = [] then [] else [("class".toList, [' '].intercalate e.classes)]) ++
    e.attributes.getD []

def Element.isVoid (e : Element) : Bool := isVoidTag (some e.tag)

/-- The document a forest of elements stands for. -/
def elementDocument : Forest Element → Forest HtmlNode
  | .nil => .nil
  | .node e kids next =>
    if e.isVoid then .node (.void e.tag e.htmlAttributes) (elementDocument kids) (elementDocument next)
    else
      .node (.element e.tag e.htmlAttributes)
        ((match e.text with
          | some text => .leaf (.text text)
          | none => .nil) ++ elementDocument kids) (elementDocument next)

/-- An element that HTML can say: not one called `root`, whose tags are left out, with attributes that stay in
their quotes, and without a text if it is void. -/
structure Expressible (e : Element) : Prop where
  tag : e.tag ≠ "root".toList
  attributes : ∀ attrs ∈ e.attributes, ∀ attr ∈ attrs,
    '>' ∉ attr.1 ∧ '"' ∉ attr.2 ∧ ¬ HasEntity attr.2
  void : e.isVoid = true → e.text = none

/-- What the pipeline makes of a printed forest. -/
theorem processPugFile_printForest (useTabs : Bool) (tabSize : Nat) (minify : Bool)
    (f : Forest Element) :
    processPugFile useTabs tabSize minify (printForest f) =
      some (renderNodes useTabs tabSize minify ((f.withLevel 0).map elementNode)) := by
  have hdepth : ∀ p, (elementNode p).depth = p.1 := fun p => rfl
  have hleveled : Leveled ASTNode.depth 0 ((f.withLevel 0).map elementNode) :=
    (leveled_withLevel f 0).map hdepth
  have htokens : (tokenizeFile (printForest f)).map Token.unplaced =
      (itemTokens (items f) ++ [eofToken]).map Token.unplaced := by
    rw [← tokenizeFile_printForest, List.map_map]
    rfl
  have hbuilt : builtForest (itemTokens (items f) ++ [eofToken]) =
      some ((f.withLevel 0).map elementNode) := by
    rw [builtForest, parseEntries_items, Option.map_some, Spine.close_run_withNext, items,
      ← Forest.labels_map, outline_labels hleveled]
  rw [processPugFile_eq, render_builtForest_unplaced htokens, hbuilt, Option.map_some]

section Expressible

variable {e : Element}

theorem isRoot_elementNode (h : Expressible e) (k : Nat) : isRoot (elementNode (k, e)) = false :=
  decide_eq_false fun htag => h.tag (Option.some.inj htag)

theorem made_elementNode (h : Expressible e) (k : Nat) : Made (elementNode (k, e)) where
  isVoid := rfl
  tagName _ := ⟨e.tag, rfl, e.tag_ok⟩
  root hroot := by
    rw [isRoot_elementNode h] at hroot
    cases hroot
  attributes attr hattr := by
    cases hattrs : e.attributes with
    | none => simp [elementNode, hattrs] at hattr
    | some attrs =>
      simp only [elementNode, hattrs, Option.map_some, Option.getD_some, List.mem_map] at hattr
      obtain ⟨pair, hpair, rfl⟩ := hattr
      have hname := (e.attributes_ok attrs hattrs pair hpair).name
      exact ⟨hname.ne_nil, hname.not_mem rfl, rfl⟩

theorem readable_elementNode (h : Expressible e) (k : Nat) : Readable (elementNode (k, e)) where
  attributes attr hattr := by
    cases hattrs : e.attributes with
    | none => simp [elementNode, hattrs] at hattr
    | some attrs =>
      simp only [elementNode, hattrs, Option.map_some, Option.getD_some, List.mem_map] at hattr
      obtain ⟨pair, hpair, rfl⟩ := hattr
      exact h.attributes attrs hattrs pair hpair
  interpolation htype := by cases htype
  doctype htype := by cases htype

theorem htmlAttributes_elementNode (e : Element) (k : Nat) :
    CPug.htmlAttributes (elementNode (k, e)) = e.htmlAttributes := by
  rw [CPug.htmlAttributes, Head.htmlAttributes]
  congr 1
  cases hattrs : e.attributes with
  | none => simp [elementNode, hattrs]
  | some attrs =>
    simp only [elementNode, hattrs, Option.map_some, Option.getD_some, List.map_map]
    exact List.map_id attrs

end Expressible

/-- The characters of a text are joined to the text. -/
theorem joined_textPieces {s : CString} (h : s ≠ []) (done : Forest HtmlNode) :
    (textPieces s).joined HtmlNode.join done = done.attach HtmlNode.join (.text s) .nil := by
  induction s generalizing done with
  | nil => exact absurd rfl h
  | cons c s ih =>
    rw [textPieces, Forest.joined_node, Forest.joined_nil]
    by_cases hs : s = []
    · subst hs
      rfl
    · rw [ih hs, Forest.attach_attach (HtmlNode.joins_text [c] s)]
      rfl

/-- Elements side by side do not join. -/
theorem joined_pieces {f : Forest Element} (h : ∀ e ∈ f.labels, Expressible e)
    (hvoid : f.Childless Element.isVoid) (k : Nat) (done : Forest HtmlNode) :
    (pieces ((f.withLevel k).map elementNode)).joined HtmlNode.join done =
      done ++ elementDocument f := by
  induction f generalizing k done with
  | nil => exact (Forest.append_nil done).symm
  | node e kids next ihk ihn =>
    have he := h e List.mem_cons_self
    obtain ⟨hnone, hvkids, hvnext⟩ := hvoid
    have hkids := ihk (fun e' hm => h e' (List.mem_cons_of_mem _ (List.mem_append_left _ hm)))
      hvkids (k + 1)
    have hnext := ihn (fun e' hm => h e' (List.mem_cons_of_mem _ (List.mem_append_right _ hm)))
      hvnext k
    have hvoids : rendersVoid (elementNode (k, e)) = e.isVoid := by
      simp [rendersVoid, elementNode, astNodeCreate, Element.isVoid]
    rw [Forest.withLevel, Forest.map_node, pieces, Forest.joined_append, hnext, nodePieces,
      if_neg (by simp [isRoot_elementNode he])]
    show Forest.joined _ (if rendersVoid (elementNode (k, e)) = true then _ else _) done ++ _ = _
    rw [hvoids, htmlAttributes_elementNode, elementDocument]
    split
    · rename_i hv
      rw [Forest.leaf, Forest.joined_node, Forest.joined_nil, Forest.joined_nil,
        Forest.attach_of_apart (HtmlNode.join_void _ _), hnone hv, Forest.append_assoc]
      rfl
    · have hinner : Forest.joined HtmlNode.join (textPieces (e.text.getD [])) .nil =
          (match e.text with
            | some text => .leaf (.text text)
            | none => .nil) := by
        cases htext : e.text with
        | none => rfl
        | some text =>
          rw [Option.getD_some, joined_textPieces (e.text_ok text htext).ne_nil]
          rfl
      rw [Forest.joined_node, Forest.joined_nil, Forest.attach_of_apart (HtmlNode.join_element _ _),
        Forest.joined_append, hkids, Forest.append_assoc]
      show done ++ (.node _ (Forest.joined _ (textPieces (e.text.getD [])) .nil ++ _) .nil ++ _) = _
      rw [hinner]
      rfl

/-- **Templates mean what they say.** For every forest of elements that HTML can say, of which the void ones
have no children, a reader of the minified output that the pipeline gives for the printed forest gets exactly
the elements. -/
theorem readHtml_printForest {f : Forest Element} (h : ∀ e ∈ f.labels, Expressible e)
    (hvoid : f.Childless Element.isVoid) (useTabs : Bool) (tabSize : Nat) :
    ∃ html, processPugFile useTabs tabSize true (printForest f) = some html ∧
      readHtml html = some (elementDocument f) := by
  refine ⟨_, processPugFile_printForest useTabs tabSize true f, ?_⟩
  rw [readHtml_renderNodes useTabs tabSize, document, joined_pieces h hvoid, Forest.nil_append]
  intro node hnode
  rw [Forest.labels_map] at hnode
  obtain ⟨p, hp, rfl⟩ := List.mem_map.mp hnode
  have he : Expressible p.2 := by
    apply h
    rw [← Forest.map_snd_withLevel f 0, Forest.labels_map]
    exact List.mem_map_of_mem hp
  exact ⟨made_elementNode he p.1, readable_elementNode he p.1⟩

/-- The element `p.lead 1 < 2`. -/
def leadElement : Element where
  tag := "p".toList
  id := none
  classes := ["lead".toList]
  attributes := none
  text := some "1 < 2".toList
  tag_ok := ⟨'p', [], rfl, rfl, List.forall_mem_nil _⟩
  tag_noKeyword := of_decide_eq_true rfl
  id_ok _ h := nomatch h
  classes_ok _ h := List.mem_singleton.mp h ▸ ⟨List.cons_ne_nil _ _, List.all_eq_true.mp rfl⟩
  attributes_ok _ h := nomatch h
  text_ok _ h := Option.some.inj h ▸
    ⟨List.cons_ne_nil _ _, of_decide_eq_true rfl, of_decide_eq_true rfl, of_decide_eq_true rfl,
      fun _ hc => Option.some.inj hc ▸ rfl, fun _ hc => Option.some.inj hc ▸ rfl⟩

theorem readHtml_printForest_lead :
    ∃ html, processPugFile false 2 true (printForest (.node leadElement .nil .nil)) = some html ∧
      readHtml html = some (elementDocument (.node leadElement .nil .nil)) := by
  apply readHtml_printForest
  · intro e he
    rw [List.mem_singleton.mp he]
    exact ⟨by decide, fun _ h => (nomatch h), fun h => by cases h⟩
  · exact ⟨fun _ => rfl, trivial, trivial⟩

end CPug
