import CPug.Attributes
import CPug.Escaping
import CPug.Extent
import CPug.Nodes
import CPug.PrettyPrint

/-!
# The size of the output

The minified output is at most seven times as long as the file (`length_minified_le`), and the file of one
letter shows that this is the best factor. The count goes by tokens: `total_parseEntries_le` says that a
weight of the nodes is paid by a weight of the tokens when each node is paid by its own tokens.
-/

namespace CPug

open Outline

/-! ## Strings -/

theorem gStrstrip_sublist (s : CString) : (gStrstrip s).Sublist s :=
  (List.rdropWhile_prefix gAsciiIsspace _).sublist.trans (List.dropWhile_sublist _)

theorem length_escapeHtml (s : CString) :
    (escapeHtml s).length = total (fun c => (escapeChar c).length) s :=
  length_flatMap_eq escapeChar s

theorem length_escapeChar_le (c : Char) : (escapeChar c).length ≤ 6 := by
  unfold escapeChar
  split
  · decide
  split
  · decide
  split
  · decide
  split
  · decide
  split
  · decide
  · exact Nat.succ_le_succ (Nat.zero_le 5)

/-- Escaping takes at most six characters for one. -/
theorem length_escapeHtml_le (s : CString) : (escapeHtml s).length ≤ 6 * s.length := by
  rw [length_escapeHtml, ← total_one, ← total_mul]
  exact total_le_total fun c _ => length_escapeChar_le c

theorem length_escapeHtml_sublist {s t : CString} (h : s.Sublist t) :
    (escapeHtml s).length ≤ (escapeHtml t).length := by
  rw [length_escapeHtml, length_escapeHtml]
  exact total_sublist h _

/-- The characters of a word are not escaped. -/
theorem length_escapeHtml_word {s : CString} (h : ∀ c ∈ s, isWordChar c = true) :
    (escapeHtml s).length ≤ s.length := by
  rw [length_escapeHtml, ← total_one]
  refine total_le_total fun c hc => ?_
  have hword := h c hc
  have hspecial : ∀ d : Char, isWordChar d = false → c ≠ d := by
    rintro d hd rfl
    rw [hword] at hd
    cases hd
  rw [escapeChar, if_neg (hspecial '&' rfl), if_neg (hspecial '<' rfl), if_neg (hspecial '>' rfl),
    if_neg (hspecial '"' rfl), if_neg (hspecial '\'' rfl)]
  exact Nat.le_refl 1

/-! ## Attributes -/

theorem length_stripQuotes_le (value : CString) : (stripQuotes value).length ≤ value.length := by
  unfold stripQuotes
  split
  · exact Nat.zero_le _
  split
  · rw [List.length_drop, List.length_dropLast]
    omega
  · exact Nat.le_refl _

/-- An attribute is written with four characters besides its name and its value, and was read with one. -/
theorem length_renderAttribute_le {pair : CString} {attr : Attribute}
    (h : parseAttributePair pair = some attr) :
    (renderAttribute attr).length ≤ 4 * (pair.length + 1) := by
  unfold parseAttributePair at h
  dsimp only at h
  split at h
  · cases h
  split at h
  · rename_i key value hsplit
    split at h
    · cases h
    split at h
    · cases h
    cases h
    have hpair : key.length + 1 + value.length ≤ pair.length := by
      have hlen := (gStrstrip_sublist pair).length_le
      rcases gStrsplit2_cases (gStrstrip pair) '=' with ⟨-, hone⟩ | ⟨k, v, heq, -, htwo⟩
      · rw [hone] at hsplit
        cases hsplit
      · rw [htwo] at hsplit
        cases hsplit
        rw [heq, List.length_append, List.length_cons] at hlen
        omega
    have hname := (gStrstrip_sublist key).length_le
    have hvalue := (gStrstrip_sublist value).length_le
    have hquotes := length_stripQuotes_le (gStrstrip value)
    have hmarks : "=\"".toList.length = 2 ∧ "\"".toList.length = 1 := ⟨rfl, rfl⟩
    have hstring : AttributeType.attrString ≠ .attrBoolean := by decide
    rw [renderAttribute, if_pos hstring, List.length_append, List.length_cons,
      List.length_append, List.length_append, hmarks.1, hmarks.2]
    dsimp only
    omega
  · cases h

theorem length_renderAttributes_le (value : CString) :
    (renderAttributes (parseAttributes value)).length ≤ 4 * (value.length + 1) := by
  rw [renderAttributes, length_flatMap_eq, parseAttributes]
  by_cases hnil : value = []
  · rw [hnil]
    exact Nat.zero_le _
  · rw [gStrsplit_of_ne_nil hnil, ← total_length_splitOn value ',', ← total_mul]
    exact total_filterMap_le fun pair _ attr hattr => length_renderAttribute_le hattr

/-! ## Nodes -/

/-- What a TAG node appends, its children apart, when it is not void. -/
def tagSize (node : ASTNode) : Nat :=
  2 * (node.tag.getD "div".toList).length + 5 + (renderId node.id).length +
    (renderClasses node.classes).length + (renderAttributes (node.attributes.getD [])).length +
    (escapeHtml (node.textContent.getD [])).length

/-- What a node appends to the minified output at the most, its children apart. -/
def nodeSize (node : ASTNode) : Nat :=
  match node.nodeType with
  | .tokenTag => tagSize node
  | .tokenDoctype => 11 + (node.textContent.getD "html".toList).length
  | .tokenText | .tokenPipe | .tokenDot => (escapeHtml (node.textContent.getD [])).length
  | .tokenInterpolation => 5 + (node.textContent.getD []).length
  | _ => 0

section Options

variable (useTabs : Bool) (tabSize : Nat)

theorem length_renderNode_le (node : ASTNode) {hasChildren : Bool} {children : CString}
    (h : hasChildren = false → children = []) :
    (renderNode useTabs tabSize true node hasChildren children).length ≤
      nodeSize node + children.length := by
  cases hroot : isRoot node with
  | true =>
    rw [renderNode, if_pos hroot]
    exact Nat.le_add_left _ _
  | false =>
    have htext : ((node.textContent.map escapeHtml).getD []).length =
        (escapeHtml (node.textContent.getD [])).length := by
      cases node.textContent <;> rfl
    by_cases htype : node.nodeType = .tokenTag
    · have hopening : (renderOpening node).length = 1 + (node.tag.getD "div".toList).length +
          (renderId node.id).length + (renderClasses node.classes).length +
          (renderAttributes (node.attributes.getD [])).length := by
        simp only [renderOpening, List.length_append, List.length_cons]
        omega
      have hmarks : " />".toList.length = 3 ∧ "</".toList.length = 2 := ⟨rfl, rfl⟩
      rw [renderNode_tag useTabs tabSize htype hroot h, nodeSize, htype]
      dsimp only [tagSize]
      split
      · rw [List.length_append, hopening, hmarks.1]
        omega
      · simp only [List.length_append, List.length_singleton, hopening, htext, hmarks.2]
        omega
    · have hnil : ∀ s, unlessMinified true s = [] := fun _ => rfl
      rw [renderNode, if_neg (by simp [hroot]), nodeSize]
      simp only [hnil, List.append_nil, List.nil_append]
      split
      · have hmark : "<!DOCTYPE ".toList.length = 10 := rfl
        rename_i hdoctype
        simp only [hdoctype, List.length_append, List.length_singleton, hmark]
        omega
      · rename_i htyped
        simp only [htyped, htext]
        omega
      · rename_i htyped
        simp only [htyped, htext]
        omega
      · rename_i htyped
        simp only [htyped, htext]
        omega
      · have hmarks : "#\x7b ".toList.length = 3 ∧ " \x7d".toList.length = 2 := ⟨rfl, rfl⟩
        rename_i htyped
        simp only [htyped]
        cases node.textContent with
        | none => exact Nat.zero_le _
        | some text =>
          simp only [Option.map_some, Option.getD_some, List.length_append, hmarks.1, hmarks.2]
          omega
      · exact Nat.zero_le _
      · exact Nat.zero_le _
      · exact Nat.zero_le _
      · exact Nat.zero_le _
      · exact Nat.zero_le _
      · exact Nat.zero_le _
      · exact Nat.zero_le _
      · exact absurd ‹_› htype
      · exact Nat.zero_le _

theorem length_renderNodes_le (f : Forest ASTNode) :
    (renderNodes useTabs tabSize true f).length ≤ total nodeSize f.labels := by
  induction f with
  | nil => exact Nat.zero_le _
  | node a kids next ihk ihn =>
    have hnode := @length_renderNode_le useTabs tabSize a (decide (kids ≠ .nil))
      (renderNodes useTabs tabSize true kids) (by
        intro hkids
        have hnil : kids = .nil := by simpa using hkids
        rw [hnil]
        rfl)
    rw [renderNodes, List.length_append, Forest.labels_node, total_cons, total_append]
    omega

end Options

/-! ## Tokens -/

theorem length_renderClasses_append (classes : List CString) (name : CString) :
    (renderClasses (classes ++ [name])).length ≤
      (renderClasses classes).length + (9 + (escapeHtml name).length) := by
  have hmarks : " class=\"".toList.length = 8 ∧ "\"".toList.length = 1 := ⟨rfl, rfl⟩
  have hlength : ∀ names : List CString, names ≠ [] → (renderClasses names).length =
      8 + total (fun piece => piece.length + 1) (names.map escapeHtml) := by
    intro names hne
    have hlen := length_intercalate ' ' (List.map_eq_nil_iff.not.mpr hne : names.map escapeHtml ≠ [])
    rw [renderClasses, if_neg hne, List.length_append, List.length_append, hmarks.1, hmarks.2]
    omega
  rw [hlength _ (by simp), List.map_append, total_append, List.map_singleton, total_cons, total_nil]
  by_cases hnil : classes = []
  · rw [hnil, List.map_nil, total_nil]
    omega
  · rw [hlength classes hnil]
    omega

/-- What a token adds to the TAG node that takes it. -/
theorem tagSize_absorbToken_le {indentLevel lineNumber : Nat} {token : Token}
    (h : LineToken indentLevel lineNumber token) (node : ASTNode) :
    tagSize (absorbToken node token) ≤ tagSize node + 7 * token.extent := by
  obtain ⟨value, hvalue, hok⟩ := h.value
  have hextent : token.extent = token.type.markLength + value.length := by
    rw [Token.extent, hvalue, Option.getD_some]
  have hstrip := length_escapeHtml_sublist (gStrstrip_sublist value)
  have hescape := length_escapeHtml_le value
  have htext : (escapeHtml (appendText node.textContent value)).length ≤
      (escapeHtml (node.textContent.getD [])).length + 1 + 6 * value.length := by
    cases node.textContent with
    | none =>
      rw [appendText]
      omega
    | some text =>
      have hjoined := length_escapeHtml_sublist (gStrstrip_sublist (text ++ ' ' :: value))
      have hspace : (escapeHtml (' ' :: value)).length = 1 + (escapeHtml value).length := by
        rw [length_escapeHtml, total_cons, ← length_escapeHtml]
        rfl
      rw [escapeHtml_append, List.length_append, hspace] at hjoined
      rw [appendText, Option.getD_some]
      omega
  rw [hextent, absorbToken]
  split
  · rename_i taken hstep
    unfold absorbStep at hstep
    rw [hvalue] at hstep
    split at hstep
    · cases hstep
    split at hstep
    · rename_i htype
      rw [htype] at hok
      cases hstep
      have hword := length_escapeHtml_word hok
      have hid : " id=\"".toList.length = 5 ∧ "\"".toList.length = 1 := ⟨rfl, rfl⟩
      simp only [tagSize, renderId_some, List.length_append, hid.1, hid.2, Option.getD_some,
        htype, TokenType.markLength]
      omega
    · rename_i htype
      rw [htype] at hok
      cases hstep
      have hword := length_escapeHtml_word hok.2
      have hclasses := length_renderClasses_append node.classes value
      have hpositive := List.length_pos_iff.mpr hok.1
      rw [Option.getD_some, parseClasses, if_neg hok.1]
      simp only [tagSize, htype, TokenType.markLength]
      omega
    · rename_i htype
      cases hstep
      have hattributes := length_renderAttributes_le value
      have happend : (renderAttributes (node.attributes.getD [] ++ parseAttributes value)).length =
          (renderAttributes (node.attributes.getD [])).length +
            (renderAttributes (parseAttributes value)).length := by
        rw [renderAttributes, List.flatMap_append, List.length_append]
        rfl
      simp only [tagSize, htype, TokenType.markLength, Option.getD_some, happend]
      omega
    · rename_i htype
      rw [htype] at hok
      cases hstep
      have hpositive := List.length_pos_iff.mpr hok
      simp only [tagSize, htype, TokenType.markLength, Option.getD_some]
      omega
    · rename_i htype
      cases hstep
      simp only [tagSize, htype, TokenType.markLength, Option.getD_some]
      omega
    · cases hstep
  · exact Nat.le_add_right _ _

theorem tagSize_foldl_le {tokens : List Token} (h : ∀ t ∈ tokens, FromLine t) (node : ASTNode) :
    tagSize (tokens.foldl absorbToken node) ≤ tagSize node + 7 * total Token.extent tokens := by
  induction tokens generalizing node with
  | nil => exact Nat.le_refl _
  | cons token tokens ih =>
    obtain ⟨_, _, htoken⟩ := h token List.mem_cons_self
    have hnode := tagSize_absorbToken_le htoken node
    have hrest := ih (fun t ht => h t (List.mem_cons_of_mem _ ht)) (absorbToken node token)
    rw [List.foldl_cons, total_cons]
    omega

/-- What a token takes of its line pays for the node it starts, before this takes further tokens. -/
theorem nodeSize_startNode_le {token : Token} (h : FromLine token) (hs : token.type.startsNode = true)
    (ht : token.type ≠ .tokenTag) : nodeSize (startNode token) ≤ 7 * token.extent := by
  obtain ⟨_, _, htoken⟩ := h
  obtain ⟨value, hvalue, -⟩ := htoken.value
  have hextent : token.extent = token.type.markLength + value.length := by
    rw [Token.extent, hvalue, Option.getD_some]
  have hstrip := length_escapeHtml_sublist (gStrstrip_sublist value)
  have hescape := length_escapeHtml_le value
  have hlength := (gStrstrip_sublist value).length_le
  have he : token.type ≠ .tokenEof := ne_eof_of_startsNode hs
  rw [hextent, startNode, parseNodeFrom, if_neg he]
  cases htype : token.type <;>
    simp [htype, hvalue, TokenType.startsNode, TokenType.markLength, nodeSize, astNodeCreate]
      at hs ht ⊢ <;> omega

theorem tagSize_startNode_le {token : Token} (h : FromLine token) (ht : token.type = .tokenTag) :
    (startNode token).nodeType = .tokenTag ∧ tagSize (startNode token) ≤ 7 * token.extent := by
  obtain ⟨_, _, htoken⟩ := h
  obtain ⟨value, hvalue, hok⟩ := htoken.value
  rw [ht] at hok
  obtain ⟨c, cs, rfl, -⟩ := hok
  have he : token.type ≠ .tokenEof := by simp [ht]
  rw [Token.extent, startNode, parseNodeFrom, if_neg he]
  simp [ht, hvalue, absorb, astNodeCreate, tagSize, TokenType.markLength, renderId, renderClasses,
    renderAttributes, escapeHtml]
  omega

/-- The tokens that a node takes pay for it. -/
theorem nodeSize_le {token : Token} {more : List Token} (h : ∀ t ∈ token :: group token more, FromLine t)
    (hs : token.type.startsNode = true) :
    nodeSize ((group token more).foldl absorbToken (startNode token)) ≤
      7 * token.extent + total (fun t => 7 * t.extent) (group token more) := by
  by_cases ht : token.type = .tokenTag
  · obtain ⟨htype, hstart⟩ := tagSize_startNode_le (h token List.mem_cons_self) ht
    have hgroup : ∀ t ∈ group token more, FromLine t := fun t hmem => h t (List.mem_cons_of_mem _ hmem)
    have hfold := tagSize_foldl_le hgroup (startNode token)
    rw [nodeSize, (foldl_absorbToken_sameHead _ _).nodeType, htype, total_mul]
    dsimp only
    omega
  · rw [group, if_neg ht]
    exact nodeSize_startNode_le (h token List.mem_cons_self) hs ht

/-- The weights of the nodes are paid by the weights of the tokens, if each node is by the tokens it is made
of. -/
theorem total_parseEntries_le {g : ASTNode → Nat} {w : Token → Nat} {ok : Token → Prop}
    (hnode : ∀ token more, (∀ t ∈ token :: more, ok t) → token.type.startsNode = true →
      g ((group token more).foldl absorbToken (startNode token)) ≤ w token + total w (group token more))
    {rest : List Token} (hok : ∀ t ∈ rest, ok t) {entries : List (ASTNode × Bool)}
    (h : parseEntries rest = some entries) :
    total g (entries.map Prod.fst) ≤ total w rest := by
  induction hn : rest.length using Nat.strongRecOn generalizing rest entries with
  | ind n ih =>
    subst hn
    rcases parseNodeFrom_cases rest with ⟨hnull, heof⟩ | ⟨token, more, rfl, -, -, hnull⟩ |
        ⟨hhangs, -⟩ | ⟨token, more, rfl, hs, hnode'⟩
    · cases rest with
      | nil =>
        rw [parseEntries_end hnull rfl] at h
        cases h
      | cons token more =>
        rw [parseEntries_eof hnull rfl (heof token rfl)] at h
        cases h
        exact Nat.zero_le _
    · cases more with
      | nil =>
        rw [parseEntries_end hnull rfl] at h
        cases h
      | cons next more =>
        by_cases hnext : next.type = .tokenEof
        · rw [parseEntries_eof hnull rfl hnext] at h
          cases h
          exact Nat.zero_le _
        · rw [parseEntries_skip hnull rfl hnext] at h
          have hmore : ∀ t ∈ more, ok t := fun t ht =>
            hok t (List.mem_cons_of_mem _ (List.mem_cons_of_mem _ ht))
          have := ih more.length (by simp only [List.length_cons]; omega) hmore h rfl
          rw [total_cons, total_cons]
          omega
    · rw [parseEntries_hangs hhangs] at h
      cases h
    · rw [parseEntries_node hnode', Nat.add_comm, List.drop_succ_cons] at h
      obtain ⟨tail, htail, rfl⟩ := Option.map_eq_some_iff.mp h
      have hlen := length_group_le token more
      have hmore : ∀ t ∈ more.drop (group token more).length, ok t := fun t ht =>
        hok t (List.mem_cons_of_mem _ (List.mem_of_mem_drop ht))
      have hrest := ih (more.drop (group token more).length).length
        (by simp only [List.length_drop, List.length_cons]; omega) hmore htail rfl
      have hfirst := hnode token more hok hs
      have hsplit : total w more = total w (group token more) +
          total w (more.drop (group token more).length) := by
        rw [← total_append, group_append_drop]
      rw [List.map_cons, total_cons, total_cons]
      dsimp only
      omega

/-- **Linear output.** The minified output of a file is at most seven times as long as the file. -/
theorem length_minified_le (content : CString) (useTabs : Bool) (tabSize : Nat) :
    ∃ html, processPugFile useTabs tabSize true content = some html ∧
      html.length ≤ 7 * content.length := by
  obtain ⟨out, hout⟩ := exists_parsePug content
  obtain ⟨entries, kids, hentries, hroot, hlabels⟩ := parsePug_labels hout
  refine ⟨_, by rw [processPugFile, hout, Option.map_some], ?_⟩
  rw [hroot, renderAst_root]
  have hpaid : total nodeSize kids.labels ≤ total (fun t => 7 * t.extent) (tokenizeFile content) := by
    rw [hlabels]
    refine total_parseEntries_le (fun token more hok hs => nodeSize_le ?_ hs) (fromLine_of_mem content)
      hentries
    intro t ht
    rcases List.mem_cons.mp ht with rfl | ht
    · exact hok t List.mem_cons_self (ne_eof_of_startsNode hs)
    · have hmore : t ∈ more := by
        rw [← group_append_drop token more]
        exact List.mem_append_left _ ht
      exact hok t (List.mem_cons_of_mem _ hmore) (mem_group_ne_eof t ht)
  have hrender := length_renderNodes_le useTabs tabSize kids
  have hextent := total_extent_tokenizeFile content
  rw [total_mul] at hpaid
  omega

example : (processPugFile false 2 true "p".toList).map List.length = some 7 := by decide +kernel

end CPug
