import CPug.Consumption
import CPug.Nodes

/-!
# Classes, ids and attributes

Only the loop after a TAG puts an ID, CLASS or ATTRIBUTE token into a node. So no shorthand is lost
exactly when every one is attached to a TAG, and no TAG has two different ids, of which the later
one replaces the earlier (`shorthandsApplied_iff`). A shorthand that opens its line, or follows a
node that is no TAG, starts no node of its own.
-/

namespace CPug

open Outline

/-- The tokens of ids, classes and attributes. -/
def TokenType.isShorthand : TokenType → Bool
  | .tokenId | .tokenClass | .tokenAttribute => true
  | _ => false

/-- The node has what the shorthand says. -/
def CarriedBy (token : Token) (node : ASTNode) : Prop :=
  match token.type with
  | .tokenClass => token.value.getD [] ∈ node.classes
  | .tokenId => node.id = some (token.value.getD [])
  | .tokenAttribute => parseAttributes (token.value.getD []) <:+: node.attributes.getD []
  | _ => True

/-- Every shorthand of the file is taken by a node of the tree, and carried by it. -/
def ShorthandsApplied (content : CString) : Prop :=
  ∃ ctx, parsePug (tokenizeFile content) = some ctx ∧
    ∀ i token, (tokenizeFile content)[i]? = some token → token.type.isShorthand = true →
      ∃ s ∈ parsePugStates (parsePugStart (tokenizeFile content)), ∃ node advanced,
        parseNode s = .node node advanced ∧ s.currentToken ≤ i ∧ i < s.currentToken + advanced ∧
          node ∈ (rootNode ctx).labels ∧ CarriedBy token node

/-- The token of number `i` is in the run of tokens that the loop after the TAG of number `j`
takes. -/
def AttachedTo (tokens : List Token) (j i : Nat) : Prop :=
  ∃ tag, j < i ∧ tokens[j]? = some tag ∧ tag.type = .tokenTag ∧
    ∀ k t, j < k → k ≤ i → tokens[k]? = some t → absorbs tag.depth t = true

/-- No TAG has two different ids. -/
def IdsAgree (tokens : List Token) : Prop :=
  ∀ j i k a b, AttachedTo tokens j i → AttachedTo tokens j k → tokens[i]? = some a →
    tokens[k]? = some b → a.type = .tokenId → b.type = .tokenId → a.value = b.value

/-! ## The nodes of the tree -/

/-- Every node that `parse_node` returns in a run is a node of the tree. -/
theorem mem_rootNode_of_state {tokens : List Token} {ctx : ParserContext}
    (h : parsePug tokens = some ctx) :
    ∀ s ∈ parsePugStates (parsePugStart tokens), ∀ node advanced,
      parseNode s = .node node advanced → node ∈ (rootNode ctx).labels := by
  intro s hs node advanced hstate
  rw [labels_rootNode h]
  exact List.mem_cons_of_mem _ (List.mem_filterMap.mpr ⟨s, hs, parsedNode_of_node hstate⟩)

/-! ## What the loop after a TAG leaves in the node -/

section Absorb

variable {node : ASTNode} {token : Token}

/-- What a taken token does to the parts of the node that shorthands are about. -/
theorem absorbToken_taken (h : absorbs node.depth token = true) :
    (absorbToken node token).classes =
        (if token.type = .tokenClass then (parseClasses node (token.value.getD [])).classes
          else node.classes) ∧
      (absorbToken node token).id =
        (if token.type = .tokenId then some (gStrstrip (token.value.getD [])) else node.id) ∧
      (absorbToken node token).attributes.getD [] =
        (if token.type = .tokenAttribute ∧ token.value ≠ none then
          node.attributes.getD [] ++ parseAttributes (token.value.getD [])
          else node.attributes.getD []) := by
  obtain ⟨hd, ht⟩ : token.depth = node.depth ∧ token.type.isAbsorbed = true := by
    simpa [absorbs] using h
  unfold absorbToken absorbStep
  rw [if_neg (by simpa using hd)]
  cases hty : token.type <;> simp [hty, TokenType.isAbsorbed] at ht ⊢
  · unfold parseClasses
    split <;> simp
  · cases token.value <;> simp

theorem CarriedBy.absorbToken {carried : Token} (hc : CarriedBy carried node)
    (hid : carried.type = .tokenId → token.type ≠ .tokenId)
    (h : absorbs node.depth token = true) : CarriedBy carried (absorbToken node token) := by
  obtain ⟨hclasses, hids, hattrs⟩ := absorbToken_taken h
  unfold CarriedBy at hc ⊢
  split
  · rename_i htype
    rw [htype] at hc
    have hc : carried.value.getD [] ∈ node.classes := hc
    rw [hclasses]
    split
    · unfold parseClasses
      split
      · exact hc
      · exact List.mem_append_left _ hc
    · exact hc
  · rename_i htype
    rw [htype] at hc
    rw [hids, if_neg (hid htype)]
    exact hc
  · rename_i htype
    rw [htype] at hc
    rw [hattrs]
    split
    · exact hc.trans (List.prefix_append _ _).isInfix
    · exact hc
  · trivial

/-- A taken shorthand is carried by the node. -/
theorem carriedBy_absorbToken {indentLevel lineNumber : Nat}
    (hline : LineToken indentLevel lineNumber token) (h : absorbs node.depth token = true) :
    CarriedBy token (absorbToken node token) := by
  obtain ⟨hclasses, hids, hattrs⟩ := absorbToken_taken h
  obtain ⟨value, hvalue, hok⟩ := hline.value
  unfold CarriedBy
  split
  · rename_i htype
    rw [htype] at hok
    rw [hclasses, if_pos htype, hvalue, Option.getD_some, parseClasses, if_neg hok.1]
    exact List.mem_append_right _ List.mem_cons_self
  · rename_i htype
    rw [htype] at hok
    have hstripped : Stripped value := stripped_of_forall fun c hc => by
      have := hok c hc
      by_contra hspace
      simp only [Bool.not_eq_false] at hspace
      simp only [gAsciiIsspace, Bool.or_eq_true, beq_iff_eq] at hspace
      rcases hspace with (((rfl | rfl) | rfl) | rfl) | rfl <;> simp [isWordChar, isalnum] at this
    rw [hids, if_pos htype, hvalue, Option.getD_some, gStrstrip_eq_self hstripped]
  · rename_i htype
    rw [hattrs, if_pos ⟨htype, by simp [hvalue]⟩]
    exact (List.suffix_append _ _).isInfix
  · trivial

/-- Along a run of taken tokens a shorthand stays carried; an id by the last ID token. -/
theorem CarriedBy.foldl {carried : Token} (hc : CarriedBy carried node) {tokens : List Token}
    (hids : ∀ t ∈ tokens, carried.type = .tokenId → t.type = .tokenId → t.value = carried.value)
    (hlines : ∀ t ∈ tokens, ∃ indentLevel lineNumber, LineToken indentLevel lineNumber t)
    (h : ∀ t ∈ tokens, absorbs node.depth t = true) :
    CarriedBy carried (tokens.foldl CPug.absorbToken node) := by
  induction tokens generalizing node with
  | nil => exact hc
  | cons t tokens ih =>
    have ht := h t List.mem_cons_self
    have hdepth : (CPug.absorbToken node t).depth = node.depth := (absorbToken_sameHead node t).depth
    apply ih
    · by_cases hboth : carried.type = .tokenId ∧ t.type = .tokenId
      · -- The new id is the same.
        obtain ⟨_, _, hline⟩ := hlines t List.mem_cons_self
        have hnew := carriedBy_absorbToken hline ht
        unfold CarriedBy at hnew ⊢
        rw [hboth.2] at hnew
        rw [hboth.1, ← hids t List.mem_cons_self hboth.1 hboth.2]
        exact hnew
      · exact hc.absorbToken (fun hcid htid => hboth ⟨hcid, htid⟩) ht
    · exact fun t' ht' => hids t' (List.mem_cons_of_mem _ ht')
    · exact fun t' ht' => hlines t' (List.mem_cons_of_mem _ ht')
    · intro t' ht'
      rw [hdepth]
      exact h t' (List.mem_cons_of_mem _ ht')

end Absorb

/-! ## The tokens a node takes, by their numbers -/

theorem AttachedTo.attached {tokens : List Token} {j i : Nat} (h : AttachedTo tokens j i) :
    Attached tokens i := ⟨j, h⟩

/-- No TAG is between a TAG and what is attached to it. -/
theorem AttachedTo.ne_tag {tokens : List Token} {j i k : Nat} {token : Token}
    (h : AttachedTo tokens j i) (hk : j < k) (hki : k ≤ i) (hget : tokens[k]? = some token) :
    token.type ≠ .tokenTag := by
  obtain ⟨tag, -, -, -, hall⟩ := h
  have htaken := hall k token hk hki hget
  intro htype
  simp [absorbs, htype, TokenType.isAbsorbed] at htaken

/-- A token is attached to at most one TAG. -/
theorem AttachedTo.unique {tokens : List Token} {j k i : Nat} (hj : AttachedTo tokens j i)
    (hk : AttachedTo tokens k i) : j = k := by
  have hle : ∀ {j k : Nat}, AttachedTo tokens j i → AttachedTo tokens k i → k ≤ j := by
    rintro j k hj ⟨tag, hki, hget, htag, -⟩
    by_contra hlt
    exact hj.ne_tag (by omega) hki.le hget htag
  have h1 := hle hj hk
  have h2 := hle hk hj
  omega

section Group

variable {tokens more : List Token} {token : Token} {n : Nat}

theorem getElem?_group (hl : tokens.drop n = token :: more) {k : Nat}
    (hk : k < (group token more).length) :
    tokens[n + 1 + k]? = (group token more)[k]? := by
  have hdrop : tokens.drop (n + 1) = more := by
    rw [← List.drop_drop, hl]
    rfl
  rw [← List.getElem?_drop, hdrop]
  conv_rhs => rw [← take_length_group token more]
  rw [List.getElem?_take_of_lt hk]

theorem getElem?_head (hl : tokens.drop n = token :: more) : tokens[n]? = some token := by
  rw [← List.head?_drop, hl]
  rfl

/-- What a node takes besides its first token is attached to that token, a TAG. -/
theorem attachedTo_of_group (hl : tokens.drop n = token :: more) {i : Nat} (hn : n < i)
    (hi : i < n + (1 + (group token more).length)) : AttachedTo tokens n i := by
  have htag : token.type = .tokenTag := by
    by_contra hne
    rw [group, if_neg hne] at hi
    simp only [List.length_nil] at hi
    omega
  refine ⟨token, hn, getElem?_head hl, htag, fun k t hk hki ht => ?_⟩
  obtain ⟨d, rfl⟩ : ∃ d, k = n + 1 + d := ⟨k - (n + 1), by omega⟩
  rw [getElem?_group hl (by omega)] at ht
  exact mem_group_isAbsorbed t (List.mem_of_getElem? ht)

/-- What is attached to a TAG is taken by its node. -/
theorem lt_of_attachedTo (hl : tokens.drop n = token :: more) {i : Nat}
    (hi : i < tokens.length) (h : AttachedTo tokens n i) :
    i < n + (1 + (group token more).length) := by
  obtain ⟨tag, hni, hget, htag, hall⟩ := h
  cases hget.symm.trans (getElem?_head hl)
  by_contra hge
  -- The token behind the group stops the loop.
  have hstops : StopsAt (absorbs token.depth) (more.drop (group token more).length) := by
    rw [group, if_pos htag, drop_length_takeWhile]
    exact stopsAt_dropWhile more
  have hdrop : tokens.drop (n + 1 + (group token more).length) =
      more.drop (group token more).length := by
    rw [Nat.add_assoc, ← List.drop_drop, hl, Nat.add_comm 1, List.drop_succ_cons]
  obtain ⟨t, ht⟩ : ∃ t, tokens[n + 1 + (group token more).length]? = some t :=
    ⟨_, List.getElem?_eq_getElem (by omega)⟩
  have htaken := hall _ t (by omega) (by omega) ht
  rw [hstops t (by rw [← hdrop, List.head?_drop, ht]; exact rfl)] at htaken
  cases htaken

end Group

/-! ## Lost and applied shorthands -/

theorem TokenType.startsNode_of_isShorthand {type : TokenType} (h : type.isShorthand = true) :
    type.startsNode = false := by
  cases type <;> simp [TokenType.isShorthand, TokenType.startsNode] at h ⊢

theorem LineToken.isShorthand {indentLevel lineNumber : Nat} {token : Token}
    (h : LineToken indentLevel lineNumber token) (hs : token.type.startsNode = false) :
    token.type.isShorthand = true := by
  obtain ⟨value, -, hok⟩ := h.value
  cases htype : token.type <;>
    simp [htype, TokenType.isShorthand, TokenType.startsNode, ValueOk] at hs hok ⊢

section File

variable {pre : List Token} {eof : Token} {s : ParserContext} {node : ASTNode} {advanced i : Nat}

/-- A round that takes a token stands on it, a token that can start a node, or on the TAG that it
is attached to. -/
theorem attachedTo_of_taken (hfile : TokenFile pre eof) (hrun : Running pre eof s)
    (hnode : parseNode s = .node node advanced) {token : Token} (hget : pre[i]? = some token)
    (hle : s.currentToken ≤ i) (hlt : i < s.currentToken + advanced) :
    (i = s.currentToken ∧ token.type.startsNode = true) ∨ AttachedTo pre s.currentToken i := by
  rcases hrun.cases hfile with ⟨-, hn, -⟩ | ⟨first, more, hl, hfirst, _, -, hn, -⟩ |
      ⟨_, -, -, hn, -⟩ | ⟨_, _, _, -, -, hn, -⟩
  · cases hn.symm.trans hnode
  · cases hn.symm.trans hnode
    rcases Nat.eq_or_lt_of_le hle with rfl | hlt'
    · cases hget.symm.trans (getElem?_head hl)
      exact Or.inl ⟨rfl, hfirst⟩
    · exact Or.inr (attachedTo_of_group hl hlt' hlt)
  · cases hn.symm.trans hnode
  · cases hn.symm.trans hnode

/-- A round that takes a shorthand stands on the TAG that it is attached to. -/
theorem attachedTo_of_shorthand (hfile : TokenFile pre eof) (hrun : Running pre eof s)
    (hnode : parseNode s = .node node advanced) {token : Token} (hget : pre[i]? = some token)
    (hs : token.type.isShorthand = true) (hle : s.currentToken ≤ i)
    (hlt : i < s.currentToken + advanced) : AttachedTo pre s.currentToken i := by
  rcases attachedTo_of_taken hfile hrun hnode hget hle hlt with ⟨-, hstarts⟩ | hattached
  · rw [TokenType.startsNode_of_isShorthand hs] at hstarts
    cases hstarts
  · exact hattached

/-- The node of a TAG carries what it takes, when all its ids agree. -/
theorem carriedBy_group {first token : Token} {more : List Token} {k : Nat}
    (hfirst : first.type.startsNode = true) (hkey : (group first more)[k]? = some token)
    (hids : ∀ (d : Nat) (t : Token), (group first more)[d]? = some t → t.type = .tokenId →
      token.type = .tokenId → t.value = token.value)
    (hlines : ∀ t ∈ group first more, ∃ indentLevel lineNumber, LineToken indentLevel lineNumber t) :
    CarriedBy token ((group first more).foldl absorbToken (startNode first)) := by
  obtain ⟨_, hvalue⟩ := List.getElem?_eq_some_iff.mp hkey
  -- The group up to the token, the token, and the rest of the group.
  have hsplit : group first more =
      (group first more).take k ++ token :: (group first more).drop (k + 1) := by
    rw [← hvalue, List.getElem_cons_drop, List.take_append_drop]
  have hmem : token ∈ group first more := List.mem_of_getElem? hkey
  have hbefore : (((group first more).take k).foldl absorbToken (startNode first)).depth =
      first.depth := by
    rw [(foldl_absorbToken_sameHead _ _).depth, (startNode_head hfirst).1]
  have htaken : absorbs (((group first more).take k).foldl absorbToken (startNode first)).depth
      token = true := by
    rw [hbefore]
    exact mem_group_isAbsorbed token hmem
  obtain ⟨_, _, hline⟩ := hlines token hmem
  rw [hsplit, List.foldl_append, List.foldl_cons]
  apply (carriedBy_absorbToken hline htaken).foldl
  · intro t ht hid htid
    obtain ⟨d, hd⟩ := List.mem_iff_getElem?.mp (List.mem_of_mem_drop ht)
    exact hids d t hd htid hid
  · intro t ht
    exact hlines t (List.mem_of_mem_drop ht)
  · intro t ht
    rw [(absorbToken_sameHead _ token).depth, hbefore]
    exact mem_group_isAbsorbed t (List.mem_of_mem_drop ht)

/-- A round that stands on a TAG takes the shorthands attached to it, and its node carries them
unless a later id replaces one. -/
theorem taken_of_attachedTo (hfile : TokenFile pre eof) (hrun : Running pre eof s)
    (hlines : ∀ t ∈ pre, ∃ indentLevel lineNumber, LineToken indentLevel lineNumber t)
    (hids : IdsAgree pre) (h : AttachedTo pre s.currentToken i) {token : Token}
    (hget : pre[i]? = some token) :
    ∃ node advanced, parseNode s = .node node advanced ∧ i < s.currentToken + advanced ∧
      CarriedBy token node := by
  have hlt := (List.getElem?_eq_some_iff.mp hget).1
  have hthis := h
  obtain ⟨tag, hni, htag, htype, -⟩ := hthis
  have hnot : tag.type.startsNode = true := by simp [htype, TokenType.startsNode]
  have hreject : ∀ {first more}, pre.drop s.currentToken = first :: more →
      first.type.startsNode ≠ false := by
    intro first more hl hs
    cases htag.symm.trans (getElem?_head hl)
    rw [hnot] at hs
    cases hs
  rcases hrun.cases hfile with ⟨hend, -⟩ | ⟨first, more, hl, hfirst, _, rfl, hn, -⟩ |
      ⟨_, hl, hs, -⟩ | ⟨_, _, _, hl, hs, -⟩
  · omega
  · have hbound := lt_of_attachedTo hl hlt h
    refine ⟨_, _, hn, hbound, ?_⟩
    obtain ⟨k, rfl⟩ : ∃ k, i = s.currentToken + 1 + k := ⟨i - (s.currentToken + 1), by omega⟩
    have hk : k < (group first more).length := by omega
    have hkey := hget
    rw [getElem?_group hl hk] at hkey
    have hingroup : ∀ t ∈ group first more, t ∈ pre := by
      intro t ht
      have hmore : t ∈ more := by
        rw [← take_length_group first more] at ht
        exact List.mem_of_mem_take ht
      have hdrop : t ∈ pre.drop s.currentToken := by
        rw [hl]
        exact List.mem_cons_of_mem _ hmore
      exact List.mem_of_mem_drop hdrop
    apply carriedBy_group hfirst hkey _ fun t ht => hlines t (hingroup t ht)
    intro d t hdt htid hid
    obtain ⟨hd, -⟩ := List.getElem?_eq_some_iff.mp hdt
    have hgett : pre[s.currentToken + 1 + d]? = some t := by
      rw [getElem?_group hl hd, hdt]
    exact hids _ _ _ t token (attachedTo_of_group hl (by omega) (by omega)) h hgett hget htid hid
  · exact absurd hs (hreject hl)
  · exact absurd hs (hreject hl)

end File

section Content

variable {content : CString}

theorem fileTokens_lineToken (content : CString) : ∀ t ∈ fileTokens content,
    ∃ indentLevel lineNumber, LineToken indentLevel lineNumber t := fun _ ht => mem_fileTokens ht

/-- The round that takes a shorthand stands on its TAG and makes the node that carries it. -/
theorem ShorthandsApplied.exists_round (h : ShorthandsApplied content) {i : Nat} {token : Token}
    (hi : (fileTokens content)[i]? = some token) (hs : token.type.isShorthand = true) :
    ∃ s ∈ parsePugStates (parsePugStart (tokenizeFile content)), Consumes s i ∧
      AttachedTo (fileTokens content) s.currentToken i ∧
      ∀ node advanced, parseNode s = .node node advanced → CarriedBy token node := by
  have hfile := tokenFile_content content
  have hget : (tokenizeFile content)[i]? = some token := by
    rw [tokenizeFile_eq, List.getElem?_append_left (List.getElem?_eq_some_iff.mp hi).1, hi]
  obtain ⟨_, -, hall⟩ := h
  obtain ⟨s, hmem, node, advanced, hn, hle, hlt, -, hcarried⟩ := hall i token hget hs
  refine ⟨s, hmem, ⟨node, advanced, hn, hle, hlt⟩, ?_, fun node' advanced' hn' => ?_⟩
  · exact attachedTo_of_shorthand hfile (parsePugStates_headAt hfile s hmem).1 hn hi hs hle hlt
  · cases hn.symm.trans hn'
    exact hcarried

/-- Two ids attached to one TAG are taken by one round, whose node has one id. -/
theorem ShorthandsApplied.idsAgree (h : ShorthandsApplied content) :
    IdsAgree (fileTokens content) := by
  intro j i k a b hji hjk ha hb hida hidb
  obtain ⟨s, hmem, ⟨node, advanced, hn, hle, hlt⟩, hs, hcarried⟩ :=
    h.exists_round ha (by simp [hida, TokenType.isShorthand])
  obtain ⟨s', hmem', hcons', hs', hcarried'⟩ :=
    h.exists_round hb (by simp [hidb, TokenType.isShorthand])
  -- Both rounds stand on the TAG, and so are one.
  have hj : s.currentToken = j := hs.unique hji
  have hj' : s'.currentToken = j := hs'.unique hjk
  have htaken : ∀ r : ParserContext, r.currentToken = j → Consumes r i ∨ Consumes r k →
      Consumes r j := by
    rintro r rfl (⟨n, m, hr, hle, hlt⟩ | ⟨n, m, hr, hle, hlt⟩)
    · exact ⟨n, m, hr, le_refl _, by omega⟩
    · exact ⟨n, m, hr, le_refl _, by omega⟩
  have hsame : s = s' := consumes_unique s hmem s' hmem'
    (htaken s hj (Or.inl ⟨node, advanced, hn, hle, hlt⟩)) (htaken s' hj' (Or.inr hcons'))
  subst hsame
  have h1 := hcarried node advanced hn
  have h2 := hcarried' node advanced hn
  unfold CarriedBy at h1 h2
  rw [hida] at h1
  rw [hidb] at h2
  obtain ⟨_, _, hlinea⟩ := fileTokens_lineToken content a (List.mem_of_getElem? ha)
  obtain ⟨_, _, hlineb⟩ := fileTokens_lineToken content b (List.mem_of_getElem? hb)
  obtain ⟨x, hx, -⟩ := hlinea.value
  obtain ⟨y, hy, -⟩ := hlineb.value
  rw [hx, Option.getD_some] at h1
  rw [hy, Option.getD_some] at h2
  rw [hx, hy]
  exact h1.symm.trans h2

/-- The round that takes the TAG takes every shorthand attached to it. -/
theorem shorthandsApplied_of_attached
    (hattached : ∀ i token, (fileTokens content)[i]? = some token →
      token.type.isShorthand = true → Attached (fileTokens content) i)
    (hids : IdsAgree (fileTokens content)) : ShorthandsApplied content := by
  have hfile := tokenFile_content content
  have hnone : ∀ i, i < (fileTokens content).length →
      controlAt (fileTokens content) i ≠ .dropNext := by
    rw [noneDropped_iff]
    rintro i token hi hs -
    obtain ⟨_, _, hline⟩ := fileTokens_lineToken content token (List.mem_of_getElem? hi)
    exact hattached i token hi (hline.isShorthand hs)
  obtain ⟨ctx, hctx⟩ := exists_parsePug content
  refine ⟨ctx, hctx, fun i token hi hs => ?_⟩
  have hne : token.type ≠ .tokenEof := by
    intro he
    rw [he] at hs
    cases hs
  have hi' := getElem?_fileTokens hi hne
  obtain ⟨j, hj⟩ := hattached i token hi' hs
  have hthis : AttachedTo (fileTokens content) j i := hj
  obtain ⟨tag, hji, htag, htype, -⟩ := hthis
  have hstarts : tag.type.startsNode = true := by simp [htype, TokenType.startsNode]
  obtain ⟨s, hmem, node, advanced, hn, hle, hlt⟩ := exists_consumes hfile
    (running_start _ _) (headAt_zero _) j tag (Nat.zero_le j) htag hstarts hnone
  obtain ⟨hrun, -⟩ := parsePugStates_headAt hfile s hmem
  -- The TAG is not attached to anything, so the round stands on it.
  have hstands : j = s.currentToken := by
    rcases attachedTo_of_taken hfile hrun hn htag hle hlt with ⟨heq, -⟩ | hattached'
    · exact heq
    · have hlt' : s.currentToken < j := hattached'.choose_spec.1
      exact absurd htype (hattached'.ne_tag hlt' (le_refl j) htag)
  subst hstands
  obtain ⟨node', advanced', hn', hlt', hcarried⟩ :=
    taken_of_attachedTo hfile hrun (fileTokens_lineToken content) hids hj hi'
  exact ⟨s, hmem, node', advanced', hn', hji.le, hlt',
    mem_rootNode_of_state hctx s hmem node' advanced' hn', hcarried⟩

end Content

/-- **No shorthand is lost** exactly when every ID, CLASS or ATTRIBUTE token is attached to a TAG
and no TAG has two different ids. -/
theorem shorthandsApplied_iff (content : CString) :
    ShorthandsApplied content ↔
      (∀ i token, (fileTokens content)[i]? = some token → token.type.isShorthand = true →
        Attached (fileTokens content) i) ∧ IdsAgree (fileTokens content) := by
  constructor
  · intro h
    refine ⟨fun i token hi hs => ?_, h.idsAgree⟩
    obtain ⟨s, -, -, hattached, -⟩ := h.exists_round hi hs
    exact hattached.attached
  · rintro ⟨hattached, hids⟩
    exact shorthandsApplied_of_attached hattached hids

/-- The class of the line `.x` is lost. -/
theorem shorthandsApplied_fails : ¬ ∀ content, ShorthandsApplied content := by
  intro h
  obtain ⟨_, -, hall⟩ := h ".x".toList
  have htoken : (tokenizeFile ".x".toList)[0]? =
      some (createToken .tokenClass (some ['x']) 0 1 1) := by decide +kernel
  obtain ⟨s, hmem, _, _, hn, hle, hlt, -⟩ := hall 0 _ htoken rfl
  have hget := getElem?_fileTokens htoken (by simp [createToken])
  obtain ⟨hrun, -⟩ := parsePugStates_headAt (tokenFile_content _) s hmem
  obtain ⟨_, hlt', -⟩ := attachedTo_of_shorthand (tokenFile_content _) hrun hn hget rfl hle hlt
  omega

end CPug
