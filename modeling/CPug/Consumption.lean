import CPug.Nodes

/-!
# Which node takes which token

* `everyTokenConsumed_iff`: every token that can start a node is consumed by exactly one node of the
  returned tree, and parsing resumes right after a rejected token, exactly when every token that
  `parse_node` would reject is taken by a TAG or stands last (`Attached`). Otherwise the rejection
  skips a token: `parse_node` and `parse_pug` both advance.
* `nodesOnOneLine_iff`: every node is built from tokens of one line exactly when no line starts
  with a token that the loop of the TAG above it, at the same depth, takes.
-/

namespace CPug

/-- The node that is made in this round takes the token of number `i`. -/
def Consumes (ctx : ParserContext) (i : Nat) : Prop :=
  ∃ node advanced, parseNode ctx = .node node advanced ∧
    ctx.currentToken ≤ i ∧ i < ctx.currentToken + advanced

instance (ctx : ParserContext) (i : Nat) : Decidable (Consumes ctx i) :=
  match h : parseNode ctx with
  | .node node advanced =>
    decidable_of_iff (ctx.currentToken ≤ i ∧ i < ctx.currentToken + advanced)
      ⟨fun hi => ⟨node, advanced, h, hi⟩, by
        rintro ⟨_, _, hn, hi⟩
        cases hn.symm.trans h
        exact hi⟩
  | .null _ => isFalse (by
      rintro ⟨_, _, hn, -⟩
      cases hn.symm.trans h)
  | .hangs => isFalse (by
      rintro ⟨_, _, hn, -⟩
      cases hn.symm.trans h)

/-- In the run on `tokens`, the node of cell `id` takes the token of number `i`; it is the node at
place `id` of the tree that is returned. -/
def ConsumedBy (tokens : List Token) (i id : Nat) : Prop :=
  ∃ ctx ∈ parsePugStates (parsePugStart tokens), ctx.memory.length = id ∧ Consumes ctx i ∧
    ∃ out, parsePug tokens = some out ∧ (rootNode out).labels[id]? = parsedNode ctx

/-- Every token that can start a node is consumed by exactly one node of the tree. -/
def EveryTokenConsumed (tokens : List Token) : Prop :=
  ∀ i token, tokens[i]? = some token → token.type.startsNode = true →
    ∃! id, ConsumedBy tokens i id

/-- After a token that `parse_node` rejects, the next round is at the token after it. -/
def ResumesAtNext (tokens : List Token) : Prop :=
  ∀ ctx ∈ parsePugStates (parsePugStart tokens), parseNode ctx = .null 1 →
    ∀ ctx', parsePugRound ctx = .next ctx' → ctx'.currentToken = ctx.currentToken + 1

/-- The token of number `i` comes after a TAG token with nothing between but tokens of its depth
that the loop after it takes, and is such a token itself. -/
def Attached (tokens : List Token) (i : Nat) : Prop :=
  ∃ j tag, j < i ∧ tokens[j]? = some tag ∧ tag.type = .tokenTag ∧
    ∀ k t, j < k → k ≤ i → tokens[k]? = some t → absorbs tag.depth t = true

/-- Every ID, CLASS or ATTRIBUTE token is attached to a TAG, the last token of the file apart. -/
def ShorthandsAttached (tokens : List Token) : Prop :=
  ∀ i token, tokens[i]? = some token → token.type.startsNode = false → i + 1 < tokens.length →
    Attached tokens i

/-! ## The scan and the attached tokens -/

theorem controlAt_succ {tokens : List Token} {i : Nat} {token : Token}
    (h : tokens[i]? = some token) : controlAt tokens (i + 1) = (controlAt tokens i).next token := by
  rw [controlAt_add]
  obtain ⟨hi, rfl⟩ := List.getElem?_eq_some_iff.mp h
  rw [List.drop_eq_getElem_cons hi]
  rfl

theorem start_inside {token : Token} {depth : Nat} (h : Control.start token = .inside depth) :
    token.type = .tokenTag ∧ token.depth = depth := by
  rw [Control.start] at h
  split at h
  · rename_i ht
    cases h
    exact ⟨ht, rfl⟩
  · split at h <;> cases h

/-- The scan is in the loop after a TAG only when it has come from it without leaving the loop. -/
theorem exists_tag_of_inside {tokens : List Token} {i depth : Nat} (hi : i ≤ tokens.length)
    (h : controlAt tokens i = .inside depth) :
    ∃ j tag, j < i ∧ tokens[j]? = some tag ∧ tag.type = .tokenTag ∧ tag.depth = depth ∧
      ∀ k t, j < k → k < i → tokens[k]? = some t → absorbs depth t = true := by
  induction i with
  | zero => cases h
  | succ i ih =>
    have hget : tokens[i]? = some tokens[i] := List.getElem?_eq_getElem hi
    rw [controlAt_succ hget] at h
    have hstart : Control.start tokens[i] = .inside depth →
        ∃ j tag, j < i + 1 ∧ tokens[j]? = some tag ∧ tag.type = .tokenTag ∧ tag.depth = depth ∧
          ∀ k t, j < k → k < i + 1 → tokens[k]? = some t → absorbs depth t = true := by
      intro hs
      obtain ⟨ht, hd⟩ := start_inside hs
      exact ⟨i, _, Nat.lt_succ_self i, hget, ht, hd, fun k t hk hk' => by omega⟩
    cases hc : controlAt tokens i with
    | idle =>
      rw [hc] at h
      exact hstart h
    | dropNext =>
      rw [hc] at h
      cases h
    | inside d =>
      rw [hc, Control.next] at h
      split at h
      · rename_i hab
        cases h
        obtain ⟨j, tag, hj, hget', ht, hd, hall⟩ := ih (Nat.le_of_lt hi) hc
        refine ⟨j, tag, Nat.lt_succ_of_lt hj, hget', ht, hd, fun k t hk hk' hkt => ?_⟩
        rcases Nat.lt_succ_iff_lt_or_eq.mp hk' with hlt | rfl
        · exact hall k t hk hlt hkt
        · cases hkt.symm.trans hget
          exact hab
      · exact hstart h

/-- From a TAG that is not skipped, the scan stays in its loop as long as tokens are taken. -/
theorem controlAt_of_tag {tokens : List Token} {j : Nat} {tag : Token}
    (hget : tokens[j]? = some tag) (ht : tag.type = .tokenTag)
    (hne : controlAt tokens j ≠ .dropNext) {i : Nat} (hji : j < i) (hi : i ≤ tokens.length)
    (hall : ∀ k t, j < k → k < i → tokens[k]? = some t → absorbs tag.depth t = true) :
    controlAt tokens i = .inside tag.depth := by
  induction i with
  | zero => omega
  | succ i ih =>
    rcases Nat.lt_succ_iff_lt_or_eq.mp hji with hlt | rfl
    · have hgeti : tokens[i]? = some tokens[i] := List.getElem?_eq_getElem hi
      have hab := hall i _ hlt (Nat.lt_succ_self i) hgeti
      rw [controlAt_succ hgeti, ih hlt (Nat.le_of_lt hi) fun k t hk hk' => hall k t hk (by omega),
        Control.next, if_pos hab]
    · have hstart : Control.start tag = .inside tag.depth := if_pos ht
      have hnot : ∀ d, absorbs d tag = false := by simp [absorbs, ht, TokenType.isAbsorbed]
      rw [controlAt_succ hget]
      cases hc : controlAt tokens j with
      | idle => exact hstart
      | inside d => rw [Control.next, hnot, if_neg (by simp), hstart]
      | dropNext => exact absurd hc hne

/-- The scan skips no token exactly when the shorthands are attached. -/
theorem noneDropped_iff (tokens : List Token) :
    (∀ i, i < tokens.length → controlAt tokens i ≠ .dropNext) ↔ ShorthandsAttached tokens := by
  constructor
  · intro h i token hget hs hi
    have hnext := h (i + 1) hi
    rw [controlAt_succ hget] at hnext
    have hreject : Control.start token = .dropNext := start_rejects hs
    cases hc : controlAt tokens i with
    | idle =>
      rw [hc] at hnext
      exact absurd hreject hnext
    | dropNext => exact absurd hc (h i (by omega))
    | inside d =>
      rw [hc, Control.next] at hnext
      split at hnext
      · rename_i hab
        obtain ⟨j, tag, hj, hgetj, ht, rfl, hall⟩ := exists_tag_of_inside (by omega) hc
        refine ⟨j, tag, hj, hgetj, ht, fun k t hk hk' hkt => ?_⟩
        rcases Nat.lt_or_eq_of_le hk' with hlt | rfl
        · exact hall k t hk hlt hkt
        · cases hkt.symm.trans hget
          exact hab
      · exact absurd hreject hnext
  · intro h i
    induction i using Nat.strongRecOn with
    | ind i ih =>
      intro hi
      cases i with
      | zero => simp [controlAt]
      | succ i =>
        have hget : tokens[i]? = some tokens[i] := List.getElem?_eq_getElem (by omega)
        cases hs : (tokens[i]).type.startsNode with
        | true =>
          have hstart := start_ne_dropNext hs
          rw [controlAt_succ hget]
          cases hc : controlAt tokens i with
          | idle => exact hstart
          | dropNext => simp [Control.next]
          | inside d =>
            rw [Control.next]
            split
            · simp
            · exact hstart
        | false =>
          obtain ⟨j, tag, hj, hgetj, ht, hall⟩ := h i _ hget hs hi
          rw [controlAt_of_tag hgetj ht (ih j (by omega) (by omega)) (by omega) (by omega)
            fun k t hk hk' => hall k t hk (by omega)]
          simp

/-! ## The rounds that take a token -/

/-- A run only goes forward. -/
theorem currentToken_le_of_mem {ctx : ParserContext} :
    ∀ s ∈ parsePugStates ctx, ctx.currentToken ≤ s.currentToken :=
  parsePugStates_invariant (fun _ _ hs hround => hs.trans (parsePugRound_progress hround).2.1.le)
    (le_refl ctx.currentToken)

/-- No two rounds of a run take the same token. -/
theorem consumes_unique {ctx : ParserContext} {i : Nat} :
    ∀ s ∈ parsePugStates ctx, ∀ s' ∈ parsePugStates ctx, Consumes s i → Consumes s' i → s = s' := by
  induction ctx using parsePug_induction with
  | step ctx ih =>
    cases hround : parsePugRound ctx with
    | next ctx' =>
      have hlater : Consumes ctx i → ∀ s ∈ parsePugStates ctx', ¬ Consumes s i := by
        rintro ⟨node, advanced, hnode, -, hlt⟩ s hs ⟨_, _, -, hle, -⟩
        cases (parsePugRound_node hnode).symm.trans hround
        have := currentToken_le_of_mem s hs
        rw [currentToken_addNode, currentToken_advance] at this
        omega
      rw [parsePugStates_next hround]
      intro s hs s' hs' hi hi'
      rcases List.mem_cons.mp hs with rfl | hmem
      · rcases List.mem_cons.mp hs' with rfl | hmem'
        · rfl
        · exact absurd hi' (hlater hi s' hmem')
      · rcases List.mem_cons.mp hs' with rfl | hmem'
        · exact absurd hi (hlater hi' s hmem)
        · exact ih ctx' hround s hmem s' hmem' hi hi'
    | hangs =>
      rw [parsePugStates_last (by simp [hround])]
      simp
    | done out =>
      rw [parsePugStates_last (by simp [hround])]
      simp

section Run

variable {pre : List Token} {eof : Token}

theorem HeadAt.not_absorbs {n depth : Nat} {token : Token} (h : HeadAt pre n)
    (hc : controlAt pre n = .inside depth) (hget : pre[n]? = some token) :
    absorbs depth token = false :=
  h.stops depth hc token (by rw [List.head?_drop, hget]; exact rfl)

/-- A token that the scan skips comes after a token that a round of the run rejects. -/
theorem exists_rejection (hfile : TokenFile pre eof) {ctx : ParserContext}
    (hrun : Running pre eof ctx) (hhead : HeadAt pre ctx.currentToken) :
    ∀ i, ctx.currentToken ≤ i → i < pre.length → controlAt pre i = .dropNext →
      ∃ s ∈ parsePugStates ctx, s.currentToken + 1 = i ∧ parseNode s = .null 1 ∧
        parsePugRound s = .next (parserAdvanceToken s 2) := by
  refine Running.induction hfile ?_ ?_ ?_ ?_ ctx hrun hhead
  · intro ctx hend hn hr i hle hlt hc
    omega
  · rintro ctx ctx' token more hrun hhead hl hs hn hr rfl ih i hle hlt hc
    by_cases hi : ctx.currentToken + (1 + (group token more).length) ≤ i
    · obtain ⟨s, hmem, hs'⟩ := ih i (by rwa [currentToken_addNode, currentToken_advance]) hlt hc
      exact ⟨s, by rw [parsePugStates_next hr]; exact List.mem_cons_of_mem _ hmem, hs'⟩
    · rcases Nat.eq_or_lt_of_le hle with rfl | hlt'
      · exact absurd hc hhead.ne_dropNext
      · obtain ⟨k, rfl⟩ : ∃ k, i = ctx.currentToken + (1 + k) :=
          ⟨i - ctx.currentToken - 1, by omega⟩
        rw [hhead.controlAt_group hl (by omega)] at hc
        exact absurd hc (start_ne_dropNext hs)
  · intro ctx token hhead hl hs hn hr i hle hlt hc
    have hlen := congrArg List.length hl
    simp only [List.length_drop, List.length_singleton] at hlen
    have hi : i = ctx.currentToken := by omega
    rw [hi] at hc
    exact absurd hc hhead.ne_dropNext
  · intro ctx token next more hhead hl hs hn hr ih i hle hlt hc
    by_cases hi : ctx.currentToken + 2 ≤ i
    · obtain ⟨s, hmem, hs'⟩ := ih i hi hlt hc
      exact ⟨s, by rw [parsePugStates_next hr]; exact List.mem_cons_of_mem _ hmem, hs'⟩
    · rcases Nat.eq_or_lt_of_le hle with rfl | hlt'
      · exact absurd hc hhead.ne_dropNext
      · exact ⟨ctx, mem_parsePugStates_self ctx, by omega, hn, hr⟩

/-- As long as nothing is skipped, a token that can start a node is taken by one. -/
theorem exists_consumes (hfile : TokenFile pre eof) {ctx : ParserContext}
    (hrun : Running pre eof ctx) (hhead : HeadAt pre ctx.currentToken) :
    ∀ i token, ctx.currentToken ≤ i → pre[i]? = some token → token.type.startsNode = true →
      (∀ j, j < pre.length → controlAt pre j ≠ .dropNext) →
      ∃ s ∈ parsePugStates ctx, Consumes s i := by
  refine Running.induction hfile ?_ ?_ ?_ ?_ ctx hrun hhead
  · intro ctx hend hn hr i token hle hget
    have := (List.getElem?_eq_some_iff.mp hget).1
    omega
  · rintro ctx ctx' token more hrun hhead hl hs hn hr rfl ih i t hle hget ht hnone
    by_cases hi : ctx.currentToken + (1 + (group token more).length) ≤ i
    · obtain ⟨s, hmem, hs'⟩ :=
        ih i t (by rwa [currentToken_addNode, currentToken_advance]) hget ht hnone
      exact ⟨s, by rw [parsePugStates_next hr]; exact List.mem_cons_of_mem _ hmem, hs'⟩
    · exact ⟨ctx, mem_parsePugStates_self ctx, _, _, hn, hle, by omega⟩
  · intro ctx token hhead hl hs hn hr i t hle hget ht hnone
    have hlen := congrArg List.length hl
    have hlt := (List.getElem?_eq_some_iff.mp hget).1
    simp only [List.length_drop, List.length_singleton] at hlen
    have hi : i = ctx.currentToken := by omega
    rw [hi, ← List.head?_drop, hl] at hget
    cases hget
    rw [hs] at ht
    cases ht
  · intro ctx token next more hhead hl hs hn hr ih i t hle hget ht hnone
    have hlen := congrArg List.length hl
    simp only [List.length_drop, List.length_cons] at hlen
    exact absurd (hhead.rejects hl hs) (hnone (ctx.currentToken + 1) (by omega))

/-- A token that the scan sees taken is taken by the node that has the token before it. -/
theorem exists_consumes_both (hfile : TokenFile pre eof) {ctx : ParserContext}
    (hrun : Running pre eof ctx) (hhead : HeadAt pre ctx.currentToken) :
    ∀ i token depth, ctx.currentToken ≤ i → pre[i + 1]? = some token →
      controlAt pre (i + 1) = .inside depth → absorbs depth token = true →
      ∃ s ∈ parsePugStates ctx, ∃ node advanced, parseNode s = .node node advanced ∧
        s.currentToken ≤ i ∧ i + 1 < s.currentToken + advanced := by
  refine Running.induction hfile ?_ ?_ ?_ ?_ ctx hrun hhead
  · intro ctx hend hn hr i token depth hle hget
    have := (List.getElem?_eq_some_iff.mp hget).1
    omega
  · rintro ctx ctx' token more hrun hhead hl hs hn hr rfl ih i t depth hle hget hc hab
    rcases Nat.lt_trichotomy (i + 1) (ctx.currentToken + (1 + (group token more).length)) with
      hi | hi | hi
    · exact ⟨ctx, mem_parsePugStates_self ctx, _, _, hn, hle, hi⟩
    · have hnext := hhead.node hl hs
      rw [← hi] at hnext
      rw [hnext.not_absorbs hc hget] at hab
      cases hab
    · obtain ⟨s, hmem, hs'⟩ := ih i t depth
        (by rw [currentToken_addNode, currentToken_advance]; omega) hget hc hab
      exact ⟨s, by rw [parsePugStates_next hr]; exact List.mem_cons_of_mem _ hmem, hs'⟩
  · intro ctx token hhead hl hs hn hr i t depth hle hget
    have hlen := congrArg List.length hl
    have hlt := (List.getElem?_eq_some_iff.mp hget).1
    simp only [List.length_drop, List.length_singleton] at hlen
    omega
  · intro ctx token next more hhead hl hs hn hr ih i t depth hle hget hc hab
    rcases Nat.lt_trichotomy (i + 1) (ctx.currentToken + 2) with hi | hi | hi
    · have hi : i = ctx.currentToken := by omega
      rw [hi, hhead.rejects hl hs] at hc
      cases hc
    · have hnext := hhead.skip hl hs
      rw [← hi] at hnext
      rw [hnext.not_absorbs hc hget] at hab
      cases hab
    · obtain ⟨s, hmem, hs'⟩ := ih i t depth (by rw [currentToken_advance]; omega) hget hc hab
      exact ⟨s, by rw [parsePugStates_next hr]; exact List.mem_cons_of_mem _ hmem, hs'⟩

end Run

/-! ## Rejection -/

/-- A token that can start a node is not the EOF token. -/
theorem getElem?_fileTokens {content : CString} {i : Nat} {token : Token}
    (h : (tokenizeFile content)[i]? = some token) (hs : token.type ≠ .tokenEof) :
    (fileTokens content)[i]? = some token := by
  rw [tokenizeFile_eq, List.getElem?_append] at h
  split at h
  · exact h
  · rw [List.getElem?_singleton] at h
    split at h
    · cases h
      exact absurd rfl hs
    · cases h

/-- **No token is lost.** Every token that `parse_node` accepts is consumed by exactly one node of the
tree, and parsing resumes right after a rejected token, exactly when every ID, CLASS or ATTRIBUTE token
before the last token is attached to a TAG. -/
theorem everyTokenConsumed_iff (content : CString) :
    EveryTokenConsumed (tokenizeFile content) ∧ ResumesAtNext (tokenizeFile content) ↔
      ShorthandsAttached (fileTokens content) := by
  have hfile := tokenFile_content content
  have hrun := running_start (fileTokens content) (fileEof content)
  have hhead := headAt_zero (fileTokens content)
  rw [← noneDropped_iff]
  constructor
  · rintro ⟨-, hresume⟩ i hi hc
    obtain ⟨s, hmem, -, hn, hr⟩ := exists_rejection hfile hrun hhead i (Nat.zero_le i) hi hc
    have hnext := hresume s hmem hn _ hr
    rw [currentToken_advance] at hnext
    omega
  · intro hnone
    refine ⟨fun i token hget hs => ?_, fun ctx hmem hn ctx' hr => ?_⟩
    · have hne : token.type ≠ .tokenEof := ne_eof_of_startsNode hs
      obtain ⟨s, hmem, hcons⟩ := exists_consumes hfile hrun hhead i token (Nat.zero_le i)
        (getElem?_fileTokens hget hne) hs hnone
      obtain ⟨out, hout⟩ := exists_parsePug content
      obtain ⟨node, advanced, hn, -⟩ := id hcons
      have hplace : (rootNode out).labels[s.memory.length]? = parsedNode s := by
        rw [labels_rootNode_getElem? hout hmem hn, parsedNode_of_node hn]
      refine ⟨s.memory.length, ⟨s, hmem, rfl, hcons, out, hout, hplace⟩, ?_⟩
      rintro id ⟨s', hmem', rfl, hcons', -⟩
      rw [consumes_unique s hmem s' hmem' hcons hcons']
    · obtain ⟨hrun', hhead'⟩ := parsePugStates_headAt hfile ctx hmem
      rcases hrun'.cases hfile with ⟨-, hn', -⟩ | ⟨_, _, -, -, _, -, hn', -⟩ | ⟨_, -, -, -, hr'⟩ |
          ⟨token, next, more, hl, hs, -, -, -⟩
      · cases hn.symm.trans hn'
      · cases hn.symm.trans hn'
      · cases hr.symm.trans hr'
      · have hlen := congrArg List.length hl
        simp only [List.length_drop, List.length_cons] at hlen
        exact absurd (hhead'.rejects hl hs) (hnone (ctx.currentToken + 1) (by omega))

/-- On the lines `| x`, `.y` and `p` the CLASS token is rejected and the TAG token after it is
skipped. -/
theorem everyTokenConsumed_fails :
    ¬ ∀ content, EveryTokenConsumed (tokenizeFile content) ∧
      ResumesAtNext (tokenizeFile content) := by
  intro h
  have htag : (tokenizeFile "| x\n.y\np".toList)[2]? =
      some (createToken .tokenTag (some "p".toList) 0 3 0) := by decide +kernel
  obtain ⟨id, ⟨ctx, hmem, -, hcons, -⟩, -⟩ := (h "| x\n.y\np".toList).1 2 _ htag rfl
  have hnone : ∀ ctx ∈ parsePugStates (parsePugStart (tokenizeFile "| x\n.y\np".toList)),
      ¬ Consumes ctx 2 := by decide +kernel
  exact hnone ctx hmem hcons

/-! ## Lines -/

/-- Every token that a node takes has the line of the node. -/
def NodesOnOneLine (tokens : List Token) : Prop :=
  ∀ ctx ∈ parsePugStates (parsePugStart tokens), ∀ node advanced,
    parseNode ctx = .node node advanced → ∀ i token, ctx.currentToken ≤ i →
      i < ctx.currentToken + advanced → tokens[i]? = some token → token.line = node.line

/-- Where a line starts, the loop after a TAG has been left or the token makes it end. -/
def LinesEndLoops (tokens : List Token) : Prop :=
  ∀ i prev token, tokens[i]? = some prev → tokens[i + 1]? = some token → prev.line ≠ token.line →
    ∀ depth, controlAt tokens (i + 1) = .inside depth → absorbs depth token = false

/-- Along the tokens of a node the line never changes. -/
theorem HeadAt.line_group {tokens : List Token} (hends : LinesEndLoops tokens) {n : Nat}
    {token : Token} {more : List Token} (hhead : HeadAt tokens n)
    (hl : tokens.drop n = token :: more) {k : Nat} (hk : k ≤ (group token more).length)
    {t : Token} (ht : tokens[n + k]? = some t) : t.line = token.line := by
  have hget : ∀ k, tokens[n + k]? = (token :: more)[k]? := by
    intro k
    rw [← hl, List.getElem?_drop]
  induction k generalizing t with
  | zero =>
    rw [hget] at ht
    cases ht
    rfl
  | succ k ih =>
    have hlen := length_group_le token more
    obtain ⟨prev, hprev⟩ : ∃ prev, (token :: more)[k]? = some prev :=
      ⟨_, List.getElem?_eq_getElem (by simp only [List.length_cons]; omega)⟩
    rw [← hget] at hprev
    have hline := ih (by omega) hprev
    have hgroup : t ∈ group token more := by
      rw [hget, List.getElem?_cons_succ] at ht
      rw [← take_length_group token more]
      exact List.mem_of_getElem? (i := k) (by rw [List.getElem?_take_of_lt (by omega), ht])
    have hab := mem_group_isAbsorbed t hgroup
    have htag : token.type = .tokenTag := by
      by_contra hne
      rw [group, if_neg hne] at hgroup
      cases hgroup
    have hc : controlAt tokens (n + k + 1) = .inside token.depth := by
      have hstart : Control.start token = .inside token.depth := if_pos htag
      rw [← hstart, ← hhead.controlAt_group hl (k := k) (by omega), Nat.add_assoc, Nat.add_comm k 1]
    by_contra hne
    have hstops := hends (n + k) prev t hprev ht (by rw [hline]; exact Ne.symm hne) token.depth hc
    rw [hab] at hstops
    cases hstops

/-- **One line per node.** Every node is built from tokens of its own line exactly when no line of
the file starts with a token that the loop after a TAG, still running, takes. -/
theorem nodesOnOneLine_iff (content : CString) :
    NodesOnOneLine (tokenizeFile content) ↔ LinesEndLoops (fileTokens content) := by
  have hfile := tokenFile_content content
  have hget : ∀ k, k < (fileTokens content).length →
      (tokenizeFile content)[k]? = (fileTokens content)[k]? := fun k hk => by
    rw [tokenizeFile_eq, List.getElem?_append_left hk]
  constructor
  · intro hline i prev token hprev htoken hne depth hc
    by_contra hab
    have hi := (List.getElem?_eq_some_iff.mp htoken).1
    obtain ⟨s, hmem, node, advanced, hn, hle, hlt⟩ :=
      exists_consumes_both hfile (running_start _ _) (headAt_zero _) i token depth (Nat.zero_le i)
        htoken hc (by simpa using hab)
    have h1 := hline s hmem node advanced hn i prev hle (by omega) (by rw [hget i (by omega), hprev])
    have h2 := hline s hmem node advanced hn (i + 1) token (by omega) hlt
      (by rw [hget (i + 1) hi, htoken])
    exact hne (h1.trans h2.symm)
  · intro hends ctx hmem node advanced hn i t hle hlt ht
    obtain ⟨hrun, hhead⟩ := parsePugStates_headAt hfile ctx hmem
    rcases hrun.cases hfile with ⟨-, hn', -⟩ |
        ⟨token, more, hl, hs, _, rfl, hn', -⟩ | ⟨_, -, -, hn', -⟩ | ⟨_, _, _, -, -, hn', -⟩
    · cases hn.symm.trans hn'
    · cases hn.symm.trans hn'
      have hnode : ((group token more).foldl absorbToken (startNode token)).line = token.line := by
        rw [(foldl_absorbToken_sameHead _ _).line, (startNode_head hs).2.1]
      obtain ⟨k, rfl⟩ : ∃ k, i = ctx.currentToken + k := ⟨i - ctx.currentToken, by omega⟩
      have hbound : ctx.currentToken + k < (fileTokens content).length := by
        have hlen := congrArg List.length hl
        have hle' := length_group_le token more
        simp only [List.length_drop, List.length_cons] at hlen
        omega
      rw [hget _ hbound] at ht
      rw [hnode]
      exact hhead.line_group hends hl (by omega) ht
    · cases hn.symm.trans hn'
    · cases hn.symm.trans hn'

/-- The CLASS token of the line `.x` goes into the node of the line `p` above it. -/
theorem nodesOnOneLine_fails : ¬ ∀ content, NodesOnOneLine (tokenizeFile content) := by
  intro h
  have hstate : parsePugStart (tokenizeFile "p\n.x".toList) ∈
      parsePugStates (parsePugStart (tokenizeFile "p\n.x".toList)) := mem_parsePugStates_self _
  have hnode : parseNode (parsePugStart (tokenizeFile "p\n.x".toList)) =
      .node { astNodeCreate .tokenTag 0 with
        tag := some "p".toList, classes := ["x".toList], line := 1 } 2 := by decide +kernel
  have htoken : (tokenizeFile "p\n.x".toList)[1]? =
      some (createToken .tokenClass (some "x".toList) 0 2 1) := by decide +kernel
  have hline := h _ _ hstate _ _ hnode 1 _ (Nat.zero_le 1) (by decide) htoken
  cases hline

end CPug
