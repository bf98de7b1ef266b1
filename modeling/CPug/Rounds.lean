import CPug.ParserRun

/-!
# What a round reads

A round of `parse_pug` reads the tokens it passes and looks at the one after them: whether it is deeper
than the node, and whether it is of a kind and depth that the node takes. On any other tokens that begin
with those it passed and go on with a token that looks the same, it does the same
(`parsePugRound_local`).
-/

namespace CPug

open Outline

/-! ## One round, read off the tokens -/

section Rounds

variable {ctx : ParserContext} {token next : Token} {more : List Token}

theorem parsePugRound_of_nil (hrest : ctx.rest = []) : parsePugRound ctx = .hangs := by
  have hnode : parseNode ctx = .null 0 := by
    rw [parseNode, hrest]
    rfl
  apply parsePugRound_end hnode
  rw [parserGetCurrentToken_eq_head, rest_advance, hrest]
  rfl

theorem parsePugRound_of_eof (hrest : ctx.rest = token :: more) (heof : token.type = .tokenEof) :
    parsePugRound ctx = .done ctx := by
  have hnode : parseNode ctx = .null 0 := by
    rw [parseNode, hrest]
    exact parseNodeFrom_eof more heof
  refine parsePugRound_done hnode ?_ heof
  rw [parserGetCurrentToken_eq_head, rest_advance, hrest]
  rfl

theorem parseNode_of_rejects (hrest : ctx.rest = token :: more)
    (hs : token.type.startsNode = false) (hne : token.type ≠ .tokenEof) :
    parseNode ctx = .null 1 := by
  rw [parseNode, hrest]
  exact parseNodeFrom_rejects more hs hne

theorem getCurrentToken_advance_one (hrest : ctx.rest = token :: more) :
    parserGetCurrentToken (parserAdvanceToken ctx 1) = more.head? := by
  rw [parserGetCurrentToken_eq_head, rest_advance, hrest]
  rfl

/-- The rejected token is the last one. -/
theorem parsePugRound_of_rejects_nil (hrest : ctx.rest = [token])
    (hs : token.type.startsNode = false) (hne : token.type ≠ .tokenEof) :
    parsePugRound ctx = .hangs :=
  parsePugRound_end (parseNode_of_rejects hrest hs hne) (getCurrentToken_advance_one hrest)

/-- The rejected token stands in front of EOF. -/
theorem parsePugRound_of_rejects_eof (hrest : ctx.rest = token :: next :: more)
    (hs : token.type.startsNode = false) (hne : token.type ≠ .tokenEof)
    (heof : next.type = .tokenEof) : parsePugRound ctx = .done (parserAdvanceToken ctx 1) :=
  parsePugRound_done (parseNode_of_rejects hrest hs hne) (getCurrentToken_advance_one hrest) heof

/-- The rejected token takes the next one with it. -/
theorem parsePugRound_of_rejects (hrest : ctx.rest = token :: next :: more)
    (hs : token.type.startsNode = false) (hne : token.type ≠ .tokenEof)
    (hnext : next.type ≠ .tokenEof) : parsePugRound ctx = .next (parserAdvanceToken ctx 2) :=
  parsePugRound_skip (parseNode_of_rejects hrest hs hne) (getCurrentToken_advance_one hrest) hnext

end Rounds

/-! ## What a node takes does not depend on what comes after -/

theorem absorb_append {node out : ASTNode} {advanced n : Nat} {rest after : List Token}
    (h : absorb node advanced rest = .node out n)
    (hafter : ∀ t ∈ after.head?, absorbs node.depth t = false) :
    absorb node advanced (rest.takeWhile (absorbs node.depth) ++ after) = .node out n := by
  induction rest generalizing node advanced with
  | nil =>
    cases h
    cases after with
    | nil => rfl
    | cons t after => rw [List.takeWhile_nil, List.nil_append, absorb, absorbStep_stops (hafter t rfl)]
  | cons token rest ih =>
    cases hab : absorbs node.depth token with
    | false =>
      rw [absorb, absorbStep_stops hab] at h
      cases h
      rw [List.takeWhile_cons_of_neg (by simp [hab])]
      cases after with
      | nil => rfl
      | cons t after => rw [List.nil_append, absorb, absorbStep_stops (hafter t rfl)]
    | true =>
      rw [absorb] at h
      rw [List.takeWhile_cons_of_pos hab, List.cons_append, absorb]
      cases hstep : absorbStep node token with
      | stops =>
        have hvalue : token.type = .tokenAttribute → token.value ≠ none := by
          intro htype hnone
          obtain ⟨hdepth, -⟩ : token.depth = node.depth ∧ token.type.isAbsorbed = true := by
            simpa [absorbs] using hab
          rw [absorbStep, if_neg (not_not_intro hdepth)] at hstep
          simp only [htype, hnone] at hstep
          cases hstep
        cases hstep.symm.trans (absorbStep_takes hab hvalue)
      | spins =>
        rw [hstep] at h
        cases h
      | takes node' =>
        rw [hstep] at h
        have hdepth : node'.depth = node.depth := (absorbStep_sameHead hstep).depth
        rw [← hdepth]
        exact ih h (by rwa [hdepth])

theorem parseNodeFrom_append {token : Token} {more after : List Token} {out : ASTNode} {n : Nat}
    (hs : token.type.startsNode = true) (h : parseNodeFrom (token :: more) = .node out n)
    (hafter : ∀ t ∈ after.head?, absorbs token.depth t = false) :
    parseNodeFrom (token :: (group token more ++ after)) = .node out n := by
  by_cases ht : token.type = .tokenTag
  · have hdepth : (startNode token).depth = token.depth := (startNode_head hs).1
    rw [parseNodeFrom_tag more ht] at h
    rw [parseNodeFrom_tag _ ht, group, if_pos ht, ← hdepth]
    exact absorb_append h (by rwa [hdepth])
  · rw [parseNodeFrom_single more hs ht] at h
    rw [parseNodeFrom_single _ hs ht, h]

/-- The token after those of a node is not taken into it. -/
theorem absorbs_head_after_group {token t : Token} {more : List Token}
    (ht : t ∈ (more.drop (group token more).length).head?) (htag : token.type = .tokenTag) :
    absorbs token.depth t = false := by
  rw [group, if_pos htag, drop_length_takeWhile] at ht
  exact stopsAt_dropWhile more t ht

/-- Two contexts that differ at most in their tokens. -/
structure SameTree (ctx other : ParserContext) : Prop where
  memory : other.memory = ctx.memory
  currentParent : other.currentParent = ctx.currentParent

section SameTree

variable {ctx other : ParserContext}

theorem SameTree.advance (h : SameTree ctx other) (n m : Nat) :
    SameTree (parserAdvanceToken ctx n) (parserAdvanceToken other m) := ⟨h.memory, h.currentParent⟩

/-- The look-ahead is all that linking a node reads of the tokens. -/
theorem SameTree.addNode (h : SameTree ctx other) (node : ASTNode)
    (hnext : deeperNext node.depth other.rest = deeperNext node.depth ctx.rest) :
    SameTree (addNode ctx node) (addNode other node) := by
  rw [deeperNext, deeperNext, ← parserGetCurrentToken_eq_head,
    ← parserGetCurrentToken_eq_head] at hnext
  constructor
  · show addChild other.memory _ node = addChild ctx.memory _ node
    rw [h.memory, h.currentParent]
  · show (if _ then other.memory.length else _) = if _ then ctx.memory.length else _
    rw [h.memory, h.currentParent, hnext]

end SameTree

/-! ## Look-ahead -/

/-- To a round that looks ahead the second list looks like the first. -/
structure LooksLike (xs ys : List Token) : Prop where
  deeper : ∀ depth, deeperNext depth ys = deeperNext depth xs
  taken : ∀ t ∈ ys.head?, t.type.isAbsorbed = true → t ∈ xs.head?

theorem looksLike_of_head {xs ys : List Token} (h : ys.head? = xs.head?) : LooksLike xs ys := by
  refine ⟨fun depth => ?_, fun t ht _ => ?_⟩
  · rw [deeperNext, deeperNext, h]
  · rwa [← h]

/-- The tokens that a round passes, and those it leaves. -/
theorem take_append_rest {ctx ctx' : ParserContext} (htokens : ctx'.tokens = ctx.tokens)
    (hle : ctx.currentToken ≤ ctx'.currentToken) :
    ctx.rest.take (ctx'.currentToken - ctx.currentToken) ++ ctx'.rest = ctx.rest := by
  have hrest : ctx'.rest = ctx.rest.drop (ctx'.currentToken - ctx.currentToken) := by
    rw [ParserContext.rest, ParserContext.rest, List.drop_drop, htokens]
    congr 1
    omega
  rw [hrest, List.take_append_drop]

theorem currentToken_of_rest {ctx other : ParserContext} (hrest : other.rest = ctx.rest) (n : Nat) :
    parserGetCurrentToken (parserAdvanceToken other n) =
      parserGetCurrentToken (parserAdvanceToken ctx n) := by
  rw [parserGetCurrentToken_eq_head, parserGetCurrentToken_eq_head, rest_advance, rest_advance, hrest]

/-- A round that ends does so on the tokens it has in front of it. -/
theorem parsePugRound_done_local {ctx out other : ParserContext} (h : parsePugRound ctx = .done out)
    (hrest : other.rest = ctx.rest) :
    ∃ k, out = parserAdvanceToken ctx k ∧ parsePugRound other = .done (parserAdvanceToken other k) := by
  obtain ⟨advanced, token, hnode, hcurrent, heof, rfl⟩ := parsePugRound_done_cases h
  rw [parseNode, ← hrest] at hnode
  rw [← currentToken_of_rest hrest] at hcurrent
  exact ⟨advanced, rfl, parsePugRound_done hnode hcurrent heof⟩

theorem parsePugRound_hangs_local {ctx other : ParserContext} (h : parsePugRound ctx = .hangs)
    (hrest : other.rest = ctx.rest) : parsePugRound other = .hangs := by
  cases hother : parsePugRound other with
  | hangs => rfl
  | done out =>
    obtain ⟨k, -, hdone⟩ := parsePugRound_done_local hother hrest.symm
    cases h.symm.trans hdone
  | next other' =>
    rcases parsePugRound_next_cases hother with ⟨node, advanced, hnode, -⟩ |
        ⟨advanced, token, hnode, hcurrent, hne, -⟩
    · rw [parseNode, hrest] at hnode
      cases h.symm.trans (parsePugRound_node hnode)
    · rw [parseNode, hrest] at hnode
      rw [currentToken_of_rest hrest] at hcurrent
      cases h.symm.trans (parsePugRound_skip hnode hcurrent hne)

/-- A round that goes on does so whatever comes after the tokens it passes and looks the same. -/
theorem parsePugRound_local {ctx ctx' other : ParserContext} {after : List Token}
    (h : parsePugRound ctx = .next ctx') (hafter : LooksLike ctx'.rest after)
    (hother : other.rest = ctx.rest.take (ctx'.currentToken - ctx.currentToken) ++ after)
    (hsame : SameTree ctx other) :
    ∃ other', parsePugRound other = .next other' ∧ other'.rest = after ∧ SameTree ctx' other' := by
  rcases parseNodeFrom_cases ctx.rest with ⟨hnull, heof⟩ | ⟨token, more, hrest, hs, hne, hnull⟩ |
      ⟨hnode, -⟩ | ⟨token, more, hrest, hs, hnode⟩
  · cases hrest : ctx.rest with
    | nil => cases (parsePugRound_of_nil hrest).symm.trans h
    | cons token more =>
      rw [hrest] at heof
      cases (parsePugRound_of_eof hrest (heof token rfl)).symm.trans h
  · cases more with
    | nil => cases (parsePugRound_of_rejects_nil hrest hs hne).symm.trans h
    | cons next more =>
      by_cases hnext : next.type = .tokenEof
      · cases (parsePugRound_of_rejects_eof hrest hs hne hnext).symm.trans h
      · cases (parsePugRound_of_rejects hrest hs hne hnext).symm.trans h
        rw [currentToken_advance, Nat.add_sub_cancel_left, hrest] at hother
        refine ⟨_, parsePugRound_of_rejects hother hs hne hnext, ?_, hsame.advance 2 2⟩
        rw [rest_advance, hother]
        rfl
  · cases (parsePugRound_hangs hnode).symm.trans h
  · cases (parsePugRound_node hnode).symm.trans h
    have htake : ctx.rest.take (1 + (group token more).length) = token :: group token more := by
      rw [hrest, Nat.add_comm, List.take_succ_cons, take_length_group]
    have hdrop : ctx.rest.drop (1 + (group token more).length) =
        more.drop (group token more).length := by
      rw [hrest, Nat.add_comm, List.drop_succ_cons]
    rw [currentToken_addNode, currentToken_advance, Nat.add_sub_cancel_left, htake] at hother
    rw [rest_addNode, rest_advance, hdrop] at hafter
    generalize (group token more).foldl absorbToken (startNode token) = out at hnode
    have hrest' : other.rest.drop (1 + (group token more).length) = after := by
      rw [hother, Nat.add_comm, List.cons_append, List.drop_succ_cons, List.drop_left]
    have hnode' : parseNode other = .node out (1 + (group token more).length) := by
      rw [parseNode, hother]
      rw [hrest] at hnode
      by_cases htag : token.type = .tokenTag
      · refine parseNodeFrom_append hs hnode fun t ht => ?_
        cases habs : t.type.isAbsorbed with
        | true => exact absorbs_head_after_group (hafter.taken t ht habs) htag
        | false => rw [absorbs, habs, Bool.and_false]
      · rw [parseNodeFrom_single _ hs htag] at hnode
        rw [List.cons_append, parseNodeFrom_single _ hs htag, hnode]
    refine ⟨_, parsePugRound_node hnode', ?_, (hsame.advance _ _).addNode out ?_⟩
    · rw [rest_addNode, rest_advance, hrest']
    · rw [rest_advance, rest_advance, hrest', hdrop]
      exact hafter.deeper out.depth

end CPug
