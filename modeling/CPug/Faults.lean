import CPug.Renderer
import CPug.Rounds
import CPug.TreeShape

/-!
# Runs with failing allocations

`ast_node_create` may return `NULL`. Then `parse_node` returns `NULL` before it advances, and
`parse_pug` takes the one token it stands on for rejected: it skips it and goes on. `faultyLoop` is
the loop with an answer of `ast_node_create` for every round.

Such a run does on the tokens what the loop without failures does on others
(`faultyLoop_blanked`): where a creation failed there stand two INDENTATION tokens instead of one
token, of the same depth. `parse_node` rejects the first, `parse_pug` skips the second, neither is
taken into a node, and the look-ahead finds the depth it found. What holds of a run over any token
list therefore holds with failures.
-/

namespace CPug

open Outline

/-! ## The loop with failures -/

/-- `parse_node` with the answer of `ast_node_create`: a node, or `NULL` if not `created`. -/
def parseNodeIf (created : Bool) (ctx : ParserContext) : NodeResult :=
  if created then parseNode ctx else .null 0

/-- One round of the loop of `parse_pug` with that answer. -/
def parsePugRoundIf (created : Bool) (ctx : ParserContext) : Round :=
  match parseNodeIf created ctx with
  | .hangs => .hangs
  | .node node advanced => .next (addNode (parserAdvanceToken ctx advanced) node)
  | .null advanced =>
    let ctx := parserAdvanceToken ctx advanced
    match parserGetCurrentToken ctx with
    | some token =>
      if token.type = .tokenEof then .done ctx else .next (parserAdvanceToken ctx 1)
    | none => .hangs

theorem parsePugRoundIf_true (ctx : ParserContext) : parsePugRoundIf true ctx = parsePugRound ctx :=
  rfl

/-- A round without a node: the token is EOF, it is skipped, or there is none. -/
theorem parsePugRoundIf_false (ctx : ParserContext) :
    (ctx.rest = [] ∧ parsePugRoundIf false ctx = .hangs) ∨
    ∃ token more, ctx.rest = token :: more ∧
      ((token.type = .tokenEof ∧ parsePugRoundIf false ctx = .done ctx) ∨
        (token.type ≠ .tokenEof ∧ parsePugRoundIf false ctx = .next (parserAdvanceToken ctx 1))) := by
  have hcurrent : parserGetCurrentToken (parserAdvanceToken ctx 0) = ctx.rest.head? :=
    parserGetCurrentToken_eq_head ctx
  have hround : parsePugRoundIf false ctx =
      match ctx.rest.head? with
      | some token =>
        if token.type = .tokenEof then .done ctx else .next (parserAdvanceToken ctx 1)
      | none => .hangs := by
    rw [← hcurrent]
    rfl
  cases hrest : ctx.rest with
  | nil =>
    rw [hrest] at hround
    exact Or.inl ⟨rfl, hround⟩
  | cons token more =>
    rw [hrest] at hround
    refine Or.inr ⟨token, more, rfl, ?_⟩
    by_cases heof : token.type = .tokenEof
    · exact Or.inl ⟨heof, hround.trans (if_pos heof)⟩
    · exact Or.inr ⟨heof, hround.trans (if_neg heof)⟩

theorem parsePugRoundIf_progress {created : Bool} {ctx ctx' : ParserContext}
    (h : parsePugRoundIf created ctx = .next ctx') :
    ctx'.tokens = ctx.tokens ∧ ctx.currentToken < ctx'.currentToken ∧
      ctx'.currentToken ≤ ctx.tokens.length := by
  cases created with
  | true => exact parsePugRound_progress h
  | false =>
    rcases parsePugRoundIf_false ctx with ⟨-, hr⟩ | ⟨token, more, hrest, ⟨-, hr⟩ | ⟨-, hr⟩⟩
    · cases hr.symm.trans h
    · cases hr.symm.trans h
    · cases hr.symm.trans h
      have hlen : ctx.rest.length = ctx.tokens.length - ctx.currentToken := List.length_drop
      rw [hrest, List.length_cons] at hlen
      refine ⟨rfl, ?_, ?_⟩
      · rw [currentToken_advance]
        omega
      · rw [currentToken_advance]
        omega

/-- The loop of `parse_pug` from a round on; `creates` answers for `ast_node_create` in each. -/
def faultyLoop (creates : Nat → Bool) (round : Nat) (ctx : ParserContext) : Option ParserContext :=
  match _h : parsePugRoundIf (creates round) ctx with
  | .hangs => none
  | .done ctx => some ctx
  | .next ctx => faultyLoop creates (round + 1) ctx
termination_by ctx.tokens.length - ctx.currentToken
decreasing_by
  obtain ⟨ht, hlt, hle⟩ := parsePugRoundIf_progress _h
  rw [ht]
  omega

/-- `parse_pug` with failures, from the root on. -/
def parsePugFaulty (creates : Nat → Bool) (tokens : List Token) : Option ParserContext :=
  faultyLoop creates 0 (parsePugStart tokens)

section Loop

variable {creates : Nat → Bool} {round : Nat} {ctx ctx' : ParserContext}

theorem faultyLoop_hangs (h : parsePugRoundIf (creates round) ctx = .hangs) :
    faultyLoop creates round ctx = none := by
  rw [faultyLoop]
  split <;> simp_all

theorem faultyLoop_done (h : parsePugRoundIf (creates round) ctx = .done ctx') :
    faultyLoop creates round ctx = some ctx' := by
  rw [faultyLoop]
  split <;> simp_all

theorem faultyLoop_next (h : parsePugRoundIf (creates round) ctx = .next ctx') :
    faultyLoop creates round ctx = faultyLoop creates (round + 1) ctx' := by
  rw [faultyLoop]
  split <;> simp_all

/-- Without failures the loop is that of `parse_pug`. -/
theorem faultyLoop_true (round : Nat) (ctx : ParserContext) :
    faultyLoop (fun _ => true) round ctx = parsePugLoop ctx := by
  induction ctx using parsePug_induction generalizing round with
  | step ctx ih =>
    cases hr : parsePugRound ctx with
    | hangs => rw [@faultyLoop_hangs (fun _ => true) round ctx hr, parsePugLoop_hangs hr]
    | done out => rw [@faultyLoop_done (fun _ => true) round ctx out hr, parsePugLoop_done hr]
    | next ctx' =>
      rw [@faultyLoop_next (fun _ => true) round ctx ctx' hr, parsePugLoop_next hr, ih ctx' hr]

end Loop

/-! ## The tokens without the failures -/

/-- A token that starts no node and is taken into none, in the place of `token`. -/
def blankToken (token : Token) : Token := { token with type := .tokenIndentation, value := none }

/-- Some tokens, not EOF, are replaced by two blank ones each. -/
inductive Blanked : List Token → List Token → Prop where
  | nil : Blanked [] []
  | kept {xs ys : List Token} (token : Token) (h : Blanked xs ys) :
      Blanked (token :: xs) (token :: ys)
  | blanked {xs ys : List Token} (token : Token) (hne : token.type ≠ .tokenEof)
      (h : Blanked xs ys) : Blanked (token :: xs) (blankToken token :: blankToken token :: ys)

theorem Blanked.refl (tokens : List Token) : Blanked tokens tokens := by
  induction tokens with
  | nil => exact .nil
  | cons token tokens ih => exact .kept token ih

theorem Blanked.append_left {xs ys : List Token} (h : Blanked xs ys) (before : List Token) :
    Blanked (before ++ xs) (before ++ ys) := by
  induction before with
  | nil => exact h
  | cons token before ih => exact .kept token ih

/-- The head keeps its depth, and is taken into a node only if it is the same token. -/
theorem Blanked.looksLike {xs ys : List Token} (h : Blanked xs ys) : LooksLike xs ys := by
  cases h with
  | nil => exact ⟨fun _ => rfl, by simp⟩
  | kept token h => exact ⟨fun _ => rfl, fun t ht _ => ht⟩
  | blanked token hne h =>
    refine ⟨fun _ => rfl, fun t ht habs => ?_⟩
    cases ht
    cases habs

theorem Blanked.valued {xs ys : List Token} (h : Blanked xs ys) (hv : Valued xs) : Valued ys := by
  induction h with
  | nil => exact hv
  | kept token h ih =>
    intro t ht
    rcases List.mem_cons.mp ht with rfl | ht
    · exact hv t List.mem_cons_self
    · exact ih (fun t ht => hv t (List.mem_cons_of_mem _ ht)) t ht
  | blanked token hne h ih =>
    intro t ht htype
    rcases List.mem_cons.mp ht with rfl | ht
    · cases htype
    · rcases List.mem_cons.mp ht with rfl | ht
      · cases htype
      · exact ih (fun t ht => hv t (List.mem_cons_of_mem _ ht)) t ht htype

theorem Blanked.endsInEof {xs ys : List Token} (h : Blanked xs ys) (hend : EndsInEof xs) :
    EndsInEof ys := by
  obtain ⟨eof, hlast, heof⟩ := hend
  refine ⟨eof, ?_, heof⟩
  induction h with
  | nil => exact hlast
  | @kept xs ys token h ih =>
    cases h with
    | nil => exact hlast
    | kept => exact ih hlast
    | blanked => exact ih hlast
  | @blanked xs ys token hne h ih =>
    cases h with
    | nil =>
      cases hlast
      exact absurd heof hne
    | kept => exact ih hlast
    | blanked => exact ih hlast

/-! ## Runs -/

/-- What a run leaves: the memory, the current parent, and the token it stands on. -/
def ParserContext.outcome (ctx : ParserContext) : List (Cell ASTNode) × Nat × Option Token :=
  (ctx.memory, ctx.currentParent, parserGetCurrentToken ctx)

theorem SameTree.outcome {ctx other : ParserContext} (h : SameTree ctx other)
    (hrest : other.rest.head? = ctx.rest.head?) : other.outcome = ctx.outcome := by
  rw [ParserContext.outcome, ParserContext.outcome, parserGetCurrentToken_eq_head,
    parserGetCurrentToken_eq_head, h.memory, h.currentParent, hrest]

/-- The tokens that stand for those of a round that goes on to `ctx'`. -/
def roundTokens (created : Bool) (ctx ctx' : ParserContext) : List Token :=
  if created then ctx.rest.take (ctx'.currentToken - ctx.currentToken)
  else (ctx.rest.take 1).flatMap fun token => [blankToken token, blankToken token]

/-- The tokens of a run from a round on, those blanked where a creation fails. -/
def blankedTokens (creates : Nat → Bool) (round : Nat) (ctx : ParserContext) : List Token :=
  match _h : parsePugRoundIf (creates round) ctx with
  | .next next => roundTokens (creates round) ctx next ++ blankedTokens creates (round + 1) next
  | _ => ctx.rest
termination_by ctx.tokens.length - ctx.currentToken
decreasing_by
  obtain ⟨ht, hlt, hle⟩ := parsePugRoundIf_progress _h
  rw [ht]
  omega

theorem blankedTokens_next {creates : Nat → Bool} {round : Nat} {ctx next : ParserContext}
    (h : parsePugRoundIf (creates round) ctx = .next next) :
    blankedTokens creates round ctx =
      roundTokens (creates round) ctx next ++ blankedTokens creates (round + 1) next := by
  rw [blankedTokens]
  split <;> simp_all

theorem blankedTokens_last {creates : Nat → Bool} {round : Nat} {ctx : ParserContext}
    (h : ∀ next, parsePugRoundIf (creates round) ctx ≠ .next next) :
    blankedTokens creates round ctx = ctx.rest := by
  rw [blankedTokens]
  split <;> simp_all

/-- Blanking goes from the tokens that a round leaves to those it finds. -/
theorem Blanked.round {created : Bool} {ctx ctx' : ParserContext} {blanked : List Token}
    (hround : parsePugRoundIf created ctx = .next ctx') (h : Blanked ctx'.rest blanked) :
    Blanked ctx.rest (roundTokens created ctx ctx' ++ blanked) := by
  cases created with
  | true =>
    obtain ⟨htokens, hlt, -⟩ := parsePugRoundIf_progress hround
    have happend := h.append_left (ctx.rest.take (ctx'.currentToken - ctx.currentToken))
    rw [take_append_rest htokens (Nat.le_of_lt hlt)] at happend
    rw [roundTokens, if_pos rfl]
    exact happend
  | false =>
    rcases parsePugRoundIf_false ctx with ⟨-, hr⟩ | ⟨token, more, hrest, ⟨-, hr⟩ | ⟨hne, hr⟩⟩
    · cases hr.symm.trans hround
    · cases hr.symm.trans hround
    · cases hr.symm.trans hround
      rw [rest_advance, hrest, List.drop_one, List.tail_cons] at h
      rw [roundTokens, hrest]
      exact .blanked token hne h

/-- A round does what one without failures does over the tokens that stand for its own. -/
theorem parsePugRoundIf_local {created : Bool} {ctx ctx' other : ParserContext} {after : List Token}
    (hround : parsePugRoundIf created ctx = .next ctx') (hafter : LooksLike ctx'.rest after)
    (hother : other.rest = roundTokens created ctx ctx' ++ after) (hsame : SameTree ctx other) :
    ∃ other', parsePugRound other = .next other' ∧ other'.rest = after ∧ SameTree ctx' other' := by
  cases created with
  | true => exact parsePugRound_local hround hafter hother hsame
  | false =>
    rcases parsePugRoundIf_false ctx with ⟨-, hr⟩ | ⟨token, more, hrest, ⟨-, hr⟩ | ⟨-, hr⟩⟩
    · cases hr.symm.trans hround
    · cases hr.symm.trans hround
    · cases hr.symm.trans hround
      rw [roundTokens, hrest] at hother
      refine ⟨_, parsePugRound_of_rejects hother rfl (fun h => nomatch h) (fun h => nomatch h), ?_,
        hsame.advance 1 2⟩
      rw [rest_advance, hother]
      rfl

/-- A round that ends the loop, or never returns, does so without a failure too. -/
theorem parsePugRoundIf_done_local {created : Bool} {ctx out other : ParserContext}
    (hround : parsePugRoundIf created ctx = .done out) (hrest : other.rest = ctx.rest) :
    ∃ k, out = parserAdvanceToken ctx k ∧ parsePugRound other = .done (parserAdvanceToken other k) := by
  cases created with
  | true => exact parsePugRound_done_local hround hrest
  | false =>
    rcases parsePugRoundIf_false ctx with ⟨-, hr⟩ | ⟨token, more, hnode, ⟨heof, hr⟩ | ⟨-, hr⟩⟩
    · cases hr.symm.trans hround
    · cases hr.symm.trans hround
      exact ⟨0, rfl, parsePugRound_of_eof (hrest.trans hnode) heof⟩
    · cases hr.symm.trans hround

theorem parsePugRoundIf_hangs_local {created : Bool} {ctx other : ParserContext}
    (hround : parsePugRoundIf created ctx = .hangs) (hrest : other.rest = ctx.rest) :
    parsePugRound other = .hangs := by
  cases created with
  | true => exact parsePugRound_hangs_local hround hrest
  | false =>
    rcases parsePugRoundIf_false ctx with ⟨hnil, -⟩ | ⟨token, more, -, ⟨-, hr⟩ | ⟨-, hr⟩⟩
    · exact parsePugRound_of_nil (hrest.trans hnil)
    · cases hr.symm.trans hround
    · cases hr.symm.trans hround

/-- A run with failures is one without them on tokens of which some are blanked. -/
theorem faultyLoop_blanked (creates : Nat → Bool) (round : Nat) (ctx : ParserContext) :
    Blanked ctx.rest (blankedTokens creates round ctx) ∧
      ∀ other : ParserContext, other.rest = blankedTokens creates round ctx → SameTree ctx other →
        (faultyLoop creates round ctx).map ParserContext.outcome =
          (parsePugLoop other).map ParserContext.outcome := by
  induction round, ctx using faultyLoop.induct creates with
  | case1 round ctx hround =>
    rw [blankedTokens_last (by simp [hround])]
    refine ⟨.refl _, fun other hrest _ => ?_⟩
    rw [faultyLoop_hangs hround, parsePugLoop_hangs (parsePugRoundIf_hangs_local hround hrest)]
  | case2 round ctx out hround =>
    rw [blankedTokens_last (by simp [hround])]
    refine ⟨.refl _, fun other hrest hsame => ?_⟩
    obtain ⟨k, rfl, hdone⟩ := parsePugRoundIf_done_local hround hrest
    rw [faultyLoop_done hround, parsePugLoop_done hdone, Option.map_some, Option.map_some,
      (hsame.advance k k).outcome (by rw [rest_advance, rest_advance, hrest])]
  | case3 round ctx next hround ih =>
    obtain ⟨hblanked, hrun⟩ := ih
    rw [blankedTokens_next hround]
    refine ⟨hblanked.round hround, fun other hrest hsame => ?_⟩
    obtain ⟨other', hround', hrest', hsame'⟩ :=
      parsePugRoundIf_local hround hblanked.looksLike hrest hsame
    rw [faultyLoop_next hround, parsePugLoop_next hround', hrun other' hrest' hsame']

/-- **Failing allocations.** Whichever calls of `ast_node_create` fail, `parse_pug` does what it does
without failures on the tokens with two INDENTATION tokens in the place of every token at which one
failed: it returns on the one list if and only if it does on the other, with the same tree, the same
current parent, and in front of the same token. -/
theorem parsePugFaulty_outcome (creates : Nat → Bool) (tokens : List Token) :
    (parsePugFaulty creates tokens).map ParserContext.outcome =
      (parsePug (blankedTokens creates 0 (parsePugStart tokens))).map ParserContext.outcome :=
  (faultyLoop_blanked creates 0 (parsePugStart tokens)).2 _ rfl ⟨rfl, rfl⟩

/-- The TAG token of the first line is lost, and its text is left in the root. -/
example : (parsePugFaulty (· ≠ 0) (tokenizeFile "p a\nq b".toList)).map
      (fun ctx => renderAst false 2 true (rootNode ctx)) = some "a<q>b</q>".toList := by
  decide +kernel

end CPug
