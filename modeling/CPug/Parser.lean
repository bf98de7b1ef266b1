import CPug.Outline.Layout
import CPug.Tokenizer

/-!
# The parser

`pug_parser.h`. The tree under construction lives in memory: a list of cells in creation order,
cell `0` being the artificial root, with the parent and child pointers as cell numbers.
`ParserContext` keeps the token list, the index `current_token`, the pointer `current_parent` and
that memory. `current_depth`, which is written and never read, is left out.

`parse_node` only reads the tokens from `current_token` on, so the model gives it that suffix and
gets back how far it advances. Two loops of the source can run for ever on token lists the
tokenizer does not make: the absorb loop on an ATTRIBUTE token without a value, and `parse_pug` on
a list without an EOF token. Both outcomes are explicit (`hangs`, `none`).
-/

namespace CPug

open Outline

/-! ## Attributes and classes -/

/-- Drop a pair of matching quotes around a value. -/
def stripQuotes (value : CString) : CString :=
  if value = [] then []
  else if (value.head? = some '"' ∧ value.getLast? = some '"') ∨
      (value.head? = some '\'' ∧ value.getLast? = some '\'') then
    value.dropLast.drop 1
  else value

/-- One round of the loop of `parse_attributes` over the pieces between commas. -/
def parseAttributePair (pair : CString) : Option Attribute :=
  let attrStr := gStrstrip pair
  if attrStr = [] then none
  else
    match gStrsplit2 attrStr '=' with
    | [key, value] =>
      if key = [] then none
      else
        let name := gStrstrip key
        if name = [] then none
        else some { name := name, value := stripQuotes (gStrstrip value), type := .attrString }
    | _ => none

/-- The attributes that `parse_attributes` adds for the value of an ATTRIBUTE token. -/
def parseAttributes (value : CString) : List Attribute :=
  (gStrsplit value ',').filterMap parseAttributePair

/-- `parse_classes`. -/
def parseClasses (node : ASTNode) (className : CString) : ASTNode :=
  if className = [] then node else { node with classes := node.classes ++ [className] }

/-! ## `parse_node` -/

/-- What `parse_node` does: it never returns, it returns `NULL`, or it returns a node; in the last
two cases with the number of tokens it advances over. -/
inductive NodeResult where
  | hangs
  | null (advanced : Nat)
  | node (node : ASTNode) (advanced : Nat)
deriving Repr, DecidableEq

/-- The text a TEXT or INTERPOLATION token adds to a TAG node. -/
def appendText (textContent : Option CString) (value : CString) : CString :=
  match textContent with
  | some text => gStrstrip (text ++ ' ' :: value)
  | none => gStrstrip value

/-- What one round of the loop after a TAG token does with the current token: leave the loop,
stay on the token for ever, or take it into the node. -/
inductive AbsorbStep where
  | stops
  | spins
  | takes (node : ASTNode)
deriving Repr, DecidableEq

/-- One round of the loop after a TAG token. -/
def absorbStep (node : ASTNode) (token : Token) : AbsorbStep :=
  if token.depth ≠ node.depth then .stops
  else
    match token.type with
    | .tokenId => .takes { node with id := some (gStrstrip (token.value.getD [])) }
    | .tokenClass => .takes (parseClasses node (token.value.getD []))
    | .tokenAttribute =>
      match token.value with
      -- `parse_attributes` returns without advancing.
      | none => .spins
      | some value =>
        .takes { node with attributes := some (node.attributes.getD [] ++ parseAttributes value) }
    | .tokenText | .tokenInterpolation =>
      .takes { node with
        textContent := some (appendText node.textContent (token.value.getD []))
        isInline := true }
    | _ => .stops

/-- The loop after a TAG token: `advanced` tokens are consumed, `rest` are left. -/
def absorb (node : ASTNode) (advanced : Nat) : List Token → NodeResult
  | [] => .node node advanced
  | token :: rest =>
    match absorbStep node token with
    | .stops => .node node advanced
    | .spins => .hangs
    | .takes node => absorb node (advanced + 1) rest

/-- `parse_node` on the tokens from `current_token` on. -/
def parseNodeFrom (rest : List Token) : NodeResult :=
  match rest with
  | [] => .null 0
  | token :: rest =>
    if token.type = .tokenEof then .null 0
    else
      let node := { astNodeCreate token.type token.depth with
        line := token.line, column := token.column }
      let text := some (gStrstrip (token.value.getD []))
      match token.type with
      | .tokenTag => absorb { node with tag := some (token.value.getD "div".toList) } 1 rest
      | .tokenText | .tokenPipe | .tokenDot =>
        .node { node with
          textContent := text
          nodeType := .tokenText
          isBlock := token.type = .tokenDot ∨ token.type = .tokenPipe } 1
      | .tokenCode => .node { node with textContent := text } 1
      | .tokenComment | .tokenBlockComment => .node { node with textContent := text } 1
      | .tokenInterpolation => .node { node with textContent := text } 1
      | .tokenDoctype =>
        .node { node with
          tag := some "doctype".toList
          textContent := some (gStrstrip (token.value.getD "html".toList)) } 1
      | .tokenInclude => .node { node with tag := some "include".toList, textContent := text } 1
      | .tokenExtends => .node { node with tag := some "extends".toList, textContent := text } 1
      | .tokenMixin => .node { node with tag := some "mixin".toList, textContent := text } 1
      | .tokenCall => .node { node with tag := some "call".toList, textContent := text } 1
      | _ => .null 1

/-! ## `parse_pug` -/

structure ParserContext where
  tokens : List Token
  currentToken : Nat
  currentParent : Nat
  memory : List (Cell ASTNode)
deriving Repr, DecidableEq

/-- The tokens from `current_token` on. -/
def ParserContext.rest (ctx : ParserContext) : List Token := ctx.tokens.drop ctx.currentToken

/-- `parser_get_current_token`. -/
def parserGetCurrentToken (ctx : ParserContext) : Option Token := ctx.tokens[ctx.currentToken]?

/-- `parser_advance_token`, a number of times. -/
def parserAdvanceToken (ctx : ParserContext) (n : Nat) : ParserContext :=
  { ctx with currentToken := ctx.currentToken + n }

/-- `parse_node`. -/
def parseNode (ctx : ParserContext) : NodeResult := parseNodeFrom ctx.rest

/-- The artificial root. -/
def rootLabel : ASTNode :=
  { astNodeCreate .tokenTag uintMax with tag := some "root".toList }

/-- The context at the first round of the loop of `parse_pug`. -/
def parsePugStart (tokens : List Token) : ParserContext where
  tokens := tokens
  currentToken := 0
  currentParent := 0
  memory := [⟨rootLabel, none, []⟩]

/-- Link a node that `parse_node` returned: walk back to its parent, `ast_node_add_child`, and
make it the current parent when the next token is deeper. -/
def addNode (ctx : ParserContext) (node : ASTNode) : ParserContext :=
  let parent := walkUp ASTNode.depth ctx.memory node.depth ctx.currentParent
  let deeper := (parserGetCurrentToken ctx).any fun next => decide (node.depth < next.depth)
  { ctx with
    memory := addChild ctx.memory parent node
    currentParent := if deeper then ctx.memory.length else parent }

/-- The outcome of one round of the loop of `parse_pug`. -/
inductive Round where
  | hangs
  | done (ctx : ParserContext)
  | next (ctx : ParserContext)
deriving Repr, DecidableEq

/-- One round of the loop of `parse_pug`. -/
def parsePugRound (ctx : ParserContext) : Round :=
  match parseNode ctx with
  | .hangs => .hangs
  | .node node advanced => .next (addNode (parserAdvanceToken ctx advanced) node)
  | .null advanced =>
    let ctx := parserAdvanceToken ctx advanced
    match parserGetCurrentToken ctx with
    | some token =>
      if token.type = .tokenEof then .done ctx else .next (parserAdvanceToken ctx 1)
    -- No EOF token is left: `current_token` runs on to 2^32 and around, and the loop never ends.
    | none => .hangs

/-! ## What `parse_node` returns -/

/-- The token types the loop after a TAG token takes. -/
def TokenType.isAbsorbed : TokenType → Bool
  | .tokenId | .tokenClass | .tokenAttribute | .tokenText | .tokenInterpolation => true
  | _ => false

/-- The token types that start a node. -/
def TokenType.startsNode : TokenType → Bool
  | .tokenClass | .tokenId | .tokenAttribute | .tokenIndentation | .tokenEof => false
  | _ => true

/-- The loop after a TAG of depth `depth` takes the token. -/
def absorbs (depth : Nat) (token : Token) : Bool :=
  decide (token.depth = depth) && token.type.isAbsorbed

/-- The node after it took a token. -/
def absorbToken (node : ASTNode) (token : Token) : ASTNode :=
  match absorbStep node token with
  | .takes node => node
  | _ => node

/-- Every ATTRIBUTE token has a value. -/
def Valued (tokens : List Token) : Prop :=
  ∀ token ∈ tokens, token.type = .tokenAttribute → token.value ≠ none

/-- The tokens that belong to the node started by `token`, the first one left out. -/
def group (token : Token) (rest : List Token) : List Token :=
  if token.type = .tokenTag then rest.takeWhile (absorbs token.depth) else []

/-- The node started by `token`, before it takes further tokens. -/
def startNode (token : Token) : ASTNode :=
  match parseNodeFrom [token] with
  | .node node _ => node
  | _ => astNodeCreate token.type token.depth

theorem ne_eof_of_startsNode {type : TokenType} (h : type.startsNode = true) : type ≠ .tokenEof := by
  rintro rfl
  cases h

theorem absorbStep_stops {node : ASTNode} {token : Token} (h : absorbs node.depth token = false) :
    absorbStep node token = .stops := by
  by_cases hd : token.depth = node.depth
  · have ht : token.type.isAbsorbed = false := by simpa [absorbs, hd] using h
    rw [absorbStep, if_neg (by simpa using hd)]
    cases hty : token.type <;> simp [hty, TokenType.isAbsorbed] at ht ⊢
  · rw [absorbStep, if_pos hd]

theorem absorbStep_takes {node : ASTNode} {token : Token} (h : absorbs node.depth token = true)
    (hv : token.type = .tokenAttribute → token.value ≠ none) :
    absorbStep node token = .takes (absorbToken node token) := by
  obtain ⟨hd, ht⟩ : token.depth = node.depth ∧ token.type.isAbsorbed = true := by
    simpa [absorbs] using h
  suffices ∃ node', absorbStep node token = .takes node' by
    obtain ⟨node', hn⟩ := this
    rw [absorbToken, hn]
  rw [absorbStep, if_neg (by simpa using hd)]
  cases hty : token.type <;> simp [hty, TokenType.isAbsorbed] at ht hv ⊢
  cases hval : token.value with
  | none => exact absurd hval hv
  | some value => exact ⟨_, rfl⟩

/-- Two nodes that differ at most in what the loop after a TAG token collects. -/
structure SameHead (a b : ASTNode) : Prop where
  depth : b.depth = a.depth
  line : b.line = a.line
  column : b.column = a.column
  nodeType : b.nodeType = a.nodeType
  tag : b.tag = a.tag
  isVoid : b.isVoid = a.isVoid
  isBlock : b.isBlock = a.isBlock

theorem SameHead.refl (a : ASTNode) : SameHead a a := ⟨rfl, rfl, rfl, rfl, rfl, rfl, rfl⟩

theorem SameHead.trans {a b c : ASTNode} (hab : SameHead a b) (hbc : SameHead b c) :
    SameHead a c :=
  ⟨hbc.depth.trans hab.depth, hbc.line.trans hab.line, hbc.column.trans hab.column,
    hbc.nodeType.trans hab.nodeType, hbc.tag.trans hab.tag, hbc.isVoid.trans hab.isVoid,
    hbc.isBlock.trans hab.isBlock⟩

theorem parseClasses_sameHead (node : ASTNode) (className : CString) :
    SameHead node (parseClasses node className) := by
  rw [parseClasses]
  split
  · exact .refl node
  · exact ⟨rfl, rfl, rfl, rfl, rfl, rfl, rfl⟩

theorem absorbStep_sameHead {node node' : ASTNode} {token : Token}
    (h : absorbStep node token = .takes node') : SameHead node node' := by
  unfold absorbStep at h
  split at h
  · cases h
  · split at h
    · cases h
      exact ⟨rfl, rfl, rfl, rfl, rfl, rfl, rfl⟩
    · cases h
      exact parseClasses_sameHead node _
    · split at h
      · cases h
      · cases h
        exact ⟨rfl, rfl, rfl, rfl, rfl, rfl, rfl⟩
    · cases h
      exact ⟨rfl, rfl, rfl, rfl, rfl, rfl, rfl⟩
    · cases h
      exact ⟨rfl, rfl, rfl, rfl, rfl, rfl, rfl⟩
    · cases h

theorem absorbToken_sameHead (node : ASTNode) (token : Token) :
    SameHead node (absorbToken node token) := by
  rw [absorbToken]
  split
  · rename_i h
    exact absorbStep_sameHead h
  · exact .refl node

/-- A token leaves the attributes alone or adds those of its value. -/
theorem absorbToken_attributes (node : ASTNode) (token : Token) :
    (absorbToken node token).attributes = node.attributes ∨
      ∃ value, (absorbToken node token).attributes =
        some (node.attributes.getD [] ++ parseAttributes value) := by
  rw [absorbToken]
  split
  · rename_i node' hstep
    unfold absorbStep at hstep
    split at hstep
    · cases hstep
    split at hstep
    · cases hstep
      exact Or.inl rfl
    · cases hstep
      rw [parseClasses]
      split <;> exact Or.inl rfl
    · split at hstep
      · cases hstep
      · rename_i value _
        cases hstep
        exact Or.inr ⟨value, rfl⟩
    · cases hstep
      exact Or.inl rfl
    · cases hstep
      exact Or.inl rfl
    · cases hstep
  · exact Or.inl rfl

theorem foldl_absorbToken_sameHead (node : ASTNode) (tokens : List Token) :
    SameHead node (tokens.foldl absorbToken node) := by
  induction tokens generalizing node with
  | nil => exact .refl node
  | cons token tokens ih => exact (absorbToken_sameHead node token).trans (ih _)

/-- When the loop after a TAG token returns, it has taken the longest run of tokens it takes. -/
theorem absorb_eq_of_node {node out : ASTNode} {advanced n : Nat} {rest : List Token}
    (h : absorb node advanced rest = .node out n) :
    out = (rest.takeWhile (absorbs node.depth)).foldl absorbToken node ∧
      n = advanced + (rest.takeWhile (absorbs node.depth)).length := by
  induction rest generalizing node advanced with
  | nil =>
    cases h
    exact ⟨rfl, rfl⟩
  | cons token rest ih =>
    cases hab : absorbs node.depth token with
    | false =>
      rw [absorb, absorbStep_stops hab] at h
      cases h
      simp [List.takeWhile_cons_of_neg, hab]
    | true =>
      have hv : token.type = .tokenAttribute → token.value ≠ none := by
        intro hty hval
        obtain ⟨hd, -⟩ : token.depth = node.depth ∧ token.type.isAbsorbed = true := by
          simpa [absorbs] using hab
        rw [absorb, absorbStep, if_neg (by simpa using hd)] at h
        simp only [hty, hval] at h
        cases h
      rw [absorb, absorbStep_takes hab hv] at h
      have := ih h
      rw [(absorbToken_sameHead node token).depth] at this
      rw [List.takeWhile_cons_of_pos hab, List.foldl_cons, List.length_cons]
      exact ⟨this.1, by omega⟩

theorem absorb_ne_null (node : ASTNode) (advanced : Nat) (rest : List Token) (n : Nat) :
    absorb node advanced rest ≠ .null n := by
  induction rest generalizing node advanced with
  | nil => simp [absorb]
  | cons token rest ih =>
    rw [absorb]
    split
    · simp
    · simp
    · exact ih _ _

/-- With a value in every ATTRIBUTE token the loop after a TAG token returns. -/
theorem absorb_of_valued (node : ASTNode) (advanced : Nat) {rest : List Token}
    (hv : Valued rest) :
    absorb node advanced rest = .node ((rest.takeWhile (absorbs node.depth)).foldl absorbToken node)
      (advanced + (rest.takeWhile (absorbs node.depth)).length) := by
  suffices ∃ out n, absorb node advanced rest = .node out n by
    obtain ⟨out, n, h⟩ := this
    rw [h, (absorb_eq_of_node h).1, (absorb_eq_of_node h).2]
  induction rest generalizing node advanced with
  | nil => exact ⟨_, _, rfl⟩
  | cons token rest ih =>
    cases hab : absorbs node.depth token with
    | false => exact ⟨_, _, by rw [absorb, absorbStep_stops hab]⟩
    | true =>
      rw [absorb, absorbStep_takes hab (hv token List.mem_cons_self)]
      exact ih _ _ fun t ht => hv t (List.mem_cons_of_mem _ ht)

theorem parseNodeFrom_eof {token : Token} (rest : List Token) (h : token.type = .tokenEof) :
    parseNodeFrom (token :: rest) = .null 0 := by
  rw [parseNodeFrom, if_pos h]

/-- The default branch. -/
theorem parseNodeFrom_rejects {token : Token} (rest : List Token)
    (hs : token.type.startsNode = false) (he : token.type ≠ .tokenEof) :
    parseNodeFrom (token :: rest) = .null 1 := by
  rw [parseNodeFrom, if_neg he]
  cases hty : token.type <;> simp [hty, TokenType.startsNode] at hs he ⊢

/-- A token other than a TAG makes a node of its own. -/
theorem parseNodeFrom_single {token : Token} (rest : List Token)
    (hs : token.type.startsNode = true) (ht : token.type ≠ .tokenTag) :
    parseNodeFrom (token :: rest) = .node (startNode token) 1 := by
  have he : token.type ≠ .tokenEof := ne_eof_of_startsNode hs
  rw [startNode, parseNodeFrom, parseNodeFrom, if_neg he, if_neg he]
  cases hty : token.type <;> simp [hty, TokenType.startsNode] at hs ht ⊢

/-- A TAG token enters the loop. -/
theorem parseNodeFrom_tag {token : Token} (rest : List Token) (ht : token.type = .tokenTag) :
    parseNodeFrom (token :: rest) = absorb (startNode token) 1 rest := by
  have he : token.type ≠ .tokenEof := by simp [ht]
  rw [startNode, parseNodeFrom, parseNodeFrom, if_neg he, if_neg he]
  simp only [ht, absorb]

/-- The head of the node a token starts. -/
theorem startNode_head {token : Token} (hs : token.type.startsNode = true) :
    (startNode token).depth = token.depth ∧ (startNode token).line = token.line ∧
      (startNode token).column = token.column := by
  have he : token.type ≠ .tokenEof := ne_eof_of_startsNode hs
  rw [startNode, parseNodeFrom, if_neg he]
  cases hty : token.type <;> simp [hty, TokenType.startsNode, absorb, astNodeCreate] at hs ⊢

/-- Everything `parse_node` can do: it stands on the end or on EOF, it rejects the token, it
never returns, or it returns the node made of the token and its group. -/
theorem parseNodeFrom_cases (rest : List Token) :
    (parseNodeFrom rest = .null 0 ∧ ∀ token ∈ rest.head?, token.type = .tokenEof) ∨
    (∃ token more, rest = token :: more ∧ token.type.startsNode = false ∧
      token.type ≠ .tokenEof ∧ parseNodeFrom rest = .null 1) ∨
    (parseNodeFrom rest = .hangs ∧ ¬ Valued rest) ∨
    ∃ token more, rest = token :: more ∧ token.type.startsNode = true ∧
      parseNodeFrom rest =
        .node ((group token more).foldl absorbToken (startNode token)) (1 + (group token more).length)
    := by
  cases rest with
  | nil => exact Or.inl ⟨rfl, by simp⟩
  | cons token more =>
    by_cases he : token.type = .tokenEof
    · exact Or.inl ⟨parseNodeFrom_eof more he, by simpa using he⟩
    cases hs : token.type.startsNode with
    | false => exact Or.inr (Or.inl ⟨token, more, rfl, hs, he, parseNodeFrom_rejects more hs he⟩)
    | true =>
      by_cases ht : token.type = .tokenTag
      · have hd : (startNode token).depth = token.depth := (startNode_head hs).1
        cases habs : absorb (startNode token) 1 more with
        | hangs =>
          refine Or.inr (Or.inr (Or.inl ⟨by rw [parseNodeFrom_tag more ht, habs], fun hv => ?_⟩))
          rw [absorb_of_valued _ _ fun t h => hv t (List.mem_cons_of_mem _ h)] at habs
          cases habs
        | null n => exact absurd habs (absorb_ne_null _ _ _ n)
        | node out n =>
          obtain ⟨rfl, rfl⟩ := absorb_eq_of_node habs
          refine Or.inr (Or.inr (Or.inr ⟨token, more, rfl, hs, ?_⟩))
          rw [parseNodeFrom_tag more ht, habs, group, if_pos ht, hd]
      · refine Or.inr (Or.inr (Or.inr ⟨token, more, rfl, hs, ?_⟩))
        rw [parseNodeFrom_single more hs ht, group, if_neg ht]
        rfl

/-- With a value in every ATTRIBUTE token `parse_node` returns the node of an accepted token. -/
theorem parseNodeFrom_of_valued {token : Token} {more : List Token}
    (hs : token.type.startsNode = true) (hv : Valued (token :: more)) :
    parseNodeFrom (token :: more) =
      .node ((group token more).foldl absorbToken (startNode token))
        (1 + (group token more).length) := by
  rcases parseNodeFrom_cases (token :: more) with ⟨-, he⟩ | ⟨t, m, heq, hr, -⟩ | ⟨-, hn⟩ |
      ⟨t, m, heq, -, hp⟩
  · have := he token rfl
    simp [this, TokenType.startsNode] at hs
  · obtain ⟨rfl, rfl⟩ := List.cons.inj heq
    simp [hs] at hr
  · exact absurd hv hn
  · obtain ⟨rfl, rfl⟩ := List.cons.inj heq
    exact hp

theorem length_group_le (token : Token) (rest : List Token) :
    (group token rest).length ≤ rest.length := by
  rw [group]
  split
  · exact (List.takeWhile_sublist _).length_le
  · simp

/-- The group is what the node takes from the tokens after its first. -/
theorem take_length_group (token : Token) (rest : List Token) :
    rest.take (group token rest).length = group token rest := by
  have h : group token rest <+: rest := by
    rw [group]
    split
    · exact List.takeWhile_prefix _
    · exact List.nil_prefix
  exact (List.prefix_iff_eq_take.mp h).symm

theorem group_append_drop (token : Token) (rest : List Token) :
    group token rest ++ rest.drop (group token rest).length = rest := by
  conv_lhs => rw [← take_length_group token rest, List.length_take,
    Nat.min_eq_left (length_group_le token rest)]
  exact List.take_append_drop _ _

end CPug
