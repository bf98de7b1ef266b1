import CPug.Relabelling
import CPug.Scanner

/-!
# Lines and columns have no influence

The line and column of a token are copied into the node it starts and are read by nothing else.
`unplaced` forgets them, on tokens and on nodes; every stage commutes with it. The depth of the
tokens of a line is its indentation, which has no other influence on them (`tokenizeLine_placed`).

* `tokenizeLine_unplaced`: the tokens of a line do not depend on its number.
* `builtForest_unplaced`: the tree of a token list without positions is the tree without positions.
* `renderNodes_unplaced`: the renderer does not see positions.
-/

namespace CPug

open Outline

/-- A token without its position. -/
def Token.unplaced (token : Token) : Token := { token with line := 0, column := 0 }

/-- A node without its position. -/
def ASTNode.unplaced (node : ASTNode) : ASTNode := { node with line := 0, column := 0 }

@[simp] theorem unplaced_createToken (type : TokenType) (value : Option CString)
    (depth line column : Nat) :
    (createToken type value depth line column).unplaced = createToken type value depth 0 0 := rfl

@[simp] theorem unplaced_type (token : Token) : token.unplaced.type = token.type := rfl

@[simp] theorem unplaced_value (token : Token) : token.unplaced.value = token.value := rfl

@[simp] theorem unplaced_depth (token : Token) : token.unplaced.depth = token.depth := rfl

@[simp] theorem unplaced_node_depth (node : ASTNode) : node.unplaced.depth = node.depth := rfl

/-- A token moved to depth `depth`, without its position. -/
def Token.placed (depth : Nat) (token : Token) : Token :=
  { token with depth := depth, line := 0, column := 0 }

@[simp] theorem placed_createToken (d : Nat) (type : TokenType) (value : Option CString)
    (depth line column : Nat) :
    (createToken type value depth line column).placed d = createToken type value d 0 0 := rfl

theorem map_placed {tokens : List Token} {depth : Nat} (h : ∀ t ∈ tokens, t.depth = depth) :
    tokens.map (Token.placed depth) = tokens.map Token.unplaced := by
  apply List.map_congr_left
  intro t ht
  rw [Token.placed, Token.unplaced, ← h t ht]

/-! ## The tokenizer -/

section Line

variable {d indentLevel indentLevel' : Nat}

theorem textToken_placed (n n' column column' : Nat) (text : CString) :
    (textToken indentLevel n column text).map (Token.placed d) =
      (textToken indentLevel' n' column' text).map (Token.placed d) := by
  unfold textToken
  split <;> simp

theorem tokenizeText_placed (n n' column column' pos pos' : Nat) (buffer buffer' rest : CString) :
    (tokenizeText indentLevel n column pos buffer rest).map (Token.placed d) =
      (tokenizeText indentLevel' n' column' pos' buffer' rest).map (Token.placed d) := by
  fun_induction tokenizeText indentLevel n column pos buffer rest generalizing column' pos' buffer' with
  | case1 => rw [tokenizeText_nil]
  | case2 column pos buffer c cs text p tokens after hd p' value ih =>
    rw [tokenizeText_open buffer' hd, List.map_append, List.map_cons, List.map_append, List.map_cons]
    exact congrArg₂ _ (textToken_placed _ _ _ _ _) (congrArg _ (ih _ _ _))
  | case3 column pos buffer c cs text p tokens after hne hd ih =>
    have hafter : after.head? ≠ some '{' := by
      intro hhead
      obtain ⟨more, rfl⟩ := List.head?_eq_some_iff.mp hhead
      exact hne more rfl
    rw [tokenizeText_lone buffer' hd hafter, List.map_append, List.map_append]
    exact congrArg₂ _ (textToken_placed _ _ _ _ _) (ih _ _ _)
  | case4 column pos buffer c cs text tokens h1 h2 =>
    rw [tokenizeText_last buffer' (dropWhile_bne_eq_nil h2)]
    exact textToken_placed _ _ _ _ _

theorem tokenizeLoop_placed (n n' column column' pos pos' : Nat) (rest : CString) :
    (tokenizeLoop indentLevel n column pos rest).map (Token.placed d) =
      (tokenizeLoop indentLevel' n' column' pos' rest).map (Token.placed d) := by
  fun_induction tokenizeLoop indentLevel n column pos rest generalizing column' pos' with
  | case1 => rw [tokenizeLoop]
  | case2 column pos cs word ih =>
    rw [tokenizeLoop, if_pos rfl]
    simp only [List.map_cons, placed_createToken]
    exact congrArg _ (ih _ _)
  | case3 column pos cs word type h ih =>
    rw [tokenizeLoop, if_neg h, if_pos rfl]
    simp only [List.map_cons, placed_createToken]
    exact congrArg _ (ih _ _)
  | case4 column pos cs scanned h1 h2 ih =>
    rw [tokenizeLoop, if_neg h1, if_neg h2, if_pos rfl]
    simp only [List.map_cons, placed_createToken]
    exact congrArg _ (ih _ _)
  | case5 column pos c cs h1 h2 h3 halpha name ih =>
    rw [tokenizeLoop, if_neg h1, if_neg h2, if_neg h3, if_pos halpha]
    simp only [List.map_cons, placed_createToken]
    exact congrArg _ (ih _ _)
  | case6 column pos cs _ _ _ _ after hafter =>
    have hnil : skipWhitespace (' ' :: cs) = [] := hafter
    rw [tokenizeLoop_blank, hnil]
  | case7 column pos cs c rest hc _ _ _ _ after p hafter =>
    have hcons : skipWhitespace (' ' :: cs) = c :: rest := hafter
    rw [tokenizeLoop_blank, hafter, hcons]
    simp only [if_pos hc]
    exact tokenizeText_placed _ _ _ _ _ _ _ _ _
  | case8 column pos cs c rest hc _ _ _ _ after p hafter ih =>
    have hcons : skipWhitespace (' ' :: cs) = c :: rest := hafter
    rw [hafter] at ih
    rw [tokenizeLoop_blank, hafter, hcons]
    simp only [if_neg hc]
    exact ih _ _
  | case9 column pos c cs h1 h2 h3 h4 h5 ih =>
    rw [tokenizeLoop.eq_def indentLevel' n' column' pos' (c :: cs)]
    simp only [if_neg h1, if_neg h2, if_neg h3, if_neg h4, if_neg h5]
    exact ih _ _

theorem tokenizeLoop_unplaced (n n' column column' pos pos' : Nat) (rest : CString) :
    (tokenizeLoop indentLevel n column pos rest).map Token.unplaced =
      (tokenizeLoop indentLevel n' column' pos' rest).map Token.unplaced := by
  rw [← map_placed fun t ht => (tokenizeLoop_lineToken _ _ _ t ht).depth,
    ← map_placed fun t ht => (tokenizeLoop_lineToken _ _ _ t ht).depth]
  exact tokenizeLoop_placed _ _ _ _ _ _ _

end Line

/-- The indentation of a line has no influence on its tokens but for their depth. -/
theorem tokenizeLine_placed {w w' body : CString} (hw : ∀ c ∈ w, isBlank c = true)
    (hw' : ∀ c ∈ w', isBlank c = true) (hbody : StopsAt isBlank body) (d n n' : Nat) :
    (tokenizeLine (w ++ body) n).map (Token.placed d) =
      (tokenizeLine (w' ++ body) n').map (Token.placed d) := by
  unfold tokenizeLine
  rw [skipWhitespace_append hw hbody, skipWhitespace_append hw' hbody]
  dsimp only
  split
  · rfl
  split
  · rfl
  split
  · rfl
  split
  · rfl
  split
  · rfl
  split
  · rfl
  · rfl
  · rfl
  · rfl
  · rfl
  · exact tokenizeLoop_placed _ _ _ _ _ _ _

/-- The tokens of a line do not depend on its number. -/
theorem tokenizeLine_unplaced (line : CString) (n n' : Nat) :
    (tokenizeLine line n).map Token.unplaced = (tokenizeLine line n').map Token.unplaced := by
  have hsplit : line.takeWhile isBlank ++ line.dropWhile isBlank = line :=
    List.takeWhile_append_dropWhile
  have hblank : ∀ c ∈ line.takeWhile isBlank, isBlank c = true := fun c hc =>
    List.mem_takeWhile_imp hc
  have hplaced := tokenizeLine_placed hblank hblank (stopsAt_dropWhile line)
    (countIndentLevel line) n n'
  rw [hsplit] at hplaced
  rwa [map_placed fun t ht => (tokenizeLine_lineToken _ _ t ht).depth,
    map_placed fun t ht => (tokenizeLine_lineToken _ _ t ht).depth] at hplaced

theorem tokenizeLines_unplaced (lines : List CString) (n n' : Nat) :
    (tokenizeLines n lines).map Token.unplaced = (tokenizeLines n' lines).map Token.unplaced := by
  induction lines generalizing n n' with
  | nil => rfl
  | cons line lines ih =>
    rw [tokenizeLines, tokenizeLines, List.map_append, List.map_append,
      tokenizeLine_unplaced line n n', ih (n + 1) (n' + 1)]

/-! ## The parser -/

/-- A step with the position of its node forgotten. -/
def AbsorbStep.unplaced : AbsorbStep → AbsorbStep
  | .stops => .stops
  | .spins => .spins
  | .takes out => .takes out.unplaced

theorem parseClasses_unplaced (node : ASTNode) (className : CString) :
    parseClasses node.unplaced className = (parseClasses node className).unplaced := by
  rw [parseClasses, parseClasses]
  split <;> rfl

theorem absorbStep_unplaced (node : ASTNode) (token : Token) :
    absorbStep node.unplaced token.unplaced = (absorbStep node token).unplaced := by
  by_cases hd : token.depth = node.depth
  · rw [absorbStep, absorbStep, if_neg (by simpa using hd), if_neg (by simpa using hd)]
    simp only [unplaced_type, unplaced_value]
    split
    · rfl
    · rw [parseClasses_unplaced]
      rfl
    · split <;> rfl
    · rfl
    · rfl
    · rfl
  · rw [absorbStep, absorbStep, if_pos (by simpa using hd), if_pos hd]
    rfl

theorem relabels_unplaced : Relabels Token.unplaced ASTNode.unplaced where
  type _ := rfl
  startNode t _ := by
    obtain ⟨type, value, line, column, depth⟩ := t
    cases type <;> rfl
  absorbStep node t := by
    rw [absorbStep_unplaced]
    cases CPug.absorbStep node t <;> rfl

/-- The tree of a token list without positions is the tree without positions. -/
theorem builtForest_unplaced (tokens : List Token) :
    builtForest (tokens.map Token.unplaced) =
      (builtForest tokens).map (Forest.map ASTNode.unplaced) :=
  builtForest_map relabels_unplaced (fun _ _ => Iff.rfl) fun _ _ _ => Iff.rfl

/-! ## The renderer -/

/-- The renderer does not see positions. -/
theorem renderNodes_unplaced (useTabs : Bool) (tabSize : Nat) (minify : Bool)
    (f : Forest ASTNode) :
    renderNodes useTabs tabSize minify (f.map ASTNode.unplaced) =
      renderNodes useTabs tabSize minify f :=
  @renderNodes_map useTabs tabSize minify ASTNode.unplaced (fun _ _ _ => rfl) f

/-- The output depends on the tokens without their positions. -/
theorem render_builtForest_unplaced {useTabs : Bool} {tabSize : Nat} {minify : Bool}
    {tokens tokens' : List Token} (h : tokens.map Token.unplaced = tokens'.map Token.unplaced) :
    (builtForest tokens).map (renderNodes useTabs tabSize minify) =
      (builtForest tokens').map (renderNodes useTabs tabSize minify) := by
  have hrender : ∀ tokens : List Token,
      (builtForest (tokens.map Token.unplaced)).map (renderNodes useTabs tabSize minify) =
        (builtForest tokens).map (renderNodes useTabs tabSize minify) := by
    intro tokens
    rw [builtForest_unplaced, Option.map_map]
    congr 1
    funext f
    exact renderNodes_unplaced useTabs tabSize minify f
  rw [← hrender tokens, h, hrender]

end CPug
