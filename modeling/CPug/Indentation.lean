import Mathlib.Order.Monotone.Basic
import CPug.Composition
import CPug.Element

/-!
# Only relative indentation matters

The depths of the tokens are only compared with each other: whether two are equal (in the loop
after a TAG), and which of two is smaller (walking back to the parent, and looking ahead). A map `g`
of the levels that keeps their order therefore changes nothing but the depths in the tree
(`relabels_regrade`), and these are not seen in the minified output. EOF keeps its depth zero, below
which no level is. With that a document may be indented anew, by spaces or by tabs:
`processPugFile_reindents`.
-/

namespace CPug

open Outline

/-! ## Documents -/

/-- A line indented by `2 * level` spaces. -/
structure IndentedLine where
  level : Nat
  body : CString
  stops : StopsAt isBlank body
  singleLine : '\n' ∉ body

def IndentedLine.print (l : IndentedLine) : CString := List.replicate (2 * l.level) ' ' ++ l.body

/-- The line with another indentation: `2 * g level` spaces, or `g level` tabs. -/
inductive Reindents (g : Nat → Nat) (l : IndentedLine) : CString → Prop
  | spaces : Reindents g l (List.replicate (2 * g l.level) ' ' ++ l.body)
  | tabs : Reindents g l (List.replicate (g l.level) '\t' ++ l.body)

/-! ## Moving depths -/

/-- A token with its depth mapped; EOF stays where it is. -/
def Token.regrade (g : Nat → Nat) (token : Token) : Token :=
  { token with depth := if token.type = .tokenEof then token.depth else g token.depth }

def ASTNode.regrade (g : Nat → Nat) (node : ASTNode) : ASTNode := { node with depth := g node.depth }

section Regrade

variable {g : Nat → Nat}

@[simp] theorem regrade_type (token : Token) : (token.regrade g).type = token.type := rfl

@[simp] theorem regrade_value (token : Token) : (token.regrade g).value = token.value := rfl

@[simp] theorem regrade_node_depth (node : ASTNode) : (node.regrade g).depth = g node.depth := rfl

theorem regrade_depth {token : Token} (h : token.type ≠ .tokenEof) :
    (token.regrade g).depth = g token.depth := if_neg h

theorem parseClasses_regrade (node : ASTNode) (className : CString) :
    parseClasses (node.regrade g) className = (parseClasses node className).regrade g := by
  unfold parseClasses
  split <;> rfl

theorem absorbs_eof (depth : Nat) {token : Token} (h : token.type = .tokenEof) :
    absorbs depth token = false := by
  simp [absorbs, h, TokenType.isAbsorbed]

theorem absorbStep_regrade (hg : StrictMono g) (node : ASTNode) (token : Token) :
    absorbStep (node.regrade g) (token.regrade g) =
      (absorbStep node token).map (ASTNode.regrade g) := by
  by_cases he : token.type = .tokenEof
  · have he' : (token.regrade g).type = .tokenEof := he
    rw [absorbStep_stops (absorbs_eof _ he), absorbStep_stops (absorbs_eof _ he')]
    rfl
  have hdepth : (token.regrade g).depth = (node.regrade g).depth ↔ token.depth = node.depth := by
    rw [regrade_depth he, regrade_node_depth]
    exact hg.injective.eq_iff
  unfold absorbStep
  by_cases hd : token.depth = node.depth
  · rw [if_neg (by simpa using hdepth.mpr hd), if_neg (by simpa using hd)]
    simp only [regrade_type, regrade_value]
    split
    · rfl
    · rw [parseClasses_regrade]
      rfl
    · split <;> rfl
    · rfl
    · rfl
    · rfl
  · rw [if_pos fun h => hd (hdepth.mp h), if_pos hd]
    rfl

theorem relabels_regrade (hg : StrictMono g) :
    Relabels (Token.regrade g) (ASTNode.regrade g) where
  type _ := rfl
  startNode t hs := by
    obtain ⟨type, value, line, column, depth⟩ := t
    cases type <;> first | rfl | cases hs
  absorbStep := absorbStep_regrade hg

/-- The tree of the moved tokens is the moved tree, when EOF stands at depth zero. -/
theorem builtForest_regrade (hg : StrictMono g) {tokens : List Token}
    (heof : ∀ t ∈ tokens, t.type = .tokenEof → t.depth = 0) :
    builtForest (tokens.map (Token.regrade g)) =
      (builtForest tokens).map (Forest.map (ASTNode.regrade g)) := by
  apply builtForest_map (relabels_regrade hg)
  · intro a b
    exact hg.le_iff_le
  · intro node t ht
    by_cases he : t.type = .tokenEof
    · have h0 : t.depth = 0 := heof t ht he
      have h0' : (t.regrade g).depth = 0 := (if_pos he).trans h0
      rw [h0, h0']
      simp
    · rw [regrade_depth he, regrade_node_depth]
      exact hg.lt_iff_lt

/-- The minified output does not depend on the depths. -/
theorem renderNodes_regrade (useTabs : Bool) (tabSize : Nat) (f : Forest ASTNode) :
    renderNodes useTabs tabSize true (f.map (ASTNode.regrade g)) =
      renderNodes useTabs tabSize true f :=
  @renderNodes_map useTabs tabSize true (ASTNode.regrade g) (fun _ _ _ => rfl) f

end Regrade

/-! ## Indenting anew -/

theorem countIndentLevel_of_stops {body : CString} (h : StopsAt isBlank body) :
    countIndentLevel body = 0 := by
  have hspaces := countIndentLevel_spaces 0 h
  simpa using hspaces

/-- A tab counts one. -/
theorem countIndentLevel_tabs (n : Nat) {body : CString} (h : StopsAt isBlank body) :
    countIndentLevel (List.replicate n '\t' ++ body) = n := by
  induction n with
  | zero => simpa using countIndentLevel_of_stops h
  | succ n ih =>
    rw [List.replicate_succ, List.cons_append, countIndentLevel, if_pos rfl, ih]
    omega

section Lines

variable {g : Nat → Nat} {l : IndentedLine} {line : CString}

theorem IndentedLine.countIndentLevel_print (l : IndentedLine) :
    countIndentLevel l.print = l.level := by
  rw [IndentedLine.print, countIndentLevel_level _ l.stops]

theorem Reindents.exists_append (h : Reindents g l line) :
    ∃ w, line = w ++ l.body ∧ (∀ c ∈ w, isBlank c = true) ∧ countIndentLevel line = g l.level := by
  cases h with
  | spaces =>
    exact ⟨_, rfl, fun c hc => isBlank_of_mem_replicate rfl hc, countIndentLevel_level _ l.stops⟩
  | tabs =>
    exact ⟨_, rfl, fun c hc => isBlank_of_mem_replicate rfl hc, countIndentLevel_tabs _ l.stops⟩

theorem Reindents.singleLine (h : Reindents g l line) : '\n' ∉ line := by
  obtain ⟨w, rfl, hw, -⟩ := h.exists_append
  intro hmem
  rcases List.mem_append.mp hmem with hmem | hmem
  · have := hw _ hmem
    simp [isBlank] at this
  · exact l.singleLine hmem

/-- The line with another indentation has the moved tokens. -/
theorem Reindents.tokenizeLine (h : Reindents g l line) (n n' : Nat) :
    (CPug.tokenizeLine line n').map Token.unplaced =
      ((CPug.tokenizeLine l.print n).map (Token.regrade g)).map Token.unplaced := by
  obtain ⟨w, hline, hw, hlevel⟩ := h.exists_append
  have hprint : ∀ c ∈ List.replicate (2 * l.level) ' ', isBlank c = true :=
    fun c hc => isBlank_of_mem_replicate rfl hc
  have htokens := tokenizeLine_lineToken l.print n
  rw [← map_placed fun t ht => (tokenizeLine_lineToken line n' t ht).depth, hlevel, hline,
    tokenizeLine_placed hw hprint l.stops _ n' n, List.map_map]
  apply List.map_congr_left
  intro t ht
  have hdepth : (t.regrade g).depth = g l.level := by
    rw [regrade_depth (htokens t ht).ne_eof, (htokens t ht).depth, l.countIndentLevel_print]
  rw [Function.comp_apply, Token.unplaced, hdepth]
  rfl

end Lines

theorem tokenizeLines_reindents {g : Nat → Nat} {lines : List IndentedLine}
    {lines' : List CString} (h : List.Forall₂ (Reindents g) lines lines') (n n' : Nat) :
    (tokenizeLines n' lines').map Token.unplaced =
      ((tokenizeLines n (lines.map IndentedLine.print)).map (Token.regrade g)).map
        Token.unplaced := by
  induction h generalizing n n' with
  | nil => rfl
  | cons hline _ ih =>
    rw [List.map_cons, tokenizeLines, tokenizeLines, List.map_append, List.map_append,
      List.map_append, hline.tokenizeLine n n', ih (n + 1) (n' + 1)]

/-- **Only relative indentation matters.** In a document indented by even numbers of spaces, the
levels may be mapped by any strictly increasing function and written with spaces or with tabs, line
by line: the minified output stays the same. -/
theorem processPugFile_reindents {g : Nat → Nat} (hg : StrictMono g) {lines : List IndentedLine}
    {lines' : List CString} (h : List.Forall₂ (Reindents g) lines lines') (useTabs : Bool)
    (tabSize : Nat) :
    processPugFile useTabs tabSize true (['\n'].intercalate lines') =
      processPugFile useTabs tabSize true (['\n'].intercalate (lines.map IndentedLine.print)) := by
  have hprint : ∀ line ∈ lines.map IndentedLine.print, '\n' ∉ line := by
    intro line hline
    obtain ⟨l, -, rfl⟩ := List.mem_map.mp hline
    exact Reindents.singleLine (g := id) .spaces
  have hlines' : ∀ line ∈ lines', '\n' ∉ line := by
    clear hprint
    induction h with
    | nil => simp
    | cons hline _ ih => exact List.forall_mem_cons.mpr ⟨hline.singleLine, ih⟩
  generalize hcontent : ['\n'].intercalate (lines.map IndentedLine.print) = content
  generalize hcontent' : ['\n'].intercalate lines' = content'
  have htokens : (tokenizeFile content').map Token.unplaced =
      ((tokenizeFile content).map (Token.regrade g)).map Token.unplaced := by
    rw [tokenizeFile_eq, tokenizeFile_eq, List.map_append, List.map_append, List.map_append,
      ← hcontent, ← hcontent', fileTokens_intercalate hprint, fileTokens_intercalate hlines',
      tokenizeLines_reindents h 1 1]
    rfl
  have heof : ∀ t ∈ tokenizeFile content, t.type = .tokenEof → t.depth = 0 := by
    intro t ht htype
    rw [tokenizeFile_eq] at ht
    rcases List.mem_append.mp ht with ht | ht
    · exact absurd htype ((tokenFile_content content).ne_eof t ht)
    · rw [List.mem_singleton.mp ht]
      rfl
  rw [processPugFile_eq, processPugFile_eq]
  calc (builtForest (tokenizeFile content')).map (renderNodes useTabs tabSize true)
      = (builtForest ((tokenizeFile content).map (Token.regrade g))).map
          (renderNodes useTabs tabSize true) := render_builtForest_unplaced htokens
    _ = (builtForest (tokenizeFile content)).map
          (renderNodes useTabs tabSize true ∘ Forest.map (ASTNode.regrade g)) := by
        rw [builtForest_regrade hg heof, Option.map_map]
    _ = (builtForest (tokenizeFile content)).map (renderNodes useTabs tabSize true) := by
        congr 1
        funext f
        exact renderNodes_regrade useTabs tabSize f

/-- The lines `p` and `b`, the second one level deeper. -/
private def twoLines : List IndentedLine :=
  [⟨0, ['p'], StopsAt.cons rfl _, by decide⟩, ⟨1, ['b'], StopsAt.cons rfl _, by decide⟩]

theorem processPugFile_reindents_twoLines :
    processPugFile false 2 true (['\n'].intercalate [[' ', ' ', 'p'], ['\t', '\t', '\t', 'b']]) =
      processPugFile false 2 true (['\n'].intercalate (twoLines.map IndentedLine.print)) := by
  have hg : StrictMono fun n : Nat => 2 * n + 1 := fun a b hab => by
    show 2 * a + 1 < 2 * b + 1
    omega
  have hfirst : Reindents (fun n => 2 * n + 1) ⟨0, ['p'], StopsAt.cons rfl _, by decide⟩
      [' ', ' ', 'p'] := .spaces
  have hsecond : Reindents (fun n => 2 * n + 1) ⟨1, ['b'], StopsAt.cons rfl _, by decide⟩
      ['\t', '\t', '\t', 'b'] := .tabs
  exact processPugFile_reindents hg (.cons hfirst (.cons hsecond .nil)) false 2

end CPug
