import CPug.Extent
import CPug.Nodes
import CPug.Outline.Linked

/-!
# The work of the parser

`parse_pug` has a loop in its loop: after each node it walks back to the parent. One walk can be as long as
the tree is deep, but every link is walked once, since a node that is left is not come back to. So the rounds,
the tokens that are advanced over and the links that are walked are together linear in the file
(`parsePug_work`).
-/

namespace CPug

open Outline

/-- How often the walk back to the parent goes round in a round of `parse_pug`. -/
def backtracks (ctx : ParserContext) : Nat :=
  match parseNode ctx with
  | .node node _ => walkSteps ASTNode.depth ctx.memory node.depth ctx.currentParent
  | _ => 0

theorem backtracks_null {ctx : ParserContext} {advanced : Nat} (h : parseNode ctx = .null advanced) :
    backtracks ctx = 0 := by
  rw [backtracks, h]

/-- What a run has done in the end: it has gone forward in every round, it has not passed the last token, it
has made a node of one token at the least, and the links it has walked are those of nodes that were open or
have been opened. -/
structure RunCounts (ctx out : ParserContext) (opened : Nat) : Prop where
  rounds : ctx.currentToken + (parsePugStates ctx).length ≤ out.currentToken + 1
  inside : out.currentToken < ctx.tokens.length
  nodes : out.memory.length + ctx.currentToken ≤ ctx.memory.length + out.currentToken
  links : total backtracks (parsePugStates ctx) + ctx.memory.length ≤ opened + out.memory.length

/-- A walk pays with the nodes it closes, and a round opens at most one. -/
theorem backtracks_insert {ctx : ParserContext} {S : Spine ASTNode} (hrep : Represents ctx S)
    {node : ASTNode} {advanced : Nat} (hnode : parseNode ctx = .node node advanced) (deeper : Bool) :
    backtracks ctx + (S.insert ASTNode.depth (node, deeper)).frames.length ≤ S.frames.length + 1 := by
  have hsteps := @Spine.walkSteps_focus ASTNode ASTNode.depth rootLabel node.depth S
  have hinsert := @Spine.length_frames_insert ASTNode ASTNode.depth S (node, deeper)
  rw [← hrep.memory, ← hrep.currentParent] at hsteps
  rw [backtracks, hnode]
  dsimp only at hinsert ⊢
  omega

theorem parsePugLoop_counts {ctx out : ParserContext} {S : Spine ASTNode} (hrep : Represents ctx S)
    (h : parsePugLoop ctx = some out) : RunCounts ctx out S.frames.length := by
  induction ctx using parsePug_induction generalizing S with
  | step ctx ih =>
    cases hround : parsePugRound ctx with
    | hangs =>
      rw [parsePugLoop_hangs hround] at h
      cases h
    | done last =>
      rw [parsePugLoop_done hround] at h
      cases h
      obtain ⟨advanced, token, hnull, hcurrent, -, rfl⟩ := parsePugRound_done_cases hround
      have hstates : parsePugStates ctx = [ctx] := parsePugStates_last (by simp [hround])
      have hlt := (List.getElem?_eq_some_iff.mp hcurrent).1
      refine ⟨?_, hlt, ?_, ?_⟩
      · rw [hstates, currentToken_advance, List.length_singleton]
        omega
      · rw [currentToken_advance, memory_advance]
        omega
      · rw [hstates, total_cons, total_nil, backtracks_null hnull, memory_advance]
        omega
    | next next =>
      rw [parsePugLoop_next hround] at h
      obtain ⟨htokens, hforward, -⟩ := parsePugRound_progress hround
      have hstates := parsePugStates_next hround
      rcases parsePugRound_next_cases hround with ⟨node, advanced, hnode, rfl⟩ |
          ⟨advanced, _, hnull, -, -, rfl⟩
      · have hcounts := ih _ hround ((hrep.advance advanced).addNode node) h
        have hpay := backtracks_insert hrep hnode
          (deeperNext node.depth (parserAdvanceToken ctx advanced).rest)
        have hmemory : (addNode (parserAdvanceToken ctx advanced) node).memory.length =
            ctx.memory.length + 1 := length_addChild _ _
        have hpositive := (parseNodeFrom_advanced hnode).1
        obtain ⟨hrounds, hinside, hnodes, hlinks⟩ := hcounts
        rw [hmemory] at hnodes hlinks
        rw [currentToken_addNode, currentToken_advance] at hrounds hnodes
        refine ⟨?_, hinside, by omega, ?_⟩
        · rw [hstates, List.length_cons]
          omega
        · rw [hstates, total_cons]
          omega
      · have hcounts := ih _ hround (hrep.advance (advanced + 1)) h
        obtain ⟨hrounds, hinside, hnodes, hlinks⟩ := hcounts
        rw [memory_advance] at hnodes hlinks
        rw [currentToken_advance] at hrounds hnodes
        refine ⟨?_, hinside, by omega, ?_⟩
        · rw [hstates, List.length_cons]
          omega
        · rw [hstates, total_cons, backtracks_null hnull]
          omega

/-- **Linear parsing.** On every file the rounds of `parse_pug`, the tokens it advances over and the links it
walks back are together at most three for each character, and the links no more than the nodes. -/
theorem parsePug_work (content : CString) :
    ∃ out, parsePug (tokenizeFile content) = some out ∧
      total backtracks (parsePugStates (parsePugStart (tokenizeFile content))) < out.memory.length ∧
      (parsePugStates (parsePugStart (tokenizeFile content))).length + out.currentToken +
        total backtracks (parsePugStates (parsePugStart (tokenizeFile content))) ≤
          3 * content.length + 1 := by
  obtain ⟨out, hout⟩ := exists_parsePug content
  have hcounts := parsePugLoop_counts (represents_start _) hout
  have htokens := length_tokenizeFile_le content
  obtain ⟨hrounds, hinside, hnodes, hlinks⟩ := hcounts
  have hstart : (parsePugStart (tokenizeFile content)).memory.length = 1 := rfl
  have hfirst : (parsePugStart (tokenizeFile content)).currentToken = 0 := rfl
  have hfile : (parsePugStart (tokenizeFile content)).tokens = tokenizeFile content := rfl
  have hempty : (Spine.empty : Spine ASTNode).frames.length = 0 := rfl
  rw [hstart, hfirst] at hnodes
  rw [hstart, hempty] at hlinks
  rw [hfirst] at hrounds
  rw [hfile] at hinside
  exact ⟨out, hout, by omega, by omega⟩

end CPug
