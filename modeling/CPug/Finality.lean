import CPug.Control
import CPug.Outline.Growing
import CPug.Rounds
import CPug.TreeShape

/-!
# What is final before the end

`parse_pug` links new nodes below the path from `current_parent` up to the root and nowhere else. A node
that has left this path is complete, with all that is below it (`parsePug_grows`). And since a round reads
no more than the token behind those it passes, a node that is complete in front of the last token of some
lines is the same whatever lines come after them (`closed_whatever_follows`): an edit changes no element
that was closed before it.
-/

namespace CPug

open Outline

/-! ## One run -/

section Round

variable {ctx next : ParserContext}

theorem Shaped.grows_addNode (h : Shaped ctx) (node : ASTNode) :
    Grows ctx.memory ctx.currentParent (CPug.addNode ctx node).memory
      (CPug.addNode ctx node).currentParent := by
  have hlt := h.currentParent_lt
  have hpath := h.linked.onPath_walkUp ASTNode.depth node.depth hlt
  obtain ⟨hle, -⟩ := @Linked.walkUp ASTNode ASTNode.depth _ _ h.linked node.depth _ hlt
  refine h.linked.grows_addChild node hpath (by omega) ?_
  unfold CPug.addNode
  dsimp only
  split
  · exact Or.inl rfl
  · exact Or.inr rfl

/-- A round links a node below the path or leaves the tree alone. -/
theorem Shaped.grows_round (h : Shaped ctx) (hround : parsePugRound ctx = .next next) :
    Grows ctx.memory ctx.currentParent next.memory next.currentParent := by
  rcases parsePugRound_next_cases hround with ⟨node, advanced, -, rfl⟩ | ⟨advanced, _, -, -, -, rfl⟩
  · exact (h.advance advanced).grows_addNode node
  · exact .refl _ _

end Round

/-- The tree of the second context has grown out of that of the first, and what is off the path in the
first is final. -/
structure GrowsInto (s s' : ParserContext) : Prop where
  tree : Grows s.memory s.currentParent s'.memory s'.currentParent
  closed : ∀ i, i < s.memory.length → ¬ OnPath s.memory s.currentParent i →
    ∀ fuel, extract s'.memory fuel [i] = extract s.memory fuel [i]

theorem Shaped.growsInto {s s' : ParserContext} (h : Shaped s)
    (htree : Grows s.memory s.currentParent s'.memory s'.currentParent) : GrowsInto s s' := by
  refine ⟨htree, fun i hi hclosed fuel => htree.extract_closed h.linked fuel fun j hj => ?_⟩
  rw [List.mem_singleton.mp hj]
  exact ⟨hi, hclosed⟩

theorem parsePugStates_grows {ctx : ParserContext} (h : Shaped ctx) :
    ∀ s ∈ parsePugStates ctx,
      Grows ctx.memory ctx.currentParent s.memory s.currentParent ∧ Shaped s := by
  apply @parsePugStates_invariant fun s =>
    Grows ctx.memory ctx.currentParent s.memory s.currentParent ∧ Shaped s
  · rintro s next ⟨htree, hs⟩ hround
    exact ⟨htree.trans (hs.grows_round hround), hs.round hround⟩
  · exact ⟨.refl _ _, h⟩

theorem parsePugStates_pairwise {ctx : ParserContext} (h : Shaped ctx) :
    (parsePugStates ctx).Pairwise GrowsInto := by
  induction ctx using parsePug_induction with
  | step ctx ih =>
    by_cases hnext : ∃ next, parsePugRound ctx = .next next
    · obtain ⟨next, hround⟩ := hnext
      rw [parsePugStates_next hround, List.pairwise_cons]
      refine ⟨fun s hs => ?_, ih next hround (h.round hround)⟩
      have htree := (parsePugStates_grows (h.round hround) s hs).1
      exact h.growsInto ((h.grows_round hround).trans htree)
    · rw [parsePugStates_last fun next hround => hnext ⟨next, hround⟩]
      exact List.pairwise_singleton _ _

theorem parsePugLoop_grows {ctx out : ParserContext} (h : Shaped ctx)
    (hout : parsePugLoop ctx = some out) : ∀ s ∈ parsePugStates ctx, GrowsInto s out := by
  induction ctx using parsePug_induction with
  | step ctx ih =>
    cases hround : parsePugRound ctx with
    | hangs =>
      rw [parsePugLoop_hangs hround] at hout
      cases hout
    | done last =>
      rw [parsePugLoop_done hround] at hout
      cases hout
      obtain ⟨k, -, -, -, -, rfl⟩ := parsePugRound_done_cases hround
      rw [parsePugStates_last (by simp [hround])]
      intro s hs
      rw [List.mem_singleton.mp hs]
      exact h.growsInto (.refl _ _)
    | next next =>
      rw [parsePugLoop_next hround] at hout
      have hlater := ih next hround (h.round hround) hout
      rw [parsePugStates_next hround]
      intro s hs
      rcases List.mem_cons.mp hs with rfl | hs
      · have hfirst := hlater next (mem_parsePugStates_self next)
        exact h.growsInto ((h.grows_round hround).trans hfirst.tree)
      · exact hlater s hs

/-- **A tree that only grows.** On every token list, of two contexts of a run the later tree has grown out
of the earlier one, and the last out of all: no node is moved, removed or changed, children are only added
behind the others, and the subtree of a node off the path from `current_parent` to the root is final. -/
theorem parsePug_grows (tokens : List Token) :
    (parsePugStates (parsePugStart tokens)).Pairwise GrowsInto ∧
      ∀ ctx ∈ parsePug tokens, ∀ s ∈ parsePugStates (parsePugStart tokens), GrowsInto s ctx :=
  ⟨parsePugStates_pairwise (shaped_start tokens), fun _ hctx =>
    parsePugLoop_grows (shaped_start tokens) hctx⟩

/-! ## Two runs -/

section Prefix

variable {xs ys zs : List Token}

theorem head?_drop_append {k : Nat} (hk : k < xs.length) (ys : List Token) :
    ((xs ++ ys).drop k).head? = some xs[k] := by
  rw [List.head?_drop, List.getElem?_append_left hk, List.getElem?_eq_getElem hk]

/-- The runs over two token lists that begin alike go through the same trees as long as the token in front
of them is one of those they share. -/
theorem parsePugStates_common {ctx other : ParserContext} (htokens : ctx.tokens = xs ++ ys)
    (hother : other.tokens = xs ++ zs) (hcurrent : other.currentToken = ctx.currentToken)
    (hsame : SameTree ctx other) :
    ∀ s ∈ parsePugStates ctx, s.currentToken < xs.length →
      ∃ s' ∈ parsePugStates other, SameTree s s' := by
  induction ctx using parsePug_induction generalizing other with
  | step ctx ih =>
    intro s hs hlt
    have hself : ∃ s' ∈ parsePugStates other, SameTree ctx s' :=
      ⟨other, mem_parsePugStates_self other, hsame⟩
    by_cases hnext : ∃ next, parsePugRound ctx = .next next
    · obtain ⟨next, hround⟩ := hnext
      rw [parsePugStates_next hround] at hs
      rcases List.mem_cons.mp hs with rfl | hs
      · exact hself
      obtain ⟨htokens', hless, hle⟩ := parsePugRound_progress hround
      -- The run has not left the shared tokens before `s`.
      have hpassed : next.currentToken ≤ s.currentToken := by
        refine @parsePugStates_invariant (fun s => next.currentToken ≤ s.currentToken) ?_ next
          (Nat.le_refl _) s hs
        intro a b hab hround'
        have := (parsePugRound_progress hround').2.1
        omega
      have hinside : next.currentToken < xs.length := by omega
      have hrest : other.rest = ctx.rest.take (next.currentToken - ctx.currentToken) ++
          (xs ++ zs).drop next.currentToken := by
        have htake : ctx.rest.take (next.currentToken - ctx.currentToken) =
            other.rest.take (next.currentToken - ctx.currentToken) := by
          rw [ParserContext.rest, ParserContext.rest, htokens, hother, hcurrent,
            List.drop_append_of_le_length (by omega), List.drop_append_of_le_length (by omega),
            List.take_append_of_le_length (by rw [List.length_drop]; omega),
            List.take_append_of_le_length (by rw [List.length_drop]; omega)]
        have hdrop : (xs ++ zs).drop next.currentToken =
            other.rest.drop (next.currentToken - ctx.currentToken) := by
          rw [ParserContext.rest, hother, hcurrent, List.drop_drop]
          congr 1
          omega
        rw [htake, hdrop, List.take_append_drop]
      have hlooks : LooksLike next.rest ((xs ++ zs).drop next.currentToken) := by
        apply looksLike_of_head
        rw [ParserContext.rest, htokens', htokens, head?_drop_append hinside,
          head?_drop_append hinside]
      obtain ⟨other', hround', hrest', hsame'⟩ := parsePugRound_local hround hlooks hrest hsame
      obtain ⟨hother', -, hle'⟩ := parsePugRound_progress hround'
      have hcurrent' : other'.currentToken = next.currentToken := by
        have hlength := congrArg List.length hrest'
        rw [ParserContext.rest, hother', hother, List.length_drop, List.length_drop,
          List.length_append] at hlength
        rw [hother, List.length_append] at hle'
        omega
      obtain ⟨s', hs', hsame''⟩ := ih next hround (htokens'.trans htokens) (hother'.trans hother)
        hcurrent' hsame' s hs hlt
      refine ⟨s', ?_, hsame''⟩
      rw [parsePugStates_next hround']
      exact List.mem_cons_of_mem _ hs'
    · rw [parsePugStates_last fun next hround => hnext ⟨next, hround⟩] at hs
      rw [List.mem_singleton.mp hs]
      exact hself

end Prefix

/-! ## Files that begin alike -/

/-- The tokens of the lines of a text come first, whatever lines follow. -/
theorem exists_tokenizeFile_append (a b : CString) :
    ∃ later, tokenizeFile (a ++ '\n' :: b) = fileTokens a ++ later := by
  have hsplit : gStrsplit (a ++ '\n' :: b) '\n' = a.splitOn '\n' ++ b.splitOn '\n' := by
    rw [gStrsplit_of_ne_nil (by simp), List.splitOn_append_cons_self]
  have hfirst : tokenizeLines 1 (a.splitOn '\n') = fileTokens a := by
    by_cases ha : a = []
    · subst ha
      rfl
    · rw [fileTokens, gStrsplit_of_ne_nil ha]
  rw [tokenizeFile_eq, fileTokens, hsplit, tokenizeLines_append, hfirst, List.append_assoc]
  exact ⟨_, rfl⟩

/-- What is off the path before the last token of `a` is taken has the same subtree in the trees of the two
files, and every node that is there by then has the same label in both. -/
def ClosedAlike (a b c : CString) : Prop :=
  ∀ s ∈ parsePugStates (parsePugStart (tokenizeFile (a ++ '\n' :: b))),
    s.currentToken < (fileTokens a).length →
    ∀ ctx ∈ parsePug (tokenizeFile (a ++ '\n' :: b)), ∀ ctx' ∈ parsePug (tokenizeFile (a ++ '\n' :: c)),
      ∀ i, i < s.memory.length →
        ctx'.memory[i]?.map Cell.label = ctx.memory[i]?.map Cell.label ∧
        (¬ OnPath s.memory s.currentParent i →
          ∀ fuel, extract ctx'.memory fuel [i] = extract ctx.memory fuel [i])

/-- The labels that are there stay. -/
theorem GrowsInto.label {s s' : ParserContext} (h : GrowsInto s s') {i : Nat}
    (hi : i < s.memory.length) :
    s'.memory[i]?.map Cell.label = s.memory[i]?.map Cell.label := by
  have hcell : s.memory[i]? = some s.memory[i] := List.getElem?_eq_getElem hi
  obtain ⟨later, -, hcell'⟩ := h.tree.kept i _ hcell
  rw [hcell', hcell]
  rfl

/-- **What follows does not matter.** -/
theorem closed_whatever_follows (a b c : CString) : ClosedAlike a b c := by
  intro s hs hlt ctx hctx ctx' hctx' i hi
  obtain ⟨ys, hys⟩ := exists_tokenizeFile_append a b
  obtain ⟨zs, hzs⟩ := exists_tokenizeFile_append a c
  have hcommon := @parsePugStates_common (fileTokens a) ys zs (parsePugStart _)
    (parsePugStart (tokenizeFile (a ++ '\n' :: c))) hys hzs rfl ⟨rfl, rfl⟩
  obtain ⟨s', hs', hsame⟩ := hcommon s hs hlt
  have hgrows := parsePugLoop_grows (shaped_start _) hctx s hs
  have hgrows' := parsePugLoop_grows (shaped_start _) hctx' s' hs'
  have hi' : i < s'.memory.length := by rwa [hsame.memory]
  refine ⟨?_, fun hclosed fuel => ?_⟩
  · rw [hgrows'.label hi', hgrows.label hi, hsame.memory]
  · have hclosed' : ¬ OnPath s'.memory s'.currentParent i := by
      rwa [hsame.memory, hsame.currentParent]
    rw [hgrows'.closed i hi' hclosed' fuel, hgrows.closed i hi hclosed fuel, hsame.memory]

end CPug
