import CPug.Control

/-!
# The parser stops on EOF

`parse_pug` leaves its loop only where `current_token` is the number of an EOF token, and both
`parse_node` and `parse_pug` advance it. On the tokens of a file no advance goes past the EOF token
(`StandsAt.le_length`): the loop after a TAG stops in front of it, the token that `parse_node`
rejects is never EOF, and the token that `parse_pug` skips after a rejected one is not EOF either,
for then the loop ends. So the run comes to stand on it (`parsePugLoop_stops`).
-/

namespace CPug

/-- The only EOF token of the list has number `e`. -/
def OnlyEof (tokens : List Token) (e : Nat) : Prop :=
  ∀ i, (∃ t, tokens[i]? = some t ∧ t.type = .tokenEof) ↔ i = e

/-- The values of `current_token` in the run on `tokens`: at the top of a round, and after every
advance of the call of `parse_node` in it. -/
inductive StandsAt (tokens : List Token) : Nat → Prop
  | round {ctx : ParserContext} (hmem : ctx ∈ parsePugStates (parsePugStart tokens)) :
      StandsAt tokens ctx.currentToken
  | node {ctx : ParserContext} (hmem : ctx ∈ parsePugStates (parsePugStart tokens))
      {node : ASTNode} {advanced k : Nat} (hnode : parseNode ctx = .node node advanced)
      (hk : k ≤ advanced) : StandsAt tokens (ctx.currentToken + k)
  | null {ctx : ParserContext} (hmem : ctx ∈ parsePugStates (parsePugStart tokens))
      {advanced k : Nat} (hnull : parseNode ctx = .null advanced) (hk : k ≤ advanced) :
      StandsAt tokens (ctx.currentToken + k)

section Run

variable {pre : List Token} {eof : Token} {ctx : ParserContext}

theorem TokenFile.onlyEof (hfile : TokenFile pre eof) : OnlyEof (pre ++ [eof]) pre.length := by
  intro i
  constructor
  · rintro ⟨t, ht, htype⟩
    rw [List.getElem?_append] at ht
    split at ht
    · exact absurd htype (hfile.ne_eof t (List.mem_of_getElem? ht))
    · rename_i hi
      have := (List.getElem?_eq_some_iff.mp ht).1
      simp only [List.length_singleton] at this
      omega
  · rintro rfl
    exact ⟨eof, by simp, hfile.eof_type⟩

/-- What a call of `parse_node` does to `current_token`: it returns, and does not pass EOF. -/
theorem Running.advanced_le (hfile : TokenFile pre eof) (h : Running pre eof ctx) :
    (∃ node advanced, parseNode ctx = .node node advanced ∧
      ctx.currentToken + advanced ≤ pre.length) ∨
    ∃ advanced, parseNode ctx = .null advanced ∧ ctx.currentToken + advanced ≤ pre.length := by
  have hlen : (pre.drop ctx.currentToken).length = pre.length - ctx.currentToken := List.length_drop
  have hbound := h.bound
  rcases h.cases hfile with ⟨-, hn, -⟩ | ⟨token, more, hl, -, node, -, hn, -⟩ |
      ⟨token, hl, -, hn, -⟩ | ⟨token, next, more, hl, -, hn, -⟩
  · exact Or.inr ⟨0, hn, hbound⟩
  · have hle := length_group_le token more
    rw [hl, List.length_cons] at hlen
    exact Or.inl ⟨node, _, hn, by omega⟩
  · rw [hl, List.length_singleton] at hlen
    exact Or.inr ⟨1, hn, by omega⟩
  · rw [hl, List.length_cons] at hlen
    exact Or.inr ⟨1, hn, by omega⟩

theorem Running.parseNode_ne_hangs (hfile : TokenFile pre eof) (h : Running pre eof ctx) :
    parseNode ctx ≠ .hangs := by
  rcases h.advanced_le hfile with ⟨_, _, hn, -⟩ | ⟨_, hn, -⟩ <;> simp [hn]

/-- No advance passes EOF. -/
theorem StandsAt.le_length (hfile : TokenFile pre eof) {i : Nat}
    (h : StandsAt (pre ++ [eof]) i) : i ≤ pre.length := by
  have hrun : ∀ ctx ∈ parsePugStates (parsePugStart (pre ++ [eof])), Running pre eof ctx :=
    fun ctx hmem => (parsePugStates_headAt hfile ctx hmem).1
  cases h with
  | round hmem => exact (hrun _ hmem).bound
  | node hmem hnode hk =>
    rcases (hrun _ hmem).advanced_le hfile with ⟨_, _, hn, hle⟩ | ⟨_, hn, -⟩
    · cases hn.symm.trans hnode
      omega
    · cases hn.symm.trans hnode
  | null hmem hnull hk =>
    rcases (hrun _ hmem).advanced_le hfile with ⟨_, _, hn, -⟩ | ⟨_, hn, hle⟩
    · cases hn.symm.trans hnull
    · cases hn.symm.trans hnull
      omega

/-- The run comes to stand on EOF. -/
theorem parsePugLoop_stops (hfile : TokenFile pre eof) (hrun : Running pre eof ctx)
    (hhead : HeadAt pre ctx.currentToken) :
    ∃ out, parsePugLoop ctx = some out ∧ out.currentToken = pre.length := by
  refine Running.induction hfile ?_ ?_ ?_ ?_ ctx hrun hhead
  · intro ctx hend hn hr
    exact ⟨ctx, parsePugLoop_done hr, hend⟩
  · rintro ctx ctx' token more - - hl hs hn hr - ⟨out, hout, hend⟩
    exact ⟨out, by rw [parsePugLoop_next hr, hout], hend⟩
  · intro ctx token hhead hl hs hn hr
    have hlen := congrArg List.length hl
    simp only [List.length_drop, List.length_singleton] at hlen
    exact ⟨_, parsePugLoop_done hr, by rw [currentToken_advance]; omega⟩
  · rintro ctx token next more hhead hl hs hn hr ⟨out, hout, hend⟩
    exact ⟨out, by rw [parsePugLoop_next hr, hout], hend⟩

end Run

/-- **Termination.** On the tokens of every file `parse_pug` ends with `current_token` on the only
EOF token; at no time is it beyond that token, and no call of `parse_node` fails to return. -/
theorem parsePug_terminates (content : CString) :
    ∃ e, OnlyEof (tokenizeFile content) e ∧
      (∃ ctx, parsePug (tokenizeFile content) = some ctx ∧ ctx.currentToken = e) ∧
      (∀ i, StandsAt (tokenizeFile content) i → i ≤ e) ∧
      ∀ ctx ∈ parsePugStates (parsePugStart (tokenizeFile content)), parseNode ctx ≠ .hangs := by
  have hfile := tokenFile_content content
  rw [tokenizeFile_eq]
  refine ⟨(fileTokens content).length, hfile.onlyEof, ?_, fun i h => h.le_length hfile, ?_⟩
  · exact parsePugLoop_stops hfile (running_start _ _) (headAt_zero _)
  · intro ctx hmem
    exact (parsePugStates_headAt hfile ctx hmem).1.parseNode_ne_hangs hfile

end CPug
