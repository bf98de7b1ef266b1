import CPug.ParserRun
import CPug.TokenStream

/-!
# The control of the parser as a finite scan

Which token starts a node, is taken by one, is rejected or is skipped depends on the types and the
depths of the tokens alone. `Control` is the state of a scan over the tokens that decides it: the
parser stands between nodes, or in the loop after a TAG token of some depth, or has just rejected a
token and will skip one more. `Running.cases` says what a round can do on the tokens of a file,
`Running.induction` is the induction over the rounds of a run together with the scan.
-/

namespace CPug

/-! ## The scan -/

/-- What the parser is doing between two tokens. -/
inductive Control where
  | idle
  | inside (depth : Nat)
  | dropNext
deriving Repr, DecidableEq

/-- After a token that `parse_node` is called on. -/
def Control.start (token : Token) : Control :=
  if token.type = .tokenTag then .inside token.depth
  else if token.type.startsNode then .idle
  else .dropNext

/-- After one more token. The token after a rejected one is skipped, whatever it is. -/
def Control.next (control : Control) (token : Token) : Control :=
  match control with
  | .idle => Control.start token
  | .inside depth => if absorbs depth token then .inside depth else Control.start token
  | .dropNext => .idle

/-- After a list of tokens. -/
def Control.after (control : Control) (tokens : List Token) : Control :=
  tokens.foldl Control.next control

/-- The scan in front of the token of a number. -/
def controlAt (tokens : List Token) (i : Nat) : Control := Control.idle.after (tokens.take i)

@[simp] theorem after_nil (control : Control) : control.after [] = control := rfl

@[simp] theorem after_cons (control : Control) (token : Token) (tokens : List Token) :
    control.after (token :: tokens) = (control.next token).after tokens := rfl

theorem after_append (control : Control) (xs ys : List Token) :
    control.after (xs ++ ys) = (control.after xs).after ys := List.foldl_append

theorem controlAt_add (tokens : List Token) (i k : Nat) :
    controlAt tokens (i + k) = (controlAt tokens i).after ((tokens.drop i).take k) := by
  rw [controlAt, List.take_add, after_append, controlAt]

theorem start_ne_dropNext {token : Token} (hs : token.type.startsNode = true) :
    Control.start token ≠ .dropNext := by
  rw [Control.start]
  split
  · simp
  · simp

theorem start_rejects {token : Token} (hs : token.type.startsNode = false) :
    Control.start token = .dropNext := by
  have ht : token.type ≠ .tokenTag := by
    intro ht
    rw [ht] at hs
    cases hs
  simp [Control.start, ht, hs]

/-- The parser is about to call `parse_node` on the first token. -/
structure AtHead (control : Control) (rest : List Token) : Prop where
  ne_dropNext : control ≠ .dropNext
  stops : ∀ depth, control = .inside depth → StopsAt (absorbs depth) rest

theorem atHead_idle (rest : List Token) : AtHead .idle rest := ⟨by simp, by simp⟩

theorem AtHead.next {control : Control} {token : Token} {more : List Token}
    (h : AtHead control (token :: more)) : control.next token = Control.start token := by
  cases control with
  | idle => rfl
  | inside depth => simp [Control.next, h.stops depth rfl token rfl]
  | dropNext => exact absurd rfl h.ne_dropNext

/-- The scan rests while a node takes tokens. -/
theorem start_after_group (token : Token) (more : List Token) (k : Nat) :
    (Control.start token).after ((group token more).take k) = Control.start token := by
  by_cases ht : token.type = .tokenTag
  · have hstart : Control.start token = .inside token.depth := if_pos ht
    have hall : ∀ t ∈ (group token more).take k, absorbs token.depth t = true := fun t hmem =>
      mem_group_isAbsorbed t (List.mem_of_mem_take hmem)
    rw [hstart]
    generalize (group token more).take k = taken at hall
    induction taken with
    | nil => rfl
    | cons t taken ih =>
      have hnext : (Control.inside token.depth).next t = .inside token.depth := by
        simp [Control.next, hall t List.mem_cons_self]
      rw [after_cons, hnext, ih fun t' hmem => hall t' (List.mem_cons_of_mem _ hmem)]
  · rw [group, if_neg ht, List.take_nil, after_nil]

/-- The scan behind a node and some of the tokens after it. -/
theorem after_group_append {control : Control} {token : Token}
    (h : control.next token = Control.start token) (more extra : List Token) :
    control.after (token :: group token more ++ extra) = (Control.start token).after extra := by
  have hgroup := start_after_group token more (group token more).length
  rw [List.take_length] at hgroup
  rw [List.cons_append, after_cons, h, after_append, hgroup]

/-- After a node the parser is about to call `parse_node` again. -/
theorem atHead_after_group (token : Token) (more : List Token)
    (hs : token.type.startsNode = true) :
    AtHead (Control.start token) (more.drop (group token more).length) := by
  refine ⟨start_ne_dropNext hs, fun depth hdepth t ht => ?_⟩
  rw [Control.start] at hdepth
  rw [if_pos hs] at hdepth
  split at hdepth
  · rename_i htag
    cases hdepth
    rw [group, if_pos htag, drop_length_takeWhile] at ht
    exact stopsAt_dropWhile more t ht
  · simp at hdepth

/-! ## The tokens of a file -/

/-- Tokens that end in their only EOF token, with a value in every ATTRIBUTE token. -/
structure TokenFile (pre : List Token) (eof : Token) : Prop where
  ne_eof : ∀ t ∈ pre, t.type ≠ .tokenEof
  eof_type : eof.type = .tokenEof
  valued : Valued pre

theorem tokenFile_content (content : CString) :
    TokenFile (fileTokens content) (fileEof content) := by
  refine ⟨fun t ht => ?_, rfl, fun t ht _ => ?_⟩
  · obtain ⟨_, _, hline⟩ := mem_fileTokens ht
    exact hline.ne_eof
  · obtain ⟨_, _, hline⟩ := mem_fileTokens ht
    exact hline.value_ne_none

theorem TokenFile.valued_append {pre : List Token} {eof : Token} (h : TokenFile pre eof) :
    Valued (pre ++ [eof]) :=
  h.valued.append (valued_singleton (by simp [h.eof_type]))

theorem TokenFile.endsInEof {pre : List Token} {eof : Token} (h : TokenFile pre eof) :
    EndsInEof (pre ++ [eof]) := ⟨eof, List.getLast?_concat, h.eof_type⟩

/-- Nothing is taken from a continuation that starts with no token of a kind that is taken. -/
theorem group_append {token : Token} {xs ys : List Token}
    (h : ∀ t ∈ ys.head?, t.type.isAbsorbed = false) : group token (xs ++ ys) = group token xs := by
  rw [group, group]
  split
  · rw [List.takeWhile_append]
    split
    · rename_i hall
      have hself : xs.takeWhile (absorbs token.depth) = xs :=
        List.takeWhile_prefix _ |>.eq_of_length hall
      have hys : ys.takeWhile (absorbs token.depth) = [] := by
        cases ys with
        | nil => rfl
        | cons t ys => exact List.takeWhile_cons_of_neg (by simp [absorbs, h t rfl])
      rw [hself, hys, List.append_nil]
    · rfl
  · rfl

/-- A context of a run over the tokens of a file. -/
structure Running (pre : List Token) (eof : Token) (ctx : ParserContext) : Prop where
  tokens : ctx.tokens = pre ++ [eof]
  bound : ctx.currentToken ≤ pre.length

section Running

variable {pre : List Token} {eof : Token} {ctx : ParserContext}

theorem Running.rest (h : Running pre eof ctx) :
    ctx.rest = pre.drop ctx.currentToken ++ [eof] := by
  rw [ParserContext.rest, h.tokens, List.drop_append_of_le_length h.bound]

/-- What a round can do: it stands on EOF; it links the node of an accepted token; it rejects the
last token; or it rejects a token and skips the one after it. -/
theorem Running.cases (hfile : TokenFile pre eof) (h : Running pre eof ctx) :
    (ctx.currentToken = pre.length ∧ parseNode ctx = .null 0 ∧ parsePugRound ctx = .done ctx) ∨
    (∃ token more, pre.drop ctx.currentToken = token :: more ∧ token.type.startsNode = true ∧
      ∃ node, node = (group token more).foldl absorbToken (startNode token) ∧
      parseNode ctx = .node node (1 + (group token more).length) ∧
      ∃ ctx', ctx' = addNode (parserAdvanceToken ctx (1 + (group token more).length)) node ∧
        parsePugRound ctx = .next ctx' ∧ Running pre eof ctx') ∨
    (∃ token, pre.drop ctx.currentToken = [token] ∧ token.type.startsNode = false ∧
      parseNode ctx = .null 1 ∧ parsePugRound ctx = .done (parserAdvanceToken ctx 1)) ∨
    ∃ token next more, pre.drop ctx.currentToken = token :: next :: more ∧
      token.type.startsNode = false ∧ parseNode ctx = .null 1 ∧
      parsePugRound ctx = .next (parserAdvanceToken ctx 2) ∧
        Running pre eof (parserAdvanceToken ctx 2) := by
  have hrest := h.rest
  have hlen : (pre.drop ctx.currentToken).length = pre.length - ctx.currentToken :=
    List.length_drop
  have hbound := h.bound
  have hcurrent : ∀ k, parserGetCurrentToken (parserAdvanceToken ctx k) =
      ((pre.drop ctx.currentToken ++ [eof]).drop k).head? := by
    intro k
    rw [parserGetCurrentToken_eq_head, rest_advance, hrest]
  cases hl : pre.drop ctx.currentToken with
  | nil =>
    rw [hl] at hrest hlen hcurrent
    have hnode : parseNode ctx = .null 0 := by
      rw [parseNode, hrest]
      exact parseNodeFrom_eof [] hfile.eof_type
    refine Or.inl ⟨by simp at hlen; omega, hnode, ?_⟩
    exact parsePugRound_done hnode (hcurrent 0) hfile.eof_type
  | cons token more =>
    rw [hl] at hrest hlen hcurrent
    have hmem : ∀ t ∈ token :: more, t ∈ pre := fun t ht => by
      rw [← hl] at ht
      exact List.mem_of_mem_drop ht
    have hne : token.type ≠ .tokenEof := hfile.ne_eof token (hmem token List.mem_cons_self)
    cases hs : token.type.startsNode with
    | true =>
      have hvalued : Valued (token :: (more ++ [eof])) := by
        have hdrop := hfile.valued_append.drop ctx.currentToken
        rwa [List.drop_append_of_le_length hbound, hl, List.cons_append] at hdrop
      have hgroup : group token (more ++ [eof]) = group token more :=
        group_append (by simp [hfile.eof_type, TokenType.isAbsorbed])
      have hnode : parseNode ctx = .node ((group token more).foldl absorbToken (startNode token))
          (1 + (group token more).length) := by
        rw [parseNode, hrest, List.cons_append, parseNodeFrom_of_valued hs hvalued, hgroup]
      have hle := length_group_le token more
      simp only [List.length_cons] at hlen
      exact Or.inr (Or.inl ⟨token, more, rfl, hs, _, rfl, hnode, _, rfl, parsePugRound_node hnode,
        ⟨h.tokens, by rw [currentToken_addNode, currentToken_advance]; omega⟩⟩)
    | false =>
      have hnode : parseNode ctx = .null 1 := by
        rw [parseNode, hrest]
        exact parseNodeFrom_rejects _ hs hne
      have hcur := hcurrent 1
      cases more with
      | nil =>
        refine Or.inr (Or.inr (Or.inl ⟨token, rfl, hs, hnode, ?_⟩))
        exact parsePugRound_done hnode hcur hfile.eof_type
      | cons next more =>
        have hnext : next.type ≠ .tokenEof :=
          hfile.ne_eof next (hmem next (List.mem_cons_of_mem _ List.mem_cons_self))
        simp only [List.length_cons] at hlen
        refine Or.inr (Or.inr (Or.inr ⟨token, next, more, rfl, hs, hnode, ?_,
          ⟨h.tokens, by rw [currentToken_advance]; omega⟩⟩))
        exact parsePugRound_skip hnode hcur hnext

theorem running_start (pre : List Token) (eof : Token) :
    Running pre eof (parsePugStart (pre ++ [eof])) := ⟨rfl, Nat.zero_le _⟩

end Running

/-! ## The scan follows the run -/

/-- The parser, in front of the token of number `n`, is about to call `parse_node`. -/
def HeadAt (pre : List Token) (n : Nat) : Prop := AtHead (controlAt pre n) (pre.drop n)

section Scan

variable {pre more : List Token} {token next : Token} {n : Nat}

theorem headAt_zero (pre : List Token) : HeadAt pre 0 := atHead_idle _

/-- The scan in front of and behind every token that a node takes. -/
theorem HeadAt.controlAt_group (h : HeadAt pre n) (hl : pre.drop n = token :: more) {k : Nat}
    (hk : k ≤ (group token more).length) : controlAt pre (n + (1 + k)) = Control.start token := by
  have htake : more.take k = (group token more).take k := by
    rw [← take_length_group token more, List.take_take, Nat.min_eq_left hk]
  rw [HeadAt, hl] at h
  rw [controlAt_add, hl, Nat.add_comm 1 k, List.take_succ_cons, after_cons, h.next, htake,
    start_after_group]

theorem HeadAt.node (h : HeadAt pre n) (hl : pre.drop n = token :: more)
    (hs : token.type.startsNode = true) : HeadAt pre (n + (1 + (group token more).length)) := by
  rw [HeadAt, h.controlAt_group hl (le_refl _), ← List.drop_drop, hl, Nat.add_comm 1,
    List.drop_succ_cons]
  exact atHead_after_group token more hs

theorem HeadAt.rejects (h : HeadAt pre n) (hl : pre.drop n = token :: more)
    (hs : token.type.startsNode = false) : controlAt pre (n + 1) = .dropNext := by
  rw [← start_rejects hs]
  exact h.controlAt_group hl (Nat.zero_le _)

theorem HeadAt.skip (h : HeadAt pre n) (hl : pre.drop n = token :: next :: more)
    (hs : token.type.startsNode = false) : HeadAt pre (n + 2) := by
  have hidle : controlAt pre (n + 2) = .idle := by
    have hl1 : pre.drop (n + 1) = next :: more := by
      rw [← List.drop_drop, hl]
      rfl
    rw [show n + 2 = n + 1 + 1 from rfl, controlAt_add, h.rejects hl hs, hl1]
    rfl
  rw [HeadAt, hidle]
  exact atHead_idle _

end Scan

section Run

variable {pre : List Token} {eof : Token}

/-- Induction over the rounds of a run on the tokens of a file, with the scan. -/
@[elab_as_elim]
theorem Running.induction (hfile : TokenFile pre eof) {motive : ParserContext → Prop}
    (atEof : ∀ ctx, ctx.currentToken = pre.length → parseNode ctx = .null 0 →
      parsePugRound ctx = .done ctx → motive ctx)
    (node : ∀ ctx ctx' token more, Running pre eof ctx → HeadAt pre ctx.currentToken →
      pre.drop ctx.currentToken = token :: more → token.type.startsNode = true →
      parseNode ctx = .node ((group token more).foldl absorbToken (startNode token))
        (1 + (group token more).length) →
      parsePugRound ctx = .next ctx' →
      ctx' = addNode (parserAdvanceToken ctx (1 + (group token more).length))
        ((group token more).foldl absorbToken (startNode token)) → motive ctx' → motive ctx)
    (reject : ∀ ctx token, HeadAt pre ctx.currentToken → pre.drop ctx.currentToken = [token] →
      token.type.startsNode = false → parseNode ctx = .null 1 →
      parsePugRound ctx = .done (parserAdvanceToken ctx 1) → motive ctx)
    (skip : ∀ ctx token next more, HeadAt pre ctx.currentToken →
      pre.drop ctx.currentToken = token :: next :: more → token.type.startsNode = false →
      parseNode ctx = .null 1 → parsePugRound ctx = .next (parserAdvanceToken ctx 2) →
      motive (parserAdvanceToken ctx 2) → motive ctx)
    (ctx : ParserContext) (hrun : Running pre eof ctx) (hhead : HeadAt pre ctx.currentToken) :
    motive ctx := by
  induction ctx using parsePug_induction with
  | step ctx ih =>
    rcases hrun.cases hfile with ⟨hend, hn, hr⟩ |
        ⟨token, more, hl, hs, out, hout, hn, ctx', hctx', hr, hrun'⟩ |
        ⟨token, hl, hs, hn, hr⟩ | ⟨token, next, more, hl, hs, hn, hr, hrun'⟩
    · exact atEof ctx hend hn hr
    · subst hout hctx'
      exact node ctx _ token more hrun hhead hl hs hn hr rfl (ih _ hr hrun' (hhead.node hl hs))
    · exact reject ctx token hhead hl hs hn hr
    · exact skip ctx token next more hhead hl hs hn hr (ih _ hr hrun' (hhead.skip hl hs))

/-- At the top of every round the parser is about to call `parse_node`. -/
theorem parsePugStates_headAt (hfile : TokenFile pre eof) :
    ∀ s ∈ parsePugStates (parsePugStart (pre ++ [eof])),
      Running pre eof s ∧ HeadAt pre s.currentToken := by
  apply parsePugStates_invariant
    (I := fun s => Running pre eof s ∧ HeadAt pre s.currentToken)
  · rintro ctx ctx' ⟨hrun, hhead⟩ hround
    rcases hrun.cases hfile with ⟨-, -, hr⟩ | ⟨token, more, hl, hs, _, -, -, _, rfl, hr, hrun'⟩ |
        ⟨_, -, -, -, hr⟩ | ⟨_, _, _, hl, hs, -, hr, hrun'⟩
    · cases hr.symm.trans hround
    · cases hr.symm.trans hround
      exact ⟨hrun', hhead.node hl hs⟩
    · cases hr.symm.trans hround
    · cases hr.symm.trans hround
      exact ⟨hrun', hhead.skip hl hs⟩
  · exact ⟨running_start pre eof, headAt_zero pre⟩

end Run

end CPug
