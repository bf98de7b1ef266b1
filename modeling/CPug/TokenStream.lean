import CPug.Tokenizer

/-!
# The token stream

What every token of a line satisfies (`LineToken`, proved by one induction over each scanner
loop), and how the stream of a file is put together from those of its lines:
`tokenizeFile_append` splits it at a newline.
-/

namespace CPug

/-- A tag name: a letter followed by letters, digits or `-`. -/
def IsTagName (name : CString) : Prop :=
  ∃ c cs, name = c :: cs ∧ isalpha c = true ∧ ∀ d ∈ cs, isTagChar d = true

theorem IsTagName.all {name : CString} (h : IsTagName name) : ∀ c ∈ name, isTagChar c = true := by
  obtain ⟨c, cs, rfl, halpha, hcs⟩ := h
  intro d hd
  rcases List.mem_cons.mp hd with rfl | hd
  · simp [isTagChar, isalnum_of_isalpha halpha]
  · exact hcs d hd

theorem IsTagName.not_mem {name : CString} (h : IsTagName name) {d : Char}
    (hd : isTagChar d = false) : d ∉ name := by
  intro hmem
  have := h.all d hmem
  rw [hd] at this
  cases this

/-- What the tokenizer guarantees of the value of a token of each type. -/
def ValueOk (type : TokenType) (value : CString) : Prop :=
  match type with
  | .tokenTag => IsTagName value
  | .tokenClass => value ≠ [] ∧ ∀ c ∈ value, isWordChar c = true
  | .tokenId => ∀ c ∈ value, isWordChar c = true
  | .tokenInterpolation => '}' ∉ value
  | .tokenText => value ≠ []
  | .tokenIndentation | .tokenEof => False
  | _ => True

/-- A token of line `lineNumber`, indented by `indentLevel`. -/
structure LineToken (indentLevel lineNumber : Nat) (token : Token) : Prop where
  depth : token.depth = indentLevel
  line : token.line = lineNumber
  value : ∃ value, token.value = some value ∧ ValueOk token.type value

section Line

variable {indentLevel lineNumber : Nat}

theorem lineToken_createToken {type : TokenType} {value : CString} (column : Nat)
    (h : ValueOk type value) :
    LineToken indentLevel lineNumber (createToken type (some value) indentLevel lineNumber column) :=
  ⟨rfl, rfl, value, rfl, h⟩

theorem isTagName_takeWhile {c : Char} (h : isalpha c = true) (cs : CString) :
    IsTagName ((c :: cs).takeWhile isTagChar) := by
  have hc : isTagChar c = true := by simp [isTagChar, isalnum_of_isalpha h]
  rw [List.takeWhile_cons_of_pos hc]
  exact ⟨c, _, rfl, h, fun d hd => List.mem_takeWhile_imp hd⟩

theorem textToken_lineToken (column : Nat) (text : CString) :
    ∀ t ∈ (if text.length > 0 then
        [createToken .tokenText (some text) indentLevel lineNumber column]
      else []), LineToken indentLevel lineNumber t := by
  intro t ht
  split at ht
  · rename_i hpos
    rw [List.mem_singleton.mp ht]
    exact lineToken_createToken column (List.ne_nil_of_length_pos hpos)
  · cases ht

theorem tokenizeText_lineToken (column pos : Nat) (buffer rest : CString) :
    ∀ t ∈ tokenizeText indentLevel lineNumber column pos buffer rest,
      LineToken indentLevel lineNumber t := by
  fun_induction tokenizeText indentLevel lineNumber column pos buffer rest with
  | case1 => simp
  | case2 column pos buffer c cs text pos' tokens after hd pos'' value ih =>
    intro t ht
    rcases List.mem_append.mp ht with ht | ht
    · exact textToken_lineToken column text t ht
    · rcases List.mem_cons.mp ht with rfl | ht
      · refine lineToken_createToken pos'' fun hmem => ?_
        have := List.mem_takeWhile_imp hmem
        simp at this
      · exact ih t ht
  | case3 column pos buffer c cs text pos' tokens after hne hd ih =>
    intro t ht
    rcases List.mem_append.mp ht with ht | ht
    · exact textToken_lineToken column text t ht
    · exact ih t ht
  | case4 column pos buffer c cs text tokens h1 h2 => exact textToken_lineToken column text

theorem tokenizeLoop_lineToken (column pos : Nat) (rest : CString) :
    ∀ t ∈ tokenizeLoop indentLevel lineNumber column pos rest,
      LineToken indentLevel lineNumber t := by
  fun_induction tokenizeLoop indentLevel lineNumber column pos rest with
  | case1 => simp
  | case2 column pos cs word ih =>
    intro t ht
    rcases List.mem_cons.mp ht with rfl | ht
    · exact lineToken_createToken _ fun c hc => List.mem_takeWhile_imp hc
    · exact ih t ht
  | case3 column pos cs word type _ ih =>
    intro t ht
    rcases List.mem_cons.mp ht with rfl | ht
    · by_cases hlen : word.length > 0
      · have htype : type = .tokenClass := if_pos hlen
        rw [htype]
        exact lineToken_createToken _
          ⟨List.ne_nil_of_length_pos hlen, fun c hc => List.mem_takeWhile_imp hc⟩
      · have htype : type = .tokenDot := if_neg hlen
        rw [htype]
        exact lineToken_createToken _ trivial
    · exact ih t ht
  | case4 column pos cs scanned _ _ ih =>
    intro t ht
    rcases List.mem_cons.mp ht with rfl | ht
    · exact lineToken_createToken _ trivial
    · exact ih t ht
  | case5 column pos c cs _ _ _ halpha name ih =>
    intro t ht
    rcases List.mem_cons.mp ht with rfl | ht
    · exact lineToken_createToken _ (isTagName_takeWhile halpha cs)
    · exact ih t ht
  | case6 => simp
  | case7 => exact tokenizeText_lineToken _ _ _ _
  | case8 => rename_i ih; exact ih
  | case9 => rename_i ih; exact ih

end Line

/-! ## Lines -/

/-- The words that `tokenize_line` looks for at the start of a line, each with the type of its token
and how far it makes `pos` jump. -/
def keywordTable : List (CString × TokenType × Nat) :=
  [("doctype".toList, .tokenDoctype, 7), ("include".toList, .tokenInclude, 7),
    ("extends".toList, .tokenExtends, 7), ("mixin".toList, .tokenMixin, 5)]

/-- `tokenize_line` on a line that starts with no keyword. -/
def tokenizeMark (indentLevel lineNumber column pos : Nat) : CString → List Token
  | '+' :: rest => restToken .tokenCall rest indentLevel lineNumber column
  | '/' :: '/' :: '-' :: rest =>
    [createToken .tokenBlockComment (some rest) indentLevel lineNumber column]
  | '/' :: '/' :: rest => [createToken .tokenComment (some rest) indentLevel lineNumber column]
  | '|' :: rest => restToken .tokenPipe rest indentLevel lineNumber column
  | '-' :: rest => restToken .tokenCode rest indentLevel lineNumber column
  | rest => tokenizeLoop indentLevel lineNumber column pos rest

theorem tokenizeLine_eq (line : CString) (lineNumber : Nat) :
    tokenizeLine line lineNumber =
      if skipWhitespace line = [] then []
      else keywordTable.foldr
        (fun k tokens =>
          if gStrHasPrefix (skipWhitespace line) k.1 then
            restToken k.2.1 ((skipWhitespace line).drop k.2.2) (countIndentLevel line) lineNumber
              (blankCount line)
          else tokens)
        (tokenizeMark (countIndentLevel line) lineNumber (blankCount line) (blankCount line)
          (skipWhitespace line)) := rfl

/-- What stands behind the indentation of a line is for the main loop. -/
def ReachesLoop (rest : CString) : Prop :=
  (∀ k ∈ keywordTable, ¬ k.1 <+: rest) ∧ (∀ c ∈ rest.head?, c ≠ '+' ∧ c ≠ '|' ∧ c ≠ '-') ∧
    ¬ ['/', '/'] <+: rest

/-- The types of the tokens that take the rest of their line. -/
def lineTypes : List TokenType :=
  [.tokenDoctype, .tokenInclude, .tokenExtends, .tokenMixin, .tokenCall, .tokenBlockComment,
    .tokenComment, .tokenPipe, .tokenCode]

theorem valueOk_of_mem_lineTypes {type : TokenType} (h : type ∈ lineTypes) (value : CString) :
    ValueOk type value := by
  simp only [lineTypes, List.mem_cons, List.not_mem_nil, or_false] at h
  rcases h with rfl | rfl | rfl | rfl | rfl | rfl | rfl | rfl | rfl <;> exact trivial

/-- The tokens are one, which takes its value from the end of `rest` and starts at `column`. -/
def OneToken (indentLevel lineNumber column : Nat) (rest : CString) (tokens : List Token) : Prop :=
  ∃ type value, type ∈ lineTypes ∧ value <:+ rest ∧
    tokens = [createToken type (some value) indentLevel lineNumber column]

section Cases

variable {indentLevel lineNumber column : Nat} {rest : CString}

theorem oneToken_restToken {type : TokenType} (htype : type ∈ lineTypes) {after : CString}
    (hafter : after <:+ rest) :
    OneToken indentLevel lineNumber column rest
      (restToken type after indentLevel lineNumber column) :=
  ⟨type, _, htype, (List.dropWhile_suffix _).trans hafter, rfl⟩

theorem tokenizeMark_cases (pos : Nat) (rest : CString) :
    OneToken indentLevel lineNumber column rest
        (tokenizeMark indentLevel lineNumber column pos rest) ∧
      ¬ ((∀ c ∈ rest.head?, c ≠ '+' ∧ c ≠ '|' ∧ c ≠ '-') ∧ ¬ ['/', '/'] <+: rest) ∨
    tokenizeMark indentLevel lineNumber column pos rest =
        tokenizeLoop indentLevel lineNumber column pos rest ∧
      (∀ c ∈ rest.head?, c ≠ '+' ∧ c ≠ '|' ∧ c ≠ '-') ∧ ¬ ['/', '/'] <+: rest := by
  unfold tokenizeMark
  split
  · exact Or.inl ⟨oneToken_restToken (by decide) (List.suffix_cons _ _),
      fun h => (h.1 '+' rfl).1 rfl⟩
  · rename_i after
    exact Or.inl ⟨⟨.tokenBlockComment, after, by decide, ⟨['/', '/', '-'], rfl⟩, rfl⟩,
      fun h => h.2 ⟨'-' :: after, rfl⟩⟩
  · rename_i after _
    exact Or.inl ⟨⟨.tokenComment, after, by decide, ⟨['/', '/'], rfl⟩, rfl⟩,
      fun h => h.2 ⟨after, rfl⟩⟩
  · exact Or.inl ⟨oneToken_restToken (by decide) (List.suffix_cons _ _),
      fun h => (h.1 '|' rfl).2.1 rfl⟩
  · exact Or.inl ⟨oneToken_restToken (by decide) (List.suffix_cons _ _),
      fun h => (h.1 '-' rfl).2.2 rfl⟩
  · rename_i hplus _ hslash hpipe hdash
    refine Or.inr ⟨rfl, ?_, ?_⟩
    · intro c hc
      obtain ⟨cs, rfl⟩ := List.head?_eq_some_iff.mp hc
      exact ⟨fun heq => hplus cs (by rw [heq]), fun heq => hpipe cs (by rw [heq]),
        fun heq => hdash cs (by rw [heq])⟩
    · rintro ⟨after, rfl⟩
      exact hslash after rfl

/-- **What a line gives.** One token, or the tokens of the main loop. -/
theorem tokenizeLine_cases (line : CString) (lineNumber : Nat) :
    OneToken (countIndentLevel line) lineNumber (blankCount line) (skipWhitespace line)
        (tokenizeLine line lineNumber) ∧ ¬ ReachesLoop (skipWhitespace line) ∨
    tokenizeLine line lineNumber =
        tokenizeLoop (countIndentLevel line) lineNumber (blankCount line) (blankCount line)
          (skipWhitespace line) ∧ ReachesLoop (skipWhitespace line) := by
  rw [tokenizeLine_eq, ReachesLoop]
  by_cases hnil : skipWhitespace line = []
  · rw [if_pos hnil, hnil]
    refine Or.inr ⟨by rw [tokenizeLoop], by decide, by simp, by simp⟩
  · rw [if_neg hnil]
    have htypes : ∀ k ∈ keywordTable, k.2.1 ∈ lineTypes := by decide
    generalize keywordTable = table at htypes
    induction table with
    | nil =>
      rcases tokenizeMark_cases (blankCount line) (skipWhitespace line) with ⟨hone, hno⟩ | h
      · exact Or.inl ⟨hone, fun hreach => hno hreach.2⟩
      · exact Or.inr ⟨h.1, by simp, h.2⟩
    | cons k table ih =>
      rw [List.forall_mem_cons] at htypes
      rw [List.foldr_cons, List.forall_mem_cons]
      by_cases hpre : gStrHasPrefix (skipWhitespace line) k.1 = true
      · rw [if_pos hpre]
        exact Or.inl ⟨oneToken_restToken htypes.1 (List.drop_suffix _ _),
          fun hreach => hreach.1.1 (List.isPrefixOf_iff_prefix.mp hpre)⟩
      · rw [if_neg hpre]
        have hnot : ¬ k.1 <+: skipWhitespace line := fun h =>
          hpre (List.isPrefixOf_iff_prefix.mpr h)
        rcases ih htypes.2 with ⟨hone, hno⟩ | ⟨hloop, hreach⟩
        · exact Or.inl ⟨hone, fun h => hno ⟨h.1.2, h.2⟩⟩
        · exact Or.inr ⟨hloop, ⟨hnot, hreach.1⟩, hreach.2⟩

end Cases

theorem tokenizeLine_of_reachesLoop {line : CString} (h : ReachesLoop (skipWhitespace line))
    (lineNumber : Nat) :
    tokenizeLine line lineNumber =
      tokenizeLoop (countIndentLevel line) lineNumber (blankCount line) (blankCount line)
        (skipWhitespace line) := by
  rcases tokenizeLine_cases line lineNumber with ⟨-, hno⟩ | ⟨heq, -⟩
  · exact absurd h hno
  · exact heq

theorem tokenizeLine_lineToken (line : CString) (lineNumber : Nat) :
    ∀ t ∈ tokenizeLine line lineNumber, LineToken (countIndentLevel line) lineNumber t := by
  rcases tokenizeLine_cases line lineNumber with ⟨⟨type, value, htype, -, heq⟩, -⟩ | ⟨heq, -⟩
  · rw [heq]
    intro t ht
    rw [List.mem_singleton.mp ht]
    exact lineToken_createToken _ (valueOk_of_mem_lineTypes htype value)
  · rw [heq]
    exact tokenizeLoop_lineToken _ _ _

/-! ## Files -/

theorem tokenizeLines_append (n : Nat) (xs ys : List CString) :
    tokenizeLines n (xs ++ ys) = tokenizeLines n xs ++ tokenizeLines (n + xs.length) ys := by
  induction xs generalizing n with
  | nil => rfl
  | cons x xs ih =>
    have h : n + 1 + xs.length = n + (xs.length + 1) := by omega
    simp [tokenizeLines, ih, h]

theorem mem_tokenizeLines {n : Nat} {lines : List CString} {t : Token}
    (h : t ∈ tokenizeLines n lines) :
    ∃ line ∈ lines, ∃ lineNumber, n ≤ lineNumber ∧ lineNumber < n + lines.length ∧
      LineToken (countIndentLevel line) lineNumber t := by
  induction lines generalizing n with
  | nil => cases h
  | cons line lines ih =>
    rcases List.mem_append.mp h with h | h
    · exact ⟨line, List.mem_cons_self, n, le_refl n, by simp, tokenizeLine_lineToken line n t h⟩
    · obtain ⟨line', hmem, k, hk, hlt, ht⟩ := ih h
      exact ⟨line', List.mem_cons_of_mem _ hmem, k, by omega,
        by simp only [List.length_cons]; omega, ht⟩

/-- The tokens of the lines of a file. -/
def fileTokens (content : CString) : List Token := tokenizeLines 1 (gStrsplit content '\n')

/-- The EOF token of a file. -/
def fileEof (content : CString) : Token :=
  createToken .tokenEof none 0 ((gStrsplit content '\n').length + 1) 0

theorem tokenizeFile_eq (content : CString) :
    tokenizeFile content = fileTokens content ++ [fileEof content] := rfl

/-- The tokens of a file given by its lines. -/
theorem fileTokens_intercalate {lines : List CString} (h : ∀ line ∈ lines, '\n' ∉ line) :
    fileTokens (['\n'].intercalate lines) = tokenizeLines 1 lines := by
  by_cases hnil : ['\n'].intercalate lines = []
  · have hlines : lines = [] ∨ lines = [[]] := by
      cases lines with
      | nil => exact Or.inl rfl
      | cons line lines =>
        cases lines with
        | nil =>
          rw [List.intercalate_singleton] at hnil
          exact Or.inr (by rw [hnil])
        | cons next lines => simp [List.intercalate_cons_cons] at hnil
    rcases hlines with rfl | rfl
    · rfl
    · rfl
  · have hne : lines ≠ [] := by
      rintro rfl
      exact hnil rfl
    rw [fileTokens, gStrsplit_of_ne_nil hnil, List.splitOn_intercalate _ h hne]

theorem mem_fileTokens {content : CString} {t : Token} (h : t ∈ fileTokens content) :
    ∃ indentLevel lineNumber, LineToken indentLevel lineNumber t := by
  obtain ⟨line, -, n, -, -, ht⟩ := mem_tokenizeLines h
  exact ⟨_, n, ht⟩

theorem LineToken.value_ne_none {indentLevel lineNumber : Nat} {t : Token}
    (h : LineToken indentLevel lineNumber t) : t.value ≠ none := by
  obtain ⟨value, hvalue, -⟩ := h.value
  rw [hvalue]
  exact Option.some_ne_none value

theorem LineToken.ne_eof {indentLevel lineNumber : Nat} {t : Token}
    (h : LineToken indentLevel lineNumber t) : t.type ≠ .tokenEof := by
  obtain ⟨value, -, hok⟩ := h.value
  intro he
  rw [he] at hok
  exact hok

end CPug
