import CPug.TreeShape

/-!
# The invariant of the token stream

`StreamOk` collects what the parser and the renderer rely on in the result of `tokenize_file`: where
its EOF token stands, the lines and depths of the others, and what each of their values is made of.
A token takes its value from the characters of its line (`tokenizeLine_subset`), so there is no newline
in it; the depth of a line is the one of its leading blanks (`countIndentLevel_eq`).
-/

namespace CPug

/-- The level of leading blanks: one for each tab, and half the length of each maximal run of spaces.
These runs are what stands between the tabs. -/
def blankLevel (blanks : CString) : Nat :=
  (blanks.splitOn '\t').foldr (fun run level => run.length / 2 + level) (blanks.count '\t')

/-- A token stream of a file with the lines `lines`. -/
structure StreamOk (lines : List CString) (tokens : List Token) : Prop where
  eof : ∃ body eof, tokens = body ++ [eof] ∧ eof.type = .tokenEof ∧ eof.line = lines.length + 1 ∧
    ∀ t ∈ body, t.type ≠ .tokenEof
  ordered : tokens.Pairwise fun a b => a.line ≤ b.line
  inFile : ∀ t ∈ tokens, t.type ≠ .tokenEof → 1 ≤ t.line ∧ t.line ≤ lines.length
  depth : ∀ t ∈ tokens, t.type ≠ .tokenEof →
    ∃ line, lines[t.line - 1]? = some line ∧ t.depth = blankLevel (line.takeWhile isBlank)
  value : ∀ t ∈ tokens, t.type ≠ .tokenEof →
    ∃ value, t.value = some value ∧ '\n' ∉ value ∧ ValueOk t.type value

/-! ## Depths -/

theorem foldr_add_one (runs : List CString) (n : Nat) :
    runs.foldr (fun run level => run.length / 2 + level) (n + 1) =
      1 + runs.foldr (fun run level => run.length / 2 + level) n := by
  induction runs with
  | nil => exact Nat.add_comm n 1
  | cons run runs ih =>
    rw [List.foldr_cons, List.foldr_cons, ih]
    omega

theorem blankLevel_tab (blanks : CString) : blankLevel ('\t' :: blanks) = 1 + blankLevel blanks := by
  have hsplit : ('\t' :: blanks).splitOn '\t' = [] :: blanks.splitOn '\t' :=
    List.splitOn_append_cons_self [] blanks
  rw [blankLevel, hsplit, List.count_cons_self, List.foldr_cons, blankLevel]
  simp only [List.length_nil, Nat.zero_div, Nat.zero_add]
  exact foldr_add_one _ _

theorem blankLevel_spaces {spaces blanks : CString} (hs : ∀ c ∈ spaces, c = ' ')
    (hb : StopsAt (· != '\t') blanks) :
    blankLevel (spaces ++ blanks) = spaces.length / 2 + blankLevel blanks := by
  have htab : '\t' ∉ spaces := fun hmem => absurd (hs _ hmem) (by decide)
  cases blanks with
  | nil =>
    rw [List.append_nil, blankLevel, List.splitOn_eq_singleton htab, List.count_eq_zero_of_not_mem htab]
    simp [blankLevel]
  | cons c blanks =>
    have hc : c = '\t' := by simpa using hb c rfl
    subst hc
    rw [blankLevel, List.splitOn_append_cons_self_of_not_mem htab, List.count_append,
      List.count_eq_zero_of_not_mem htab, List.foldr_cons, blankLevel_tab, blankLevel,
      List.count_cons_self, Nat.zero_add, foldr_add_one]

/-- `count_indent_level` computes the level of the leading blanks. -/
theorem countIndentLevel_eq (line : CString) :
    countIndentLevel line = blankLevel (line.takeWhile isBlank) := by
  fun_induction countIndentLevel line with
  | case1 => simp [blankLevel]
  | case2 rest ih =>
    rw [List.takeWhile_cons_of_pos (by decide), blankLevel_tab, ih]
  | case3 rest _ ih =>
    have hspaces : ∀ c ∈ rest.takeWhile (· == ' '), c = ' ' := by
      intro c hc
      simpa using List.mem_takeWhile_imp hc
    have hblank : ∀ c ∈ rest.takeWhile (· == ' '), isBlank c = true := by
      intro c hc
      rw [hspaces c hc]
      decide
    have hstop : StopsAt (· != '\t') ((rest.dropWhile (· == ' ')).takeWhile isBlank) := by
      have hspace := stopsAt_dropWhile (p := (· == ' ')) rest
      cases hrest : rest.dropWhile (· == ' ') with
      | nil => exact StopsAt.nil _
      | cons c cs =>
        have hc : (c == ' ') = false := hspace c (by rw [hrest]; rfl)
        by_cases hb : isBlank c = true
        · rw [List.takeWhile_cons_of_pos hb]
          refine StopsAt.cons ?_ _
          simp only [isBlank, hc, Bool.false_or] at hb
          simp [beq_iff_eq.mp hb]
        · rw [List.takeWhile_cons_of_neg hb]
          exact StopsAt.nil _
    have hsplit : (' ' :: rest).takeWhile isBlank =
        (' ' :: rest.takeWhile (· == ' ')) ++ (rest.dropWhile (· == ' ')).takeWhile isBlank := by
      rw [List.takeWhile_cons_of_pos (by decide), List.cons_append,
        ← List.takeWhile_append_of_pos hblank, List.takeWhile_append_dropWhile]
    rw [hsplit, blankLevel_spaces (List.forall_mem_cons.mpr ⟨rfl, hspaces⟩) hstop, ih,
      List.length_cons, Nat.add_comm 1]
  | case4 c rest htab hspace =>
    have hc : isBlank c = false := by simp [isBlank, htab, hspace]
    rw [List.takeWhile_cons_of_neg (by simp [hc])]
    simp [blankLevel]

/-! ## Values -/

/-- The values of the tokens are made of characters of `rest`. -/
def ValuesFrom (rest : CString) (tokens : List Token) : Prop :=
  ∀ t ∈ tokens, ∀ value ∈ t.value, value ⊆ rest

theorem ValuesFrom.nil (rest : CString) : ValuesFrom rest [] := by simp [ValuesFrom]

theorem ValuesFrom.cons {rest value : CString} {tokens : List Token} (type : TokenType)
    (depth line column : Nat) (hvalue : value ⊆ rest) (htokens : ValuesFrom rest tokens) :
    ValuesFrom rest (createToken type (some value) depth line column :: tokens) := by
  intro t ht v hv
  rcases List.mem_cons.mp ht with rfl | ht
  · cases hv
    exact hvalue
  · exact htokens t ht v hv

theorem ValuesFrom.append {rest : CString} {xs ys : List Token} (hxs : ValuesFrom rest xs)
    (hys : ValuesFrom rest ys) : ValuesFrom rest (xs ++ ys) := by
  intro t ht
  exact (List.mem_append.mp ht).elim (hxs t) (hys t)

theorem ValuesFrom.mono {rest rest' : CString} {tokens : List Token} (h : ValuesFrom rest tokens)
    (hrest : rest ⊆ rest') : ValuesFrom rest' tokens :=
  fun t ht value hvalue => List.Subset.trans (h t ht value hvalue) hrest

section Line

variable {indentLevel lineNumber : Nat}

theorem textToken_valuesFrom (column : Nat) {text rest : CString} (h : text ⊆ rest) :
    ValuesFrom rest (if text.length > 0 then
        [createToken .tokenText (some text) indentLevel lineNumber column]
      else []) := by
  split
  · exact .cons _ _ _ _ h (.nil rest)
  · exact .nil rest

theorem takeWhile_subset (p : Char → Bool) (s : CString) : s.takeWhile p ⊆ s :=
  (List.takeWhile_sublist p).subset

theorem dropWhile_subset (p : Char → Bool) (s : CString) : s.dropWhile p ⊆ s :=
  (List.dropWhile_sublist p).subset

theorem tokenizeText_valuesFrom (column pos : Nat) (buffer rest : CString) :
    ValuesFrom rest (tokenizeText indentLevel lineNumber column pos buffer rest) := by
  fun_induction tokenizeText indentLevel lineNumber column pos buffer rest with
  | case1 => exact .nil _
  | case2 column pos buffer c cs text pos' tokens after hd pos'' value =>
    rename_i ih
    have htext : text ⊆ c :: cs := takeWhile_subset _ _
    have hafter : after ⊆ c :: cs := by
      have hdrop := dropWhile_subset (· != '#') (c :: cs)
      rw [hd] at hdrop
      exact List.Subset.trans (List.subset_cons_of_subset _ (List.subset_cons_self _ _)) hdrop
    have hrest : (after.dropWhile (· != '}')).drop 1 ⊆ c :: cs :=
      List.Subset.trans (List.Subset.trans (List.drop_subset _ _) (dropWhile_subset _ _)) hafter
    exact (textToken_valuesFrom column htext).append
      (.cons _ _ _ _ (List.Subset.trans (takeWhile_subset _ _) hafter) (ih.mono hrest))
  | case3 column pos buffer c cs text pos' tokens after hne hd =>
    rename_i ih
    have htext : text ⊆ c :: cs := takeWhile_subset _ _
    have hafter : after ⊆ c :: cs := by
      have hdrop := dropWhile_subset (· != '#') (c :: cs)
      rw [hd] at hdrop
      exact List.Subset.trans (List.subset_cons_self _ _) hdrop
    exact (textToken_valuesFrom column htext).append (ih.mono hafter)
  | case4 column pos buffer c cs text tokens h1 h2 =>
    exact textToken_valuesFrom column (takeWhile_subset _ _)

theorem scanParens_subset (level : Nat) (rest : CString) : (scanParens level rest).1 ⊆ rest := by
  induction rest generalizing level with
  | nil => cases level <;> simp [scanParens]
  | cons c rest ih =>
    cases level with
    | zero => simp [scanParens]
    | succ level =>
      rw [scanParens]
      generalize (if c = '(' then level + 2 else if c = ')' then level else level + 1) = level'
      by_cases hl : level' > 0
      · simp only [if_pos hl]
        exact List.cons_subset_cons c (ih level')
      · simp [if_neg hl]

theorem tokenizeLoop_valuesFrom (column pos : Nat) (rest : CString) :
    ValuesFrom rest (tokenizeLoop indentLevel lineNumber column pos rest) := by
  have hword : ∀ (p : Char → Bool) (c : Char) (cs : CString), cs.takeWhile p ⊆ c :: cs ∧
      cs.dropWhile p ⊆ c :: cs := fun p c cs =>
    ⟨List.subset_cons_of_subset c (takeWhile_subset p cs),
      List.subset_cons_of_subset c (dropWhile_subset p cs)⟩
  fun_induction tokenizeLoop indentLevel lineNumber column pos rest with
  | case1 => exact .nil _
  | case2 column pos cs word ih =>
    exact .cons _ _ _ _ (hword _ _ _).1 (ih.mono (hword _ _ _).2)
  | case3 column pos cs word type _ ih =>
    exact .cons _ _ _ _ (hword _ _ _).1 (ih.mono (hword _ _ _).2)
  | case4 column pos cs scanned _ _ ih =>
    have hafter := (scanParens_suffix 1 cs).subset
    exact .cons _ _ _ _ (List.subset_cons_of_subset _ (scanParens_subset 1 cs))
      (ih.mono (List.subset_cons_of_subset _ hafter))
  | case5 column pos c cs _ _ _ halpha name ih =>
    exact .cons _ _ _ _ (takeWhile_subset _ _) (ih.mono (dropWhile_subset _ _))
  | case6 => exact .nil _
  | case7 => exact (tokenizeText_valuesFrom _ _ _ _).mono (dropWhile_subset _ _)
  | case8 =>
    rename_i ih
    exact ih.mono (dropWhile_subset _ _)
  | case9 =>
    rename_i ih
    exact ih.mono (List.subset_cons_self _ _)

end Line

/-- A token takes its value from its line. -/
theorem tokenizeLine_valuesFrom (line : CString) (lineNumber : Nat) :
    ValuesFrom line (tokenizeLine line lineNumber) := by
  have hrest : skipWhitespace line ⊆ line := dropWhile_subset _ _
  rcases tokenizeLine_cases line lineNumber with ⟨⟨type, value, -, hvalue, heq⟩, -⟩ | ⟨heq, -⟩
  · rw [heq]
    exact .cons _ _ _ _ (List.Subset.trans hvalue.subset hrest) (.nil _)
  · rw [heq]
    exact (tokenizeLoop_valuesFrom _ _ _).mono hrest

/-! ## Files -/

/-- Each token comes from the line whose number it has. -/
theorem exists_line_of_mem {n : Nat} {lines : List CString} {t : Token}
    (h : t ∈ tokenizeLines n lines) :
    ∃ i line, lines[i]? = some line ∧ t ∈ tokenizeLine line (n + i) := by
  induction lines generalizing n with
  | nil => cases h
  | cons line lines ih =>
    rcases List.mem_append.mp h with h | h
    · exact ⟨0, line, rfl, h⟩
    · obtain ⟨i, line', hline, ht⟩ := ih h
      refine ⟨i + 1, line', by rwa [List.getElem?_cons_succ], ?_⟩
      rwa [Nat.add_assoc, Nat.add_comm 1] at ht

/-- What holds of a token of a line of the file. -/
theorem fileToken_ok {content : CString} {t : Token} (h : t ∈ fileTokens content) :
    t.type ≠ .tokenEof ∧ (1 ≤ t.line ∧ t.line ≤ (gStrsplit content '\n').length) ∧
      (∃ line, (gStrsplit content '\n')[t.line - 1]? = some line ∧
        t.depth = blankLevel (line.takeWhile isBlank)) ∧
      ∃ value, t.value = some value ∧ '\n' ∉ value ∧ ValueOk t.type value := by
  obtain ⟨i, line, hline, ht⟩ := exists_line_of_mem h
  have hi := (List.getElem?_eq_some_iff.mp hline).1
  have htoken := tokenizeLine_lineToken line (1 + i) t ht
  obtain ⟨value, hvalue, hok⟩ := htoken.value
  have hnewline : '\n' ∉ line := not_mem_of_mem_gStrsplit (List.mem_of_getElem? hline)
  have hfrom : value ⊆ line := tokenizeLine_valuesFrom line (1 + i) t ht value hvalue
  refine ⟨htoken.ne_eof, ?_, ⟨line, ?_, ?_⟩, value, hvalue, fun hmem => hnewline (hfrom hmem), hok⟩
  · rw [htoken.line]
    omega
  · rw [htoken.line, Nat.add_sub_cancel_left, hline]
  · rw [htoken.depth, countIndentLevel_eq]

/-- **The invariant of the token stream**, for every content. -/
theorem tokenizeFile_streamOk (content : CString) :
    StreamOk (gStrsplit content '\n') (tokenizeFile content) := by
  have hbody : ∀ t ∈ tokenizeFile content, t.type ≠ .tokenEof → t ∈ fileTokens content := by
    intro t ht he
    rcases List.mem_append.mp ht with ht | ht
    · exact ht
    · rw [List.mem_singleton.mp ht] at he
      exact absurd rfl he
  constructor
  case eof =>
    exact ⟨fileTokens content, fileEof content, rfl, rfl, rfl, fun t ht => (fileToken_ok ht).1⟩
  case ordered => exact tokenizeFile_inOrder content
  case inFile => exact fun t ht he => (fileToken_ok (hbody t ht he)).2.1
  case depth => exact fun t ht he => (fileToken_ok (hbody t ht he)).2.2.1
  case value => exact fun t ht he => (fileToken_ok (hbody t ht he)).2.2.2

end CPug
