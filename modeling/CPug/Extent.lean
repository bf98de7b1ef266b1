import CPug.Total
import CPug.TokenStream

/-!
# Extents

How much of the source a token takes: its value, and the characters that mark a token of its type. The
tokens of a line take no more than the line has (`total_extent_tokenizeLine`), and those of a file no more
than the file; every token takes something, so there are no more tokens than characters.
-/

namespace CPug

/-- The characters that mark a token of the type, at the least. -/
def TokenType.markLength : TokenType → Nat
  | .tokenId | .tokenClass | .tokenDot | .tokenAttribute | .tokenPipe | .tokenCode | .tokenCall => 1
  | .tokenComment | .tokenInterpolation => 2
  | .tokenBlockComment => 3
  | .tokenMixin => 5
  | .tokenDoctype | .tokenInclude | .tokenExtends => 7
  | .tokenTag | .tokenText | .tokenIndentation | .tokenEof => 0

/-- The characters of the source that a token takes, at the least. -/
def Token.extent (token : Token) : Nat :=
  token.type.markLength + (token.value.getD []).length

theorem extent_createToken (type : TokenType) (value : CString) (depth line column : Nat) :
    (createToken type (some value) depth line column).extent = type.markLength + value.length := rfl

theorem length_scanParens_add_le (level : Nat) (rest : CString) :
    (scanParens level rest).1.length + (scanParens level rest).2.length ≤ rest.length := by
  induction rest generalizing level with
  | nil => cases level <;> simp [scanParens]
  | cons c rest ih =>
    cases level with
    | zero => simp [scanParens]
    | succ level =>
      rw [scanParens]
      generalize (if c = '(' then level + 2 else if c = ')' then level else level + 1) = level'
      have := ih level'
      by_cases hl : level' > 0
      · simp only [if_pos hl, List.length_cons]
        omega
      · simp only [if_neg hl, List.length_cons, List.length_nil]
        omega

section Line

variable {indentLevel lineNumber : Nat}

theorem length_takeWhile_add (p : Char → Bool) (s : CString) :
    (s.takeWhile p).length + (s.dropWhile p).length = s.length := by
  rw [← List.length_append, List.takeWhile_append_dropWhile]

theorem total_extent_textToken (column : Nat) (text : CString) :
    total Token.extent (if text.length > 0 then
        [createToken .tokenText (some text) indentLevel lineNumber column]
      else []) = text.length := by
  split
  · rw [total_cons, extent_createToken, total_nil]
    simp [TokenType.markLength]
  · rw [total_nil]
    omega

theorem total_extent_tokenizeText (column pos : Nat) (buffer rest : CString) :
    total Token.extent (tokenizeText indentLevel lineNumber column pos buffer rest) ≤
      rest.length := by
  fun_induction tokenizeText indentLevel lineNumber column pos buffer rest with
  | case1 => exact Nat.le_refl 0
  | case2 column pos buffer c cs text pos' tokens after hd pos'' value ih =>
    have htext : total Token.extent tokens = ((c :: cs).takeWhile (· != '#')).length :=
      total_extent_textToken column _
    have hsplit := length_takeWhile_add (· != '#') (c :: cs)
    have hafter := length_takeWhile_add (· != '}') after
    rw [hd, List.length_cons, List.length_cons] at hsplit
    rw [List.length_drop] at ih
    rw [total_append, total_cons, htext, extent_createToken]
    show _ + (2 + (after.takeWhile (· != '}')).length + _) ≤ _
    omega
  | case3 column pos buffer c cs text pos' tokens after hne hd ih =>
    have htext : total Token.extent tokens = ((c :: cs).takeWhile (· != '#')).length :=
      total_extent_textToken column _
    have hsplit := length_takeWhile_add (· != '#') (c :: cs)
    rw [hd, List.length_cons] at hsplit
    rw [total_append, htext]
    omega
  | case4 column pos buffer c cs text tokens h1 h2 =>
    have htext : total Token.extent tokens = ((c :: cs).takeWhile (· != '#')).length :=
      total_extent_textToken column _
    have hsplit := length_takeWhile_add (· != '#') (c :: cs)
    omega

theorem total_extent_tokenizeLoop (column pos : Nat) (rest : CString) :
    total Token.extent (tokenizeLoop indentLevel lineNumber column pos rest) ≤ rest.length := by
  fun_induction tokenizeLoop indentLevel lineNumber column pos rest with
  | case1 => exact Nat.le_refl 0
  | case2 column pos cs word ih =>
    have hsplit := length_takeWhile_add isWordChar cs
    rw [total_cons, extent_createToken, List.length_cons]
    show 1 + (cs.takeWhile isWordChar).length + _ ≤ _
    omega
  | case3 column pos cs word type _ ih =>
    have hsplit := length_takeWhile_add isWordChar cs
    have htype : type.markLength = 1 := by
      by_cases hlen : word.length > 0
      · have : type = .tokenClass := if_pos hlen
        rw [this]
        rfl
      · have : type = .tokenDot := if_neg hlen
        rw [this]
        rfl
    rw [total_cons, extent_createToken, List.length_cons, htype]
    show 1 + (cs.takeWhile isWordChar).length + _ ≤ _
    omega
  | case4 column pos cs scanned _ _ ih =>
    have hscan : scanned.1.length + scanned.2.length ≤ cs.length := length_scanParens_add_le 1 cs
    rw [total_cons, extent_createToken, List.length_cons]
    show 1 + _ + _ ≤ _
    omega
  | case5 column pos c cs _ _ _ halpha name ih =>
    have hsplit := length_takeWhile_add isTagChar (c :: cs)
    rw [total_cons, extent_createToken]
    show 0 + ((c :: cs).takeWhile isTagChar).length + _ ≤ _
    omega
  | case6 => exact Nat.zero_le _
  | case7 column pos cs =>
    have hlen : (skipWhitespace (' ' :: cs)).length ≤ (' ' :: cs).length :=
      (List.dropWhile_sublist _).length_le
    exact Nat.le_trans (total_extent_tokenizeText _ _ _ _) hlen
  | case8 column pos cs =>
    rename_i ih
    have hlen : (skipWhitespace (' ' :: cs)).length ≤ (' ' :: cs).length :=
      (List.dropWhile_sublist _).length_le
    exact Nat.le_trans ih hlen
  | case9 column pos c cs _ _ _ _ _ ih =>
    rw [List.length_cons]
    omega

theorem total_extent_restToken (type : TokenType) (rest : CString) (column : Nat) :
    total Token.extent (restToken type rest indentLevel lineNumber column) ≤
      type.markLength + rest.length := by
  have hlen : (skipWhitespace rest).length ≤ rest.length := (List.dropWhile_sublist _).length_le
  rw [restToken, total_cons, total_nil, extent_createToken]
  omega

theorem total_extent_tokenizeMark (column pos : Nat) (rest : CString) :
    total Token.extent (tokenizeMark indentLevel lineNumber column pos rest) ≤ rest.length := by
  unfold tokenizeMark
  split
  · rw [List.length_cons, Nat.add_comm]
    exact total_extent_restToken _ _ _
  · rw [total_cons, total_nil, extent_createToken, List.length_cons, List.length_cons,
      List.length_cons]
    simp only [TokenType.markLength]
    omega
  · rw [total_cons, total_nil, extent_createToken, List.length_cons, List.length_cons]
    simp only [TokenType.markLength]
    omega
  · rw [List.length_cons, Nat.add_comm]
    exact total_extent_restToken _ _ _
  · rw [List.length_cons, Nat.add_comm]
    exact total_extent_restToken _ _ _
  · exact total_extent_tokenizeLoop _ _ _

end Line

/-- The tokens of a line take no more than what stands behind its indentation. -/
theorem total_extent_tokenizeLine (line : CString) (lineNumber : Nat) :
    total Token.extent (tokenizeLine line lineNumber) ≤ (skipWhitespace line).length := by
  rw [tokenizeLine_eq]
  split
  · exact Nat.zero_le _
  have hmarks : ∀ k ∈ keywordTable, k.2.1.markLength = k.1.length ∧ k.2.2 = k.1.length := by
    decide
  generalize keywordTable = table at hmarks
  induction table with
  | nil => exact total_extent_tokenizeMark _ _ _
  | cons k table ih =>
    rw [List.forall_mem_cons] at hmarks
    rw [List.foldr_cons]
    split
    · rename_i hprefix
      have hlen := (List.isPrefixOf_iff_prefix.mp hprefix).length_le
      have htoken := @total_extent_restToken (countIndentLevel line) lineNumber k.2.1
        ((skipWhitespace line).drop k.2.2) (blankCount line)
      rw [List.length_drop, hmarks.1.1, hmarks.1.2] at htoken
      rw [hmarks.1.2]
      omega
    · exact ih hmarks.2

/-- A token of a line takes something. -/
theorem LineToken.one_le_extent {indentLevel lineNumber : Nat} {token : Token}
    (h : LineToken indentLevel lineNumber token) : 1 ≤ token.extent := by
  obtain ⟨value, hvalue, hok⟩ := h.value
  rw [Token.extent, hvalue, Option.getD_some]
  cases htype : token.type <;> rw [htype] at hok <;> simp only [TokenType.markLength] <;> try omega
  · obtain ⟨c, cs, rfl, -⟩ := hok
    simp
  · have := List.length_pos_iff.mpr hok
    omega
  · exact hok.elim
  · exact hok.elim

/-! ## Files -/

/-- Strings put together take one character for each that is not the first. -/
theorem length_intercalate (separator : Char) {pieces : List CString} (h : pieces ≠ []) :
    ([separator].intercalate pieces).length + 1 = total (fun piece => piece.length + 1) pieces := by
  induction pieces with
  | nil => exact absurd rfl h
  | cons piece pieces ih =>
    rw [total_cons]
    by_cases hnil : pieces = []
    · rw [hnil, List.intercalate_singleton, total_nil, Nat.add_zero]
    · have := ih hnil
      rw [List.intercalate_cons_of_ne_nil hnil, List.length_append, List.length_append,
        List.length_singleton]
      omega

/-- The pieces of a split string, each with a separator behind it, are as long as the string with one. -/
theorem total_length_splitOn (s : CString) (delimiter : Char) :
    total (fun piece => piece.length + 1) (s.splitOn delimiter) = s.length + 1 := by
  rw [← length_intercalate delimiter (List.splitOn_ne_nil delimiter s), List.intercalate_splitOn]

/-- The lines of a file are together no longer than the file. -/
theorem total_length_gStrsplit_le (content : CString) (delimiter : Char) :
    total List.length (gStrsplit content delimiter) ≤ content.length := by
  by_cases hnil : content = []
  · rw [hnil]
    exact Nat.le_refl 0
  · have hsplit := total_length_splitOn content delimiter
    have hpieces := List.length_pos_iff.mpr (List.splitOn_ne_nil delimiter content)
    rw [total_succ List.length] at hsplit
    rw [gStrsplit_of_ne_nil hnil]
    omega

theorem total_extent_tokenizeLines (lineNumber : Nat) (lines : List CString) :
    total Token.extent (tokenizeLines lineNumber lines) ≤ total List.length lines := by
  induction lines generalizing lineNumber with
  | nil => exact Nat.le_refl 0
  | cons line lines ih =>
    have hline := total_extent_tokenizeLine line lineNumber
    have hblanks : (skipWhitespace line).length ≤ line.length := (List.dropWhile_sublist _).length_le
    have := ih (lineNumber + 1)
    rw [tokenizeLines, total_append, total_cons]
    omega

/-- The tokens of a file take no more than the file has. -/
theorem total_extent_tokenizeFile (content : CString) :
    total Token.extent (tokenizeFile content) ≤ content.length := by
  have hlines := total_extent_tokenizeLines 1 (gStrsplit content '\n')
  have := total_length_gStrsplit_le content '\n'
  have heof : (createToken .tokenEof none 0 ((gStrsplit content '\n').length + 1) 0).extent = 0 := rfl
  rw [tokenizeFile, total_append, total_cons, total_nil, heof]
  omega

/-- A token of some line. -/
def FromLine (token : Token) : Prop := ∃ indentLevel lineNumber, LineToken indentLevel lineNumber token

theorem fromLine_of_mem (content : CString) :
    ∀ t ∈ tokenizeFile content, t.type ≠ .tokenEof → FromLine t := by
  intro t ht he
  rcases List.mem_append.mp ht with ht | ht
  · obtain ⟨_, -, lineNumber, -, -, htoken⟩ := mem_tokenizeLines ht
    exact ⟨_, lineNumber, htoken⟩
  · rw [List.mem_singleton.mp ht] at he
    exact absurd rfl he

/-- A file has no more tokens than characters, EOF apart. -/
theorem length_tokenizeFile_le (content : CString) :
    (tokenizeFile content).length ≤ content.length + 1 := by
  have hlines := total_extent_tokenizeLines 1 (gStrsplit content '\n')
  have hfile := total_length_gStrsplit_le content '\n'
  have hcount : (tokenizeLines 1 (gStrsplit content '\n')).length ≤
      total Token.extent (tokenizeLines 1 (gStrsplit content '\n')) := by
    apply length_le_total
    intro t ht
    obtain ⟨_, -, _, -, -, htoken⟩ := mem_tokenizeLines ht
    exact htoken.one_le_extent
  rw [tokenizeFile, List.length_append, List.length_singleton]
  omega

end CPug
