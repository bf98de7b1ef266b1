import CPug.Tokens

/-!
# The tokenizer

`pug_tokenizer.h`. The scanner walks along a line with a position `pos`; the model carries, with
`pos`, the suffix `&line[pos]` of the line, so a test of `line[pos]` is a match on the suffix and
reading past the terminating NUL is not expressible. `column` is the variable of that name: it is
refreshed exactly where the source refreshes it.
-/

namespace CPug

/-- The blanks of `skip_whitespace`. -/
def isBlank (c : Char) : Bool := c == ' ' || c == '\t'

/-- The characters of an id or a class. -/
def isWordChar (c : Char) : Bool := isalnum c || c == '-' || c == '_'

/-- The characters of a tag after its first. -/
def isTagChar (c : Char) : Bool := isalnum c || c == '-'

/-- `count_indent_level`: a tab is one level, a run of spaces half its length. -/
def countIndentLevel (line : CString) : Nat :=
  match line with
  | [] => 0
  | c :: rest =>
    if c = '\t' then 1 + countIndentLevel rest
    else if c = ' ' then
      (1 + (rest.takeWhile (· == ' ')).length) / 2 + countIndentLevel (rest.dropWhile (· == ' '))
    else 0
termination_by line.length
decreasing_by
  · simp
  · have := (List.dropWhile_sublist (l := rest) (· == ' ')).length_le
    simp only [List.length_cons]
    omega

/-- `skip_whitespace`, on the suffix. -/
def skipWhitespace (rest : CString) : CString := rest.dropWhile isBlank

/-- How far `skip_whitespace` moves the position. -/
def blankCount (rest : CString) : Nat := (rest.takeWhile isBlank).length

/-- `create_token`. -/
def createToken (type : TokenType) (value : Option CString) (depth line column : Nat) : Token where
  type := type
  value := value
  line := line
  column := column
  depth := depth

/-- The parenthesis loop: what it appends to the buffer and what it leaves of the line. -/
def scanParens : Nat → CString → CString × CString
  | 0, rest => ([], rest)
  | _, [] => ([], [])
  | level + 1, c :: rest =>
    let level := if c = '(' then level + 2 else if c = ')' then level else level + 1
    if level > 0 then
      let (value, after) := scanParens level rest
      (c :: value, after)
    else ([], rest)

/-- The parenthesis loop leaves a suffix. -/
theorem scanParens_suffix (level : Nat) (rest : CString) : (scanParens level rest).2 <:+ rest := by
  induction rest generalizing level with
  | nil => cases level <;> exact List.suffix_refl _
  | cons c rest ih =>
    cases level with
    | zero => exact List.suffix_refl _
    | succ level =>
      rw [scanParens]
      generalize (if c = '(' then level + 2 else if c = ')' then level else level + 1) = level'
      by_cases hl : level' > 0
      · simp only [if_pos hl]
        exact (ih level').trans (List.suffix_cons c rest)
      · rw [if_neg hl]
        exact List.suffix_cons c rest

theorem length_scanParens_le (level : Nat) (rest : CString) :
    (scanParens level rest).2.length ≤ rest.length := (scanParens_suffix level rest).length_le

section Line

variable (indentLevel lineNumber : Nat)

/-- The text loop, at `line[pos]`. The buffer is truncated at the top of every round. -/
def tokenizeText (column pos : Nat) (buffer rest : CString) : List Token :=
  match rest with
  | [] => []
  | c :: cs =>
    let text := gStringTruncate buffer 0 ++ (c :: cs).takeWhile (· != '#')
    let pos := pos + ((c :: cs).takeWhile (· != '#')).length
    let tokens :=
      if text.length > 0 then
        [createToken .tokenText (some text) indentLevel lineNumber column]
      else []
    match _h : (c :: cs).dropWhile (· != '#') with
    | '#' :: '{' :: after =>
      let pos := pos + 2
      let value := after.takeWhile (· != '}')
      tokens ++ createToken .tokenInterpolation (some value) indentLevel lineNumber pos ::
        tokenizeText pos (pos + value.length + ((after.dropWhile (· != '}')).take 1).length) value
          ((after.dropWhile (· != '}')).drop 1)
    | '#' :: after =>
      -- A lone `#` goes into the buffer, which the next round truncates.
      tokens ++ tokenizeText column (pos + 1) (text ++ ['#']) after
    | _ => tokens
termination_by rest.length
decreasing_by
  · have h1 := (List.dropWhile_sublist (l := c :: cs) (· != '#')).length_le
    have h2 := (List.dropWhile_sublist (l := after) (· != '}')).length_le
    rw [_h] at h1
    simp only [List.length_cons, List.length_drop] at h1 ⊢
    omega
  · have h1 := (List.dropWhile_sublist (l := c :: cs) (· != '#')).length_le
    rw [_h] at h1
    simp only [List.length_cons] at h1 ⊢
    omega

/-- The main loop of `tokenize_line`, at `line[pos]`. -/
def tokenizeLoop (column pos : Nat) (rest : CString) : List Token :=
  match rest with
  | [] => []
  | c :: cs =>
    if c = '#' then
      let word := cs.takeWhile isWordChar
      createToken .tokenId (some word) indentLevel lineNumber (pos + 1) ::
        tokenizeLoop (pos + 1) (pos + 1 + word.length) (cs.dropWhile isWordChar)
    else if c = '.' then
      let word := cs.takeWhile isWordChar
      let type := if word.length > 0 then TokenType.tokenClass else .tokenDot
      createToken type (some word) indentLevel lineNumber (pos + 1) ::
        tokenizeLoop (pos + 1) (pos + 1 + word.length) (cs.dropWhile isWordChar)
    else if c = '(' then
      let scanned := scanParens 1 cs
      createToken .tokenAttribute (some scanned.1) indentLevel lineNumber column ::
        tokenizeLoop column (pos + 1 + (cs.length - scanned.2.length)) scanned.2
    else if isalpha c then
      let name := (c :: cs).takeWhile isTagChar
      createToken .tokenTag (some name) indentLevel lineNumber pos ::
        tokenizeLoop pos (pos + name.length) ((c :: cs).dropWhile isTagChar)
    else if c = ' ' then
      let after := skipWhitespace (c :: cs)
      let pos := pos + blankCount (c :: cs)
      match after with
      | [] => []
      | d :: _ =>
        if d ≠ '#' ∧ d ≠ '.' then
          tokenizeText indentLevel lineNumber pos pos [] after
        else tokenizeLoop column pos after
    else tokenizeLoop column (pos + 1) cs
termination_by rest.length
decreasing_by
  · have := (List.dropWhile_sublist (l := cs) isWordChar).length_le
    simp only [List.length_cons]
    omega
  · have := (List.dropWhile_sublist (l := cs) isWordChar).length_le
    simp only [List.length_cons]
    omega
  · have := length_scanParens_le 1 cs
    simp only [List.length_cons]
    omega
  · rename_i halpha
    have := (List.dropWhile_sublist (l := cs) isTagChar).length_le
    rw [List.dropWhile_cons_of_pos (by simp [isTagChar, isalnum_of_isalpha halpha])]
    simp only [List.length_cons]
    omega
  · have hspace : c = ' ' := ‹_›
    have hblank : isBlank c = true := by simp [hspace, isBlank]
    have := (List.dropWhile_sublist (l := cs) isBlank).length_le
    simp only [skipWhitespace, List.dropWhile_cons_of_pos hblank, List.length_cons]
    omega
  · simp

end Line

/-- The token of a keyword line: what follows the keyword and blanks. -/
def restToken (type : TokenType) (rest : CString) (indentLevel lineNumber column : Nat) :
    List Token :=
  [createToken type (some (skipWhitespace rest)) indentLevel lineNumber column]

/-- `tokenize_line`: the tokens it appends to the list. -/
def tokenizeLine (line : CString) (lineNumber : Nat) : List Token :=
  let indentLevel := countIndentLevel line
  let pos := blankCount line
  let rest := skipWhitespace line
  let column := pos
  if rest = [] then []
  else if gStrHasPrefix rest "doctype".toList then
    restToken .tokenDoctype (rest.drop 7) indentLevel lineNumber column
  else if gStrHasPrefix rest "include".toList then
    restToken .tokenInclude (rest.drop 7) indentLevel lineNumber column
  else if gStrHasPrefix rest "extends".toList then
    restToken .tokenExtends (rest.drop 7) indentLevel lineNumber column
  else if gStrHasPrefix rest "mixin".toList then
    restToken .tokenMixin (rest.drop 5) indentLevel lineNumber column
  else
    match rest with
    | '+' :: rest => restToken .tokenCall rest indentLevel lineNumber column
    | '/' :: '/' :: '-' :: rest =>
      [createToken .tokenBlockComment (some rest) indentLevel lineNumber column]
    | '/' :: '/' :: rest =>
      [createToken .tokenComment (some rest) indentLevel lineNumber column]
    | '|' :: rest => restToken .tokenPipe rest indentLevel lineNumber column
    | '-' :: rest => restToken .tokenCode rest indentLevel lineNumber column
    | rest => tokenizeLoop indentLevel lineNumber column pos rest

/-- The line loop of `tokenize_file`, from line `lineNumber` on. -/
def tokenizeLines (lineNumber : Nat) : List CString → List Token
  | [] => []
  | line :: lines => tokenizeLine line lineNumber ++ tokenizeLines (lineNumber + 1) lines

/-- `tokenize_file`. -/
def tokenizeFile (content : CString) : List Token :=
  let lines := gStrsplit content '\n'
  tokenizeLines 1 lines ++ [createToken .tokenEof none 0 (lines.length + 1) 0]

end CPug
