import CPug.Memory.Access
import CPug.Scanner

/-!
# The reads of the tokenizer

`count_indent_level`, `skip_whitespace` and `tokenize_line` once more, this time with the index `pos`
that the source has, and with every read `line[i]` and every value of `pos` on record. A condition that
names the same `line[pos]` several times reads it once here. Loops are bounded by the length of the
line; `tokenizeLineAt_within` shows that the bound is never met, that the tokens are those of
`tokenizeLine`, and that no read and no position is behind the terminating NUL.
-/

namespace CPug

open Memory

section Functions

variable (line : CString)

/-- `line[pos]`. -/
def charAt (pos : Nat) : Traced Char := readAt line '\x00' pos

/-- A loop that appends `line[pos]` to the buffer while the test holds. -/
def collect (p : Char → Bool) (pos : Nat) : Traced (CString × Nat) :=
  scanWhile line '\x00' p (line.length + 1) pos

/-- The loop of `count_indent_level`, with the index `i`. -/
def countIndentLevelLoop : Nat → Nat → Nat → Traced Nat
  | 0, level, _ => pure level
  | fuel + 1, level, i => do
    let c ← charAt line i
    if c = '\t' then
      let next ← move (i + 1)
      countIndentLevelLoop fuel (level + 1) next
    else if c = ' ' then
      let spaces ← collect line (· == ' ') i
      countIndentLevelLoop fuel (level + spaces.1.length / 2) spaces.2
    else pure level

/-- `count_indent_level`. -/
def countIndentLevelAt : Traced Nat := countIndentLevelLoop line (line.length + 1) 0 0

/-- `skip_whitespace`. -/
def skipWhitespaceAt (pos : Nat) : Traced Nat := do
  let blanks ← collect line isBlank pos
  pure blanks.2

/-- `g_str_has_prefix(&line[pos], pfx)`: the characters are compared up to the first difference. -/
def hasPrefixAt : CString → Nat → Traced Bool
  | [], _ => pure true
  | c :: pfx, pos => do
    let d ← charAt line pos
    if d = c then hasPrefixAt pfx (pos + 1) else pure false

/-- `g_strdup(&line[pos])`, as in `create_token`. -/
def strdupAt (pos : Nat) : Traced CString := do
  let value ← collect line (· != '\x00') pos
  pure value.1

/-- The parenthesis loop. -/
def scanParensAt : Nat → Nat → Nat → Traced (CString × Nat)
  | 0, _, pos => pure ([], pos)
  | fuel + 1, level, pos => do
    let c ← charAt line pos
    if c ≠ '\x00' ∧ level > 0 then
      let level := if c = '(' then level + 1 else if c = ')' then level - 1 else level
      let next ← move (pos + 1)
      let scanned ← scanParensAt fuel level next
      pure (if level > 0 then c :: scanned.1 else scanned.1, scanned.2)
    else pure ([], pos)

variable (indentLevel lineNumber : Nat)

/-- The text loop. -/
def tokenizeTextAt : Nat → Nat → Nat → Traced (List Token)
  | 0, _, _ => pure []
  | fuel + 1, column, pos => do
    let c ← charAt line pos
    if c = '\x00' then pure []
    else
      let text ← collect line (fun c => c != '\x00' && c != '#') pos
      let tokens :=
        if text.1.length > 0 then
          [createToken .tokenText (some text.1) indentLevel lineNumber column]
        else []
      let c ← charAt line text.2
      if c = '#' then
        let d ← charAt line (text.2 + 1)
        if d = '{' then
          let start ← move (text.2 + 2)
          let value ← collect line (fun c => c != '\x00' && c != '}') start
          let c ← charAt line value.2
          let next ← move (if c = '}' then value.2 + 1 else value.2)
          let rest ← tokenizeTextAt fuel start next
          pure (tokens ++
            createToken .tokenInterpolation (some value.1) indentLevel lineNumber start :: rest)
        else
          let next ← move (text.2 + 1)
          let rest ← tokenizeTextAt fuel column next
          pure (tokens ++ rest)
      else
        let rest ← tokenizeTextAt fuel column text.2
        pure (tokens ++ rest)

/-- The main loop of `tokenize_line`. -/
def tokenizeLoopAt : Nat → Nat → Nat → Traced (List Token)
  | 0, _, _ => pure []
  | fuel + 1, column, pos => do
    let c ← charAt line pos
    if c = '\x00' then pure []
    else if c = '#' then
      let start ← move (pos + 1)
      let word ← collect line isWordChar start
      let rest ← tokenizeLoopAt fuel start word.2
      pure (createToken .tokenId (some word.1) indentLevel lineNumber start :: rest)
    else if c = '.' then
      let start ← move (pos + 1)
      let word ← collect line isWordChar start
      let type := if word.1.length > 0 then TokenType.tokenClass else .tokenDot
      let rest ← tokenizeLoopAt fuel start word.2
      pure (createToken type (some word.1) indentLevel lineNumber start :: rest)
    else if c = '(' then
      let start ← move (pos + 1)
      let value ← scanParensAt line (line.length + 1) 1 start
      let rest ← tokenizeLoopAt fuel column value.2
      pure (createToken .tokenAttribute (some value.1) indentLevel lineNumber column :: rest)
    else if isalpha c then
      let name ← collect line isTagChar pos
      let rest ← tokenizeLoopAt fuel pos name.2
      pure (createToken .tokenTag (some name.1) indentLevel lineNumber pos :: rest)
    else if c = ' ' then
      let next ← skipWhitespaceAt line pos
      let d ← charAt line next
      if d ≠ '\x00' ∧ d ≠ '#' ∧ d ≠ '.' then
        tokenizeTextAt line indentLevel lineNumber (line.length + 1) next next
      else tokenizeLoopAt fuel column next
    else
      let next ← move (pos + 1)
      tokenizeLoopAt fuel column next

/-- A keyword line, from behind the keyword on. -/
def restTokenAt (type : TokenType) (column pos : Nat) : Traced (List Token) := do
  let pos ← skipWhitespaceAt line pos
  let value ← strdupAt line pos
  pure [createToken type (some value) indentLevel lineNumber column]

/-- The test for a comment. -/
def startsComment (pos : Nat) : Traced Bool := do
  let c ← charAt line pos
  if c = '/' then
    let d ← charAt line (pos + 1)
    pure (d == '/')
  else pure false

/-- A comment line: a third character decides its type. -/
def commentAt (column pos : Nat) : Traced (List Token) := do
  let c ← charAt line (pos + 2)
  if c = '-' then
    let start ← move (pos + 3)
    let value ← strdupAt line start
    pure [createToken .tokenBlockComment (some value) indentLevel lineNumber column]
  else
    let start ← move (pos + 2)
    let value ← strdupAt line start
    pure [createToken .tokenComment (some value) indentLevel lineNumber column]

/-- `tokenize_line` behind the tests for the keywords. -/
def tokenizeMarkAt (column pos : Nat) : Traced (List Token) := do
  let c ← charAt line pos
  if c = '+' then
    let next ← move (pos + 1)
    restTokenAt line indentLevel lineNumber .tokenCall column next
  else
    let comment ← startsComment line pos
    if comment then commentAt line indentLevel lineNumber column pos
    else if c = '|' then
      let next ← move (pos + 1)
      restTokenAt line indentLevel lineNumber .tokenPipe column next
    else if c = '-' then
      let next ← move (pos + 1)
      restTokenAt line indentLevel lineNumber .tokenCode column next
    else tokenizeLoopAt line indentLevel lineNumber (line.length + 1) column pos

/-- The tests for the keywords, each with the type of its token and how far it makes `pos` jump. -/
def tokenizeKeywordsAt (column pos : Nat) :
    List (CString × TokenType × Nat) → Traced (List Token)
  | [] => tokenizeMarkAt line indentLevel lineNumber column pos
  | (keyword, type, jump) :: table => do
    let found ← hasPrefixAt line keyword pos
    if found then
      let next ← move (pos + jump)
      restTokenAt line indentLevel lineNumber type column next
    else tokenizeKeywordsAt column pos table

end Functions

/-- `tokenize_line`. -/
def tokenizeLineAt (line : CString) (lineNumber : Nat) : Traced (List Token) := do
  let indentLevel ← countIndentLevelAt line
  let pos ← skipWhitespaceAt line 0
  let c ← charAt line pos
  if c = '\x00' then pure []
  else tokenizeKeywordsAt line indentLevel lineNumber pos pos keywordTable

/-! ## Indentation -/

section Specs

variable {line rest : CString} {pos fuel : Nat}

theorem within_charAt (h : At line pos rest) :
    Within line.length (charAt line pos) (rest.headD '\x00') := within_readAt _ h

theorem within_collect {p : Char → Bool} (hp : p '\x00' = false) (h : At line pos rest) :
    Within line.length (collect line p pos)
      (rest.takeWhile p, pos + (rest.takeWhile p).length) :=
  within_scanWhile hp h (Nat.lt_succ_of_le h.length_le)

theorem within_skipWhitespaceAt (h : At line pos rest) :
    Within line.length (skipWhitespaceAt line pos) (pos + blankCount rest) :=
  Within.bind (within_collect rfl h) (Within.pure _)

theorem at_skipWhitespace (h : At line pos rest) :
    At line (pos + blankCount rest) (skipWhitespace rest) := h.dropWhile isBlank

/-- A bound above the length of the rest is not used up. -/
theorem exists_fuel {n : Nat} (h : n < fuel) : ∃ fuel', fuel = fuel' + 1 ∧ n ≤ fuel' :=
  ⟨fuel - 1, by omega, by omega⟩

theorem within_countIndentLevelLoop (level : Nat) (h : At line pos rest)
    (hfuel : rest.length < fuel) :
    Within line.length (countIndentLevelLoop line fuel level pos)
      (level + countIndentLevel rest) := by
  fun_induction countIndentLevel rest generalizing fuel level pos with
  | case1 =>
    obtain ⟨fuel, rfl, -⟩ := exists_fuel hfuel
    exact Within.bind (within_charAt h) (Within.pure level)
  | case2 rest ih =>
    obtain ⟨fuel, rfl, hle⟩ := exists_fuel hfuel
    rw [← Nat.add_assoc]
    apply Within.bind (within_charAt h)
    apply Within.bind (within_move h.tail.le)
    exact ih _ h.tail hle
  | case3 rest _ ih =>
    obtain ⟨fuel, rfl, hle⟩ := exists_fuel hfuel
    have hspaces := within_collect (p := (· == ' ')) rfl h
    have hat := h.dropWhile (· == ' ')
    rw [List.takeWhile_cons_of_pos (by rfl), List.length_cons] at hspaces hat
    rw [List.dropWhile_cons_of_pos (by rfl)] at hat
    rw [← Nat.add_assoc, Nat.add_comm 1 (rest.takeWhile (· == ' ')).length]
    apply Within.bind (within_charAt h)
    apply Within.bind hspaces
    have hlen := (List.dropWhile_sublist (l := rest) (· == ' ')).length_le
    exact ih _ hat (Nat.lt_of_le_of_lt hlen hle)
  | case4 c rest htab hspace =>
    obtain ⟨fuel, rfl, -⟩ := exists_fuel hfuel
    apply Within.bind (within_charAt h)
    rw [List.headD_cons, if_neg htab, if_neg hspace]
    exact Within.pure level

theorem within_countIndentLevelAt (line : CString) :
    Within line.length (countIndentLevelAt line) (countIndentLevel line) := by
  have h := within_countIndentLevelLoop 0 (At.start line) (Nat.lt_succ_self _)
  rwa [Nat.zero_add] at h

/-! ## Words, groups and text -/

theorem within_hasPrefixAt {keyword : CString} (hkeyword : '\x00' ∉ keyword)
    (h : At line pos rest) :
    Within line.length (hasPrefixAt line keyword pos) (gStrHasPrefix rest keyword) := by
  induction keyword generalizing pos rest with
  | nil =>
    rw [gStrHasPrefix, List.isPrefixOf_nil_left]
    exact Within.pure true
  | cons c keyword ih =>
    simp only [List.mem_cons, not_or] at hkeyword
    apply Within.bind (within_charAt h)
    cases rest with
    | nil =>
      rw [List.headD_nil, if_neg hkeyword.1]
      exact Within.pure false
    | cons d rest =>
      rw [List.headD_cons]
      by_cases hd : d = c
      · subst hd
        rw [if_pos rfl, gStrHasPrefix, List.isPrefixOf_cons_cons_self]
        exact ih hkeyword.2 h.tail
      · have hne : (c == d) = false := beq_false_of_ne (Ne.symm hd)
        rw [if_neg hd, gStrHasPrefix, List.isPrefixOf_cons_cons, hne, Bool.false_and]
        exact Within.pure false

/-- On a line without NUL the test for NUL in a loop says only that the line goes on. -/
theorem takeWhile_and {p : Char → Bool} (h : '\x00' ∉ rest) :
    rest.takeWhile (fun c => c != '\x00' && p c) = rest.takeWhile p := by
  induction rest with
  | nil => rfl
  | cons c rest ih =>
    simp only [List.mem_cons, not_or] at h
    have hc : (c != '\x00') = true := bne_iff_ne.mpr (Ne.symm h.1)
    rw [List.takeWhile_cons, List.takeWhile_cons, hc, Bool.true_and, ih h.2]

theorem within_collect_and (hline : '\x00' ∉ line) (p : Char → Bool) (h : At line pos rest) :
    Within line.length (collect line (fun c => c != '\x00' && p c) pos)
      (rest.takeWhile p, pos + (rest.takeWhile p).length) := by
  have hcollect := @within_collect line rest pos (fun c => c != '\x00' && p c) rfl h
  rwa [takeWhile_and fun hmem => hline (h.mem hmem)] at hcollect

theorem within_strdupAt (hline : '\x00' ∉ line) (h : At line pos rest) :
    Within line.length (strdupAt line pos) rest := by
  have hrest : '\x00' ∉ rest := fun hmem => hline (h.mem hmem)
  have hall : rest.takeWhile (· != '\x00') = rest :=
    List.takeWhile_eq_self_iff.mpr (forall_ne_of_not_mem hrest)
  have hcollect := within_collect (p := (· != '\x00')) rfl h
  rw [hall] at hcollect
  exact Within.bind hcollect (Within.pure rest)

theorem within_scanParensAt (hline : '\x00' ∉ line) (level : Nat) (h : At line pos rest)
    (hfuel : rest.length < fuel) :
    Within line.length (scanParensAt line fuel level pos)
      ((scanParens level rest).1, pos + (rest.length - (scanParens level rest).2.length)) := by
  induction rest generalizing fuel level pos with
  | nil =>
    obtain ⟨fuel, rfl, -⟩ := exists_fuel hfuel
    have hend : scanParens level [] = ([], []) := by cases level <;> rfl
    rw [hend]
    exact Within.bind (within_charAt h) (Within.pure _)
  | cons c rest ih =>
    obtain ⟨fuel, rfl, hle⟩ := exists_fuel hfuel
    have hc : c ≠ '\x00' := by
      rintro rfl
      exact hline (h.mem List.mem_cons_self)
    apply Within.bind (within_charAt h)
    rw [List.headD_cons]
    cases level with
    | zero =>
      rw [if_neg (fun hand => Nat.lt_irrefl 0 hand.2), scanParens, Nat.sub_self]
      exact Within.pure _
    | succ level =>
      have hlevel : (if c = '(' then level + 1 + 1 else if c = ')' then level + 1 - 1 else level + 1) =
          (if c = '(' then level + 2 else if c = ')' then level else level + 1) := rfl
      rw [if_pos ⟨hc, Nat.succ_pos level⟩, hlevel, scanParens]
      generalize (if c = '(' then level + 2 else if c = ')' then level else level + 1) = level'
      apply Within.bind (within_move h.tail.le)
      apply Within.bind (ih level' h.tail hle)
      have hlen := (scanParens_suffix level' rest).length_le
      by_cases hl : level' > 0
      · have hnext : pos + 1 + (rest.length - (scanParens level' rest).2.length) =
            pos + ((c :: rest).length - (scanParens level' rest).2.length) := by
          rw [List.length_cons]
          omega
        rw [hnext]
        simp only [if_pos hl]
        exact Within.pure _
      · have hzero : level' = 0 := Nat.eq_zero_of_not_pos hl
        subst hzero
        have hnext : pos + 1 + (rest.length - rest.length) = pos + ((c :: rest).length - rest.length) := by
          rw [List.length_cons]
          omega
        rw [scanParens, hnext, if_neg hl]
        exact Within.pure _

/-- The closing brace is stepped over if there is one. -/
theorem at_behind_brace (h : At line pos rest) :
    (if (rest.dropWhile (· != '}')).headD '\x00' = '}' then
        pos + (rest.takeWhile (· != '}')).length + 1
      else pos + (rest.takeWhile (· != '}')).length) =
        pos + (rest.takeWhile (· != '}')).length + ((rest.dropWhile (· != '}')).take 1).length ∧
      At line
        (pos + (rest.takeWhile (· != '}')).length + ((rest.dropWhile (· != '}')).take 1).length)
        ((rest.dropWhile (· != '}')).drop 1) := by
  have hat := h.dropWhile (· != '}')
  rcases dropWhile_bne_cases '}' rest with hnil | ⟨after, hcons⟩
  · rw [hnil] at hat ⊢
    exact ⟨rfl, hat⟩
  · rw [hcons] at hat ⊢
    exact ⟨rfl, hat.tail⟩

theorem within_tokenizeTextAt_nil {indentLevel lineNumber column : Nat} (h : At line pos [])
    (hfuel : 0 < fuel) :
    Within line.length (tokenizeTextAt line indentLevel lineNumber fuel column pos) [] := by
  obtain ⟨fuel, rfl, -⟩ := exists_fuel hfuel
  exact Within.bind (within_charAt h) (Within.pure [])

theorem within_tokenizeTextAt (hline : '\x00' ∉ line) {indentLevel lineNumber : Nat}
    (column : Nat) (buffer : CString) (h : At line pos rest) (hfuel : rest.length < fuel) :
    Within line.length (tokenizeTextAt line indentLevel lineNumber fuel column pos)
      (tokenizeText indentLevel lineNumber column pos buffer rest) := by
  have hnul : ∀ c ∈ line, c ≠ '\x00' := fun c hc heq => hline (heq ▸ hc)
  have hshort : ∀ (p : Char → Bool) (c : Char) (cs : CString),
      ((c :: cs).dropWhile p).length ≤ cs.length + 1 := fun p c cs =>
    (List.dropWhile_sublist p).length_le
  fun_induction tokenizeText indentLevel lineNumber column pos buffer rest generalizing fuel with
  | case1 column pos buffer => exact within_tokenizeTextAt_nil h hfuel
  | case2 column pos buffer c cs text pos' tokens after hd pos'' value =>
    rename_i ih
    obtain ⟨fuel, rfl, hle⟩ := exists_fuel hfuel
    have hat := h.dropWhile (· != '#')
    have hlen := hshort (· != '#') c cs
    rw [hd] at hat hlen
    have hafter := (List.dropWhile_sublist (l := after) (· != '}')).length_le
    simp only [List.length_cons] at hlen hle
    obtain ⟨hnext, hatnext⟩ := at_behind_brace hat.tail.tail
    apply Within.bind (within_charAt h)
    rw [List.headD_cons, if_neg (hnul c (h.mem List.mem_cons_self))]
    apply Within.bind (within_collect_and hline _ h)
    apply Within.bind (within_charAt hat)
    apply Within.bind (within_charAt hat.tail)
    apply Within.bind (within_move hat.tail.tail.le)
    apply Within.bind (within_collect_and hline _ hat.tail.tail)
    apply Within.bind (within_charAt (hat.tail.tail.dropWhile (· != '}')))
    rw [hnext]
    apply Within.bind (within_move hatnext.le)
    apply Within.bind (ih hatnext _)
    · exact Within.pure _
    · rw [List.length_drop]
      omega
  | case3 column pos buffer c cs text pos' tokens after hne hd =>
    rename_i ih
    obtain ⟨fuel, rfl, hle⟩ := exists_fuel hfuel
    have hat := h.dropWhile (· != '#')
    have hlen := hshort (· != '#') c cs
    rw [hd] at hat hlen
    simp only [List.length_cons] at hlen hle
    apply Within.bind (within_charAt h)
    rw [List.headD_cons, if_neg (hnul c (h.mem List.mem_cons_self))]
    apply Within.bind (within_collect_and hline _ h)
    apply Within.bind (within_charAt hat)
    apply Within.bind (within_charAt hat.tail)
    have hbrace : after.headD '\x00' ≠ '{' := by
      cases after with
      | nil => decide
      | cons d after => exact fun heq => hne after (by rw [← heq]; rfl)
    rw [if_neg hbrace]
    apply Within.bind (within_move hat.tail.le)
    apply Within.bind (ih hat.tail _)
    · exact Within.pure _
    · omega
  | case4 column pos buffer c cs text tokens =>
    rename_i hnone
    obtain ⟨fuel, rfl, hle⟩ := exists_fuel hfuel
    -- The line ends with the text.
    have hdrop : (c :: cs).dropWhile (· != '#') = [] := dropWhile_bne_eq_nil hnone
    have hat := h.dropWhile (· != '#')
    rw [hdrop] at hat
    apply Within.bind (within_charAt h)
    rw [List.headD_cons, if_neg (hnul c (h.mem List.mem_cons_self))]
    apply Within.bind (within_collect_and hline _ h)
    apply Within.bind (within_charAt hat)
    rw [List.headD_nil, if_neg (by decide)]
    apply Within.bind (within_tokenizeTextAt_nil hat (Nat.lt_of_lt_of_le (Nat.succ_pos _) hle))
    rw [List.append_nil]
    exact Within.pure _

/-! ## The main loop -/

theorem within_tokenizeLoopAt_nil {indentLevel lineNumber column : Nat} (h : At line pos [])
    (hfuel : 0 < fuel) :
    Within line.length (tokenizeLoopAt line indentLevel lineNumber fuel column pos) [] := by
  obtain ⟨fuel, rfl, -⟩ := exists_fuel hfuel
  exact Within.bind (within_charAt h) (Within.pure [])

theorem within_tokenizeLoopAt (hline : '\x00' ∉ line) {indentLevel lineNumber : Nat}
    (column : Nat) (h : At line pos rest) (hfuel : rest.length < fuel) :
    Within line.length (tokenizeLoopAt line indentLevel lineNumber fuel column pos)
      (tokenizeLoop indentLevel lineNumber column pos rest) := by
  have hnul : ∀ c ∈ line, c ≠ '\x00' := fun c hc heq => hline (heq ▸ hc)
  fun_induction tokenizeLoop indentLevel lineNumber column pos rest generalizing fuel with
  | case1 => exact within_tokenizeLoopAt_nil h hfuel
  | case2 column pos cs word | case3 column pos cs word =>
    rename_i ih
    obtain ⟨fuel, rfl, hle⟩ := exists_fuel hfuel
    have hlen := (List.dropWhile_sublist (l := cs) isWordChar).length_le
    apply Within.bind (within_charAt h)
    apply Within.bind (within_move h.tail.le)
    apply Within.bind (within_collect rfl h.tail)
    exact Within.bind (ih (h.tail.dropWhile isWordChar) (Nat.lt_of_le_of_lt hlen hle))
      (Within.pure _)
  | case4 column pos cs scanned _ _ =>
    rename_i ih
    obtain ⟨fuel, rfl, hle⟩ := exists_fuel hfuel
    have hlen := (scanParens_suffix 1 cs).length_le
    apply Within.bind (within_charAt h)
    apply Within.bind (within_move h.tail.le)
    apply Within.bind
      (within_scanParensAt hline 1 h.tail (Nat.lt_succ_of_le h.tail.length_le))
    exact Within.bind (ih (h.tail.suffix (scanParens_suffix 1 cs)) (Nat.lt_of_le_of_lt hlen hle))
      (Within.pure _)
  | case5 column pos c cs h1 h2 h3 halpha name =>
    rename_i ih
    obtain ⟨fuel, rfl, hle⟩ := exists_fuel hfuel
    have hlen : ((c :: cs).dropWhile isTagChar).length ≤ cs.length := by
      rw [List.dropWhile_cons_of_pos (by simp [isTagChar, isalnum_of_isalpha halpha])]
      exact (List.dropWhile_sublist _).length_le
    apply Within.bind (within_charAt h)
    rw [List.headD_cons, if_neg (hnul c (h.mem List.mem_cons_self)), if_neg h1, if_neg h2,
      if_neg h3, if_pos halpha]
    apply Within.bind (within_collect rfl h)
    exact Within.bind (ih (h.dropWhile isTagChar) (Nat.lt_of_le_of_lt hlen hle)) (Within.pure _)
  | case6 column pos cs =>
    rename_i hafter
    obtain ⟨fuel, rfl, hle⟩ := exists_fuel hfuel
    have hskip : skipWhitespace (' ' :: cs) = [] := hafter
    have hat := at_skipWhitespace h
    rw [hskip] at hat
    apply Within.bind (within_charAt h)
    apply Within.bind (within_skipWhitespaceAt h)
    apply Within.bind (within_charAt hat)
    exact within_tokenizeLoopAt_nil hat (Nat.lt_of_lt_of_le (Nat.succ_pos _) hle)
  | case7 column pos cs d ds htext =>
    rename_i hafter
    obtain ⟨fuel, rfl, hle⟩ := exists_fuel hfuel
    have hskip : skipWhitespace (' ' :: cs) = d :: ds := hafter
    have hat := at_skipWhitespace h
    have hd : d ≠ '\x00' := hnul d (hat.mem (by rw [hskip]; exact List.mem_cons_self))
    apply Within.bind (within_charAt h)
    apply Within.bind (within_skipWhitespaceAt h)
    apply Within.bind (within_charAt hat)
    rw [hskip, List.headD_cons, if_pos ⟨hd, htext⟩]
    exact within_tokenizeTextAt hline _ _ hat (Nat.lt_succ_of_le hat.length_le)
  | case8 column pos cs d ds htext =>
    rename_i hafter ih
    obtain ⟨fuel, rfl, hle⟩ := exists_fuel hfuel
    have hskip : skipWhitespace (' ' :: cs) = d :: ds := hafter
    have hat := at_skipWhitespace h
    have hlen : (skipWhitespace (' ' :: cs)).length ≤ cs.length := by
      rw [skipWhitespace_space]
      exact (List.dropWhile_sublist _).length_le
    apply Within.bind (within_charAt h)
    apply Within.bind (within_skipWhitespaceAt h)
    apply Within.bind (within_charAt hat)
    rw [hskip, List.headD_cons, if_neg (fun hand => htext hand.2)]
    exact ih hat (Nat.lt_of_le_of_lt hlen hle)
  | case9 column pos c cs h1 h2 h3 halpha hspace =>
    rename_i ih
    obtain ⟨fuel, rfl, hle⟩ := exists_fuel hfuel
    apply Within.bind (within_charAt h)
    rw [List.headD_cons, if_neg (hnul c (h.mem List.mem_cons_self)), if_neg h1, if_neg h2,
      if_neg h3, if_neg halpha, if_neg hspace]
    apply Within.bind (within_move h.tail.le)
    exact ih h.tail hle

/-! ## Lines -/

variable {indentLevel lineNumber : Nat}

theorem within_restTokenAt (hline : '\x00' ∉ line) (type : TokenType) (column : Nat)
    (h : At line pos rest) :
    Within line.length (restTokenAt line indentLevel lineNumber type column pos)
      (restToken type rest indentLevel lineNumber column) := by
  apply Within.bind (within_skipWhitespaceAt h)
  apply Within.bind (within_strdupAt hline (at_skipWhitespace h))
  exact Within.pure _

theorem within_startsComment (h : At line pos rest) :
    Within line.length (startsComment line pos) (gStrHasPrefix rest ['/', '/']) := by
  apply Within.bind (within_charAt h)
  cases rest with
  | nil => exact Within.pure false
  | cons c cs =>
    rw [List.headD_cons]
    by_cases hc : c = '/'
    · subst hc
      rw [if_pos rfl]
      apply Within.bind (within_charAt h.tail)
      have hslashes : (cs.headD '\x00' == '/') = gStrHasPrefix ('/' :: cs) ['/', '/'] := by
        cases cs with
        | nil => rfl
        | cons d ds =>
          rw [gStrHasPrefix, List.isPrefixOf_cons_cons_self, List.isPrefixOf_cons_cons,
            List.isPrefixOf_nil_left, Bool.and_true, BEq.comm]
          rfl
      rw [hslashes]
      exact Within.pure _
    · have hslashes : gStrHasPrefix (c :: cs) ['/', '/'] = false := by
        rw [gStrHasPrefix, List.isPrefixOf_cons_cons, beq_false_of_ne (Ne.symm hc), Bool.false_and]
      rw [if_neg hc, hslashes]
      exact Within.pure false

theorem within_tokenizeMarkAt (hline : '\x00' ∉ line) (column : Nat) (h : At line pos rest) :
    Within line.length (tokenizeMarkAt line indentLevel lineNumber column pos)
      (tokenizeMark indentLevel lineNumber column pos rest) := by
  have hcomment := within_startsComment h
  have hhead := within_charAt h
  unfold tokenizeMark
  split
  · apply Within.bind hhead
    apply Within.bind (within_move h.tail.le)
    exact within_restTokenAt hline _ column h.tail
  · apply Within.bind hhead
    apply Within.bind hcomment
    apply Within.bind (within_charAt h.tail.tail)
    apply Within.bind (within_move h.tail.tail.tail.le)
    exact Within.bind (within_strdupAt hline h.tail.tail.tail) (Within.pure _)
  · rename_i rest hdash
    have hne : rest.headD '\x00' ≠ '-' := by
      cases rest with
      | nil => decide
      | cons d ds => exact fun heq => hdash ds (by rw [← heq]; rfl)
    apply Within.bind hhead
    apply Within.bind hcomment
    apply Within.bind (within_charAt h.tail.tail)
    rw [if_neg hne]
    apply Within.bind (within_move h.tail.tail.le)
    exact Within.bind (within_strdupAt hline h.tail.tail) (Within.pure _)
  · apply Within.bind hhead
    apply Within.bind hcomment
    apply Within.bind (within_move h.tail.le)
    exact within_restTokenAt hline _ column h.tail
  · apply Within.bind hhead
    apply Within.bind hcomment
    apply Within.bind (within_move h.tail.le)
    exact within_restTokenAt hline _ column h.tail
  · rename_i hplus _ hslash hpipe hdash
    have hne : rest.headD '\x00' ≠ '+' ∧ rest.headD '\x00' ≠ '|' ∧ rest.headD '\x00' ≠ '-' := by
      cases rest with
      | nil => decide
      | cons c cs =>
        exact ⟨fun heq => hplus cs (by rw [← heq]; rfl), fun heq => hpipe cs (by rw [← heq]; rfl),
          fun heq => hdash cs (by rw [← heq]; rfl)⟩
    have hslashes : gStrHasPrefix rest ['/', '/'] = false := by
      rw [gStrHasPrefix, Bool.eq_false_iff]
      intro htrue
      obtain ⟨after, hafter⟩ := List.isPrefixOf_iff_prefix.mp htrue
      exact hslash after hafter.symm
    rw [hslashes] at hcomment
    apply Within.bind hhead
    rw [if_neg hne.1]
    apply Within.bind hcomment
    rw [if_neg Bool.false_ne_true, if_neg hne.2.1, if_neg hne.2.2]
    exact within_tokenizeLoopAt hline column h (Nat.lt_succ_of_le h.length_le)

/-- The keyword tests, for a table in which `pos` jumps over the keyword. -/
theorem within_tokenizeKeywordsAt (hline : '\x00' ∉ line) (column : Nat) (h : At line pos rest)
    {table : List (CString × TokenType × Nat)}
    (htable : ∀ k ∈ table, '\x00' ∉ k.1 ∧ k.2.2 = k.1.length) :
    Within line.length (tokenizeKeywordsAt line indentLevel lineNumber column pos table)
      (table.foldr
        (fun k tokens =>
          if gStrHasPrefix rest k.1 then
            restToken k.2.1 (rest.drop k.2.2) indentLevel lineNumber column
          else tokens)
        (tokenizeMark indentLevel lineNumber column pos rest)) := by
  induction table with
  | nil => exact within_tokenizeMarkAt hline column h
  | cons k table ih =>
    obtain ⟨keyword, type, jump⟩ := k
    rw [List.forall_mem_cons] at htable
    obtain ⟨⟨hkeyword, hjump⟩, htable⟩ := htable
    apply Within.bind (within_hasPrefixAt hkeyword h)
    rw [List.foldr_cons]
    by_cases hpre : gStrHasPrefix rest keyword = true
    · obtain ⟨after, rfl⟩ := List.isPrefixOf_iff_prefix.mp hpre
      have hdrop : (keyword ++ after).drop jump = after := List.drop_left' hjump.symm
      have hat := h.append
      rw [← hjump] at hat
      rw [if_pos hpre, if_pos hpre, hdrop]
      exact Within.bind (within_move hat.le) (within_restTokenAt hline type column hat)
    · rw [if_neg hpre, if_neg hpre]
      exact ih htable

end Specs

/-- **The reads of the tokenizer.** On a line of length `n` without NUL, `count_indent_level`,
`skip_whitespace` and `tokenize_line` read no index and set `pos` to no value above `n`, and their
results are those of the model on suffixes. -/
theorem tokenizeLineAt_within {line : CString} (hline : '\x00' ∉ line) :
    Within line.length (countIndentLevelAt line) (countIndentLevel line) ∧
      (∀ pos ≤ line.length, Within line.length (skipWhitespaceAt line pos)
        (pos + blankCount (line.drop pos))) ∧
      ∀ lineNumber, Within line.length (tokenizeLineAt line lineNumber)
        (tokenizeLine line lineNumber) := by
  refine ⟨within_countIndentLevelAt line, fun pos hpos => within_skipWhitespaceAt (At.of_le hpos),
    fun lineNumber => ?_⟩
  have hskip := within_skipWhitespaceAt (At.start line)
  have hat := at_skipWhitespace (At.start line)
  rw [Nat.zero_add] at hskip hat
  have htable : ∀ k ∈ keywordTable, '\x00' ∉ k.1 ∧ k.2.2 = k.1.length := by decide
  rw [tokenizeLine_eq]
  apply Within.bind (within_countIndentLevelAt line)
  apply Within.bind hskip
  apply Within.bind (within_charAt hat)
  cases hrest : skipWhitespace line with
  | nil => exact Within.pure []
  | cons c cs =>
    have hc : c ≠ '\x00' := by
      rintro rfl
      exact hline (hat.mem (by rw [hrest]; exact List.mem_cons_self))
    rw [hrest] at hat
    rw [List.headD_cons, if_neg hc, if_neg (List.cons_ne_nil c cs)]
    exact within_tokenizeKeywordsAt hline _ hat htable

theorem tokenizeLineAt_within_doctype :
    Within "  doctype a".toList.length (countIndentLevelAt "  doctype a".toList)
        (countIndentLevel "  doctype a".toList) ∧
      (∀ pos ≤ "  doctype a".toList.length,
        Within "  doctype a".toList.length (skipWhitespaceAt "  doctype a".toList pos)
          (pos + blankCount ("  doctype a".toList.drop pos))) ∧
      ∀ lineNumber, Within "  doctype a".toList.length
        (tokenizeLineAt "  doctype a".toList lineNumber)
        (tokenizeLine "  doctype a".toList lineNumber) :=
  @tokenizeLineAt_within "  doctype a".toList (by decide)

end CPug
