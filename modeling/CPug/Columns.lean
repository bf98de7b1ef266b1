import CPug.Reads

/-!
# Columns

`column` is one variable for a whole line, and a token gets the value it has at that time. The branches
for tags, ids, classes and the start of a text set it; the one for attributes does not, and the text
loop sets it only at an interpolation. `columnsFaithful_iff` says on which lines the columns rise all
the same.
-/

namespace CPug

open Memory

/-- Text in which nothing stands literally but lone `#` characters. -/
def onlyInterpolations (text : CString) : Bool :=
  match text with
  | [] => true
  | '#' :: '{' :: after => onlyInterpolations ((after.dropWhile (· != '}')).drop 1)
  | '#' :: after => onlyInterpolations after
  | _ => false
termination_by text.length
decreasing_by
  · have := (List.dropWhile_sublist (l := after) (· != '}')).length_le
    simp only [List.length_cons, List.length_drop]
    omega
  · simp

/-- The part of a line that the main loop works on: no parenthesised group comes behind a tag, an id, a
class, a dot or another group (`emitted` says that there was one), and the text has no literal characters
behind its first `#`. -/
def columnsRefreshed (emitted : Bool) (rest : CString) : Bool :=
  match rest with
  | [] => true
  | c :: cs =>
    if c = '#' ∨ c = '.' then columnsRefreshed true (cs.dropWhile isWordChar)
    else if c = '(' then !emitted && columnsRefreshed true (scanParens 1 cs).2
    else if isalpha c then columnsRefreshed true (cs.dropWhile isTagChar)
    else if c = ' ' then
      match skipWhitespace cs with
      | [] => true
      | d :: ds =>
        if d ≠ '#' ∧ d ≠ '.' then onlyInterpolations ((d :: ds).dropWhile (· != '#'))
        else columnsRefreshed emitted (skipWhitespace cs)
    else columnsRefreshed emitted cs
termination_by rest.length
decreasing_by
  · exact Nat.lt_succ_of_le (List.dropWhile_sublist _).length_le
  · exact Nat.lt_succ_of_le (length_scanParens_le 1 cs)
  · exact Nat.lt_succ_of_le (List.dropWhile_sublist _).length_le
  · exact Nat.lt_succ_of_le (List.dropWhile_sublist _).length_le
  · exact Nat.lt_succ_self _

/-- The columns lie between two positions. -/
def ColumnsWithin (lo hi : Nat) (tokens : List Token) : Prop :=
  ∀ t ∈ tokens, lo ≤ t.column ∧ t.column ≤ hi

/-- The columns of a line: each greater than the ones before it, and inside the line behind its
indentation. -/
def ColumnsFaithful (line : CString) (tokens : List Token) : Prop :=
  tokens.Pairwise (fun a b => a.column < b.column) ∧
    ColumnsWithin (blankCount line) line.length tokens

/-- The columns rise, the first of them being at least `lo`. -/
def RisingFrom (lo : Nat) (tokens : List Token) : Prop :=
  tokens.Pairwise (fun a b => a.column < b.column) ∧ ∀ t ∈ tokens, lo ≤ t.column

theorem RisingFrom.nil (lo : Nat) : RisingFrom lo [] := by simp [RisingFrom]

theorem risingFrom_cons {lo : Nat} {t : Token} {tokens : List Token} :
    RisingFrom lo (t :: tokens) ↔ lo ≤ t.column ∧ RisingFrom (t.column + 1) tokens := by
  rw [RisingFrom, List.pairwise_cons, List.forall_mem_cons]
  constructor
  · rintro ⟨⟨hlt, hpairwise⟩, hlo, -⟩
    exact ⟨hlo, hpairwise, hlt⟩
  · rintro ⟨hlo, hpairwise, hlt⟩
    exact ⟨⟨hlt, hpairwise⟩, hlo, fun t' ht' => Nat.le_trans hlo (Nat.le_of_lt (hlt t' ht'))⟩

section Line

variable {indentLevel lineNumber : Nat}

/-! ## The text loop -/

theorem onlyInterpolations_of_ne {c : Char} (hc : c ≠ '#') (cs : CString) :
    onlyInterpolations (c :: cs) = false := by
  unfold onlyInterpolations
  split
  · rename_i heq
    cases heq
  · rename_i heq
    exact absurd (List.cons.inj heq).1 hc
  · rename_i heq
    exact absurd (List.cons.inj heq).1 hc
  · rfl

theorem textToken_takeWhile (column : Nat) {c : Char} (hc : c ≠ '#') (cs : CString) :
    textToken indentLevel lineNumber column ((c :: cs).takeWhile (· != '#')) =
      [createToken .tokenText (some ((c :: cs).takeWhile (· != '#'))) indentLevel lineNumber
        column] := by
  have hpos : 0 < ((c :: cs).takeWhile (· != '#')).length := by
    rw [List.takeWhile_cons_of_pos (by simpa using hc), List.length_cons]
    exact Nat.succ_pos _
  exact if_pos hpos

/-- Literal text in the next round is a second token with the column. -/
theorem not_risingFrom_text (column : Nat) {c : Char} (hc : c ≠ '#') (cs : CString)
    (tokens : List Token) :
    ¬ RisingFrom (column + 1)
      (textToken indentLevel lineNumber column ((c :: cs).takeWhile (· != '#')) ++ tokens) := by
  rw [textToken_takeWhile column hc, List.singleton_append, risingFrom_cons]
  exact fun h => Nat.not_succ_le_self column h.1

/-- Behind a token with the same column the text loop may add interpolations only. -/
theorem risingFrom_tokenizeText {column pos : Nat} (hpos : column ≤ pos) (buffer rest : CString) :
    RisingFrom (column + 1) (tokenizeText indentLevel lineNumber column pos buffer rest) ↔
      onlyInterpolations rest = true := by
  have hshort : ∀ cs : CString, ('#' :: cs).takeWhile (· != '#') = [] ∧
      ('#' :: cs).dropWhile (· != '#') = '#' :: cs := fun cs => ⟨rfl, rfl⟩
  fun_induction tokenizeText indentLevel lineNumber column pos buffer rest with
  | case1 column pos buffer =>
    rw [onlyInterpolations]
    exact iff_of_true (RisingFrom.nil _) rfl
  | case2 column pos buffer c cs text pos' tokens after hd pos'' value =>
    rename_i ih
    by_cases hc : c = '#'
    · subst hc
      rw [(hshort cs).2] at hd
      cases hd
      have htokens : tokens = [] := rfl
      have hlo : column + 1 ≤ pos + 0 + 2 := by omega
      rw [htokens, List.nil_append, risingFrom_cons, onlyInterpolations]
      exact (and_iff_right hlo).trans (ih (by omega))
    · exact iff_of_false (not_risingFrom_text _ hc cs _) (by simp [onlyInterpolations_of_ne hc])
  | case3 column pos buffer c cs text pos' tokens after hne hd =>
    rename_i ih
    by_cases hc : c = '#'
    · subst hc
      rw [(hshort cs).2] at hd
      cases hd
      have htokens : tokens = [] := rfl
      rw [htokens, List.nil_append, onlyInterpolations]
      · exact ih (by omega)
      · exact hne
    · exact iff_of_false (not_risingFrom_text _ hc cs _) (by simp [onlyInterpolations_of_ne hc])
  | case4 column pos buffer c cs text tokens =>
    rename_i hnone
    have hc : c ≠ '#' := by
      rintro rfl
      exact hnone cs rfl
    rw [← List.append_nil tokens]
    exact iff_of_false (not_risingFrom_text _ hc cs _) (by simp [onlyInterpolations_of_ne hc])

/-- From its start, where the column is fresh, the text loop may add literal text once. -/
theorem risingFrom_tokenizeText_start {lo column : Nat} (hlo : lo ≤ column) (buffer : CString)
    {c : Char} (hc : c ≠ '#') (cs : CString) :
    RisingFrom lo (tokenizeText indentLevel lineNumber column column buffer (c :: cs)) ↔
      onlyInterpolations ((c :: cs).dropWhile (· != '#')) = true := by
  have htext := @textToken_takeWhile indentLevel lineNumber column c hc cs
  rcases dropWhile_bne_cases '#' (c :: cs) with hdrop | ⟨after, hdrop⟩
  · rw [tokenizeText_last buffer hdrop, hdrop, htext, onlyInterpolations, risingFrom_cons]
    exact iff_of_true ⟨hlo, RisingFrom.nil _⟩ rfl
  · by_cases hopen : after.head? = some '{'
    · obtain ⟨more, rfl⟩ := List.head?_eq_some_iff.mp hopen
      rw [tokenizeText_open buffer hdrop, hdrop, htext, onlyInterpolations, List.singleton_append,
        risingFrom_cons, risingFrom_cons]
      refine (and_iff_right hlo).trans ((and_iff_right ?_).trans (risingFrom_tokenizeText ?_ _ _))
      · show column + 1 ≤ column + ((c :: cs).takeWhile (· != '#')).length + 2
        omega
      · exact Nat.le_trans (Nat.le_add_right _ _) (Nat.le_add_right _ _)
    · rw [tokenizeText_lone buffer hdrop hopen, hdrop, htext, onlyInterpolations,
        List.singleton_append, risingFrom_cons]
      · refine (and_iff_right hlo).trans (risingFrom_tokenizeText ?_ _ _)
        exact Nat.le_trans (Nat.le_add_right _ _) (Nat.le_succ _)
      · rintro more rfl
        exact hopen rfl

/-! ## The main loop -/

/-- The least column that may follow: `emitted` says whether a token has `column` already. -/
def nextColumn (emitted : Bool) (column : Nat) : Nat := if emitted then column + 1 else column

theorem nextColumn_le (emitted : Bool) (column : Nat) : nextColumn emitted column ≤ column + 1 := by
  cases emitted
  · exact Nat.le_succ column
  · exact Nat.le_refl _

theorem stopsAt_isalpha (cs : CString) : StopsAt isalpha (cs.dropWhile isWordChar) := by
  intro c hc
  have hword : isWordChar c = false := stopsAt_dropWhile cs c hc
  simp only [isWordChar, Bool.or_eq_false_iff] at hword
  by_contra halpha
  have := isalnum_of_isalpha (Bool.not_eq_false _ ▸ halpha)
  rw [hword.1.1] at this
  cases this

theorem blankCount_space_pos (cs : CString) : 0 < blankCount (' ' :: cs) := by
  rw [blankCount, List.takeWhile_cons_of_pos (by rfl), List.length_cons]
  exact Nat.succ_pos _

theorem columnsRefreshed_space (emitted : Bool) (cs : CString) :
    columnsRefreshed emitted (' ' :: cs) =
      match skipWhitespace cs with
      | [] => true
      | d :: ds =>
        if d ≠ '#' ∧ d ≠ '.' then onlyInterpolations ((d :: ds).dropWhile (· != '#'))
        else columnsRefreshed emitted (d :: ds) := by
  rw [columnsRefreshed, if_neg (by decide), if_neg (by decide), if_neg (by decide), if_pos rfl]
  cases skipWhitespace cs <;> rfl

/-- The main loop, behind a token with `column` or before the first token. A letter at `pos` needs a
position behind the column: a word before it would have taken the letter. -/
theorem risingFrom_tokenizeLoop (emitted : Bool) {column pos : Nat} {rest : CString}
    (hpos : column ≤ pos) (hword : emitted = true → column < pos ∨ StopsAt isalpha rest) :
    RisingFrom (nextColumn emitted column)
        (tokenizeLoop indentLevel lineNumber column pos rest) ↔
      columnsRefreshed emitted rest = true := by
  have hlo := nextColumn_le emitted column
  fun_induction tokenizeLoop indentLevel lineNumber column pos rest generalizing emitted with
  | case1 =>
    rw [columnsRefreshed]
    exact iff_of_true (RisingFrom.nil _) rfl
  | case2 column pos cs word | case3 column pos cs word =>
    rename_i ih
    have hle : nextColumn emitted column ≤ pos + 1 := by omega
    rw [columnsRefreshed, if_pos (by decide), risingFrom_cons]
    exact (and_iff_right hle).trans
      (ih true (Nat.le_add_right _ _) (fun _ => Or.inr (stopsAt_isalpha cs)) (nextColumn_le _ _))
  | case4 column pos cs scanned =>
    rename_i ih
    rw [columnsRefreshed, if_neg (by decide), if_pos rfl, risingFrom_cons]
    cases emitted with
    | false =>
      rw [Bool.not_false, Bool.true_and]
      exact (and_iff_right (Nat.le_refl column)).trans
        (ih true (by omega) (fun _ => Or.inl (by omega)) (nextColumn_le _ _))
    | true =>
      -- The group has the column of the token in front of it.
      exact iff_of_false (fun h => Nat.not_succ_le_self column h.1) (by simp)
  | case5 column pos c cs h1 h2 h3 halpha name =>
    rename_i ih
    have htag : isTagChar c = true := by simp [isTagChar, isalnum_of_isalpha halpha]
    have hname : 0 < name.length := by
      show 0 < ((c :: cs).takeWhile isTagChar).length
      rw [List.takeWhile_cons_of_pos htag, List.length_cons]
      exact Nat.succ_pos _
    have hle : nextColumn emitted column ≤ pos := by
      cases emitted with
      | false => exact hpos
      | true =>
        rcases hword rfl with hlt | hstop
        · exact hlt
        · rw [hstop c rfl] at halpha
          cases halpha
    have hrest :=
      ih true (Nat.le_add_right _ _) (fun _ => Or.inl (Nat.lt_add_of_pos_right hname)) (nextColumn_le _ _)
    rw [List.dropWhile_cons_of_pos htag] at hrest ⊢
    rw [columnsRefreshed, if_neg (fun h => h.elim h1 h2), if_neg h3, if_pos halpha, risingFrom_cons]
    exact (and_iff_right hle).trans hrest
  | case6 column pos cs =>
    rename_i hafter
    have hskip : skipWhitespace cs = [] := (skipWhitespace_space cs).symm.trans hafter
    rw [columnsRefreshed_space, hskip]
    exact iff_of_true (RisingFrom.nil _) rfl
  | case7 column pos cs d ds htext =>
    rename_i hafter
    have hskip : skipWhitespace cs = d :: ds := (skipWhitespace_space cs).symm.trans hafter
    have hblank := blankCount_space_pos cs
    rw [columnsRefreshed_space, hskip, hafter]
    simp only [if_pos htext]
    exact risingFrom_tokenizeText_start (by omega) [] htext.1 ds
  | case8 column pos cs d ds htext =>
    rename_i hafter ih
    have hskip : skipWhitespace cs = d :: ds := (skipWhitespace_space cs).symm.trans hafter
    have hblank := blankCount_space_pos cs
    rw [columnsRefreshed_space, hskip]
    simp only [if_neg htext]
    rw [← hafter]
    exact ih emitted (by omega) (fun _ => Or.inl (by omega)) (nextColumn_le _ _)
  | case9 column pos c cs h1 h2 h3 halpha hspace =>
    rename_i ih
    rw [columnsRefreshed, if_neg (fun h => h.elim h1 h2), if_neg h3, if_neg halpha, if_neg hspace]
    exact ih emitted (by omega) (fun _ => Or.inl (by omega)) (nextColumn_le _ _)

/-! ## Positions inside the line -/

theorem ColumnsWithin.nil (lo hi : Nat) : ColumnsWithin lo hi [] := fun _ h => nomatch h

theorem columnsWithin_cons {lo hi : Nat} {t : Token} {tokens : List Token} :
    ColumnsWithin lo hi (t :: tokens) ↔
      (lo ≤ t.column ∧ t.column ≤ hi) ∧ ColumnsWithin lo hi tokens := List.forall_mem_cons

theorem textToken_columnsWithin {lo hi column : Nat} (hlo : lo ≤ column) (hhi : column ≤ hi)
    (text : CString) {tokens : List Token} (h : ColumnsWithin lo hi tokens) :
    ColumnsWithin lo hi (textToken indentLevel lineNumber column text ++ tokens) := by
  unfold textToken
  split
  · exact columnsWithin_cons.mpr ⟨⟨hlo, hhi⟩, h⟩
  · exact h

theorem tokenizeText_columnsWithin {line rest : CString} {lo column pos : Nat} (h : At line pos rest)
    (hlo : lo ≤ column) (hpos : column ≤ pos) (buffer : CString) :
    ColumnsWithin lo line.length
      (tokenizeText indentLevel lineNumber column pos buffer rest) := by
  have hhi := Nat.le_trans hpos h.le
  fun_induction tokenizeText indentLevel lineNumber column pos buffer rest with
  | case1 => exact ColumnsWithin.nil _ _
  | case2 column pos buffer c cs text pos' tokens after hd pos'' value =>
    rename_i ih
    have hat := h.dropWhile (· != '#')
    rw [hd] at hat
    have hend := hat.tail.tail.le
    have hstart : lo ≤ pos'' := by omega
    have hrest := ih (at_behind_brace hat.tail.tail).2 hstart (by omega) hend
    exact textToken_columnsWithin hlo hhi text (columnsWithin_cons.mpr ⟨⟨hstart, hend⟩, hrest⟩)
  | case3 column pos buffer c cs text pos' tokens after hne hd =>
    rename_i ih
    have hat := h.dropWhile (· != '#')
    rw [hd] at hat
    exact textToken_columnsWithin hlo hhi text (ih hat.tail hlo (by omega) hhi)
  | case4 column pos buffer c cs text tokens =>
    rw [← List.append_nil tokens]
    exact textToken_columnsWithin hlo hhi text (ColumnsWithin.nil _ _)

theorem tokenizeLoop_columnsWithin {line rest : CString} {lo column pos : Nat}
    (h : At line pos rest) (hlo : lo ≤ column) (hpos : column ≤ pos) :
    ColumnsWithin lo line.length (tokenizeLoop indentLevel lineNumber column pos rest) := by
  fun_induction tokenizeLoop indentLevel lineNumber column pos rest with
  | case1 => exact ColumnsWithin.nil _ _
  | case2 column pos cs word | case3 column pos cs word =>
    rename_i ih
    have hstart : lo ≤ pos + 1 := by omega
    exact columnsWithin_cons.mpr ⟨⟨hstart, h.tail.le⟩,
      ih (h.tail.dropWhile isWordChar) hstart (Nat.le_add_right _ _)⟩
  | case4 column pos cs scanned =>
    rename_i ih
    exact columnsWithin_cons.mpr ⟨⟨hlo, Nat.le_trans hpos h.le⟩,
      ih (h.tail.suffix (scanParens_suffix 1 cs)) hlo (by omega)⟩
  | case5 column pos c cs h1 h2 h3 halpha name =>
    rename_i ih
    have hstart : lo ≤ pos := Nat.le_trans hlo hpos
    exact columnsWithin_cons.mpr ⟨⟨hstart, h.le⟩,
      ih (h.dropWhile isTagChar) hstart (Nat.le_add_right _ _)⟩
  | case6 => exact ColumnsWithin.nil _ _
  | case7 column pos cs =>
    exact tokenizeText_columnsWithin (at_skipWhitespace h) (by omega) (Nat.le_refl _) []
  | case8 column pos cs =>
    rename_i ih
    exact ih (at_skipWhitespace h) hlo (by omega)
  | case9 =>
    rename_i ih
    exact ih h.tail hlo (by omega)

end Line

/-! ## Lines -/

theorem tokenizeLine_columnsWithin (line : CString) (lineNumber : Nat) :
    ColumnsWithin (blankCount line) line.length (tokenizeLine line lineNumber) := by
  have hat := at_skipWhitespace (At.start line)
  rw [Nat.zero_add] at hat
  rcases tokenizeLine_cases line lineNumber with ⟨⟨type, value, -, -, heq⟩, -⟩ | ⟨heq, -⟩
  · rw [heq]
    exact columnsWithin_cons.mpr ⟨⟨Nat.le_refl _, hat.le⟩, ColumnsWithin.nil _ _⟩
  · rw [heq]
    exact tokenizeLoop_columnsWithin hat (Nat.le_refl _) (Nat.le_refl _)

/-- **Columns.** The columns of a line are positions in it behind its indentation. They rise exactly
when the line is one token, or no attributes come behind another token and no literal text behind an
interpolation or a lone `#`. -/
theorem columnsFaithful_iff (line : CString) (lineNumber : Nat) :
    ColumnsFaithful line (tokenizeLine line lineNumber) ↔
      (ReachesLoop (skipWhitespace line) → columnsRefreshed false (skipWhitespace line) = true) := by
  have hwithin := tokenizeLine_columnsWithin line lineNumber
  rw [ColumnsFaithful, and_iff_left hwithin]
  rcases tokenizeLine_cases line lineNumber with ⟨⟨type, value, -, -, heq⟩, hno⟩ | ⟨heq, hreach⟩
  · rw [heq]
    exact iff_of_true (List.pairwise_singleton _ _) fun h => absurd h hno
  · have hrising : (tokenizeLine line lineNumber).Pairwise (fun a b => a.column < b.column) ↔
        RisingFrom (nextColumn false (blankCount line)) (tokenizeLine line lineNumber) :=
      (and_iff_left fun t ht => (hwithin t ht).1).symm
    rw [hrising, heq, risingFrom_tokenizeLoop false (Nat.le_refl _) (fun h => nomatch h)]
    exact ⟨fun h _ => h, fun h => h hreach⟩

/-- In the line `p(a='1')` the attributes have the column of the tag. -/
theorem columnsFaithful_fails :
    ¬ ∀ line lineNumber, ColumnsFaithful line (tokenizeLine line lineNumber) := by
  intro h
  have hcolumns : (tokenizeLine "p(a='1')".toList 1).map Token.column = [0, 0] := by
    decide +kernel
  have hpairwise := List.pairwise_map.mpr (h "p(a='1')".toList 1).1
  rw [hcolumns] at hpairwise
  revert hpairwise
  decide

end CPug
