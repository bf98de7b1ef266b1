import CPug.Trailers

/-!
# Line ends and trailing blanks

A line with blanks and a carriage return appended has the same tokens up to trailing white space of
their values, which the parser strips, and at most one more, a blank text (`tokenizeLine_trailer`):
the main loop of `tokenize_line` takes a carriage return behind a space for content, and the text
loop makes a TEXT of what stands behind the last interpolation. So the minified output is the same
whenever every such blank text is harmless (`processPugFile_trailers`).
-/

namespace CPug

open Outline

/-! ## The tokens of a line -/

/-- No token more, or a blank text of the depth of the line. -/
inductive ExtraBlank (depth : Nat) : List Token → Prop
  | none : ExtraBlank depth []
  | some {blank : Token} (h : IsBlankText depth blank) : ExtraBlank depth [blank]

/-- The same tokens up to trailing white space, and at most one blank text more. -/
def Extends (depth : Nat) (tokens tokens' : List Token) : Prop :=
  ∃ extra, ExtraBlank depth extra ∧
    tokens'.map Token.trimmed = (tokens ++ extra).map Token.trimmed

section Extends

variable {depth : Nat} {tokens tokens' : List Token}

theorem Extends.refl (depth : Nat) (tokens : List Token) : Extends depth tokens tokens :=
  ⟨[], .none, by rw [List.append_nil]⟩

theorem Extends.append (before : List Token) (h : Extends depth tokens tokens') :
    Extends depth (before ++ tokens) (before ++ tokens') := by
  obtain ⟨extra, hextra, htokens⟩ := h
  refine ⟨extra, hextra, ?_⟩
  simp only [List.map_append, htokens, List.append_assoc]

theorem Extends.cons {t t' : Token} (ht : t'.trimmed = t.trimmed) (h : Extends depth tokens tokens') :
    Extends depth (t :: tokens) (t' :: tokens') := by
  obtain ⟨extra, hextra, htokens⟩ := h
  refine ⟨extra, hextra, ?_⟩
  rw [List.map_cons, ht, htokens, List.cons_append, List.map_cons]

end Extends

section Line

variable {indentLevel lineNumber : Nat} {s : CString}

/-- Two values that differ in trailing white space make the same token. -/
theorem trimmed_createToken {type : TokenType} (htag : type ≠ .tokenTag)
    (hclass : type ≠ .tokenClass) {value value' : CString}
    (h : gStrchomp value' = gStrchomp value) (column : Nat) :
    (createToken type (some value') indentLevel lineNumber column).trimmed =
      (createToken type (some value) indentLevel lineNumber column).trimmed := by
  unfold Token.trimmed createToken
  rw [if_neg (by simp [htag, hclass]), if_neg (by simp [htag, hclass])]
  simp [h]

theorem extends_textToken (hs : IsTrailer s) (column : Nat) (text : CString) :
    Extends indentLevel (textToken indentLevel lineNumber column text)
      (textToken indentLevel lineNumber column (text ++ s)) := by
  unfold textToken
  cases text with
  | nil =>
    rw [List.nil_append, if_neg (by simp)]
    split
    · have hblank : IsBlankText indentLevel
          (createToken .tokenText (some s) indentLevel lineNumber column) :=
        ⟨rfl, rfl, hs.blank⟩
      exact ⟨_, .some hblank, rfl⟩
    · exact .refl _ _
  | cons c text =>
    rw [if_pos (by simp), if_pos (by simp)]
    apply Extends.cons _ (.refl _ _)
    exact trimmed_createToken (by simp) (by simp) (gStrchomp_append_blank _ hs.blank) column

/-- An interpolation that the line does not close. -/
theorem tokenizeText_unclosed (column pos : Nat) (buffer : CString) {text value : CString}
    (htext : '#' ∉ text) (hvalue : '}' ∉ value) :
    tokenizeText indentLevel lineNumber column pos buffer (text ++ '#' :: '{' :: value) =
      textToken indentLevel lineNumber column text ++
        [createToken .tokenInterpolation (some value) indentLevel lineNumber
          (pos + text.length + 2)] := by
  have hall := forall_ne_of_not_mem htext
  have hvall := forall_ne_of_not_mem hvalue
  have htake : (text ++ '#' :: '{' :: value).takeWhile (· != '#') = text :=
    takeWhile_append_stop hall (StopsAt.cons rfl _)
  have hdrop : (text ++ '#' :: '{' :: value).dropWhile (· != '#') = '#' :: '{' :: value :=
    dropWhile_append_stop hall (StopsAt.cons rfl _)
  have hvtake : value.takeWhile (· != '}') = value := List.takeWhile_eq_self_iff.mpr hvall
  have hvdrop : value.dropWhile (· != '}') = [] := List.dropWhile_eq_nil_iff.mpr hvall
  rw [tokenizeText_open buffer hdrop, htake, hvtake, hvdrop, List.drop_nil, tokenizeText_nil]

/-- The text loop on a line with a trailer. -/
theorem tokenizeText_trailer (hs : IsTrailer s) (column pos : Nat) (buffer buffer' rest : CString) :
    Extends indentLevel (tokenizeText indentLevel lineNumber column pos buffer rest)
      (tokenizeText indentLevel lineNumber column pos buffer' (rest ++ s)) := by
  have hhash : '#' ∉ s := hs.not_mem (by decide)
  have hbrace : '}' ∉ s := hs.not_mem (by decide)
  induction h : rest.length using Nat.strongRecOn generalizing rest column pos buffer buffer' with
  | ind n ih =>
    subst h
    by_cases hmem : '#' ∈ rest
    · obtain ⟨text, after, rfl, htext⟩ := List.eq_append_cons_of_mem hmem
      rw [List.append_assoc, List.cons_append]
      have hlen : (text ++ '#' :: after).length = text.length + (after.length + 1) := by simp
      by_cases hopen : after.head? = some '{'
      · obtain ⟨after, rfl⟩ := List.head?_eq_some_iff.mp hopen
        rw [List.cons_append]
        by_cases hclose : '}' ∈ after
        · obtain ⟨value, rest, rfl, hvalue⟩ := List.eq_append_cons_of_mem hclose
          rw [List.append_assoc, List.cons_append]
          obtain ⟨b, hb⟩ := @tokenizeText_interpolation indentLevel lineNumber column pos buffer text
            value rest htext hvalue
          obtain ⟨b', hb'⟩ := @tokenizeText_interpolation indentLevel lineNumber column pos buffer'
            text value (rest ++ s) htext hvalue
          rw [hb, hb']
          apply Extends.append
          apply Extends.cons rfl
          exact ih rest.length (by rw [hlen]; simp; omega) _ _ _ _ rest rfl
        · have hclose' : '}' ∉ after ++ s := by simp [hclose, hbrace]
          rw [tokenizeText_unclosed _ _ _ htext hclose, tokenizeText_unclosed _ _ _ htext hclose']
          apply Extends.append
          apply Extends.cons _ (.refl _ _)
          exact trimmed_createToken (by simp) (by simp) (gStrchomp_append_blank _ hs.blank) _
      · have hopen' : (after ++ s).head? ≠ some '{' := by
          cases after with
          | nil =>
            intro hhead
            exact hs.not_mem (by decide) (List.mem_of_mem_head? hhead)
          | cons c after => exact hopen
        obtain ⟨b, hb⟩ := @tokenizeText_hash indentLevel lineNumber column pos buffer text after htext
          hopen
        obtain ⟨b', hb'⟩ := @tokenizeText_hash indentLevel lineNumber column pos buffer' text
          (after ++ s) htext hopen'
        rw [hb, hb']
        apply Extends.append
        exact ih after.length (by rw [hlen]; omega) _ _ _ _ after rfl
    · have hmem' : '#' ∉ rest ++ s := by simp [hmem, hhash]
      rw [tokenizeText_text _ _ _ _ _ hmem, tokenizeText_text _ _ _ _ _ hmem']
      exact extends_textToken hs column rest

/-- A trailer by itself: a carriage return behind a space is content. -/
theorem tokenizeLoop_of_trailer (hs : IsTrailer s) (column pos : Nat) :
    Extends indentLevel [] (tokenizeLoop indentLevel lineNumber column pos s) := by
  induction s generalizing pos with
  | nil =>
    rw [tokenizeLoop_nil]
    exact .refl _ _
  | cons c s ih =>
    have hother : c = '\t' ∨ c = '\r' →
        tokenizeLoop indentLevel lineNumber column pos (c :: s) =
          tokenizeLoop indentLevel lineNumber column (pos + 1) s := by
      rintro (rfl | rfl) <;>
        rw [tokenizeLoop, if_neg (by decide), if_neg (by decide), if_neg (by decide),
          if_neg (by decide), if_neg (by decide)]
    rcases hs.chars c List.mem_cons_self with rfl | hc
    · rcases hs.tail.skipWhitespace with hskip | hskip
      · rw [tokenizeLoop_blank_text _ _ _ _ (by simp [hskip]), hskip, tokenizeText_nil]
        exact .refl _ _
      · rw [tokenizeLoop_blank_text _ _ _ _ (by simp [hskip]), hskip,
          tokenizeText_text _ _ _ _ _ (by simp)]
        exact extends_textToken .single_return _ []
    · rw [hother hc]
      exact ih hs.tail (pos + 1)

/-- The parenthesis loop ends where it ended, or it did not end and takes the trailer as well. -/
theorem scanParens_trailer (hs : IsTrailer s) (level : Nat) (cs : CString) :
    scanParens (level + 1) (cs ++ s) =
        ((scanParens (level + 1) cs).1, (scanParens (level + 1) cs).2 ++ s) ∨
      scanParens (level + 1) cs = (cs, []) ∧ scanParens (level + 1) (cs ++ s) = (cs ++ s, []) := by
  induction cs generalizing level with
  | nil =>
    refine Or.inr ⟨rfl, ?_⟩
    have hopen : '(' ∉ s := hs.not_mem (by decide)
    have hclose : ')' ∉ s := hs.not_mem (by decide)
    have hnesting : nesting level s = some level := nesting_of_not_mem hopen hclose level
    have hscan := scanParens_append hnesting []
    rw [List.append_nil] at hscan
    rw [List.nil_append, hscan]
    simp [scanParens]
  | cons c cs ih =>
    rw [List.cons_append]
    unfold scanParens
    dsimp only
    generalize (if c = '(' then level + 2 else if c = ')' then level else level + 1) = level'
    cases level' with
    | zero => exact Or.inl rfl
    | succ level' =>
      simp only [Nat.zero_lt_succ, gt_iff_lt, if_true]
      rcases ih level' with hscan | ⟨hscan, hscan'⟩
      · rw [hscan]
        exact Or.inl rfl
      · rw [hscan, hscan']
        exact Or.inr ⟨rfl, rfl⟩

/-- The main loop on a line with a trailer. -/
theorem tokenizeLoop_trailer (hs : IsTrailer s) (column pos : Nat) (rest : CString) :
    Extends indentLevel (tokenizeLoop indentLevel lineNumber column pos rest)
      (tokenizeLoop indentLevel lineNumber column pos (rest ++ s)) := by
  have hword : StopsAt isWordChar s := hs.stopsAt rfl rfl rfl
  have htagChar : StopsAt isTagChar s := hs.stopsAt rfl rfl rfl
  fun_induction tokenizeLoop indentLevel lineNumber column pos rest with
  | case1 column pos => exact tokenizeLoop_of_trailer hs column pos
  | case2 column pos cs word ih =>
    rw [List.cons_append, tokenizeLoop, if_pos rfl]
    simp only [takeWhile_append_of_stopsAt _ hword, dropWhile_append_of_stopsAt _ hword]
    exact ih.cons rfl
  | case3 column pos cs word type hne ih =>
    rw [List.cons_append, tokenizeLoop, if_neg hne, if_pos rfl]
    simp only [takeWhile_append_of_stopsAt _ hword, dropWhile_append_of_stopsAt _ hword]
    exact ih.cons rfl
  | case4 column pos cs scanned h1 h2 ih =>
    rw [List.cons_append, tokenizeLoop, if_neg h1, if_neg h2, if_pos rfl]
    rcases scanParens_trailer hs 0 cs with hscan | ⟨hscan, hscan'⟩
    · have hle := length_scanParens_le 1 cs
      have hpos : (cs ++ s).length - ((scanParens 1 cs).2 ++ s).length =
          cs.length - (scanParens 1 cs).2.length := by
        rw [List.length_append, List.length_append]
        omega
      simp only [Nat.zero_add] at hscan
      simp only [hscan, hpos]
      exact ih.cons rfl
    · simp only [Nat.zero_add] at hscan hscan'
      simp only [scanned, hscan, hscan', tokenizeLoop_nil]
      apply Extends.cons _ (.refl _ _)
      exact trimmed_createToken (by simp) (by simp) (gStrchomp_append_blank _ hs.blank) _
  | case5 column pos c cs h1 h2 h3 halpha name ih =>
    rw [List.cons_append, tokenizeLoop, if_neg h1, if_neg h2, if_neg h3, if_pos halpha,
      ← List.cons_append]
    simp only [takeWhile_append_of_stopsAt _ htagChar, dropWhile_append_of_stopsAt _ htagChar]
    exact ih.cons rfl
  | case6 column pos cs _ _ _ _ after hafter =>
    have hblank : ∀ c ∈ ' ' :: cs, isBlank c = true := List.dropWhile_eq_nil_iff.mp hafter
    exact tokenizeLoop_of_trailer (hs.append hblank) column pos
  | case7 column pos cs c rest hmarkup _ _ _ _ after pos' hafter =>
    obtain ⟨hskip, hcount⟩ := skipWhitespace_space_append hafter s
    rw [List.cons_append, tokenizeLoop_blank_text _ _ _ _ (by simpa [hskip] using hmarkup),
      ← List.cons_append, hskip, hcount]
    simp only [hafter]
    exact tokenizeText_trailer hs _ _ _ _ _
  | case8 column pos cs c rest hmarkup _ _ _ _ after pos' hafter ih =>
    obtain ⟨hskip, hcount⟩ := skipWhitespace_space_append hafter s
    have hc : c = '#' ∨ c = '.' := by
      by_contra hc
      exact hmarkup (not_or.mp hc)
    rw [List.cons_append, tokenizeLoop_blank_markup _ _ _ _ hskip hc, ← List.cons_append, hcount]
    simp only [hafter] at ih ⊢
    exact ih
  | case9 column pos c cs h1 h2 h3 h4 h5 ih =>
    rw [List.cons_append, tokenizeLoop, if_neg h1, if_neg h2, if_neg h3, if_neg h4, if_neg h5]
    exact ih

/-- The indentation of a line that is not blank. -/
theorem countIndentLevel_append {line : CString} (h : skipWhitespace line ≠ []) (s : CString) :
    countIndentLevel (line ++ s) = countIndentLevel line := by
  fun_induction countIndentLevel line with
  | case1 => exact absurd rfl h
  | case2 rest ih =>
    have hrest : skipWhitespace ('\t' :: rest) = skipWhitespace rest :=
      List.dropWhile_cons_of_pos rfl
    rw [hrest] at h
    rw [List.cons_append, countIndentLevel, if_pos rfl, ih h]
  | case3 rest _ ih =>
    have hsplit : rest.takeWhile (· == ' ') ++ rest.dropWhile (· == ' ') = rest :=
      List.takeWhile_append_dropWhile
    have hspaces : ∀ c ∈ rest.takeWhile (· == ' '), isBlank c = true := by
      intro c hc
      have hspace : c = ' ' := by simpa using List.mem_takeWhile_imp hc
      rw [hspace]
      rfl
    have hskip : skipWhitespace (rest.dropWhile (· == ' ')) ≠ [] := by
      rw [skipWhitespace_space, ← hsplit] at h
      rwa [skipWhitespace, List.dropWhile_append_of_pos hspaces] at h
    have hne : rest.dropWhile (· == ' ') ≠ [] := by
      intro hnil
      rw [hnil] at hskip
      exact hskip rfl
    have htake : (rest ++ s).takeWhile (· == ' ') = rest.takeWhile (· == ' ') := by
      conv_lhs => rw [← hsplit, List.append_assoc]
      have hall : ∀ c ∈ rest.takeWhile (· == ' '), (c == ' ') = true :=
        fun c hc => @List.mem_takeWhile_imp _ (· == ' ') rest c hc
      apply takeWhile_append_stop hall
      intro c hc
      rw [List.head?_append_of_ne_nil _ hne] at hc
      exact stopsAt_dropWhile rest c hc
    have hdrop : (rest ++ s).dropWhile (· == ' ') = rest.dropWhile (· == ' ') ++ s := by
      rw [List.dropWhile_append, if_neg (by simpa using hne)]
    rw [List.cons_append, countIndentLevel, if_neg (by decide), if_pos rfl, htake, hdrop, ih hskip]
  | case4 c rest h1 h2 => rw [List.cons_append, countIndentLevel, if_neg h1, if_neg h2]

/-- A word without blanks is not a prefix because of a trailer. -/
theorem gStrHasPrefix_trailer (hs : IsTrailer s) {k : CString}
    (hk : ∀ c ∈ k, gAsciiIsspace c = false) (rest : CString) :
    gStrHasPrefix (rest ++ s) k = gStrHasPrefix rest k := by
  unfold gStrHasPrefix
  induction k generalizing rest with
  | nil => simp
  | cons c k ih =>
    have hc := hk c List.mem_cons_self
    cases rest with
    | nil =>
      cases s with
      | nil => rfl
      | cons d s =>
        have hd : c ≠ d := by
          rintro rfl
          rw [hs.blank c List.mem_cons_self] at hc
          cases hc
        simp [List.isPrefixOf, hd]
    | cons d rest =>
      rw [List.cons_append, List.isPrefixOf_cons_cons, List.isPrefixOf_cons_cons,
        ih (fun e he => hk e (List.mem_cons_of_mem _ he)) rest]

theorem gStrchomp_skipWhitespace_trailer (hs : IsTrailer s) (value : CString) :
    gStrchomp (skipWhitespace (value ++ s)) = gStrchomp (skipWhitespace value) := by
  by_cases hskip : skipWhitespace value = []
  · have hblank : ∀ c ∈ value, isBlank c = true := List.dropWhile_eq_nil_iff.mp hskip
    have hall : Blank (skipWhitespace (value ++ s)) := by
      intro c hc
      have hmem : c ∈ value ++ s := (List.dropWhile_sublist _).mem hc
      exact (hs.append hblank).blank c hmem
    rw [hskip, gStrchomp_eq_nil.mpr hall]
    rfl
  · rw [(skipWhitespace_append_of_ne_nil hskip s).1, gStrchomp_append_blank _ hs.blank]

theorem extends_restToken (hs : IsTrailer s) {type : TokenType} (htag : type ≠ .tokenTag)
    (hclass : type ≠ .tokenClass) (value : CString) (column : Nat) :
    Extends indentLevel (restToken type value indentLevel lineNumber column)
      (restToken type (value ++ s) indentLevel lineNumber column) := by
  apply Extends.cons _ (.refl _ _)
  exact trimmed_createToken htag hclass (gStrchomp_skipWhitespace_trailer hs value) column

/-- The keyword of a line is read before the trailer. -/
theorem extends_keyword (hs : IsTrailer s) {type : TokenType} (htag : type ≠ .tokenTag)
    (hclass : type ≠ .tokenClass) {k rest : CString} (h : gStrHasPrefix rest k = true)
    (column : Nat) :
    Extends indentLevel (restToken type (rest.drop k.length) indentLevel lineNumber column)
      (restToken type ((rest ++ s).drop k.length) indentLevel lineNumber column) := by
  have hlen : k.length ≤ rest.length := (List.isPrefixOf_iff_prefix.mp h).length_le
  rw [List.drop_append_of_le_length hlen]
  exact extends_restToken hs htag hclass _ column

theorem tokenizeMark_loop {rest : CString} (h1 : rest.head? ≠ some '+') (h2 : rest.head? ≠ some '|')
    (h3 : rest.head? ≠ some '-') (h4 : ¬ ['/', '/'] <+: rest) (column pos : Nat) :
    tokenizeMark indentLevel lineNumber column pos rest =
      tokenizeLoop indentLevel lineNumber column pos rest := by
  unfold tokenizeMark
  split
  · exact absurd rfl h1
  · exact absurd (List.prefix_append ['/', '/'] _) h4
  · exact absurd (List.prefix_append ['/', '/'] _) h4
  · exact absurd rfl h2
  · exact absurd rfl h3
  · rfl

theorem tokenizeMark_comment {rest : CString} (h : rest.head? ≠ some '-') (column pos : Nat) :
    tokenizeMark indentLevel lineNumber column pos ('/' :: '/' :: rest) =
      [createToken .tokenComment (some rest) indentLevel lineNumber column] := by
  unfold tokenizeMark
  split
  · rename_i heq
    cases heq
  · rename_i heq
    cases heq
    exact absurd rfl h
  · rename_i heq
    cases heq
    rfl
  · rename_i heq
    cases heq
  · rename_i heq
    cases heq
  · rename_i hne _ _
    exact absurd rfl (hne _)

theorem head?_append_ne {rest : CString} {c : Char} (hc : c ∉ s) (h : rest.head? ≠ some c) :
    (rest ++ s).head? ≠ some c := by
  cases rest with
  | nil => exact fun hhead => hc (List.mem_of_mem_head? hhead)
  | cons d rest => exact h

/-- Lines without a keyword. -/
theorem tokenizeMark_trailer (hs : IsTrailer s) (rest : CString) (column pos : Nat) :
    Extends indentLevel (tokenizeMark indentLevel lineNumber column pos rest)
      (tokenizeMark indentLevel lineNumber column pos (rest ++ s)) := by
  have hcomment : ∀ {type : TokenType} (value : CString), type ≠ .tokenTag → type ≠ .tokenClass →
      Extends indentLevel [createToken type (some value) indentLevel lineNumber column]
        [createToken type (some (value ++ s)) indentLevel lineNumber column] := by
    intro type value htag hclass
    apply Extends.cons _ (.refl _ _)
    exact trimmed_createToken htag hclass (gStrchomp_append_blank _ hs.blank) column
  have hplus : '+' ∉ s := hs.not_mem (by decide)
  have hpipe : '|' ∉ s := hs.not_mem (by decide)
  have hdash : '-' ∉ s := hs.not_mem (by decide)
  have hslash : '/' ∉ s := hs.not_mem (by decide)
  by_cases h1 : rest.head? = some '+'
  · obtain ⟨value, rfl⟩ := List.head?_eq_some_iff.mp h1
    exact extends_restToken hs (by simp) (by simp) value column
  by_cases h2 : rest.head? = some '|'
  · obtain ⟨value, rfl⟩ := List.head?_eq_some_iff.mp h2
    exact extends_restToken hs (by simp) (by simp) value column
  by_cases h3 : rest.head? = some '-'
  · obtain ⟨value, rfl⟩ := List.head?_eq_some_iff.mp h3
    exact extends_restToken hs (by simp) (by simp) value column
  by_cases h4 : ['/', '/'] <+: rest
  · obtain ⟨value, rfl⟩ := h4
    by_cases h5 : value.head? = some '-'
    · obtain ⟨value, rfl⟩ := List.head?_eq_some_iff.mp h5
      exact hcomment value (by simp) (by simp)
    · show Extends indentLevel
        (tokenizeMark indentLevel lineNumber column pos ('/' :: '/' :: value))
        (tokenizeMark indentLevel lineNumber column pos ('/' :: '/' :: (value ++ s)))
      rw [tokenizeMark_comment h5, tokenizeMark_comment (head?_append_ne hdash h5)]
      exact hcomment value (by simp) (by simp)
  · have h4' : ¬ ['/', '/'] <+: rest ++ s := by
      rw [← List.isPrefixOf_iff_prefix] at h4 ⊢
      have hmarks := @gStrHasPrefix_trailer s hs ['/', '/'] (by simp [gAsciiIsspace]) rest
      unfold gStrHasPrefix at hmarks
      rwa [hmarks]
    rw [tokenizeMark_loop h1 h2 h3 h4, tokenizeMark_loop (head?_append_ne hplus h1)
      (head?_append_ne hpipe h2) (head?_append_ne hdash h3) h4']
    exact tokenizeLoop_trailer hs column pos rest

/-- **A line with a trailer.** The same tokens up to trailing white space, and at most a blank text
more. -/
theorem tokenizeLine_trailer (hs : IsTrailer s) (line : CString) (n : Nat) :
    Extends (countIndentLevel line) (tokenizeLine line n) (tokenizeLine (line ++ s) n) := by
  by_cases hskip : skipWhitespace line = []
  · have hblank : ∀ c ∈ line, isBlank c = true := List.dropWhile_eq_nil_iff.mp hskip
    have hline : tokenizeLine line n = [] := by simp [tokenizeLine, hskip]
    have hline' : tokenizeLine (line ++ s) n = [] := by
      unfold tokenizeLine
      rcases (hs.append hblank).skipWhitespace with hrest | hrest
      · simp [hrest]
      · have hloop : ∀ k column pos, tokenizeLoop k n column pos ['\r'] = [] := by
          intro k column pos
          rw [tokenizeLoop, if_neg (by decide), if_neg (by decide), if_neg (by decide),
            if_neg (by decide), if_neg (by decide), tokenizeLoop_nil]
        rw [hrest]
        exact hloop _ _ _
    rw [hline, hline']
    exact .refl _ _
  · obtain ⟨hrest, hcount⟩ := skipWhitespace_append_of_ne_nil hskip s
    have htable : ∀ k ∈ keywordTable, (k.1.all fun c => !gAsciiIsspace c) = true ∧
        k.2.1 ≠ .tokenTag ∧ k.2.1 ≠ .tokenClass ∧ k.2.2 = k.1.length := by decide
    have hne : skipWhitespace line ++ s ≠ [] := by simp [hskip]
    rw [tokenizeLine_eq, tokenizeLine_eq, hrest, hcount, countIndentLevel_append hskip s, if_neg hskip,
      if_neg hne]
    generalize keywordTable = table at htable
    induction table with
    | nil => exact tokenizeMark_trailer hs _ _ _
    | cons k table ih =>
      rw [List.forall_mem_cons] at htable
      obtain ⟨⟨hall, htag, hclass, hjump⟩, htable⟩ := htable
      have hspace : ∀ c ∈ k.1, gAsciiIsspace c = false := fun c hc => by
        simpa using List.all_eq_true.mp hall c hc
      rw [List.foldr_cons, List.foldr_cons, gStrHasPrefix_trailer hs hspace]
      by_cases hpre : gStrHasPrefix (skipWhitespace line) k.1 = true
      · rw [if_pos hpre, if_pos hpre, hjump]
        exact extends_keyword hs htag hclass hpre _
      · rw [if_neg hpre, if_neg hpre]
        exact ih htable

end Line

/-! ## Documents -/

/-- A line and what is appended to it. -/
structure TrailedLine where
  line : CString
  trailer : CString
  singleLine : '\n' ∉ line
  isTrailer : IsTrailer trailer

def TrailedLine.print (l : TrailedLine) : CString := l.line ++ l.trailer

/-- The trailer makes a token. -/
def TrailedLine.AddsToken (l : TrailedLine) (lineNumber : Nat) : Prop :=
  (tokenizeLine l.line lineNumber).length < (tokenizeLine l.print lineNumber).length

/-- Every token that a trailer makes is harmless where it stands: behind `before`, the tokens of the
lines before with their trailers, and its own line, and in front of the tokens of the later lines. -/
def HarmlessTrailers (before : List Token) (lineNumber : Nat) : List TrailedLine → Prop
  | [] => True
  | l :: lines =>
    (l.AddsToken lineNumber →
      Harmless (before ++ tokenizeLine l.line lineNumber) (countIndentLevel l.line)
        (tokenizeLines (lineNumber + 1) (lines.map TrailedLine.line))) ∧
      HarmlessTrailers (before ++ tokenizeLine l.print lineNumber) (lineNumber + 1) lines

/-- What is written does not depend on trailing white space of values. -/
theorem emitted_trimmed {w : NodeWriter ASTNode Char} {O : OnePass Char} {tokens tokens' : List Token}
    (h : tokens'.map Token.trimmed = tokens.map Token.trimmed) :
    emitted w O tokens' = emitted w O tokens := by
  have hentries : ∀ tokens : List Token,
      parseEntries (tokens.map Token.trimmed) = parseEntries tokens := by
    intro tokens
    rw [parseEntries_map relabels_trimmed (by simp)]
    simp
  unfold emitted
  rw [← hentries tokens, ← hentries tokens', h]

section Documents

variable {useTabs : Bool} {tabSize : Nat} {eof : Token}

/-- **A line of a document.** Its trailer changes nothing, where the token it makes is harmless. -/
theorem emitted_trailedLine {l : TrailedLine} {n : Nat} {before later : List Token}
    (hne : ∀ t ∈ before, t.type ≠ .tokenEof) (hv : Valued before)
    (hvlater : Valued (later ++ [eof])) (heof : eof.type = .tokenEof)
    (h : l.AddsToken n → Harmless (before ++ tokenizeLine l.line n) (countIndentLevel l.line) later)
    (O : OnePass Char) :
    emitted (htmlWriter useTabs tabSize) O (before ++ tokenizeLine l.print n ++ (later ++ [eof])) =
      emitted (htmlWriter useTabs tabSize) O
        (before ++ tokenizeLine l.line n ++ (later ++ [eof])) := by
  obtain ⟨extra, hextra, htokens⟩ := tokenizeLine_trailer l.isTrailer l.line n
  have hline := tokenizeLine_lineToken l.line n
  have htrimmed : (before ++ tokenizeLine l.print n ++ (later ++ [eof])).map Token.trimmed =
      (before ++ (tokenizeLine l.line n ++ extra) ++ (later ++ [eof])).map Token.trimmed := by
    simp only [List.map_append] at htokens ⊢
    rw [← htokens]
    rfl
  rw [emitted_trimmed htrimmed]
  cases hextra with
  | none => rw [List.append_nil]
  | some hblank =>
    have hadds : l.AddsToken n := by
      have hlen := congrArg List.length htokens
      simp only [List.length_map, List.length_append, List.length_singleton] at hlen
      show (tokenizeLine l.line n).length < (tokenizeLine (l.line ++ l.trailer) n).length
      omega
    have hne' : ∀ t ∈ before ++ tokenizeLine l.line n, t.type ≠ .tokenEof := by
      intro t ht
      exact (List.mem_append.mp ht).elim (hne t) fun ht => (hline t ht).ne_eof
    have hvline : Valued (tokenizeLine l.line n) := fun t ht _ => (hline t ht).value_ne_none
    rw [← emitted_insert hne' ((hv.append hvline).append hvlater) heof hblank (h hadds) O]
    simp only [List.append_assoc, List.cons_append, List.nil_append]

/-- The lines of a document one after the other. -/
theorem emitted_trailedLines {lines : List TrailedLine} {n : Nat} {before : List Token}
    (hne : ∀ t ∈ before, t.type ≠ .tokenEof) (hv : Valued before) (heof : eof.type = .tokenEof)
    (h : HarmlessTrailers before n lines) (O : OnePass Char) :
    emitted (htmlWriter useTabs tabSize) O
        (before ++ tokenizeLines n (lines.map TrailedLine.print) ++ [eof]) =
      emitted (htmlWriter useTabs tabSize) O
        (before ++ tokenizeLines n (lines.map TrailedLine.line) ++ [eof]) := by
  induction lines generalizing n before with
  | nil => rfl
  | cons l lines ih =>
    obtain ⟨hl, hlines⟩ := h
    have hprint := tokenizeLine_lineToken l.print n
    have hne' : ∀ t ∈ before ++ tokenizeLine l.print n, t.type ≠ .tokenEof := by
      intro t ht
      exact (List.mem_append.mp ht).elim (hne t) fun ht => (hprint t ht).ne_eof
    have hv' : Valued (before ++ tokenizeLine l.print n) :=
      hv.append fun t ht _ => (hprint t ht).value_ne_none
    have hveof : Valued [eof] := valued_singleton (by simp [heof])
    have hvlater : Valued (tokenizeLines (n + 1) (lines.map TrailedLine.line) ++ [eof]) :=
      (valued_tokenizeLines _ _).append hveof
    have hrest := ih hne' hv' hlines
    have hline := @emitted_trailedLine useTabs tabSize eof l n before _ hne hv hvlater heof hl O
    rw [List.map_cons, List.map_cons, tokenizeLines, tokenizeLines]
    calc emitted _ O (before ++ (tokenizeLine l.print n ++
            tokenizeLines (n + 1) (lines.map TrailedLine.print)) ++ [eof])
        = emitted _ O (before ++ tokenizeLine l.print n ++
            tokenizeLines (n + 1) (lines.map TrailedLine.print) ++ [eof]) := by
          simp only [List.append_assoc]
      _ = emitted _ O (before ++ tokenizeLine l.print n ++
            tokenizeLines (n + 1) (lines.map TrailedLine.line) ++ [eof]) := hrest
      _ = emitted _ O (before ++ tokenizeLine l.line n ++
            (tokenizeLines (n + 1) (lines.map TrailedLine.line) ++ [eof])) := by
          rw [List.append_assoc _ _ [eof], hline]
      _ = emitted _ O (before ++ (tokenizeLine l.line n ++
            tokenizeLines (n + 1) (lines.map TrailedLine.line)) ++ [eof]) := by
          simp only [List.append_assoc]

end Documents

theorem TrailedLine.singleLine_print (l : TrailedLine) : '\n' ∉ l.print := by
  intro h
  rcases List.mem_append.mp h with h | h
  · exact l.singleLine h
  · exact l.isTrailer.not_mem (by decide) h

/-- **Line ends and trailing blanks.** What is appended to the lines of a document leaves the
minified output as it is, when every token that it makes is harmless. -/
theorem processPugFile_trailers (useTabs : Bool) (tabSize : Nat) {lines : List TrailedLine}
    (h : HarmlessTrailers [] 1 lines) :
    processPugFile useTabs tabSize true (['\n'].intercalate (lines.map TrailedLine.print)) =
      processPugFile useTabs tabSize true (['\n'].intercalate (lines.map TrailedLine.line)) := by
  have hprint : ∀ line ∈ lines.map TrailedLine.print, '\n' ∉ line := by
    intro line hline
    obtain ⟨l, -, rfl⟩ := List.mem_map.mp hline
    exact l.singleLine_print
  have hline : ∀ line ∈ lines.map TrailedLine.line, '\n' ∉ line := by
    intro line hline
    obtain ⟨l, -, rfl⟩ := List.mem_map.mp hline
    exact l.singleLine
  generalize hcontent : ['\n'].intercalate (lines.map TrailedLine.line) = content
  generalize hcontent' : ['\n'].intercalate (lines.map TrailedLine.print) = content'
  -- The two EOF tokens may stand on different lines.
  have heof : (fileTokens content' ++ [fileEof content']).map Token.unplaced =
      (fileTokens content' ++ [fileEof content]).map Token.unplaced := by
    rw [List.map_append, List.map_append]
    rfl
  have hlines := @emitted_trailedLines useTabs tabSize (fileEof content) lines 1 [] (by simp)
    (by simp [Valued]) rfl h .empty
  rw [List.nil_append, List.nil_append, ← fileTokens_intercalate hprint,
    ← fileTokens_intercalate hline, hcontent, hcontent', emitted_empty, emitted_empty] at hlines
  rw [processPugFile_eq, processPugFile_eq, tokenizeFile_eq, tokenizeFile_eq,
    render_builtForest_unplaced heof, hlines]

/-- The lines `p` and `b`, the first with a space and a carriage return behind it. -/
theorem processPugFile_trailers_pAndB :
    processPugFile false 2 true (['\n'].intercalate [['p', ' ', '\r'], ['b', '\r']]) =
      processPugFile false 2 true (['\n'].intercalate [['p'], ['b']]) := by
  have htoken : tokenizeLine ['p'] 1 = [createToken .tokenTag (some ['p']) 0 1 0] := by
    decide +kernel
  have hjoins : Joins ([] ++ tokenizeLine ['p'] 1) (countIndentLevel ['p']) := by
    have hindent : countIndentLevel ['p'] = 0 := by decide +kernel
    rw [htoken, hindent]
    exact ⟨[], _, rfl, rfl, by simp, by decide⟩
  have h : HarmlessTrailers [] 1 [⟨['p'], [' ', '\r'], by decide, .space_return⟩,
      ⟨['b'], ['\r'], by decide, .single_return⟩] :=
    ⟨fun _ => .joins hjoins, fun _ => .noNode (fun d _ => .nil _) (by simp [tokenizeLines]), trivial⟩
  exact processPugFile_trailers false 2 h

/-- `.x` is rejected, and the token after it is skipped: the blank text in place of the TAG. -/
theorem processPugFile_trailers_fails :
    ¬ ∀ lines : List TrailedLine, (∀ l ∈ lines, '\r' ∉ l.line) →
      processPugFile false 2 true (['\n'].intercalate (lines.map TrailedLine.print)) =
        processPugFile false 2 true (['\n'].intercalate (lines.map TrailedLine.line)) := by
  intro h
  have hlines := h [⟨['.', 'x'], [' ', '\r'], by decide, .space_return⟩,
    ⟨['p'], [], by decide, .nil⟩] (by simp)
  have hprint : processPugFile false 2 true ['.', 'x', ' ', '\r', '\n', 'p'] =
      some "<p></p>".toList := by decide +kernel
  have hline : processPugFile false 2 true ['.', 'x', '\n', 'p'] = some [] := by decide +kernel
  have hsame : some "<p></p>".toList = some [] := hprint.symm.trans (hlines.trans hline)
  simp at hsame

end CPug
