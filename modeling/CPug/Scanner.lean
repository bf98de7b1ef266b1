import CPug.TokenStream

/-!
# What the scanner does on each piece of a line

One equation for each piece of text that the main loop of `tokenize_line` can meet, with the rest
of the line kept, so that the equations compose: a tag name (`tokenizeLoop_tag`), an id, a class,
a parenthesised group, and the text after a space. `tokenizeText_text`, `tokenizeText_hash` and
`tokenizeText_interpolation` do the same for the text loop.
-/

namespace CPug

/-! ## Parentheses -/

/-- The number of parentheses open after `s`, `open` being open before it; `none` when `s` closes
one that it did not open. -/
def nesting : Nat → CString → Option Nat
  | n, [] => some n
  | n, c :: s =>
    if c = '(' then nesting (n + 1) s
    else if c = ')' then if n = 0 then none else nesting (n - 1) s
    else nesting n s

/-- The parentheses of `s` match. -/
def Balanced (s : CString) : Prop := nesting 0 s = some 0

instance (s : CString) : Decidable (Balanced s) := inferInstanceAs (Decidable (_ = _))

theorem nesting_of_not_mem {s : CString} (ho : '(' ∉ s) (hc : ')' ∉ s) (n : Nat) :
    nesting n s = some n := by
  induction s with
  | nil => rfl
  | cons c s ih =>
    simp only [List.mem_cons, not_or] at ho hc
    rw [nesting, if_neg (Ne.symm ho.1), if_neg (Ne.symm hc.1), ih ho.2 hc.2]

theorem balanced_of_not_mem {s : CString} (ho : '(' ∉ s) (hc : ')' ∉ s) : Balanced s :=
  nesting_of_not_mem ho hc 0

/-- A string that closes a parenthesis it did not open does so at a first place. -/
theorem exists_close_of_nesting_none {n : Nat} {s : CString} (h : nesting n s = none) :
    ∃ w rest, s = w ++ ')' :: rest ∧ nesting n w = some 0 := by
  induction s generalizing n with
  | nil => cases h
  | cons c s ih =>
    rw [nesting] at h
    by_cases ho : c = '('
    · rw [if_pos ho] at h
      obtain ⟨w, rest, rfl, hw⟩ := ih h
      exact ⟨c :: w, rest, rfl, by rw [nesting, if_pos ho, hw]⟩
    · rw [if_neg ho] at h
      by_cases hc : c = ')'
      · rw [if_pos hc] at h
        by_cases hn : n = 0
        · subst hn hc
          exact ⟨[], s, rfl, rfl⟩
        · rw [if_neg hn] at h
          obtain ⟨w, rest, rfl, hw⟩ := ih h
          exact ⟨c :: w, rest, rfl, by rw [nesting, if_neg ho, if_pos hc, if_neg hn, hw]⟩
      · rw [if_neg hc] at h
        obtain ⟨w, rest, rfl, hw⟩ := ih h
        exact ⟨c :: w, rest, rfl, by rw [nesting, if_neg ho, if_neg hc, hw]⟩

theorem nesting_append (n : Nat) (s t : CString) :
    nesting n (s ++ t) = (nesting n s).bind fun m => nesting m t := by
  induction s generalizing n with
  | nil => rfl
  | cons c s ih =>
    rw [List.cons_append, nesting, nesting]
    split
    · exact ih _
    · split
      · split
        · rfl
        · exact ih _
      · exact ih _

/-- The parenthesis loop runs through a string that closes nothing it did not open. -/
theorem scanParens_append {n m : Nat} {s : CString} (h : nesting n s = some m) (rest : CString) :
    scanParens (n + 1) (s ++ rest) =
      (s ++ (scanParens (m + 1) rest).1, (scanParens (m + 1) rest).2) := by
  induction s generalizing n with
  | nil =>
    cases h
    rfl
  | cons c s ih =>
    rw [nesting] at h
    rw [List.cons_append, scanParens]
    by_cases ho : c = '('
    · rw [if_pos ho] at h
      simp only [if_pos ho, Nat.zero_lt_succ, if_true, gt_iff_lt, ih h, List.cons_append]
    · rw [if_neg ho] at h
      by_cases hc : c = ')'
      · rw [if_pos hc] at h
        cases n with
        | zero => cases h
        | succ n =>
          rw [if_neg (Nat.succ_ne_zero n), Nat.add_sub_cancel] at h
          simp only [if_neg ho, if_pos hc, Nat.zero_lt_succ, if_true, gt_iff_lt, ih h,
            List.cons_append]
      · rw [if_neg hc] at h
        simp only [if_neg ho, if_neg hc, Nat.zero_lt_succ, if_true, gt_iff_lt, ih h,
          List.cons_append]

theorem scanParens_close (rest : CString) : scanParens 1 (')' :: rest) = ([], rest) := rfl

theorem isalpha_ne {c d : Char} (hc : isalpha c = true) (hd : isalpha d = false) : c ≠ d := by
  rintro rfl
  rw [hc] at hd
  cases hd

section Line

variable (indentLevel lineNumber column pos : Nat)

/-! ## The main loop -/

@[simp] theorem tokenizeLoop_nil : tokenizeLoop indentLevel lineNumber column pos [] = [] := by
  rw [tokenizeLoop]

theorem tokenizeLoop_tag {name rest : CString} (hname : IsTagName name)
    (hrest : StopsAt isTagChar rest) :
    tokenizeLoop indentLevel lineNumber column pos (name ++ rest) =
      createToken .tokenTag (some name) indentLevel lineNumber pos ::
        tokenizeLoop indentLevel lineNumber pos (pos + name.length) rest := by
  have hall := hname.all
  obtain ⟨c, cs, rfl, halpha, -⟩ := hname
  have h1 : c ≠ '#' := isalpha_ne halpha rfl
  have h2 : c ≠ '.' := isalpha_ne halpha rfl
  have h3 : c ≠ '(' := isalpha_ne halpha rfl
  rw [List.cons_append, tokenizeLoop, if_neg h1, if_neg h2, if_neg h3, if_pos halpha,
    ← List.cons_append]
  simp only [takeWhile_append_stop hall hrest, dropWhile_append_stop hall hrest]

theorem tokenizeLoop_id {word rest : CString} (hword : ∀ c ∈ word, isWordChar c = true)
    (hrest : StopsAt isWordChar rest) :
    tokenizeLoop indentLevel lineNumber column pos ('#' :: (word ++ rest)) =
      createToken .tokenId (some word) indentLevel lineNumber (pos + 1) ::
        tokenizeLoop indentLevel lineNumber (pos + 1) (pos + 1 + word.length) rest := by
  rw [tokenizeLoop, if_pos rfl]
  simp only [takeWhile_append_stop hword hrest, dropWhile_append_stop hword hrest]

theorem tokenizeLoop_class {word rest : CString} (hne : word ≠ [])
    (hword : ∀ c ∈ word, isWordChar c = true) (hrest : StopsAt isWordChar rest) :
    tokenizeLoop indentLevel lineNumber column pos ('.' :: (word ++ rest)) =
      createToken .tokenClass (some word) indentLevel lineNumber (pos + 1) ::
        tokenizeLoop indentLevel lineNumber (pos + 1) (pos + 1 + word.length) rest := by
  rw [tokenizeLoop, if_neg (by decide), if_pos rfl]
  simp only [takeWhile_append_stop hword hrest, dropWhile_append_stop hword hrest,
    if_pos (List.length_pos_iff.mpr hne)]

theorem tokenizeLoop_paren (rest : CString) :
    tokenizeLoop indentLevel lineNumber column pos ('(' :: rest) =
      createToken .tokenAttribute (some (scanParens 1 rest).1) indentLevel lineNumber column ::
        tokenizeLoop indentLevel lineNumber column
          (pos + 1 + (rest.length - (scanParens 1 rest).2.length)) (scanParens 1 rest).2 := by
  rw [tokenizeLoop, if_neg (by decide), if_neg (by decide), if_pos rfl]

/-- A space: what the main loop does depends on the character after the blanks. -/
theorem tokenizeLoop_blank (cs : CString) :
    tokenizeLoop indentLevel lineNumber column pos (' ' :: cs) =
      match skipWhitespace (' ' :: cs) with
      | [] => []
      | d :: rest =>
        if d ≠ '#' ∧ d ≠ '.' then
          tokenizeText indentLevel lineNumber (pos + blankCount (' ' :: cs))
            (pos + blankCount (' ' :: cs)) [] (d :: rest)
        else tokenizeLoop indentLevel lineNumber column (pos + blankCount (' ' :: cs))
          (d :: rest) := by
  rw [tokenizeLoop, if_neg (by decide), if_neg (by decide), if_neg (by decide),
    if_neg (by decide), if_pos rfl]
  cases skipWhitespace (' ' :: cs) <;> rfl

theorem skipWhitespace_space (text : CString) :
    skipWhitespace (' ' :: text) = skipWhitespace text := List.dropWhile_cons_of_pos rfl

/-- Blanks in front of anything but `#` and `.`: the text loop takes the rest of the line. -/
theorem tokenizeLoop_blank_text {cs : CString}
    (h : ∀ c ∈ (skipWhitespace cs).head?, c ≠ '#' ∧ c ≠ '.') :
    tokenizeLoop indentLevel lineNumber column pos (' ' :: cs) =
      tokenizeText indentLevel lineNumber (pos + blankCount (' ' :: cs))
        (pos + blankCount (' ' :: cs)) [] (skipWhitespace cs) := by
  rw [tokenizeLoop_blank, skipWhitespace_space]
  cases hs : skipWhitespace cs with
  | nil => rw [tokenizeText]
  | cons c rest =>
    rw [hs] at h
    exact if_pos (h c rfl)

/-- Blanks in front of `#` or `.`: the main loop goes on. -/
theorem tokenizeLoop_blank_markup {c : Char} {cs rest : CString}
    (hs : skipWhitespace cs = c :: rest) (h : c = '#' ∨ c = '.') :
    tokenizeLoop indentLevel lineNumber column pos (' ' :: cs) =
      tokenizeLoop indentLevel lineNumber column (pos + blankCount (' ' :: cs)) (c :: rest) := by
  rw [tokenizeLoop_blank, skipWhitespace_space, hs]
  refine if_neg ?_
  rintro ⟨hhash, hdot⟩
  exact h.elim hhash hdot

/-- Text after a space: the text loop takes over. -/
theorem tokenizeLoop_space {text : CString} {c : Char} (hc : text.head? = some c)
    (hblank : isBlank c = false) (hhash : c ≠ '#') (hdot : c ≠ '.') :
    tokenizeLoop indentLevel lineNumber column pos (' ' :: text) =
      tokenizeText indentLevel lineNumber (pos + 1) (pos + 1) [] text := by
  obtain ⟨cs, rfl⟩ : ∃ cs, text = c :: cs := by
    cases text with
    | nil => cases hc
    | cons d cs =>
      cases hc
      exact ⟨cs, rfl⟩
  have hskip : skipWhitespace (c :: cs) = c :: cs := List.dropWhile_cons_of_neg (by simp [hblank])
  have hcount : blankCount (' ' :: c :: cs) = 1 := by
    rw [blankCount, List.takeWhile_cons_of_pos (by decide),
      List.takeWhile_cons_of_neg (by simp [hblank])]
    rfl
  have hhead : ∀ d ∈ (skipWhitespace (c :: cs)).head?, d ≠ '#' ∧ d ≠ '.' := by
    intro d hd
    rw [hskip] at hd
    cases hd
    exact ⟨hhash, hdot⟩
  rw [tokenizeLoop_blank_text _ _ _ _ hhead, hskip, hcount]

/-- A space with nothing but blanks after it ends the line. -/
theorem tokenizeLoop_space_nil : tokenizeLoop indentLevel lineNumber column pos [' '] = [] := by
  rw [tokenizeLoop_blank_text _ _ _ _ (by simp [skipWhitespace])]
  exact tokenizeText.eq_1 _ _ _ _ _

/-! ## The text loop -/

/-- The TEXT token of a stretch of literal text, if there is any. -/
def textToken (text : CString) : List Token :=
  if text.length > 0 then [createToken .tokenText (some text) indentLevel lineNumber column] else []

@[simp] theorem tokenizeText_nil (buffer : CString) :
    tokenizeText indentLevel lineNumber column pos buffer [] = [] := by
  rw [tokenizeText]

section Round

variable {indentLevel lineNumber column pos} {rest after : CString}

/-- A round of the text loop that ends at an interpolation. -/
theorem tokenizeText_open (buffer : CString)
    (hdrop : rest.dropWhile (· != '#') = '#' :: '{' :: after) :
    tokenizeText indentLevel lineNumber column pos buffer rest =
      textToken indentLevel lineNumber column (rest.takeWhile (· != '#')) ++
        createToken .tokenInterpolation (some (after.takeWhile (· != '}'))) indentLevel lineNumber
          (pos + (rest.takeWhile (· != '#')).length + 2) ::
          tokenizeText indentLevel lineNumber (pos + (rest.takeWhile (· != '#')).length + 2)
            (pos + (rest.takeWhile (· != '#')).length + 2 + (after.takeWhile (· != '}')).length +
              ((after.dropWhile (· != '}')).take 1).length)
            (after.takeWhile (· != '}')) ((after.dropWhile (· != '}')).drop 1) := by
  cases rest with
  | nil => cases hdrop
  | cons c cs =>
    rw [tokenizeText, textToken]
    split
    · rename_i h
      rw [hdrop] at h
      cases h
      rfl
    · rename_i hne h
      rw [hdrop] at h
      cases h
      exact absurd rfl (hne _)
    · rename_i h _
      exact absurd hdrop (h _)

/-- A round that ends at a lone `#`. -/
theorem tokenizeText_lone (buffer : CString) (hdrop : rest.dropWhile (· != '#') = '#' :: after)
    (hafter : after.head? ≠ some '{') :
    tokenizeText indentLevel lineNumber column pos buffer rest =
      textToken indentLevel lineNumber column (rest.takeWhile (· != '#')) ++
        tokenizeText indentLevel lineNumber column
          (pos + (rest.takeWhile (· != '#')).length + 1) (rest.takeWhile (· != '#') ++ ['#'])
          after := by
  cases rest with
  | nil => cases hdrop
  | cons c cs =>
    rw [tokenizeText, textToken]
    split
    · rename_i h
      rw [hdrop] at h
      cases h
      exact absurd rfl hafter
    · rename_i h
      rw [hdrop] at h
      cases h
      rfl
    · rename_i h
      exact absurd hdrop (h _)

/-- The last round. -/
theorem tokenizeText_last (buffer : CString) (hdrop : rest.dropWhile (· != '#') = []) :
    tokenizeText indentLevel lineNumber column pos buffer rest =
      textToken indentLevel lineNumber column (rest.takeWhile (· != '#')) := by
  cases rest with
  | nil =>
    rw [tokenizeText_nil]
    rfl
  | cons c cs =>
    rw [tokenizeText, textToken]
    split
    · rename_i h
      rw [hdrop] at h
      cases h
    · rename_i h
      rw [hdrop] at h
      cases h
    · rfl

end Round

/-- Literal text up to the end of the line. -/
theorem tokenizeText_text (buffer : CString) {text : CString} (htext : '#' ∉ text) :
    tokenizeText indentLevel lineNumber column pos buffer text =
      textToken indentLevel lineNumber column text := by
  have hall := forall_ne_of_not_mem htext
  rw [tokenizeText_last buffer (List.dropWhile_eq_nil_iff.mpr hall),
    List.takeWhile_eq_self_iff.mpr hall]

/-- Literal text up to a `#` that opens no interpolation: the `#` is lost. -/
theorem tokenizeText_hash (buffer : CString) {text rest : CString} (htext : '#' ∉ text)
    (hrest : rest.head? ≠ some '{') :
    ∃ buffer', tokenizeText indentLevel lineNumber column pos buffer (text ++ '#' :: rest) =
      textToken indentLevel lineNumber column text ++
        tokenizeText indentLevel lineNumber column (pos + text.length + 1) buffer' rest := by
  have hall := forall_ne_of_not_mem htext
  have htake : (text ++ '#' :: rest).takeWhile (· != '#') = text :=
    takeWhile_append_stop hall (StopsAt.cons rfl _)
  have hdrop : (text ++ '#' :: rest).dropWhile (· != '#') = '#' :: rest :=
    dropWhile_append_stop hall (StopsAt.cons rfl _)
  refine ⟨text ++ ['#'], ?_⟩
  rw [tokenizeText_lone buffer hdrop hrest, htake]

/-- Literal text up to an interpolation. -/
theorem tokenizeText_interpolation (buffer : CString) {text value rest : CString}
    (htext : '#' ∉ text) (hvalue : '}' ∉ value) :
    ∃ buffer', tokenizeText indentLevel lineNumber column pos buffer
        (text ++ '#' :: '{' :: (value ++ '}' :: rest)) =
      textToken indentLevel lineNumber column text ++
        createToken .tokenInterpolation (some value) indentLevel lineNumber
          (pos + text.length + 2) ::
          tokenizeText indentLevel lineNumber (pos + text.length + 2)
            (pos + text.length + 2 + value.length + 1) buffer' rest := by
  have hall := forall_ne_of_not_mem htext
  have hvall := forall_ne_of_not_mem hvalue
  have htake : (text ++ '#' :: '{' :: (value ++ '}' :: rest)).takeWhile (· != '#') = text :=
    takeWhile_append_stop hall (StopsAt.cons rfl _)
  have hdrop : (text ++ '#' :: '{' :: (value ++ '}' :: rest)).dropWhile (· != '#') =
      '#' :: '{' :: (value ++ '}' :: rest) :=
    dropWhile_append_stop hall (StopsAt.cons rfl _)
  have hvtake : (value ++ '}' :: rest).takeWhile (· != '}') = value :=
    takeWhile_append_stop hvall (StopsAt.cons rfl _)
  have hvdrop : (value ++ '}' :: rest).dropWhile (· != '}') = '}' :: rest :=
    dropWhile_append_stop hvall (StopsAt.cons rfl _)
  refine ⟨value, ?_⟩
  rw [tokenizeText_open buffer hdrop, htake, hvtake, hvdrop]
  rfl

end Line

/-! ## Lines that start with a tag name -/

/-- The words that `tokenize_line` looks for at the start of a line. -/
def keywords : List CString :=
  ["doctype".toList, "include".toList, "extends".toList, "mixin".toList]

/-- The name does not begin with a keyword. -/
def NoKeyword (name : CString) : Prop := ∀ k ∈ keywords, ¬ k <+: name

instance (name : CString) : Decidable (NoKeyword name) := by
  unfold NoKeyword
  infer_instance

theorem isTagChar_of_mem_keywords : ∀ k ∈ keywords, ∀ c ∈ k, isTagChar c = true := by
  have hall : ∀ k ∈ keywords, k.all isTagChar = true := by decide
  exact fun k hk => List.all_eq_true.mp (hall k hk)

/-- A keyword at the start of a line that starts with a tag name is at the start of the name. -/
theorem gStrHasPrefix_tag {name rest k : CString} (hrest : StopsAt isTagChar rest)
    (hk : ∀ c ∈ k, isTagChar c = true) (hname : ¬ k <+: name) :
    gStrHasPrefix (name ++ rest) k = false := by
  rw [gStrHasPrefix, Bool.eq_false_iff]
  intro h
  have hpre : k <+: name ++ rest := List.isPrefixOf_iff_prefix.mp h
  rcases List.prefix_or_prefix_of_prefix hpre (List.prefix_append name rest) with h | ⟨x, rfl⟩
  · exact hname h
  · obtain ⟨y, hy⟩ := hpre
    rw [List.append_assoc] at hy
    have hx := List.append_cancel_left hy
    cases x with
    | nil => exact hname (by simp)
    | cons c x =>
      have hc := hk c (by simp)
      rw [hrest c (by simp [← hx])] at hc
      cases hc

theorem isBlank_of_isalpha {c : Char} (h : isalpha c = true) : isBlank c = false := by
  have h1 : c ≠ ' ' := isalpha_ne h rfl
  have h2 : c ≠ '\t' := isalpha_ne h rfl
  simp [isBlank, h1, h2]

theorem skipWhitespace_append {w rest : CString} (hw : ∀ c ∈ w, isBlank c = true)
    (hrest : StopsAt isBlank rest) : skipWhitespace (w ++ rest) = rest :=
  dropWhile_append_stop hw hrest

theorem blankCount_append {w rest : CString} (hw : ∀ c ∈ w, isBlank c = true)
    (hrest : StopsAt isBlank rest) : blankCount (w ++ rest) = w.length :=
  congrArg List.length (takeWhile_append_stop hw hrest)

/-- What begins with a letter and no keyword is for the main loop. -/
theorem reachesLoop_letter {c : Char} {cs : CString} (hc : isalpha c = true)
    (hkey : ∀ k ∈ keywords, ¬ k <+: c :: cs) : ReachesLoop (c :: cs) := by
  refine ⟨fun k hk => hkey k.1 (List.mem_map_of_mem hk), fun d hd => ?_, fun hslash => ?_⟩
  · cases hd
    exact ⟨isalpha_ne hc rfl, isalpha_ne hc rfl, isalpha_ne hc rfl⟩
  · have hne : c ≠ '/' := isalpha_ne hc rfl
    exact hne (List.cons_prefix_cons.mp hslash).1.symm

/-- A line that starts with a tag name goes to the main loop. -/
theorem tokenizeLine_tag {w name rest : CString} (hw : ∀ c ∈ w, isBlank c = true)
    (hname : IsTagName name) (hkey : NoKeyword name) (hrest : StopsAt isTagChar rest) (n : Nat) :
    tokenizeLine (w ++ (name ++ rest)) n =
      tokenizeLoop (countIndentLevel (w ++ (name ++ rest))) n w.length w.length (name ++ rest) := by
  have hk : ∀ k ∈ keywords, ¬ k <+: name ++ rest := by
    intro k hmem hpre
    have hno := gStrHasPrefix_tag hrest (isTagChar_of_mem_keywords k hmem) (hkey k hmem)
    rw [gStrHasPrefix, List.isPrefixOf_iff_prefix.mpr hpre] at hno
    cases hno
  obtain ⟨c, cs, rfl, halpha, -⟩ := hname
  have hstop : StopsAt isBlank (c :: cs ++ rest) := StopsAt.cons (isBlank_of_isalpha halpha) _
  have hskip := skipWhitespace_append hw hstop
  have hreach : ReachesLoop (skipWhitespace (w ++ (c :: cs ++ rest))) := by
    rw [hskip]
    exact reachesLoop_letter halpha hk
  rw [tokenizeLine_of_reachesLoop hreach, hskip, blankCount_append hw hstop]

/-- A line whose tag name begins with a keyword gives one token, which is no TAG. -/
theorem tokenizeLine_keyword {w name rest k : CString} (hw : ∀ c ∈ w, isBlank c = true)
    (hname : IsTagName name) (hmem : k ∈ keywords) (hk : k <+: name) (n : Nat) :
    ∃ t, tokenizeLine (w ++ (name ++ rest)) n = [t] ∧ t.type ≠ .tokenTag := by
  have hstop : StopsAt isBlank (name ++ rest) := by
    obtain ⟨c, cs, rfl, halpha, -⟩ := hname
    exact StopsAt.cons (isBlank_of_isalpha halpha) _
  have hpre : k <+: skipWhitespace (w ++ (name ++ rest)) := by
    rw [skipWhitespace_append hw hstop]
    exact hk.trans (List.prefix_append name rest)
  rcases tokenizeLine_cases (w ++ (name ++ rest)) n with ⟨⟨type, value, htype, -, heq⟩, -⟩ | ⟨-, hreach⟩
  · refine ⟨_, heq, fun htag => ?_⟩
    have htag : type = .tokenTag := htag
    rw [htag] at htype
    exact absurd htype (by decide)
  · obtain ⟨entry, hentry, rfl⟩ : ∃ entry ∈ keywordTable, entry.1 = k := List.mem_map.mp hmem
    exact absurd hpre (hreach.1 entry hentry)

/-- The first token of a line is a TAG token with the given name. -/
def StartsWithTag (tokens : List Token) (name : CString) : Prop :=
  ∃ t ∈ tokens.head?, t.type = .tokenTag ∧ t.value = some name

/-- **Tag names and keywords.** On a line that goes on with a tag name after its indentation, the
first token is the TAG of that name exactly when the name does not begin with a keyword. -/
theorem tokenizeLine_startsWithTag_iff {w name rest : CString} (hw : ∀ c ∈ w, isBlank c = true)
    (hname : IsTagName name) (hrest : StopsAt isTagChar rest) (lineNumber : Nat) :
    StartsWithTag (tokenizeLine (w ++ (name ++ rest)) lineNumber) name ↔ NoKeyword name := by
  constructor
  · rintro ⟨t, ht, htype, -⟩ k hmem hk
    obtain ⟨t', hline, hne⟩ :=
      @tokenizeLine_keyword w name rest k hw hname hmem hk lineNumber
    rw [hline] at ht
    cases ht
    exact hne htype
  · intro hkey
    rw [tokenizeLine_tag hw hname hkey hrest, tokenizeLoop_tag _ _ _ _ hname hrest]
    exact ⟨_, rfl, rfl, rfl⟩

theorem tokenizeLine_startsWithTag_iff_section :
    StartsWithTag (tokenizeLine ("  ".toList ++ ("section".toList ++ ".x".toList)) 1)
        "section".toList ↔ NoKeyword "section".toList :=
  tokenizeLine_startsWithTag_iff (List.all_eq_true.mp rfl)
    ⟨'s', "ection".toList, rfl, rfl, List.all_eq_true.mp rfl⟩ (StopsAt.cons rfl _) 1

/-- The line `includes` is read as the keyword `include`. -/
theorem tokenizeLine_startsWithTag_fails :
    ¬ ∀ (w name rest : CString) (lineNumber : Nat), (∀ c ∈ w, isBlank c = true) →
      IsTagName name → name ∉ keywords → StopsAt isTagChar rest →
        StartsWithTag (tokenizeLine (w ++ (name ++ rest)) lineNumber) name := by
  intro h
  obtain ⟨t, ht, htype, -⟩ := h [] "includes".toList [] 1 (by simp)
    ⟨'i', "ncludes".toList, rfl, rfl, List.all_eq_true.mp rfl⟩ (by decide) (StopsAt.nil _)
  have hfirst : (tokenizeLine ([] ++ ("includes".toList ++ [])) 1).head?.map Token.type =
      some .tokenInclude := by decide +kernel
  rw [Option.mem_def.mp ht, Option.map_some, htype] at hfirst
  cases hfirst

end CPug
