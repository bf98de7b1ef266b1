import CPug.Attributes
import CPug.Positions
import CPug.Scanner

/-!
# Elements and their source lines

An `Element` is the head of a line `tag#id.class(name='value') text` whose parts are such that the
line can be read back. `printElement` writes the line, `elementTokens` are the tokens the tokenizer
makes of it, up to their positions: `tokenizeLine_printLine`, assembled from one lemma for each
part of the line.
-/

namespace CPug

/-- The parts of a line that makes an element. -/
structure Head where
  tag : CString
  id : Option CString
  classes : List CString
  /-- The names and values between the parentheses; `none` when there are no parentheses. -/
  attributes : Option (List (CString × CString))
  text : Option CString
deriving Repr, DecidableEq

/-- An id or a class name. -/
def IsWord (word : CString) : Prop := word ≠ [] ∧ ∀ c ∈ word, isWordChar c = true

/-- The characters a quoted value may not hold. -/
def isValueStop (c : Char) : Bool := c == ',' || c == '(' || c == ')' || c == '\'' || c == '\n'

/-- An attribute that can be written between parentheses with single quotes. -/
structure IsPair (attr : CString × CString) : Prop where
  name : IsName attr.1
  value : ∀ c ∈ attr.2, isValueStop c = false

/-- A text that can be written after a tag. -/
structure IsText (text : CString) : Prop where
  ne_nil : text ≠ []
  singleLine : '\n' ∉ text
  literal : '#' ∉ text
  start : text.head? ≠ some '.'
  stripped : Stripped text

/-- The head of an element, with what makes it readable again. -/
structure Element extends Head where
  tag_ok : IsTagName tag
  tag_noKeyword : NoKeyword tag
  id_ok : ∀ word ∈ id, IsWord word
  classes_ok : ∀ word ∈ classes, IsWord word
  attributes_ok : ∀ attrs ∈ attributes, ∀ attr ∈ attrs, IsPair attr
  text_ok : ∀ t ∈ text, IsText t

/-! ## Printing -/

def printId : Option CString → CString
  | none => []
  | some word => '#' :: word

def printClasses (classes : List CString) : CString := classes.flatMap fun word => '.' :: word

def printAttribute (attr : CString × CString) : CString :=
  attr.1 ++ '=' :: quoted '\'' attr.2

def printAttributes : Option (List (CString × CString)) → CString
  | none => []
  | some attrs => '(' :: ([','].intercalate (attrs.map printAttribute) ++ [')'])

def printText : Option CString → CString
  | none => []
  | some text => ' ' :: text

/-- The line of an element, without its indentation. -/
def printHead (e : Head) : CString :=
  e.tag ++ (printId e.id ++ (printClasses e.classes ++
    (printAttributes e.attributes ++ printText e.text)))

/-- The line of an element of level `p.1`. -/
def printLine (p : Nat × Element) : CString :=
  List.replicate (2 * p.1) ' ' ++ printHead p.2.toHead

/-! ## The tokens of a line -/

/-- The tokens of the main loop, up to their positions. -/
def loopTokens (depth : Nat) (rest : CString) : List Token :=
  (tokenizeLoop depth 0 0 0 rest).map Token.unplaced

theorem loopTokens_eq (depth lineNumber column pos : Nat) (rest : CString) :
    (tokenizeLoop depth lineNumber column pos rest).map Token.unplaced = loopTokens depth rest :=
  tokenizeLoop_unplaced _ _ _ _ _ _ _

def idTokens (depth : Nat) : Option CString → List Token
  | none => []
  | some word => [createToken .tokenId (some word) depth 0 0]

def classTokens (depth : Nat) (classes : List CString) : List Token :=
  classes.map fun word => createToken .tokenClass (some word) depth 0 0

def attributeTokens (depth : Nat) : Option (List (CString × CString)) → List Token
  | none => []
  | some attrs =>
      [createToken .tokenAttribute (some ([','].intercalate (attrs.map printAttribute))) depth 0 0]

def textTokens (depth : Nat) : Option CString → List Token
  | none => []
  | some text => [createToken .tokenText (some text) depth 0 0]

/-- The tokens of a line after the TAG token. -/
def partTokens (depth : Nat) (e : Head) : List Token :=
  idTokens depth e.id ++ (classTokens depth e.classes ++
    (attributeTokens depth e.attributes ++ textTokens depth e.text))

/-- The TAG token of a line. -/
def tagToken (depth : Nat) (e : Head) : Token := createToken .tokenTag (some e.tag) depth 0 0

/-- The tokens of a line. -/
def headTokens (depth : Nat) (e : Head) : List Token := tagToken depth e :: partTokens depth e

section Parts

variable {depth : Nat} {t : Token}

theorem mem_idTokens {id : Option CString} (h : t ∈ idTokens depth id) :
    ∃ word, t = createToken .tokenId (some word) depth 0 0 := by
  cases id with
  | none => cases h
  | some word => exact ⟨word, List.mem_singleton.mp h⟩

theorem mem_classTokens {classes : List CString} (h : t ∈ classTokens depth classes) :
    ∃ word, t = createToken .tokenClass (some word) depth 0 0 := by
  obtain ⟨word, -, rfl⟩ := List.mem_map.mp h
  exact ⟨word, rfl⟩

theorem mem_attributeTokens {attributes : Option (List (CString × CString))}
    (h : t ∈ attributeTokens depth attributes) :
    ∃ value, t = createToken .tokenAttribute (some value) depth 0 0 := by
  cases attributes with
  | none => cases h
  | some attrs => exact ⟨_, List.mem_singleton.mp h⟩

theorem mem_textTokens {text : Option CString} (h : t ∈ textTokens depth text) :
    ∃ value, t = createToken .tokenText (some value) depth 0 0 := by
  cases text with
  | none => cases h
  | some value => exact ⟨value, List.mem_singleton.mp h⟩

/-- Every token after the TAG token is one that the loop takes. -/
theorem mem_partTokens {e : Head} (h : t ∈ partTokens depth e) :
    absorbs depth t = true ∧ t.value ≠ none := by
  simp only [partTokens, List.mem_append] at h
  rcases h with h | h | h | h
  · obtain ⟨word, rfl⟩ := mem_idTokens h
    simp [absorbs, createToken, TokenType.isAbsorbed]
  · obtain ⟨word, rfl⟩ := mem_classTokens h
    simp [absorbs, createToken, TokenType.isAbsorbed]
  · obtain ⟨value, rfl⟩ := mem_attributeTokens h
    simp [absorbs, createToken, TokenType.isAbsorbed]
  · obtain ⟨value, rfl⟩ := mem_textTokens h
    simp [absorbs, createToken, TokenType.isAbsorbed]

end Parts

/-- The string is empty or goes on with the start of another part of the line. -/
def Delimited (rest : CString) : Prop :=
  ∀ c ∈ rest.head?, c = '#' ∨ c = '.' ∨ c = '(' ∨ c = ' '

theorem Delimited.nil : Delimited [] := by simp [Delimited]

theorem Delimited.cons {c : Char} (h : c = '#' ∨ c = '.' ∨ c = '(' ∨ c = ' ') (rest : CString) :
    Delimited (c :: rest) := by simpa [Delimited] using h

theorem Delimited.stopsAt_tag {rest : CString} (h : Delimited rest) : StopsAt isTagChar rest := by
  intro c hc
  rcases h c hc with rfl | rfl | rfl | rfl <;> decide

theorem Delimited.stopsAt_word {rest : CString} (h : Delimited rest) : StopsAt isWordChar rest := by
  intro c hc
  rcases h c hc with rfl | rfl | rfl | rfl <;> decide

theorem delimited_id {id : Option CString} {rest : CString} (h : Delimited rest) :
    Delimited (printId id ++ rest) := by
  cases id with
  | none => exact h
  | some word => exact .cons (Or.inl rfl) _

theorem delimited_classes {classes : List CString} {rest : CString} (h : Delimited rest) :
    Delimited (printClasses classes ++ rest) := by
  cases classes with
  | nil => exact h
  | cons word classes => exact .cons (Or.inr (Or.inl rfl)) _

theorem delimited_attributes {attrs : Option (List (CString × CString))} {rest : CString}
    (h : Delimited rest) : Delimited (printAttributes attrs ++ rest) := by
  cases attrs with
  | none => exact h
  | some attrs => exact .cons (Or.inr (Or.inr (Or.inl rfl))) _

theorem delimited_text (text : Option CString) : Delimited (printText text) := by
  cases text with
  | none => exact .nil
  | some text => exact .cons (Or.inr (Or.inr (Or.inr rfl))) _

section Parts

variable {depth : Nat} {rest : CString}

theorem loopTokens_id {id : Option CString} (hid : ∀ word ∈ id, IsWord word)
    (hrest : Delimited rest) :
    loopTokens depth (printId id ++ rest) = idTokens depth id ++ loopTokens depth rest := by
  cases id with
  | none => rfl
  | some word =>
    have hword := (hid word rfl).2
    rw [printId, List.cons_append, loopTokens, tokenizeLoop_id _ _ _ _ hword hrest.stopsAt_word,
      List.map_cons, loopTokens_eq]
    rfl

theorem loopTokens_classes {classes : List CString} (hclasses : ∀ word ∈ classes, IsWord word)
    (hrest : Delimited rest) :
    loopTokens depth (printClasses classes ++ rest) =
      classTokens depth classes ++ loopTokens depth rest := by
  induction classes with
  | nil => rfl
  | cons word classes ih =>
    obtain ⟨hne, hword⟩ := hclasses word List.mem_cons_self
    have hstop : StopsAt isWordChar (printClasses classes ++ rest) :=
      (delimited_classes hrest).stopsAt_word
    have hprint : printClasses (word :: classes) ++ rest =
        '.' :: (word ++ (printClasses classes ++ rest)) := by simp [printClasses]
    rw [hprint, loopTokens, tokenizeLoop_class _ _ _ _ hne hword hstop, List.map_cons,
      loopTokens_eq, ih fun word' h => hclasses word' (List.mem_cons_of_mem _ h)]
    rfl

/-- A parenthesised text whose parentheses match is one token. -/
theorem loopTokens_paren {value : CString} (hvalue : Balanced value) :
    loopTokens depth ('(' :: (value ++ ')' :: rest)) =
      createToken .tokenAttribute (some value) depth 0 0 :: loopTokens depth rest := by
  have hscan : scanParens 1 (value ++ ')' :: rest) = (value, rest) := by
    rw [scanParens_append hvalue, Nat.zero_add, scanParens_close, List.append_nil]
  rw [loopTokens, tokenizeLoop_paren, hscan, List.map_cons, loopTokens_eq]
  rfl

theorem balanced_attributes {attrs : List (CString × CString)} (h : ∀ attr ∈ attrs, IsPair attr) :
    Balanced ([','].intercalate (attrs.map printAttribute)) := by
  have hnone : ∀ c ∈ [','].intercalate (attrs.map printAttribute), c ≠ '(' ∧ c ≠ ')' := by
    refine forall_mem_intercalate (p := fun c => c ≠ '(' ∧ c ≠ ')') (by decide) ?_
    intro piece hpiece c hc
    obtain ⟨attr, hattr, rfl⟩ := List.mem_map.mp hpiece
    obtain ⟨hname, hvalue⟩ := h attr hattr
    rcases List.mem_append.mp hc with hc | hc
    · have := hname.chars c hc
      simp only [isNameStop, Bool.or_eq_false_iff, beq_eq_false_iff_ne] at this
      exact ⟨this.1.2, this.2⟩
    · simp only [quoted, List.mem_cons, List.mem_append, List.not_mem_nil, or_false] at hc
      rcases hc with rfl | rfl | hc | rfl
      · decide
      · decide
      · have := hvalue c hc
        simp only [isValueStop, Bool.or_eq_false_iff, beq_eq_false_iff_ne] at this
        exact ⟨this.1.1.1.2, this.1.1.2⟩
      · decide
  exact balanced_of_not_mem (fun h => (hnone _ h).1 rfl) fun h => (hnone _ h).2 rfl

theorem loopTokens_attributes {attrs : Option (List (CString × CString))}
    (h : ∀ l ∈ attrs, ∀ attr ∈ l, IsPair attr) :
    loopTokens depth (printAttributes attrs ++ rest) =
      attributeTokens depth attrs ++ loopTokens depth rest := by
  cases attrs with
  | none => rfl
  | some l =>
    have hprint : printAttributes (some l) ++ rest =
        '(' :: ([','].intercalate (l.map printAttribute) ++ ')' :: rest) := by
      simp [printAttributes]
    rw [hprint, loopTokens_paren (balanced_attributes (h l rfl))]
    rfl

theorem loopTokens_text {text : Option CString} (h : ∀ t ∈ text, IsText t) :
    loopTokens depth (printText text) = textTokens depth text := by
  cases text with
  | none => rw [printText, loopTokens, tokenizeLoop_nil]; rfl
  | some t =>
    obtain ⟨hne, -, hlit, hstart, hstrip⟩ := h t rfl
    obtain ⟨c, cs, rfl⟩ := List.exists_cons_of_ne_nil hne
    have hspace := hstrip.1 c rfl
    have hblank : isBlank c = false := by
      simp only [gAsciiIsspace, Bool.or_eq_false_iff] at hspace
      simp [isBlank, hspace.1.1.1.1, hspace.1.1.1.2]
    have hhash : c ≠ '#' := by
      rintro rfl
      simp at hlit
    have hdot : c ≠ '.' := by
      rintro rfl
      simp at hstart
    rw [printText, loopTokens, tokenizeLoop_space _ _ _ _ rfl hblank hhash hdot,
      tokenizeText_text _ _ _ _ _ hlit]
    simp [textToken, textTokens]

end Parts

/-! ## The line as a whole -/

/-- Spaces count half. -/
theorem countIndentLevel_spaces (n : Nat) {rest : CString} (hrest : StopsAt isBlank rest) :
    countIndentLevel (List.replicate n ' ' ++ rest) = n / 2 := by
  have hzero : countIndentLevel rest = 0 := by
    cases rest with
    | nil => rw [countIndentLevel]
    | cons c cs =>
      have hc := hrest c rfl
      simp only [isBlank, Bool.or_eq_false_iff, beq_eq_false_iff_ne] at hc
      rw [countIndentLevel, if_neg hc.2, if_neg hc.1]
  cases n with
  | zero => simpa using hzero
  | succ n =>
    have hall : ∀ c ∈ List.replicate n ' ', (c == ' ') = true := by simp
    have hstop : StopsAt (· == ' ') rest := by
      intro c hc
      have := hrest c hc
      simp only [isBlank, Bool.or_eq_false_iff] at this
      exact this.1
    rw [List.replicate_succ, List.cons_append, countIndentLevel, if_neg (by decide), if_pos rfl,
      takeWhile_append_stop hall hstop, dropWhile_append_stop hall hstop, hzero,
      List.length_replicate, Nat.add_zero, Nat.add_comm]

/-- Two spaces for each level. -/
theorem countIndentLevel_level (k : Nat) {rest : CString} (hrest : StopsAt isBlank rest) :
    countIndentLevel (List.replicate (2 * k) ' ' ++ rest) = k := by
  rw [countIndentLevel_spaces _ hrest]
  omega

theorem isBlank_of_mem_replicate {c d : Char} {n : Nat} (hc : isBlank c = true)
    (hd : d ∈ List.replicate n c) : isBlank d = true := by
  rw [List.eq_of_mem_replicate hd, hc]

theorem IsTagName.stopsAt_blank {name : CString} (h : IsTagName name) (rest : CString) :
    StopsAt isBlank (name ++ rest) := by
  obtain ⟨c, cs, rfl, halpha, -⟩ := h
  exact StopsAt.cons (isBlank_of_isalpha halpha) _

theorem delimited_parts (e : Head) :
    Delimited (printId e.id ++ (printClasses e.classes ++
      (printAttributes e.attributes ++ printText e.text))) :=
  delimited_id (delimited_classes (delimited_attributes (delimited_text e.text)))

/-- The tokens of the line of an element. -/
theorem tokenizeLine_printLine (p : Nat × Element) (lineNumber : Nat) :
    (tokenizeLine (printLine p) lineNumber).map Token.unplaced = headTokens p.1 p.2.toHead := by
  obtain ⟨k, e⟩ := p
  have hindent : countIndentLevel (List.replicate (2 * k) ' ' ++ printHead e.toHead) = k := by
    rw [printHead, countIndentLevel_level _ (e.tag_ok.stopsAt_blank _)]
  have hstop := (delimited_parts e.toHead).stopsAt_tag
  have hattrs : Delimited (printAttributes e.attributes ++ printText e.text) :=
    delimited_attributes (delimited_text e.text)
  have hblank : ∀ c ∈ List.replicate (2 * k) ' ', isBlank c = true :=
    fun c hc => isBlank_of_mem_replicate rfl hc
  rw [printHead] at hindent
  rw [printLine, printHead, tokenizeLine_tag hblank e.tag_ok e.tag_noKeyword hstop, hindent,
    tokenizeLoop_tag _ _ _ _ e.tag_ok hstop, List.map_cons, loopTokens_eq,
    loopTokens_id e.id_ok (delimited_classes hattrs), loopTokens_classes e.classes_ok hattrs,
    loopTokens_attributes e.attributes_ok, loopTokens_text e.text_ok]
  rfl

end CPug
