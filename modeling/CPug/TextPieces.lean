import CPug.InlineText
import CPug.ParserRun

/-!
# The pieces of an inline text

An inline text is a list of literal pieces and interpolations (`Piece`). Two things can go wrong
with it between the line and the node.

* `interpolationsRecognised_iff`: the scanner makes an INTERPOLATION token of every interpolation
  and no markup token of any part of the text exactly when the text does not open with an
  interpolation; a `#` after the blanks is taken for the start of an id.
* `concatenatesText_iff`: the loop after a TAG joins the pieces with a space and strips after each
  one, and drops the marks of an interpolation, so the content is the concatenation only when all
  pieces are literal and already `Spaced`.
-/

namespace CPug

/-! ## Pieces -/

inductive Piece where
  | literal (text : CString) (h : '#' ∉ text)
  | interpolation (value : CString) (h : '}' ∉ value)

def Piece.print : Piece → CString
  | .literal text _ => text
  | .interpolation value _ => '#' :: '{' :: (value ++ ['}'])

def Piece.interpolated : Piece → Option CString
  | .literal _ _ => none
  | .interpolation value _ => some value

/-- The text made of the pieces. -/
def printPieces (pieces : List Piece) : CString := pieces.flatMap Piece.print

/-- The values of the interpolations, in order. -/
def interpolations (pieces : List Piece) : List CString := pieces.filterMap Piece.interpolated

theorem printPieces_literal (text : CString) (h : '#' ∉ text) (pieces : List Piece) :
    printPieces (.literal text h :: pieces) = text ++ printPieces pieces := rfl

theorem printPieces_interpolation (value : CString) (h : '}' ∉ value) (pieces : List Piece) :
    printPieces (.interpolation value h :: pieces) =
      '#' :: '{' :: (value ++ '}' :: printPieces pieces) := by
  simp [printPieces, Piece.print]

/-- Without its leading blanks a text is made of pieces with the same interpolations. -/
theorem exists_pieces_skipWhitespace (pieces : List Piece) :
    ∃ pieces', skipWhitespace (printPieces pieces) = printPieces pieces' ∧
      interpolations pieces' = interpolations pieces := by
  induction pieces with
  | nil => exact ⟨[], rfl, rfl⟩
  | cons piece pieces ih =>
    cases piece with
    | literal text h =>
      rw [printPieces_literal]
      by_cases hblank : ∀ c ∈ text, isBlank c = true
      · obtain ⟨pieces', hskip, hvalues⟩ := ih
        refine ⟨pieces', ?_, hvalues⟩
        rw [skipWhitespace, List.dropWhile_append_of_pos hblank]
        exact hskip
      · have hne : text.dropWhile isBlank ≠ [] := by
          rw [Ne, List.dropWhile_eq_nil_iff]
          exact hblank
        have hsub : '#' ∉ text.dropWhile isBlank := fun hmem =>
          h ((List.dropWhile_sublist _).mem hmem)
        refine ⟨.literal (text.dropWhile isBlank) hsub :: pieces, ?_, rfl⟩
        rw [skipWhitespace, List.dropWhile_append, if_neg (by simpa using hne),
          printPieces_literal]
    | interpolation value h =>
      refine ⟨.interpolation value h :: pieces, ?_, rfl⟩
      rw [printPieces_interpolation]
      exact List.dropWhile_cons_of_neg (by decide)

/-! ## Recognising interpolations -/

/-- The values of the INTERPOLATION tokens, in order. -/
def interpolationValues (tokens : List Token) : List (Option CString) :=
  (tokens.filter fun t => t.type = .tokenInterpolation).map Token.value

/-- The tokens of a line `tag text`: one INTERPOLATION token for each interpolation of the text,
in order, and no ID, CLASS or TAG token for any part of it. -/
structure InterpolationsRecognised (tokens : List Token) (pieces : List Piece) : Prop where
  values : interpolationValues tokens = (interpolations pieces).map some
  textOnly : ∀ t ∈ tokens.drop 1,
    t.type ≠ .tokenId ∧ t.type ≠ .tokenClass ∧ t.type ≠ .tokenTag

section Line

variable {indentLevel lineNumber : Nat}

theorem interpolationValues_append (xs ys : List Token) :
    interpolationValues (xs ++ ys) = interpolationValues xs ++ interpolationValues ys := by
  simp [interpolationValues]

theorem interpolationValues_textToken (column : Nat) (text : CString) :
    interpolationValues (textToken indentLevel lineNumber column text) = [] := by
  unfold textToken
  split <;> rfl

theorem textToken_type (column : Nat) (text : CString) :
    ∀ t ∈ textToken indentLevel lineNumber column text, t.type = .tokenText := by
  unfold textToken
  intro t ht
  split at ht
  · rw [List.mem_singleton.mp ht]
    rfl
  · cases ht

/-- The text loop makes TEXT and INTERPOLATION tokens only. -/
theorem tokenizeText_type (column pos : Nat) (buffer rest : CString) :
    ∀ t ∈ tokenizeText indentLevel lineNumber column pos buffer rest,
      t.type = .tokenText ∨ t.type = .tokenInterpolation := by
  fun_induction tokenizeText indentLevel lineNumber column pos buffer rest with
  | case1 => simp
  | case2 column pos buffer c cs text pos' tokens after hd pos'' value ih =>
    intro t ht
    rcases List.mem_append.mp ht with ht | ht
    · exact Or.inl (textToken_type column text t ht)
    · rcases List.mem_cons.mp ht with rfl | ht
      · exact Or.inr rfl
      · exact ih t ht
  | case3 column pos buffer c cs text pos' tokens after hne hd ih =>
    intro t ht
    rcases List.mem_append.mp ht with ht | ht
    · exact Or.inl (textToken_type column text t ht)
    · exact ih t ht
  | case4 column pos buffer c cs text tokens h1 h2 =>
    exact fun t ht => Or.inl (textToken_type column text t ht)

/-- The text loop finds the interpolations; `before` is the literal text it has passed. -/
theorem interpolationValues_tokenizeText (pieces : List Piece) {before : CString}
    (hbefore : '#' ∉ before) (column pos : Nat) (buffer : CString) :
    interpolationValues
        (tokenizeText indentLevel lineNumber column pos buffer (before ++ printPieces pieces)) =
      (interpolations pieces).map some := by
  induction pieces generalizing before column pos buffer with
  | nil =>
    have hnil : before ++ printPieces [] = before := List.append_nil before
    rw [hnil, tokenizeText_text _ _ _ _ _ hbefore, interpolationValues_textToken]
    rfl
  | cons piece pieces ih =>
    cases piece with
    | literal text h =>
      have hmem : '#' ∉ before ++ text := by
        rw [List.mem_append]
        exact fun hor => hor.elim hbefore h
      rw [printPieces_literal, ← List.append_assoc]
      exact ih hmem column pos buffer
    | interpolation value h =>
      rw [printPieces_interpolation]
      obtain ⟨buffer', heq⟩ := @tokenizeText_interpolation indentLevel lineNumber column pos buffer
        before value (printPieces pieces) hbefore h
      have hrest := @ih [] (by simp) (pos + before.length + 2)
        (pos + before.length + 2 + value.length + 1) buffer'
      rw [List.nil_append] at hrest
      rw [heq, interpolationValues_append, interpolationValues_textToken, List.nil_append]
      unfold interpolationValues at hrest ⊢
      rw [List.filter_cons_of_pos (by simp [createToken]), List.map_cons, hrest]
      rfl

end Line

/-- The tokens of a line with a tag name, a space and any text. -/
theorem tokenizeLine_tag_space {w name : CString} (hw : ∀ c ∈ w, isBlank c = true)
    (hname : IsTagName name) (hkey : NoKeyword name) (text : CString) (n : Nat) :
    tokenizeLine (w ++ (name ++ ' ' :: text)) n =
      createToken .tokenTag (some name) (countIndentLevel (w ++ (name ++ ' ' :: text))) n w.length ::
        tokenizeLoop (countIndentLevel (w ++ (name ++ ' ' :: text))) n w.length
          (w.length + name.length) (' ' :: text) := by
  have hstop : StopsAt isTagChar (' ' :: text) := StopsAt.cons rfl _
  rw [tokenizeLine_tag hw hname hkey hstop, tokenizeLoop_tag _ _ _ _ hname hstop]

/-- **Interpolations.** On a line with a tag and a text made of literal pieces and interpolations,
not starting with `.` after blanks, the interpolations are recognised exactly when the text does
not start with one after its blanks. -/
theorem interpolationsRecognised_iff {w name : CString} (hw : ∀ c ∈ w, isBlank c = true)
    (hname : IsTagName name) (hkey : NoKeyword name) (pieces : List Piece)
    (hdot : (skipWhitespace (printPieces pieces)).head? ≠ some '.') (lineNumber : Nat) :
    InterpolationsRecognised (tokenizeLine (w ++ (name ++ ' ' :: printPieces pieces)) lineNumber)
        pieces ↔ (skipWhitespace (printPieces pieces)).head? ≠ some '#' := by
  obtain ⟨pieces', hskip, hvalues⟩ := exists_pieces_skipWhitespace pieces
  rw [tokenizeLine_tag_space hw hname hkey]
  generalize countIndentLevel (w ++ (name ++ ' ' :: printPieces pieces)) = indentLevel
  constructor
  · intro h hhash
    obtain ⟨rest, hrest⟩ : ∃ rest, skipWhitespace (printPieces pieces) = '#' :: rest := by
      cases hp : skipWhitespace (printPieces pieces) with
      | nil =>
        rw [hp] at hhash
        cases hhash
      | cons c rest =>
        rw [hp] at hhash
        cases hhash
        exact ⟨rest, rfl⟩
    have hid := h.textOnly
    rw [tokenizeLoop_blank_markup _ _ _ _ hrest (Or.inl rfl), tokenizeLoop, if_pos rfl,
      List.drop_succ_cons, List.drop_zero] at hid
    exact (hid _ List.mem_cons_self).1 rfl
  · intro hhash
    have hhead : ∀ c ∈ (skipWhitespace (printPieces pieces)).head?, c ≠ '#' ∧ c ≠ '.' := by
      intro c hc
      rw [Option.mem_def.mp hc] at hhash hdot
      exact ⟨fun he => hhash (congrArg some he), fun he => hdot (congrArg some he)⟩
    rw [tokenizeLoop_blank_text _ _ _ _ hhead, hskip]
    refine ⟨?_, fun t ht => ?_⟩
    · have hrest := @interpolationValues_tokenizeText indentLevel lineNumber pieces' []
        (by simp) (w.length + name.length + blankCount (' ' :: printPieces pieces))
        (w.length + name.length + blankCount (' ' :: printPieces pieces)) []
      rw [List.nil_append, hvalues] at hrest
      unfold interpolationValues at hrest ⊢
      rw [List.filter_cons_of_neg (by simp [createToken]), hrest]
    · rcases tokenizeText_type _ _ _ _ t ht with htype | htype <;> simp [htype]

theorem interpolationsRecognised_iff_paragraph :
    InterpolationsRecognised (tokenizeLine ([] ++ ("p".toList ++ ' ' :: printPieces
        [.literal "a ".toList (by decide), .interpolation "b".toList (by decide)])) 1)
      [.literal "a ".toList (by decide), .interpolation "b".toList (by decide)] ↔
    (skipWhitespace (printPieces
        [.literal "a ".toList (by decide), .interpolation "b".toList (by decide)])).head? ≠
      some '#' :=
  interpolationsRecognised_iff (by simp) ⟨'p', [], rfl, rfl, by simp⟩ (by decide) _ (by decide) 1

/-- The text of the line `p #{x}` opens with an interpolation: the scanner makes an empty ID and a
TAG of it. -/
theorem interpolationsRecognised_fails :
    ¬ ∀ (name : CString) (pieces : List Piece) (lineNumber : Nat), IsTagName name →
      NoKeyword name → (skipWhitespace (printPieces pieces)).head? ≠ some '.' →
        InterpolationsRecognised (tokenizeLine (name ++ ' ' :: printPieces pieces) lineNumber)
          pieces := by
  intro h
  have hp := h "p".toList [.interpolation "x".toList (by decide)] 1 ⟨'p', [], rfl, rfl, by simp⟩
    (by decide) (by decide)
  have hid : ((tokenizeLine ("p".toList ++ ' ' :: "#{x}".toList) 1).drop 1).head?.map
      Token.type = some .tokenId := by decide +kernel
  obtain ⟨t, ht, htype⟩ := Option.map_eq_some_iff.mp hid
  exact (hp.textOnly t (List.mem_of_mem_head? ht)).1 htype

/-! ## Joining pieces -/

/-- The content after one more text: `appendText` on an empty content is the strip as well. -/
theorem appendText_eq (text : Option CString) (value : CString) :
    appendText text value = gStrstrip (text.getD [] ++ ' ' :: value) := by
  cases text with
  | none => exact (gStrstrip_blank_append (s := [' ']) (by simp [Blank, gAsciiIsspace]) value).symm
  | some text => rfl

/-- The content that the loop after a TAG makes of a list of texts. -/
def joinTexts (texts : List CString) : Option CString :=
  texts.foldl (fun text value => some (appendText text value)) none

/-- Between two texts that are not blank stands one space, which ends the first. -/
def Spaced (texts : List CString) : Prop :=
  ∀ a v b, texts = a ++ v :: b → ¬ Blank a.flatten → ¬ Blank v →
    gStrchomp a.flatten ++ [' '] = a.flatten

theorem joinTexts_concat (texts : List CString) (value : CString) :
    (joinTexts (texts ++ [value])).getD [] =
      gStrstrip ((joinTexts texts).getD [] ++ ' ' :: value) := by
  rw [← appendText_eq, joinTexts, List.foldl_append]
  rfl

theorem stripped_joinTexts (texts : List CString) : Stripped ((joinTexts texts).getD []) := by
  induction texts using List.reverseRecOn with
  | nil => exact stripped_of_forall (by simp [joinTexts])
  | append_singleton texts value _ =>
    rw [joinTexts_concat]
    exact stripped_gStrstrip _

theorem blank_space_append {value : CString} : Blank (' ' :: value) ↔ Blank value := by
  rw [← List.singleton_append, blank_append]
  exact and_iff_right (by simp [Blank, gAsciiIsspace])

theorem blank_joinTexts (texts : List CString) :
    Blank ((joinTexts texts).getD []) ↔ Blank texts.flatten := by
  induction texts using List.reverseRecOn with
  | nil => simp [joinTexts]
  | append_singleton texts value ih =>
    rw [joinTexts_concat, List.flatten_append, List.flatten_singleton, blank_append, ← ih,
      ← gStrstrip_eq_nil, gStrstrip_eq_self (stripped_gStrstrip _), gStrstrip_eq_nil,
      blank_append, blank_space_append]

theorem spaced_concat (texts : List CString) (value : CString) :
    Spaced (texts ++ [value]) ↔ Spaced texts ∧
      (¬ Blank texts.flatten → ¬ Blank value →
        gStrchomp texts.flatten ++ [' '] = texts.flatten) := by
  constructor
  · intro h
    refine ⟨fun a v b heq => h a v (b ++ [value]) ?_, h texts value [] rfl⟩
    rw [heq, List.append_assoc]
    rfl
  · rintro ⟨htexts, hlast⟩ a v b heq
    rcases List.eq_nil_or_concat' b with rfl | ⟨b, last, rfl⟩
    · obtain ⟨rfl, hv⟩ := List.append_inj' heq rfl
      cases hv
      exact hlast
    · have heq' : texts ++ [value] = (a ++ v :: b) ++ [last] := by
        rw [heq, List.append_assoc]
        rfl
      exact htexts a v b (List.append_inj' heq' rfl).1

/-- One space ends the string exactly when one space ends it after its leading white space. -/
theorem gStrstrip_space_iff {s : CString} (hs : ¬ Blank s) :
    gStrstrip s ++ [' '] = gStrchug s ↔ gStrchomp s ++ [' '] = s := by
  have hchug : ¬ Blank (gStrchug s) := fun h => hs (blank_gStrchug.mp h)
  have hsplit : s.takeWhile gAsciiIsspace ++ gStrchug s = s := List.takeWhile_append_dropWhile
  have hchomp : gStrchomp s = s.takeWhile gAsciiIsspace ++ gStrstrip s := by
    conv_lhs => rw [← hsplit, gStrchomp_append _ hchug]
    rfl
  calc gStrstrip s ++ [' '] = gStrchug s ↔
        s.takeWhile gAsciiIsspace ++ (gStrstrip s ++ [' ']) =
          s.takeWhile gAsciiIsspace ++ gStrchug s := (List.append_right_inj _).symm
    _ ↔ gStrchomp s ++ [' '] = s := by rw [hsplit, hchomp, List.append_assoc]

/-- The texts are joined without a change exactly when they are spaced. -/
theorem joinTexts_eq_iff (texts : List CString) :
    (joinTexts texts).getD [] = gStrstrip texts.flatten ↔ Spaced texts := by
  induction texts using List.reverseRecOn with
  | nil =>
    refine iff_of_true rfl fun a v b heq => ?_
    simp at heq
  | append_singleton texts value ih =>
    rw [spaced_concat, joinTexts_concat, List.flatten_append, List.flatten_singleton, ← ih]
    have hself : gStrstrip ((joinTexts texts).getD []) = (joinTexts texts).getD [] :=
      gStrstrip_eq_self (stripped_joinTexts texts)
    by_cases hv : Blank value
    · -- Nothing is added on either side.
      rw [gStrstrip_append_blank _ (blank_space_append.mpr hv), gStrstrip_append_blank _ hv, hself]
      exact (and_iff_left fun _ h => absurd hv h).symm
    by_cases ht : Blank texts.flatten
    · -- The content starts with this text.
      have hjoin : Blank ((joinTexts texts).getD []) := (blank_joinTexts texts).mpr ht
      have hnil : (joinTexts texts).getD [] = gStrstrip texts.flatten := by
        rw [gStrstrip_eq_nil.mpr ht, ← hself, gStrstrip_eq_nil.mpr hjoin]
      have hspace : Blank ((joinTexts texts).getD [] ++ [' ']) :=
        blank_append.mpr ⟨hjoin, by simp [Blank, gAsciiIsspace]⟩
      have hassoc : (joinTexts texts).getD [] ++ ' ' :: value =
          (joinTexts texts).getD [] ++ [' '] ++ value := by simp
      rw [hassoc, gStrstrip_blank_append hspace, gStrstrip_blank_append ht]
      exact iff_of_true rfl ⟨hnil, fun h => absurd ht h⟩
    · have hjoin : ¬ Blank ((joinTexts texts).getD []) := fun h => ht ((blank_joinTexts texts).mp h)
      have hvs : ¬ Blank (' ' :: value) := fun h => hv (blank_space_append.mp h)
      have hchug : gStrchug ((joinTexts texts).getD []) = (joinTexts texts).getD [] :=
        gStrchug_eq_self (stripped_joinTexts texts).1
      have hchomp : gStrchomp (' ' :: value) = [' '] ++ gStrchomp value :=
        gStrchomp_append [' '] hv
      rw [gStrstrip_append hjoin hvs, gStrstrip_append ht hv, hchug, hchomp, ← List.append_assoc,
        List.append_cancel_right_eq]
      constructor
      · intro heq
        have hstrip : (joinTexts texts).getD [] = gStrstrip texts.flatten := by
          have h := congrArg gStrchomp heq
          rwa [gStrchomp_append_blank _ (by simp [Blank, gAsciiIsspace]),
            gStrchomp_eq_self (stripped_joinTexts texts).2] at h
        rw [hstrip] at heq
        exact ⟨hstrip, fun _ _ => (gStrstrip_space_iff ht).mp heq⟩
      · rintro ⟨hstrip, hspace⟩
        rw [hstrip]
        exact (gStrstrip_space_iff ht).mpr (hspace ht hv)

/-! ## The content of a TAG node -/

/-- A token of inline text that the loop after the TAG takes. -/
structure TextOf (tag token : Token) : Prop where
  depth : token.depth = tag.depth
  type : token.type = .tokenText ∨ token.type = .tokenInterpolation

theorem TextOf.absorbs {tag token : Token} (h : TextOf tag token) :
    absorbs tag.depth token = true := by
  unfold CPug.absorbs
  rcases h.type with ht | ht <;> simp [h.depth, ht, TokenType.isAbsorbed]

/-- A token of inline text adds its value to the content. -/
theorem absorbToken_text {tag token : Token} {node : ASTNode} (h : TextOf tag token)
    (hd : node.depth = tag.depth) :
    (absorbToken node token).textContent =
      some (appendText node.textContent (token.value.getD [])) := by
  have hdepth : token.depth = node.depth := h.depth.trans hd.symm
  unfold absorbToken absorbStep
  rw [if_neg (by simpa using hdepth)]
  rcases h.type with ht | ht <;> simp only [ht]

/-- Any other token leaves the content alone. -/
theorem absorbToken_other {token : Token} (node : ASTNode)
    (h : token.type ≠ .tokenText ∧ token.type ≠ .tokenInterpolation) :
    (absorbToken node token).textContent = node.textContent := by
  obtain ⟨htext, hinter⟩ := h
  unfold absorbToken
  split
  · rename_i node' hstep
    unfold absorbStep at hstep
    split at hstep
    · cases hstep
    split at hstep
    · cases hstep
      rfl
    · cases hstep
      unfold parseClasses
      split <;> rfl
    · split at hstep
      · cases hstep
      · cases hstep
        rfl
    · rename_i htype
      exact absurd htype htext
    · rename_i htype
      exact absurd htype hinter
    · cases hstep
  · rfl

theorem foldl_absorbToken_text {tag : Token} (pieces : List Token)
    (h : ∀ p ∈ pieces, TextOf tag p) {node : ASTNode} (hd : node.depth = tag.depth) :
    (pieces.foldl absorbToken node).textContent =
      (pieces.map fun p => p.value.getD []).foldl (fun text value => some (appendText text value))
        node.textContent := by
  induction pieces generalizing node with
  | nil => rfl
  | cons p pieces ih =>
    have hp := h p List.mem_cons_self
    have hd' : (absorbToken node p).depth = tag.depth :=
      (absorbToken_sameHead node p).depth.trans hd
    rw [List.foldl_cons, List.map_cons, List.foldl_cons,
      ih (fun q hq => h q (List.mem_cons_of_mem _ hq)) hd', absorbToken_text hp hd]

theorem foldl_absorbToken_other (tokens : List Token)
    (h : ∀ t ∈ tokens, t.type ≠ .tokenText ∧ t.type ≠ .tokenInterpolation) (node : ASTNode) :
    (tokens.foldl absorbToken node).textContent = node.textContent := by
  induction tokens generalizing node with
  | nil => rfl
  | cons t tokens ih =>
    rw [List.foldl_cons, ih (fun u hu => h u (List.mem_cons_of_mem _ hu)),
      absorbToken_other node (h t List.mem_cons_self)]

/-- `parse_node` returns a node whose content is the strip of the pieces written one after the
other; no content counts as an empty one. -/
def ConcatenatesText (tag : Token) (pieces rest : List Token) : Prop :=
  ∃ node advanced, parseNodeFrom (tag :: (pieces ++ rest)) = .node node advanced ∧
    node.textContent.getD [] = gStrstrip (written pieces)

/-- The content of the node of a TAG token and the pieces after it. -/
theorem parseNodeFrom_text {tag : Token} {pieces rest : List Token} (ht : tag.type = .tokenTag)
    (hpieces : ∀ p ∈ pieces, TextOf tag p) (hv : Valued rest)
    (hrest : ∀ t ∈ group tag rest, t.type ≠ .tokenText ∧ t.type ≠ .tokenInterpolation) :
    ∃ node advanced, parseNodeFrom (tag :: (pieces ++ rest)) = .node node advanced ∧
      node.textContent = joinTexts (pieces.map fun p => p.value.getD []) := by
  have hs : tag.type.startsNode = true := by
    rw [ht]
    rfl
  have hvalued : Valued (tag :: (pieces ++ rest)) := by
    refine @Valued.append [tag] _ (valued_singleton (by simp [ht])) (Valued.append ?_ hv)
    intro p hp htype
    rcases (hpieces p hp).type with h | h <;> simp [h] at htype
  have hgroup : group tag (pieces ++ rest) = pieces ++ group tag rest := by
    simp only [group, if_pos ht]
    exact List.takeWhile_append_of_pos fun p hp => (hpieces p hp).absorbs
  have hstart : (startNode tag).textContent = none := by
    simp [startNode, parseNodeFrom, ht, absorb, astNodeCreate]
  refine ⟨_, _, parseNodeFrom_of_valued hs hvalued, ?_⟩
  rw [hgroup, List.foldl_append, foldl_absorbToken_other _ hrest,
    foldl_absorbToken_text pieces hpieces (startNode_head hs).1, hstart]
  rfl

/-- The pieces written one after the other have a `#` more for each interpolation. -/
theorem count_written {tag : Token} (pieces : List Token) (h : ∀ p ∈ pieces, TextOf tag p) :
    (written pieces).count '#' = (pieces.map fun p => p.value.getD []).flatten.count '#' +
      (pieces.filter fun p => p.type = .tokenInterpolation).length := by
  induction pieces with
  | nil => rfl
  | cons p pieces ih =>
    have hrec := ih fun q hq => h q (List.mem_cons_of_mem _ hq)
    have hcons : written (p :: pieces) = writtenToken p ++ written pieces := rfl
    rw [hcons, List.count_append, hrec, List.map_cons, List.flatten_cons, List.count_append]
    rcases (h p List.mem_cons_self).type with ht | ht
    · have hw : writtenToken p = p.value.getD [] := by simp [writtenToken, ht]
      rw [hw, List.filter_cons_of_neg (by simp [ht])]
      omega
    · have hw : (writtenToken p).count '#' = (p.value.getD []).count '#' + 1 := by
        simp [writtenToken, ht, List.count_append]
      rw [hw, List.filter_cons_of_pos (by simp [ht]), List.length_cons]
      omega

theorem count_gStrstrip (s : CString) : (gStrstrip s).count '#' = s.count '#' := by
  have hnot : ∀ w : CString, Blank w → w.count '#' = 0 := by
    intro w hw
    rw [List.count_eq_zero]
    intro hmem
    have := hw '#' hmem
    simp [gAsciiIsspace] at this
  have hchug : s.takeWhile gAsciiIsspace ++ gStrchug s = s := List.takeWhile_append_dropWhile
  have hchomp : gStrstrip s ++ (gStrchug s).rtakeWhile gAsciiIsspace = gStrchug s :=
    List.rdropWhile_append_rtakeWhile
  have h1 := congrArg (List.count '#') hchug
  have h2 := congrArg (List.count '#') hchomp
  rw [List.count_append, hnot _ fun c hc => List.mem_takeWhile_imp hc] at h1
  rw [List.count_append, hnot _ fun c hc => List.mem_rtakeWhile_imp hc] at h2
  omega

theorem count_joinTexts (texts : List CString) :
    ((joinTexts texts).getD []).count '#' = texts.flatten.count '#' := by
  induction texts using List.reverseRecOn with
  | nil => rfl
  | append_singleton texts value ih =>
    rw [joinTexts_concat, count_gStrstrip, List.count_append, ih, List.flatten_append,
      List.flatten_singleton, List.count_append, List.count_cons_of_ne (by decide)]

/-- **The content of an element.** The node made of a TAG token and the TEXT and INTERPOLATION
tokens after it has the concatenation of these as its content exactly when there is no
interpolation among them and the texts are already spaced. -/
theorem concatenatesText_iff {tag : Token} {pieces rest : List Token} (ht : tag.type = .tokenTag)
    (hpieces : ∀ p ∈ pieces, TextOf tag p) (hv : Valued rest)
    (hrest : ∀ t ∈ group tag rest, t.type ≠ .tokenText ∧ t.type ≠ .tokenInterpolation) :
    ConcatenatesText tag pieces rest ↔
      (∀ p ∈ pieces, p.type = .tokenText) ∧ Spaced (pieces.map fun p => p.value.getD []) := by
  obtain ⟨node, advanced, hnode, htext⟩ := parseNodeFrom_text ht hpieces hv hrest
  have hiff : ConcatenatesText tag pieces rest ↔
      (joinTexts (pieces.map fun p => p.value.getD [])).getD [] = gStrstrip (written pieces) := by
    constructor
    · rintro ⟨node', advanced', hnode', htext'⟩
      cases hnode.symm.trans hnode'
      rw [← htext, htext']
    · intro h
      exact ⟨node, advanced, hnode, by rw [htext, h]⟩
  have hliteral : (∀ p ∈ pieces, p.type = .tokenText) →
      written pieces = (pieces.map fun p => p.value.getD []).flatten := by
    intro hall
    rw [written, List.flatMap_def]
    congr 1
    apply List.map_congr_left
    intro p hp
    simp [writtenToken, hall p hp]
  rw [hiff]
  constructor
  · intro h
    have hcount := congrArg (List.count '#') h
    rw [count_joinTexts, count_gStrstrip, count_written pieces hpieces] at hcount
    have hnone : (pieces.filter fun p => p.type = .tokenInterpolation) = [] :=
      List.length_eq_zero_iff.mp (by omega)
    have hall : ∀ p ∈ pieces, p.type = .tokenText := by
      intro p hp
      refine (hpieces p hp).type.resolve_right fun hinter => ?_
      have hmem : p ∈ pieces.filter fun p => p.type = .tokenInterpolation :=
        List.mem_filter.mpr ⟨hp, by simpa using hinter⟩
      rw [hnone] at hmem
      cases hmem
    rw [hliteral hall] at h
    exact ⟨hall, (joinTexts_eq_iff _).mp h⟩
  · rintro ⟨hall, hspaced⟩
    rw [hliteral hall]
    exact (joinTexts_eq_iff _).mpr hspaced

/-- The tokens of the line `p a #{b}`, the line end left out. -/
private def greeting (type : TokenType) : List Token :=
  [createToken .tokenText (some "a ".toList) 0 1 2, createToken type (some "b".toList) 0 1 6]

theorem concatenatesText_iff_texts :
    ConcatenatesText (createToken .tokenTag (some "p".toList) 0 1 0) (greeting .tokenText) [] ↔
      (∀ p ∈ greeting .tokenText, p.type = .tokenText) ∧
        Spaced ((greeting .tokenText).map fun p => p.value.getD []) :=
  concatenatesText_iff rfl
    (List.forall_mem_cons.mpr ⟨⟨rfl, Or.inl rfl⟩, List.forall_mem_singleton.mpr ⟨rfl, Or.inl rfl⟩⟩)
    (by simp [Valued]) (by simp [group, createToken])

/-- On the line `p a #{b}` the content is `a b`. -/
theorem concatenatesText_fails :
    ¬ ∀ (tag : Token) (pieces rest : List Token), tag.type = .tokenTag →
      (∀ p ∈ pieces, TextOf tag p) → Valued rest →
      (∀ t ∈ group tag rest, t.type ≠ .tokenText ∧ t.type ≠ .tokenInterpolation) →
        ConcatenatesText tag pieces rest := by
  intro h
  have hpieces : ∀ p ∈ greeting .tokenInterpolation,
      TextOf (createToken .tokenTag (some "p".toList) 0 1 0) p :=
    List.forall_mem_cons.mpr ⟨⟨rfl, Or.inl rfl⟩, List.forall_mem_singleton.mpr ⟨rfl, Or.inr rfl⟩⟩
  obtain ⟨node, advanced, hnode, htext⟩ := h _ (greeting .tokenInterpolation) [] rfl hpieces
    (by simp [Valued]) (by simp [group, createToken])
  have hcode : parseNodeFrom (createToken .tokenTag (some "p".toList) 0 1 0 ::
      (greeting .tokenInterpolation ++ [])) =
        .node { astNodeCreate .tokenTag 0 with
          tag := some "p".toList, textContent := some "a b".toList, isInline := true, line := 1 } 3 := by
    decide
  cases hcode.symm.trans hnode
  have hne : "a b".toList ≠ gStrstrip (written (greeting .tokenInterpolation)) := by decide
  exact hne htext

end CPug
