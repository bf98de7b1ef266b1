import CPug.BlankText
import CPug.Indentation

/-!
# Blanks and carriage returns at the end of a line

What may be appended to a line (`IsTrailer`), what the scanner's helpers do with it, and the trailing
white space of the values of tokens, which the parser strips (`relabels_trimmed`).
-/

namespace CPug

/-- Blanks and at most one carriage return, at the end. -/
def IsTrailer (s : CString) : Prop :=
  ∃ w, (∀ c ∈ w, isBlank c = true) ∧ (s = w ∨ s = w ++ ['\r'])

theorem IsTrailer.space_return : IsTrailer [' ', '\r'] :=
  ⟨[' '], List.all_eq_true.mp rfl, Or.inr rfl⟩

theorem IsTrailer.nil : IsTrailer [] := ⟨[], by simp, Or.inl rfl⟩

theorem IsTrailer.single_return : IsTrailer ['\r'] := ⟨[], by simp, Or.inr rfl⟩

theorem IsTrailer.chars {s : CString} (h : IsTrailer s) : ∀ c ∈ s, c = ' ' ∨ c = '\t' ∨ c = '\r' := by
  obtain ⟨w, hw, rfl | rfl⟩ := h
  · intro c hc
    have hblank := hw c hc
    simp only [isBlank, Bool.or_eq_true, beq_iff_eq] at hblank
    rcases hblank with rfl | rfl <;> simp
  · intro c hc
    rcases List.mem_append.mp hc with hc | hc
    · have hblank := hw c hc
      simp only [isBlank, Bool.or_eq_true, beq_iff_eq] at hblank
      rcases hblank with rfl | rfl <;> simp
    · simp [List.mem_singleton.mp hc]

theorem IsTrailer.blank {s : CString} (h : IsTrailer s) : Blank s := by
  intro c hc
  rcases h.chars c hc with rfl | rfl | rfl <;> rfl

theorem IsTrailer.not_mem {s : CString} (h : IsTrailer s) {c : Char}
    (hc : ¬ (c = ' ' ∨ c = '\t' ∨ c = '\r')) : c ∉ s := fun hmem => hc (h.chars c hmem)

/-- What holds of none of the three characters stops at a trailer. -/
theorem IsTrailer.stopsAt {s : CString} (h : IsTrailer s) {p : Char → Bool} (h1 : p ' ' = false)
    (h2 : p '\t' = false) (h3 : p '\r' = false) : StopsAt p s := by
  intro c hc
  rcases h.chars c (List.mem_of_mem_head? hc) with rfl | rfl | rfl
  · exact h1
  · exact h2
  · exact h3

theorem IsTrailer.tail {c : Char} {s : CString} (h : IsTrailer (c :: s)) : IsTrailer s := by
  obtain ⟨w, hw, hs⟩ := h
  cases w with
  | nil =>
    rcases hs with hs | hs
    · cases hs
    · cases hs
      exact ⟨[], by simp, Or.inl rfl⟩
  | cons d w =>
    refine ⟨w, fun e he => hw e (List.mem_cons_of_mem _ he), ?_⟩
    rcases hs with hs | hs
    · exact Or.inl (List.cons.inj hs).2
    · exact Or.inr (List.cons.inj hs).2

/-- Behind the blanks of a trailer there is at most the carriage return. -/
theorem IsTrailer.skipWhitespace {s : CString} (h : IsTrailer s) :
    skipWhitespace s = [] ∨ CPug.skipWhitespace s = ['\r'] := by
  obtain ⟨w, hw, rfl | rfl⟩ := h
  · exact Or.inl (List.dropWhile_eq_nil_iff.mpr hw)
  · exact Or.inr (skipWhitespace_append hw (StopsAt.cons rfl _))

theorem IsTrailer.append {s w : CString} (hw : ∀ c ∈ w, isBlank c = true) (h : IsTrailer s) :
    IsTrailer (w ++ s) := by
  obtain ⟨v, hv, hs⟩ := h
  refine ⟨w ++ v, ?_, ?_⟩
  · intro c hc
    exact (List.mem_append.mp hc).elim (hw c) (hv c)
  · rcases hs with rfl | rfl
    · exact Or.inl rfl
    · exact Or.inr (List.append_assoc _ _ _).symm

/-- Blanks in front of something end where they ended. -/
theorem skipWhitespace_append_of_ne_nil {line : CString} (h : skipWhitespace line ≠ [])
    (s : CString) : skipWhitespace (line ++ s) = skipWhitespace line ++ s ∧
      blankCount (line ++ s) = blankCount line := by
  have hsplit : line.takeWhile isBlank ++ skipWhitespace line = line :=
    List.takeWhile_append_dropWhile
  have hblank : ∀ c ∈ line.takeWhile isBlank, isBlank c = true :=
    fun c hc => List.mem_takeWhile_imp hc
  have hstop : StopsAt isBlank (skipWhitespace line ++ s) := by
    intro c hc
    rw [List.head?_append_of_ne_nil _ h] at hc
    exact stopsAt_dropWhile line c hc
  have hlong : line ++ s = line.takeWhile isBlank ++ (skipWhitespace line ++ s) := by
    rw [← List.append_assoc, hsplit]
  rw [hlong]
  exact ⟨skipWhitespace_append hblank hstop, blankCount_append hblank hstop⟩

/-- Blanks that start with a space, in front of something. -/
theorem skipWhitespace_space_append {cs rest : CString} {c : Char}
    (h : skipWhitespace (' ' :: cs) = c :: rest) (s : CString) :
    skipWhitespace (cs ++ s) = c :: (rest ++ s) ∧
      blankCount (' ' :: cs ++ s) = blankCount (' ' :: cs) := by
  have hne : skipWhitespace (' ' :: cs) ≠ [] := by
    rw [h]
    simp
  obtain ⟨hskip, hcount⟩ := skipWhitespace_append_of_ne_nil hne s
  rw [h, List.cons_append, skipWhitespace_space, List.cons_append] at hskip
  exact ⟨hskip, hcount⟩

/-! ## Trailing white space of values -/

theorem gStrchomp_split (s : CString) : ∃ b, Blank b ∧ s = gStrchomp s ++ b := by
  induction s using List.reverseRecOn with
  | nil => exact ⟨[], blank_nil, rfl⟩
  | append_singleton s c ih =>
    by_cases hc : gAsciiIsspace c = true
    · obtain ⟨b, hb, hs⟩ := ih
      have hchomp : gStrchomp (s ++ [c]) = gStrchomp s := List.rdropWhile_concat_pos _ _ _ hc
      refine ⟨b ++ [c], blank_append.mpr ⟨hb, by simp [Blank, hc]⟩, ?_⟩
      rw [hchomp, ← List.append_assoc, ← hs]
    · have hchomp : gStrchomp (s ++ [c]) = s ++ [c] := List.rdropWhile_concat_neg _ _ _ hc
      exact ⟨[], blank_nil, by rw [hchomp, List.append_nil]⟩

theorem gStrstrip_gStrchomp (s : CString) : gStrstrip (gStrchomp s) = gStrstrip s := by
  obtain ⟨b, hb, hs⟩ := gStrchomp_split s
  conv_rhs => rw [hs]
  rw [gStrstrip_append_blank _ hb]

/-- A token without the trailing white space of its value. The values of TAG and CLASS tokens have
none, and the parser does not strip them. -/
def Token.trimmed (t : Token) : Token :=
  if t.type = .tokenTag ∨ t.type = .tokenClass then t else { t with value := t.value.map gStrchomp }

/-- `parse_attributes` strips every piece. -/
theorem parseAttributes_append_blank {b : CString} (hb : Blank b) (value : CString) :
    parseAttributes (value ++ b) = parseAttributes value := by
  have hcomma : ',' ∉ b := by
    intro hmem
    have := hb _ hmem
    simp [gAsciiIsspace] at this
  induction h : value.length using Nat.strongRecOn generalizing value with
  | ind n ih =>
    by_cases hmem : ',' ∈ value
    · obtain ⟨piece, rest, rfl, hpiece⟩ := List.eq_append_cons_of_mem hmem
      have hlt : rest.length < n := by
        rw [← h, List.length_append, List.length_cons]
        omega
      rw [List.append_assoc, List.cons_append, parseAttributes_append hpiece,
        parseAttributes_append hpiece, ih _ hlt rest rfl]
    · have hmem' : ',' ∉ value ++ b := by simp [hmem, hcomma]
      have hpair : parseAttributePair (value ++ b) = parseAttributePair value := by
        unfold parseAttributePair
        rw [gStrstrip_append_blank _ hb]
      rw [parseAttributes_of_not_mem hmem', parseAttributes_of_not_mem hmem, hpair]

theorem parseAttributes_gStrchomp (value : CString) :
    parseAttributes (gStrchomp value) = parseAttributes value := by
  obtain ⟨b, hb, hs⟩ := gStrchomp_split value
  conv_rhs => rw [hs]
  rw [parseAttributes_append_blank hb]

theorem appendText_gStrchomp (text : Option CString) (value : CString) :
    appendText text (gStrchomp value) = appendText text value := by
  obtain ⟨b, hb, hs⟩ := gStrchomp_split value
  have hassoc : text.getD [] ++ ' ' :: value = (text.getD [] ++ ' ' :: gStrchomp value) ++ b := by
    rw [List.append_assoc, List.cons_append, ← hs]
  rw [appendText_eq, appendText_eq, hassoc, gStrstrip_append_blank _ hb]

@[simp] theorem trimmed_type (t : Token) : t.trimmed.type = t.type := by
  unfold Token.trimmed
  split <;> rfl

@[simp] theorem trimmed_depth (t : Token) : t.trimmed.depth = t.depth := by
  unfold Token.trimmed
  split <;> rfl

/-- The parser does not see trailing white space. -/
theorem relabels_trimmed : Relabels Token.trimmed id where
  type := trimmed_type
  startNode t hs := by
    obtain ⟨type, value, line, column, depth⟩ := t
    cases type <;> cases value <;>
      simp [Token.trimmed, startNode, parseNodeFrom, TokenType.startsNode, absorb,
        gStrstrip_gStrchomp] at hs ⊢
  absorbStep node t := by
    obtain ⟨type, value, line, column, depth⟩ := t
    unfold CPug.absorbStep
    by_cases hd : depth = node.depth
    · cases type <;> cases value <;>
        simp [Token.trimmed, hd, AbsorbStep.map, gStrstrip_gStrchomp, parseAttributes_gStrchomp,
          appendText_gStrchomp]
    · simp [hd, AbsorbStep.map]

end CPug
