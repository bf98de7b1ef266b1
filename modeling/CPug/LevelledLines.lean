import CPug.Composition

/-!
# What counts of a file

The output of the pipeline is a function of the levels and the texts of the lines that are not blank
(`processPugFile_levelled`). So blank lines may stand anywhere, and a line may be indented in any way that has
its level.
-/

namespace CPug

open Outline

/-- The lines that are not blank, each as its level and the text behind its indentation. -/
def levelledLines (content : CString) : List (Nat × CString) :=
  ((gStrsplit content '\n').filter fun line => decide (skipWhitespace line ≠ [])).map fun line =>
    (countIndentLevel line, skipWhitespace line)

/-- The tokens of a line of level `p.1` and text `p.2`, without their positions. -/
def levelledTokens (p : Nat × CString) : List Token := (tokenizeLine p.2 0).map (Token.placed p.1)

theorem tokenizeLine_levelled (line : CString) (n : Nat) :
    (tokenizeLine line n).map Token.unplaced =
      levelledTokens (countIndentLevel line, skipWhitespace line) := by
  have hsplit : line.takeWhile isBlank ++ skipWhitespace line = line :=
    List.takeWhile_append_dropWhile
  have hblank : ∀ c ∈ line.takeWhile isBlank, isBlank c = true := fun c hc =>
    List.mem_takeWhile_imp hc
  have hnone : ∀ c ∈ ([] : CString), isBlank c = true := fun _ h => nomatch h
  have hplaced := tokenizeLine_placed hblank hnone (stopsAt_dropWhile line) (countIndentLevel line) n 0
  rw [← map_placed fun t ht => (tokenizeLine_lineToken line n t ht).depth, levelledTokens]
  rw [← skipWhitespace, hsplit, List.nil_append] at hplaced
  exact hplaced

/-- The tokens of a file without their positions, from what counts of it. -/
theorem tokenizeLines_levelled (lines : List CString) (n : Nat) :
    (tokenizeLines n lines).map Token.unplaced =
      ((lines.filter fun line => decide (skipWhitespace line ≠ [])).map fun line =>
        (countIndentLevel line, skipWhitespace line)).flatMap levelledTokens := by
  induction lines generalizing n with
  | nil => rfl
  | cons line lines ih =>
    rw [tokenizeLines, List.map_append, ih (n + 1)]
    by_cases hblank : skipWhitespace line = []
    · rw [tokenizeLine_eq, if_pos hblank, List.map_nil, List.nil_append,
        List.filter_cons_of_neg (by simp [hblank])]
    · rw [tokenizeLine_levelled, List.filter_cons_of_pos (by simp [hblank]), List.map_cons,
        List.flatMap_cons]

theorem tokenizeFile_levelled {a b : CString} (h : levelledLines a = levelledLines b) :
    (tokenizeFile a).map Token.unplaced = (tokenizeFile b).map Token.unplaced := by
  have hlines : ∀ content, (tokenizeFile content).map Token.unplaced =
      (levelledLines content).flatMap levelledTokens ++ [createToken .tokenEof none 0 0 0] := by
    intro content
    rw [tokenizeFile, List.map_append, tokenizeLines_levelled, levelledLines, List.map_singleton,
      unplaced_createToken]
  rw [hlines, hlines, h]

/-- **Blank lines and the way of indenting do not count.** Two files whose lines have the same levels and
texts, blank lines apart, give the same output in every mode. -/
theorem processPugFile_levelled {a b : CString} (h : levelledLines a = levelledLines b) (useTabs : Bool)
    (tabSize : Nat) (minify : Bool) :
    processPugFile useTabs tabSize minify a = processPugFile useTabs tabSize minify b := by
  rw [processPugFile_eq, processPugFile_eq]
  exact render_builtForest_unplaced (tokenizeFile_levelled h)

theorem processPugFile_levelled_list :
    processPugFile false 2 false "ul\n  li a\n    b\n".toList =
      processPugFile false 2 false "\nul\n \t\n\tli a\n  \n \t   b".toList :=
  processPugFile_levelled (by decide +kernel) false 2 false

end CPug
