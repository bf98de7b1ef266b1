import CPug.Consumption
import CPug.Positions
import CPug.Scanner

/-!
# Top-level blocks

A source text `b` that starts a block at indentation zero is rendered the same after any text `a`
(`compositional_iff`), except when the parser has just rejected the last token of `a`: then it skips
the first token of `b`. The tokens of `a` leave nothing else behind: the entries of the parser split
(`parseEntries_append`), and the spine machine closes every open node at depth zero.
-/

namespace CPug

open Outline

/-! ## The entries of two blocks -/

section Entries

variable {more : List Token} {eof : Token}

theorem deeperNext_append {depth : Nat} {xs : List Token} (hmore : ∀ t ∈ more.head?, t.depth = 0)
    (hne : more ≠ []) (heof : eof.depth = 0) :
    deeperNext depth (xs ++ more) = deeperNext depth (xs ++ [eof]) := by
  cases xs with
  | cons t xs => rfl
  | nil =>
    obtain ⟨t, ts, rfl⟩ := List.exists_cons_of_ne_nil hne
    simp [deeperNext, hmore t rfl, heof]

/-- Tokens of depth zero that no TAG takes begin afresh after any tokens, one skipped token apart. -/
theorem parseEntries_append (hmore : ∀ t ∈ more.head?, t.depth = 0 ∧ t.type.isAbsorbed = false)
    (hne : more ≠ []) (heof : eof.type = .tokenEof) (heof0 : eof.depth = 0) (hvmore : Valued more)
    {pre : List Token} (hpre : ∀ t ∈ pre, t.type ≠ .tokenEof) (hv : Valued pre) {control : Control}
    (hhead : AtHead control pre) :
    ∃ entries, parseEntries (pre ++ [eof]) = some entries ∧
      (control.after pre ≠ .dropNext →
        parseEntries (pre ++ more) = (parseEntries more).map fun later => entries ++ later) ∧
      (control.after pre = .dropNext → ∀ t ts, more = t :: ts → t.type ≠ .tokenEof →
        parseEntries (pre ++ more) = (parseEntries ts).map fun later => entries ++ later) := by
  induction h : pre.length using Nat.strongRecOn generalizing pre control with
  | ind n ih =>
  subst h
  have hveof : Valued [eof] := valued_singleton (by simp [heof])
  have hmap : ∀ o : Option (List (ASTNode × Bool)), o.map (fun later => [] ++ later) = o := by
    intro o
    cases o <;> rfl
  cases pre with
  | nil =>
    refine ⟨[], parseEntries_eof (parseNodeFrom_eof [] heof) rfl heof, fun _ => ?_, fun hc => ?_⟩
    · rw [List.nil_append, hmap]
    · exact absurd hc hhead.ne_dropNext
  | cons token xs =>
    cases hs : token.type.startsNode with
    | true =>
      have hgroup : group token (xs ++ more) = group token xs :=
        group_append fun t ht => (hmore t ht).2
      have hgroupEof : group token (xs ++ [eof]) = group token xs :=
        group_append (by simp [heof, TokenType.isAbsorbed])
      have hafter : control.after (token :: xs) =
          (Control.start token).after (xs.drop (group token xs).length) := by
        rw [← after_group_append hhead.next, List.cons_append, group_append_drop]
      obtain ⟨entries, hentries, hkeep, hskip⟩ := ih (xs.drop (group token xs).length).length
        (by simp only [List.length_drop, List.length_cons]; omega)
        (fun t ht => hpre t (List.mem_cons_of_mem _ (List.mem_of_mem_drop ht)))
        (fun t ht => hv t (List.mem_cons_of_mem _ (List.mem_of_mem_drop ht)))
        (atHead_after_group token xs hs) rfl
      have hstepEof := parseEntries_accepts_append hs hgroupEof (hv.append hveof)
      have hstep := parseEntries_accepts_append hs hgroup (hv.append hvmore)
      rw [hentries] at hstepEof
      rw [deeperNext_append (fun t ht => (hmore t ht).1) hne heof0] at hstep
      refine ⟨_, hstepEof, fun hc => ?_, fun hc t ts hts ht => ?_⟩
      · rw [hafter] at hc
        rw [List.cons_append, hstep, hkeep hc, Option.map_map]
        rfl
      · rw [hafter] at hc
        rw [List.cons_append, hstep, hskip hc t ts hts ht, Option.map_map]
        rfl
    | false =>
      have htoken : token.type ≠ .tokenEof := hpre token List.mem_cons_self
      have hdrop : control.next token = .dropNext := by rw [hhead.next, start_rejects hs]
      cases xs with
      | nil =>
        refine ⟨[], parseEntries_eof (parseNodeFrom_rejects _ hs htoken) rfl heof, fun hc => ?_,
          fun _ t ts hts ht => ?_⟩
        · rw [after_cons, hdrop] at hc
          exact absurd rfl hc
        · rw [hts, hmap]
          exact parseEntries_rejects hs htoken ht
      | cons next xs =>
        have hnext : next.type ≠ .tokenEof :=
          hpre next (List.mem_cons_of_mem _ List.mem_cons_self)
        obtain ⟨entries, hentries, hkeep, hskip⟩ := ih xs.length
          (by simp only [List.length_cons]; omega)
          (fun t ht => hpre t (List.mem_cons_of_mem _ (List.mem_cons_of_mem _ ht)))
          (fun t ht => hv t (List.mem_cons_of_mem _ (List.mem_cons_of_mem _ ht)))
          (atHead_idle xs) rfl
        have hafter : control.after (token :: next :: xs) = Control.idle.after xs := by
          rw [after_cons, hdrop, after_cons]
          rfl
        have hstep : ∀ ys, parseEntries (token :: next :: xs ++ ys) = parseEntries (xs ++ ys) :=
          fun ys => parseEntries_rejects hs htoken hnext
        rw [hafter, hstep, hstep]
        exact ⟨entries, hentries, hkeep, hskip⟩

end Entries

/-! ## The tokens of two blocks -/

/-- The first line that is not blank. -/
def firstLine (content : CString) : Option CString :=
  (gStrsplit content '\n').find? fun line => !line.all isBlank

/-- The first line that is not blank is unindented and starts with a letter. -/
def StartsBlock (content : CString) : Prop :=
  ∃ c line, firstLine content = some (c :: line) ∧ isalpha c = true

theorem tokenizeLine_blank {line : CString} (h : line.all isBlank = true) (lineNumber : Nat) :
    tokenizeLine line lineNumber = [] := by
  have hskip : skipWhitespace line = [] :=
    List.dropWhile_eq_nil_iff.mpr fun c hc => List.all_eq_true.mp h c hc
  simp [tokenizeLine, hskip]

/-- A line that starts with a letter starts with a token of depth zero that no TAG takes. -/
theorem tokenizeLine_letter {c : Char} (hc : isalpha c = true) (cs : CString) (lineNumber : Nat) :
    ∃ t ts, tokenizeLine (c :: cs) lineNumber = t :: ts ∧ t.depth = 0 ∧
      t.type.startsNode = true ∧ t.type.isAbsorbed = false := by
  have hindent : countIndentLevel (c :: cs) = 0 := by
    rw [countIndentLevel, if_neg (isalpha_ne hc rfl), if_neg (isalpha_ne hc rfl)]
  have hskip : skipWhitespace (c :: cs) = c :: cs := by
    rw [skipWhitespace, List.dropWhile_cons_of_neg (by simp [isBlank_of_isalpha hc])]
  rcases tokenizeLine_cases (c :: cs) lineNumber with ⟨⟨type, value, htype, -, heq⟩, -⟩ | ⟨heq, -⟩
  · have hline : ∀ type ∈ lineTypes, type.startsNode = true ∧ type.isAbsorbed = false := by decide
    obtain ⟨hstarts, habsorbed⟩ := hline type htype
    rw [hindent] at heq
    exact ⟨_, _, heq, rfl, hstarts, habsorbed⟩
  · rw [heq, hskip, hindent, tokenizeLoop, if_neg (isalpha_ne hc rfl), if_neg (isalpha_ne hc rfl),
      if_neg (isalpha_ne hc rfl), if_pos hc]
    exact ⟨_, _, rfl, rfl, rfl, rfl⟩

/-- So does every block, wherever its lines are numbered from. -/
theorem tokenizeLines_block {b : CString} (hb : StartsBlock b) (lineNumber : Nat) :
    ∃ t ts, tokenizeLines lineNumber (gStrsplit b '\n') = t :: ts ∧ t.depth = 0 ∧
      t.type.startsNode = true ∧ t.type.isAbsorbed = false := by
  obtain ⟨c, cs, hfirst, hc⟩ := hb
  rw [firstLine] at hfirst
  generalize gStrsplit b '\n' = lines at hfirst
  induction lines generalizing lineNumber with
  | nil => cases hfirst
  | cons line lines ih =>
    rw [List.find?_cons] at hfirst
    cases hblank : line.all isBlank with
    | true =>
      rw [hblank] at hfirst
      rw [tokenizeLines, tokenizeLine_blank hblank, List.nil_append]
      exact ih _ hfirst
    | false =>
      rw [hblank] at hfirst
      cases hfirst
      obtain ⟨t, ts, htokens, ht⟩ := tokenizeLine_letter hc cs lineNumber
      rw [tokenizeLines, htokens]
      exact ⟨t, _, rfl, ht⟩

/-- The lines of the second text follow those of the first. -/
theorem fileTokens_append (a : CString) {b : CString} (hb : b ≠ []) :
    ∃ lineNumber, fileTokens (a ++ '\n' :: b) =
      fileTokens a ++ tokenizeLines lineNumber (gStrsplit b '\n') := by
  have hsplit : gStrsplit (a ++ '\n' :: b) '\n' = a.splitOn '\n' ++ gStrsplit b '\n' := by
    rw [gStrsplit_of_ne_nil (by simp), gStrsplit_of_ne_nil hb, List.splitOn_append_cons_self]
  refine ⟨1 + (a.splitOn '\n').length, ?_⟩
  rw [fileTokens, hsplit, tokenizeLines_append]
  congr 1
  by_cases ha : a = []
  · subst ha
    rfl
  · rw [fileTokens, gStrsplit_of_ne_nil ha]

/-! ## Rendering two blocks -/

/-- The outputs for `a` and for `b`, in this order, are the output for the two texts on separate
lines, in every mode. -/
def Composes (a b : CString) : Prop :=
  ∀ useTabs tabSize minify, ∃ x y, processPugFile useTabs tabSize minify a = some x ∧
    processPugFile useTabs tabSize minify b = some y ∧
    processPugFile useTabs tabSize minify (a ++ '\n' :: b) = some (x ++ y)

theorem processPugFile_eq (useTabs : Bool) (tabSize : Nat) (minify : Bool) (content : CString) :
    processPugFile useTabs tabSize minify content =
      (builtForest (tokenizeFile content)).map (renderNodes useTabs tabSize minify) := by
  have h := congrArg (Option.map (renderAst useTabs tabSize minify))
    (parsePug_rootNode (tokenizeFile content))
  rw [Option.map_map, Option.map_map] at h
  rw [processPugFile]
  refine h.trans ?_
  congr 1
  funext f
  exact renderAst_root useTabs tabSize minify f

theorem valued_tokenizeLines (lineNumber : Nat) (lines : List CString) :
    Valued (tokenizeLines lineNumber lines) := by
  intro t ht _
  obtain ⟨_, -, _, -, -, hline⟩ := mem_tokenizeLines ht
  exact hline.value_ne_none

/-- The trees of two texts, when the parser is not about to skip a token between them. -/
theorem builtForest_append {a b : CString} (hb : StartsBlock b)
    (ha : Control.idle.after (fileTokens a) ≠ .dropNext) :
    ∃ f g h, builtForest (tokenizeFile a) = some f ∧ builtForest (tokenizeFile b) = some g ∧
      builtForest (tokenizeFile (a ++ '\n' :: b)) = some (f ++ h) ∧
      h.map ASTNode.unplaced = g.map ASTNode.unplaced := by
  have hne : b ≠ [] := by
    rintro rfl
    obtain ⟨c, cs, hfirst, -⟩ := hb
    cases hfirst
  obtain ⟨lineNumber, htokens⟩ := fileTokens_append a hne
  obtain ⟨t, ts, hblock, hdepth, hstarts, habsorbed⟩ := tokenizeLines_block hb lineNumber
  have hfile := tokenFile_content a
  set later := tokenizeLines lineNumber (gStrsplit b '\n') ++ [fileEof (a ++ '\n' :: b)] with hlater
  have heof : (fileEof (a ++ '\n' :: b)).type ≠ .tokenAttribute := by simp [fileEof, createToken]
  have hvlater : Valued later := (valued_tokenizeLines _ _).append (valued_singleton heof)
  have hcons : later = t :: (ts ++ [fileEof (a ++ '\n' :: b)]) := by rw [hlater, hblock]; rfl
  have hhead : ∀ t' ∈ later.head?, t'.depth = 0 ∧ t'.type.isAbsorbed = false := by
    rw [hcons]
    simpa using ⟨hdepth, habsorbed⟩
  obtain ⟨entries, hentries, hkeep, -⟩ := parseEntries_append hhead (by rw [hcons]; simp)
    hfile.eof_type rfl hvlater hfile.ne_eof hfile.valued (atHead_idle _)
  have hlast : EndsInEof later := ⟨_, List.getLast?_concat, rfl⟩
  obtain ⟨entries', hentries'⟩ := parseEntries_isSome hvlater hlast
  -- The first node of the second text has depth zero.
  have hzero : ∀ entry ∈ entries'.head?, entry.1.depth = 0 := by
    rw [hcons] at hentries' hvlater
    rw [parseEntries_accepts hstarts hvlater] at hentries'
    obtain ⟨rest, -, rfl⟩ := Option.map_eq_some_iff.mp hentries'
    intro entry hentry
    cases hentry
    rw [(foldl_absorbToken_sameHead _ _).depth, (startNode_head hstarts).1, hdepth]
  have hunplaced : later.map Token.unplaced = (tokenizeFile b).map Token.unplaced := by
    rw [hlater, tokenizeFile_eq, List.map_append, List.map_append,
      tokenizeLines_unplaced _ lineNumber 1]
    rfl
  have hboth := builtForest_unplaced later
  rw [hunplaced, builtForest_unplaced] at hboth
  have hbuilt : builtForest later = some (Spine.empty.run ASTNode.depth entries').close := by
    rw [builtForest, hentries']
    rfl
  rw [hbuilt] at hboth
  obtain ⟨g, hg, hmap⟩ := Option.map_eq_some_iff.mp hboth
  refine ⟨(Spine.empty.run ASTNode.depth entries).close, g,
    (Spine.empty.run ASTNode.depth entries').close, ?_, hg, ?_, hmap.symm⟩
  · rw [builtForest, tokenizeFile_eq, hentries]
    rfl
  · rw [builtForest, tokenizeFile_eq, htokens, List.append_assoc, ← hlater, hkeep ha, hentries',
      Option.map_some, Option.map_some, Spine.close_run_append _ _ _ hzero]

theorem tokenizeLines_p (lineNumber : Nat) :
    tokenizeLines lineNumber (gStrsplit "p".toList '\n') =
      [createToken .tokenTag (some "p".toList) 0 lineNumber 0] := by
  have hname : IsTagName "p".toList := ⟨'p', [], rfl, rfl, by simp⟩
  have hline := tokenizeLine_tag (w := []) (by simp) hname (by decide) (StopsAt.nil _) lineNumber
  have hindent : countIndentLevel ([] ++ ("p".toList ++ [])) = 0 := by decide +kernel
  have hsplit : gStrsplit "p".toList '\n' = [[] ++ ("p".toList ++ [])] := by decide
  rw [hindent, tokenizeLoop_tag _ _ _ _ hname (StopsAt.nil _), tokenizeLoop_nil] at hline
  rw [hsplit, tokenizeLines, tokenizeLines, hline]
  rfl

/-- When the parser has just rejected the last token of `a`, it skips a tag in the next line. -/
theorem builtForest_append_p {a : CString}
    (ha : Control.idle.after (fileTokens a) = .dropNext) :
    builtForest (tokenizeFile (a ++ '\n' :: "p".toList)) = builtForest (tokenizeFile a) := by
  obtain ⟨lineNumber, htokens⟩ := fileTokens_append a (b := "p".toList) (by decide)
  rw [tokenizeLines_p] at htokens
  have hfile := tokenFile_content a
  set tag := createToken .tokenTag (some "p".toList) 0 lineNumber 0
  set eof := fileEof (a ++ '\n' :: "p".toList)
  have hvalued : Valued [tag, eof] := by
    intro t ht htype hnone
    simp only [List.mem_cons, List.not_mem_nil, or_false] at ht
    rcases ht with rfl | rfl
    · cases hnone
    · cases htype
  have hhead : ∀ t ∈ [tag, eof].head?, t.depth = 0 ∧ t.type.isAbsorbed = false := by
    simp [tag, createToken, TokenType.isAbsorbed]
  obtain ⟨entries, hentries, -, hskip⟩ := parseEntries_append hhead (by simp) hfile.eof_type rfl
    hvalued hfile.ne_eof hfile.valued (atHead_idle _)
  have heof : parseEntries [eof] = some [] := parseEntries_eof (parseNodeFrom_eof [] rfl) rfl rfl
  have hboth := hskip ha tag [eof] rfl (by simp [tag, createToken])
  rw [heof, Option.map_some, List.append_nil] at hboth
  rw [builtForest, builtForest, tokenizeFile_eq, tokenizeFile_eq, htokens, hentries,
    List.append_assoc]
  exact congrArg _ hboth

/-- **Composition.** The output of `a` followed by a top-level block is the output of `a` followed
by that of the block, for every block and in every mode, exactly when the parser has not just
rejected the last token of `a`. -/
theorem compositional_iff (a : CString) :
    (∀ b, StartsBlock b → Composes a b) ↔ Control.idle.after (fileTokens a) ≠ .dropNext := by
  constructor
  · intro h hc
    have hb : StartsBlock "p".toList := ⟨'p', [], by decide, by decide⟩
    obtain ⟨x, y, hx, hy, hxy⟩ := h "p".toList hb false 2 true
    have hp : processPugFile false 2 true "p".toList = some "<p></p>".toList := by decide +kernel
    rw [processPugFile_eq, builtForest_append_p hc, ← processPugFile_eq, hx] at hxy
    rw [hp] at hy
    cases hy
    simp at hxy
  · intro hc b hb useTabs tabSize minify
    obtain ⟨f, g, h, hf, hg, hfh, hmap⟩ := builtForest_append hb hc
    refine ⟨renderNodes useTabs tabSize minify f, renderNodes useTabs tabSize minify g, ?_, ?_, ?_⟩
    · rw [processPugFile_eq, hf]
      rfl
    · rw [processPugFile_eq, hg]
      rfl
    · have hsame : renderNodes useTabs tabSize minify h = renderNodes useTabs tabSize minify g := by
        rw [← renderNodes_unplaced, hmap, renderNodes_unplaced]
      rw [processPugFile_eq, hfh, Option.map_some, renderNodes_append, hsame]

/-- The lines `| x` and `.y` leave a rejected CLASS token, so that the line `p` after them is lost. -/
theorem compositional_fails : ¬ ∀ a b, StartsBlock b → Composes a b := by
  intro h
  have hb : StartsBlock "p".toList := ⟨'p', [], by decide, by decide⟩
  obtain ⟨x, y, hx, hy, hxy⟩ := h "| x\n.y".toList "p".toList hb false 2 true
  have hx' : processPugFile false 2 true "| x\n.y".toList = some "x".toList := by decide +kernel
  have hy' : processPugFile false 2 true "p".toList = some "<p></p>".toList := by decide +kernel
  have hxy' : processPugFile false 2 true "| x\n.y\np".toList = some "x".toList := by
    decide +kernel
  cases hx.symm.trans hx'
  cases hy.symm.trans hy'
  cases hxy.symm.trans hxy'

end CPug
