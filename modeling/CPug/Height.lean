import CPug.Counters
import CPug.Indentation
import CPug.Nodes
import CPug.Outline.Height

/-!
# How deep the tree can be

`render_node`, `ast_node_free` and `ast_node_print_internal` call themselves for the children of a
node, so that the C stack grows with the height of the tree. Every node on a path down is deeper than the
one above it and stands on a later line, and a line of depth `d` has at least `d` blanks and one more
character. `h` nodes below each other therefore take `1 + 2 + ... + h` characters and the `h - 1` newlines
between them (`height_rootNode_le`), no less than what one `p` a line needs, each a tab further in than
the last (`height_staircase`).
-/

namespace CPug

open Outline

/-! ## Lines -/

/-- The blanks of a line count for the indentation once at the most. -/
theorem countIndentLevel_add_le (line : CString) :
    countIndentLevel line + (skipWhitespace line).length ≤ line.length := by
  have hblanks : countIndentLevel line = countIndentLevel (line.takeWhile isBlank) := by
    rw [countIndentLevel_eq, countIndentLevel_eq, List.takeWhile_takeWhile]
    simp
  have hle := countIndentLevel_le (line.takeWhile isBlank)
  have hsplit := length_takeWhile_add isBlank line
  rw [skipWhitespace, hblanks]
  omega

/-- The node stands on a line of the file, behind its indentation. -/
def OnLine (content : CString) (node : ASTNode) : Prop :=
  ∃ i line, node.line = i + 1 ∧ (gStrsplit content '\n')[i]? = some line ∧
    node.depth = countIndentLevel line ∧ node.depth < line.length

theorem onLine_token {content : CString} {token : Token} (h : token ∈ tokenizeFile content)
    (hs : token.type.startsNode = true) {node : ASTNode} (hdepth : node.depth = token.depth)
    (hline : node.line = token.line) : OnLine content node := by
  have hmem : token ∈ fileTokens content := by
    rw [tokenizeFile_eq] at h
    refine (List.mem_append.mp h).resolve_right fun heof => ?_
    rw [List.mem_singleton.mp heof] at hs
    cases hs
  obtain ⟨i, line, hget, htoken⟩ := exists_line_of_mem hmem
  have hof := tokenizeLine_lineToken line (1 + i) token htoken
  have hextent := total_extent_tokenizeLine line (1 + i)
  have hone := hof.one_le_extent
  have hle : token.extent ≤ total Token.extent (tokenizeLine line (1 + i)) := le_total_of_mem htoken
  have hlength := countIndentLevel_add_le line
  refine ⟨i, line, by rw [hline, hof.line, Nat.add_comm], hget, by rw [hdepth, hof.depth], ?_⟩
  rw [hdepth, hof.depth]
  omega

/-! ## Paths down -/

/-- A node and a node below it. -/
def Below (a b : ASTNode) : Prop := a.depth < b.depth ∧ a.line ≤ b.line

instance : Trans Below Below Below where
  trans := fun hab hbc => ⟨Nat.lt_trans hab.1 hbc.1, Nat.le_trans hab.2 hbc.2⟩

/-- Nodes of one line have one depth. -/
theorem OnLine.line_lt {content : CString} {a b : ASTNode} (ha : OnLine content a)
    (hb : OnLine content b) (h : Below a b) : a.line < b.line := by
  obtain ⟨i, line, hline, hget, hdepth, -⟩ := ha
  obtain ⟨j, line', hline', hget', hdepth', -⟩ := hb
  obtain ⟨hlt, hle⟩ := h
  rcases Nat.lt_or_ge i j with hij | hij
  · omega
  · have heq : i = j := by omega
    rw [heq] at hget
    cases hget.symm.trans hget'
    omega

/-- The path takes its lines. -/
theorem length_path_le {content : CString} {path : List ASTNode} (hpath : path.IsChain Below)
    (hlines : ∀ node ∈ path, OnLine content node) :
    path.length * (path.length + 3) ≤ 2 * (content.length + 1) := by
  have hbelow := List.isChain_iff_pairwise.mp hpath
  by_cases hnil : content = []
  · have hempty : path = [] := by
      rw [List.eq_nil_iff_forall_not_mem]
      intro node hnode
      obtain ⟨i, line, -, hget, -⟩ := hlines node hnode
      rw [hnil] at hget
      cases hget
    rw [hempty, List.length_nil, Nat.zero_mul]
    exact Nat.zero_le _
  have hdepths : (path.map ASTNode.depth).Pairwise (· < ·) :=
    List.pairwise_map.mpr (hbelow.imp And.left)
  have hplaces : (path.map fun node => node.line - 1).Pairwise (· < ·) := by
    refine List.pairwise_map.mpr (hbelow.imp_of_mem fun {a b} ha hb hab => ?_)
    have hlt := (hlines a ha).line_lt (hlines b hb) hab
    obtain ⟨i, -, hi, -⟩ := hlines a ha
    omega
  have hinside : ∀ i ∈ path.map fun node => node.line - 1, i < (gStrsplit content '\n').length := by
    intro i hi
    obtain ⟨node, hnode, rfl⟩ := List.mem_map.mp hi
    obtain ⟨j, line, hj, hget, -⟩ := hlines node hnode
    rw [hj, Nat.add_sub_cancel]
    exact (List.getElem?_eq_some_iff.mp hget).1
  have hsum : path.length * path.length ≤ 2 * total ASTNode.depth path + path.length := by
    have := total_of_increasing hdepths 0 fun _ _ => Nat.zero_le _
    rwa [List.length_map, total_map, Nat.mul_zero, Nat.add_zero] at this
  have htaken := total_getElem?_le (fun line : CString => line.length + 1) _ hplaces hinside
  rw [total_map] at htaken
  have hpaid : total (fun node : ASTNode => node.depth + 1 + 1) path ≤
      total (fun node : ASTNode => (((gStrsplit content '\n')[node.line - 1]?).map
        fun line => line.length + 1).getD 0) path := by
    refine total_le_total fun node hnode => ?_
    obtain ⟨i, line, hi, hget, -, hlt⟩ := hlines node hnode
    rw [hi, Nat.add_sub_cancel, hget, Option.map_some, Option.getD_some]
    omega
  have hfile : total (fun line : CString => line.length + 1) (gStrsplit content '\n') =
      content.length + 1 := by
    rw [gStrsplit_of_ne_nil hnil]
    exact total_length_splitOn content '\n'
  rw [total_succ, total_succ] at hpaid
  have hsquare : path.length * (path.length + 3) = path.length * path.length + 3 * path.length := by
    ring
  omega

/-! ## Trees -/

/-- The nodes below the root, each with its children. -/
theorem rising_rootNode {content : CString} {ctx : ParserContext}
    (h : parsePug (tokenizeFile content) = some ctx) :
    ∃ kids, rootNode ctx = .node rootLabel kids .nil ∧ kids.Rising Below ∧
      ∀ node ∈ kids.labels, OnLine content node := by
  obtain ⟨kids, hroot, hnodes⟩ := parsePug_nodes h
  refine ⟨kids, hroot, ?_, fun node hnode => ?_⟩
  · obtain ⟨s, hs, n, rfl⟩ := parsePugLoop_last h
    have hshaped := shaped_of_mem _ s hs
    have hmade := (parsePugStates_lines content s hs).made
    obtain ⟨children, hcell⟩ := hshaped.linked.root
    have hpos := hshaped.linked.length_pos
    obtain ⟨fuel, hfuel⟩ : ∃ fuel, s.memory.length = fuel + 1 := ⟨s.memory.length - 1, by omega⟩
    rw [rootNode, memory_advance, hfuel, extract_cons _ _ _ _ hcell] at hroot
    cases hroot
    refine hshaped.linked.rising_extract ?_ _ _ fun i hi => ?_
    · intro i p hparent hp child parent hchild hparentCell
      have hlt := hshaped.linked.lt_of_parentOf hparent
      have hdeeper := hshaped.deeper i p hparent hp
      rw [cellDepth_eq hchild, cellDepth_eq hparentCell] at hdeeper
      obtain ⟨hi, rfl⟩ := List.getElem?_eq_some_iff.mp hchild
      obtain ⟨hp', rfl⟩ := List.getElem?_eq_some_iff.mp hparentCell
      have hlines := List.pairwise_iff_getElem.mp hmade p i (by simpa using hp') (by simpa using hi) hlt
      simp only [List.getElem_map] at hlines
      exact ⟨hdeeper, hlines⟩
    · have hparent := hshaped.linked.parentOf_of_mem hcell hi
      have := hshaped.linked.lt_of_parentOf hparent
      omega
  · obtain ⟨token, more, hsuffix, hs, rfl⟩ := hnodes node hnode
    have hhead := startNode_head hs
    have hsame := foldl_absorbToken_sameHead (startNode token) (group token more)
    exact onLine_token (hsuffix.subset List.mem_cons_self) hs (hsame.depth.trans hhead.1)
      (hsame.line.trans hhead.2.1)

/-- `n` nodes below each other, the root not counted. -/
theorem height_rootNode_le {content : CString} {ctx : ParserContext}
    (h : parsePug (tokenizeFile content) = some ctx) :
    ∃ n, (rootNode ctx).height = n + 1 ∧ n * (n + 3) ≤ 2 * (content.length + 1) := by
  obtain ⟨kids, hroot, hrising, hlines⟩ := rising_rootNode h
  obtain ⟨path, hlength, hpath, hlabels, -⟩ := hrising.exists_chain
  refine ⟨kids.height, ?_, ?_⟩
  · rw [hroot, Forest.height, Forest.height, Nat.max_eq_left (Nat.zero_le _)]
  · rw [← hlength]
    exact length_path_le hpath fun node hnode => hlines node (hlabels node hnode)

/-! ## The staircase -/

/-- `n` lines, each a tab further in than the last, from `k` tabs on. -/
def staircase (k : Nat) : Nat → List CString
  | 0 => []
  | n + 1 => (List.replicate k '\t' ++ ['p']) :: staircase (k + 1) n

/-- The tokens of these lines. -/
def staircaseTokens (line k : Nat) : Nat → List (Token × List Token)
  | 0 => []
  | n + 1 => (createToken .tokenTag (some ['p']) k line k, []) :: staircaseTokens (line + 1) (k + 1) n

theorem isTagName_p : IsTagName ['p'] := ⟨'p', [], rfl, by decide, by simp⟩

theorem newline_notMem_staircase (k n : Nat) : ∀ line ∈ staircase k n, '\n' ∉ line := by
  induction n generalizing k with
  | zero => simp [staircase]
  | succ n ih =>
    intro line hline
    rcases List.mem_cons.mp hline with rfl | hline
    · simp [List.mem_replicate]
    · exact ih (k + 1) line hline

/-- What the lines take, each with its newline. -/
theorem total_staircase (k n : Nat) :
    2 * total (fun line : CString => line.length + 1) (staircase k n) = n * (n + 3) + 2 * k * n := by
  induction n generalizing k with
  | zero => simp [staircase]
  | succ n ih =>
    rw [staircase, total_cons, Nat.mul_add, ih, List.length_append, List.length_replicate,
      List.length_singleton]
    ring

theorem tokenizeLines_staircase (line k n : Nat) :
    tokenizeLines line (staircase k n) = blockTokens (staircaseTokens line k n) := by
  induction n generalizing line k with
  | zero => rfl
  | succ n ih =>
    have hblank : ∀ c ∈ List.replicate k '\t', isBlank c = true := fun c hc =>
      isBlank_of_mem_replicate rfl hc
    have hline := tokenizeLine_tag hblank isTagName_p (by decide) (StopsAt.nil _) line
    rw [List.append_nil, countIndentLevel_tabs k (StopsAt.cons rfl _), List.length_replicate] at hline
    have hloop := tokenizeLoop_tag k line k k isTagName_p (StopsAt.nil isTagChar)
    rw [List.append_nil, tokenizeLoop_nil] at hloop
    rw [staircase, tokenizeLines, hline, hloop, ih]
    rfl

theorem isBlock_staircase (line k n : Nat) : ∀ block ∈ staircaseTokens line k n, IsBlock block := by
  induction n generalizing line k with
  | zero => simp [staircaseTokens]
  | succ n ih =>
    intro block hblock
    rcases List.mem_cons.mp hblock with rfl | hblock
    · exact ⟨rfl, rfl, fun h => absurd rfl h, by simp, by simp [Valued]⟩
    · exact ih _ _ block hblock

/-- The nodes go deeper and deeper. -/
theorem deeper_staircase (line k n : Nat) :
    (∀ block ∈ staircaseTokens line k n, k ≤ (blockNode block).depth) ∧
      ((staircaseTokens line k n).map blockNode).Pairwise fun a b => a.depth < b.depth := by
  induction n generalizing line k with
  | zero => exact ⟨by simp [staircaseTokens], List.Pairwise.nil⟩
  | succ n ih =>
    obtain ⟨hle, hdeeper⟩ := ih (line + 1) (k + 1)
    have hdepth : (blockNode (createToken .tokenTag (some ['p']) k line k, [])).depth = k := rfl
    refine ⟨fun block hblock => ?_, List.pairwise_cons.mpr ⟨fun node hnode => ?_, hdeeper⟩⟩
    · rcases List.mem_cons.mp hblock with rfl | hblock
      · exact hdepth.ge
      · have := hle block hblock
        omega
    · obtain ⟨block, hblock, rfl⟩ := List.mem_map.mp hnode
      have := hle block hblock
      omega

theorem length_staircaseTokens (line k n : Nat) : (staircaseTokens line k n).length = n := by
  induction n generalizing line k with
  | zero => rfl
  | succ n ih => rw [staircaseTokens, List.length_cons, ih]

theorem height_staircase (n : Nat) :
    ∃ ctx, parsePug (tokenizeFile (['\n'].intercalate (staircase 0 n))) = some ctx ∧
      (rootNode ctx).height = n + 1 := by
  have htokens := fileTokens_intercalate (newline_notMem_staircase 0 n)
  rw [tokenizeLines_staircase] at htokens
  have hentries := parseEntries_blocks (isBlock_staircase 1 0 n)
    (show (fileEof (['\n'].intercalate (staircase 0 n))).type = .tokenEof from rfl)
  obtain ⟨ctx, hctx, -, hroot⟩ := parsePug_of_entries hentries
  refine ⟨ctx, by rw [tokenizeFile_eq, htokens, hctx], ?_⟩
  rw [hroot, Spine.close_run_withNext, Forest.height, Forest.height,
    height_outline (deeper_staircase 1 0 n).2, List.length_map, length_staircaseTokens,
    Nat.max_eq_left (Nat.zero_le _)]

/-- **The height of the tree.** A tree with `n` nodes below each other, the root not counted, takes a file
of at least `n * (n + 3) / 2 - 1` characters, and there is one of so many for every `n`: the recursions
over the tree of a file go as deep as the square root of twice its length, and no deeper. -/
theorem height_le_and_attained :
    (∀ content, ∃ ctx n, parsePug (tokenizeFile content) = some ctx ∧ (rootNode ctx).height = n + 1 ∧
      n * (n + 3) ≤ 2 * (content.length + 1)) ∧
    ∀ n, 0 < n → ∃ content ctx, parsePug (tokenizeFile content) = some ctx ∧
      (rootNode ctx).height = n + 1 ∧ n * (n + 3) = 2 * (content.length + 1) := by
  refine ⟨fun content => ?_, fun n hn => ?_⟩
  · obtain ⟨ctx, hctx⟩ := exists_parsePug content
    obtain ⟨n, hheight, hle⟩ := height_rootNode_le hctx
    exact ⟨ctx, n, hctx, hheight, hle⟩
  · obtain ⟨ctx, hctx, hheight⟩ := height_staircase n
    have hne : staircase 0 n ≠ [] := by
      obtain ⟨m, rfl⟩ : ∃ m, n = m + 1 := ⟨n - 1, by omega⟩
      exact List.cons_ne_nil _ _
    have htotal := total_staircase 0 n
    have hlength := length_intercalate '\n' hne
    refine ⟨_, ctx, hctx, hheight, ?_⟩
    rw [hlength, htotal, Nat.mul_zero, Nat.zero_mul]
    rfl

end CPug
