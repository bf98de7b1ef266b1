import CPug.Composition
import CPug.Emission
import CPug.Outline.OnePass
import CPug.PrettyPrint
import CPug.TextPieces

/-!
# One blank text more

What a TEXT token of white space does to the minified output when it is put somewhere into the
tokens of a file. `Harmless` says where it makes no difference (`emitted_insert`): behind a token of
its depth that a node takes, in front of tokens that start no node any more, or where a node may
begin and the next one is not deeper. Everywhere else it is skipped in place of the next token, ends
the loop after a TAG, or becomes the parent of the next node.

The two runs are compared by the states of the one-pass machine, which writes the minified output
from the entries of the parser (`emitted_empty`).
-/

namespace CPug

open Outline

/-! ## The minified output in one pass -/

section NodeWriter

variable (useTabs : Bool) (tabSize : Nat)

/-- What the minified output has of a node, apart from its children. -/
def htmlWriter : NodeWriter ASTNode Char where
  before node :=
    if isRoot node then []
    else if node.nodeType = .tokenTag then
      renderOpening node ++
        if rendersVoid node then " />".toList else '>' :: escapeHtml (node.textContent.getD [])
    else renderNode useTabs tabSize true node false []
  enters := entered
  after node :=
    if entered node && !isRoot node then "</".toList ++ node.tag.getD "div".toList ++ ['>'] else []

/-- A node that is not a TAG appends the same with children as without. -/
theorem renderNode_of_ne_tag {node : ASTNode} (hroot : isRoot node = false)
    (h : node.nodeType ≠ .tokenTag) (hasChildren : Bool) (children : CString) :
    renderNode useTabs tabSize true node hasChildren children =
      renderNode useTabs tabSize true node false [] := by
  unfold renderNode
  simp only [hroot, Bool.false_eq_true, if_false]
  cases htype : node.nodeType with
  | tokenTag => exact absurd htype h
  | _ => rfl

theorem escapeHtml_getD (text : Option CString) :
    (text.map escapeHtml).getD [] = escapeHtml (text.getD []) := by
  cases text <;> rfl

/-- One node as the writer has it. -/
theorem renderNode_eq_written (node : ASTNode) {hasChildren : Bool} {children : CString}
    (h : hasChildren = false → children = []) :
    renderNode useTabs tabSize true node hasChildren children =
      (htmlWriter useTabs tabSize).before node ++ (htmlWriter useTabs tabSize).inside node children ++
        (htmlWriter useTabs tabSize).after node := by
  unfold htmlWriter NodeWriter.inside entered
  dsimp only
  by_cases hroot : isRoot node = true
  · unfold renderNode
    simp [hroot]
  have hroot : isRoot node = false := by simpa using hroot
  by_cases htype : node.nodeType = .tokenTag
  · rw [renderNode_tag useTabs tabSize htype hroot h, escapeHtml_getD]
    by_cases hvoid : rendersVoid node = true
    · simp [hroot, htype, hvoid]
    · simp [hroot, htype, hvoid]
  · rw [renderNode_of_ne_tag useTabs tabSize hroot htype]
    simp [hroot, htype]

/-- The minified output of a forest is what the writer writes. -/
theorem renderNodes_eq_write (f : Forest ASTNode) :
    renderNodes useTabs tabSize true f = (htmlWriter useTabs tabSize).write f := by
  induction f with
  | nil => rfl
  | node node kids next ihk ihn =>
    have hkids : decide (kids ≠ .nil) = false → renderNodes useTabs tabSize true kids = [] := by
      intro h
      have hnil : kids = .nil := by simpa using h
      rw [hnil, renderNodes]
    rw [renderNodes, renderNode_eq_written useTabs tabSize node hkids, ihk, ihn, NodeWriter.write]

end NodeWriter

/-- What is written from state `O` on for the entries of a token list. -/
def emitted (w : NodeWriter ASTNode Char) (O : OnePass Char) (tokens : List Token) : Option CString :=
  (parseEntries tokens).map fun entries => (O.run w ASTNode.depth entries).finish

/-- The minified output of a token list. -/
theorem emitted_empty (useTabs : Bool) (tabSize : Nat) (tokens : List Token) :
    emitted (htmlWriter useTabs tabSize) .empty tokens =
      (builtForest tokens).map (renderNodes useTabs tabSize true) := by
  unfold builtForest emitted
  rw [Option.map_map]
  congr 1
  funext entries
  rw [Function.comp_apply, renderNodes_eq_write, Spine.finish_run]

/-! ## Blank tokens and nodes that differ in blanks -/

/-- A TEXT token of white space. -/
structure IsBlankText (depth : Nat) (token : Token) : Prop where
  type : token.type = .tokenText
  depth : token.depth = depth
  blank : Blank (token.value.getD [])

/-- Two nodes with the same text, an empty one as good as none. -/
def SameText (a b : ASTNode) : Prop :=
  ∃ content isInline, b = { a with textContent := content, isInline := isInline } ∧
    content.getD [] = a.textContent.getD []

theorem SameText.absorbToken {a b : ASTNode} (h : SameText a b) (token : Token) :
    SameText (absorbToken a token) (absorbToken b token) := by
  obtain ⟨content, isInline, rfl, hcontent⟩ := h
  have happend : ∀ value, appendText content value = appendText a.textContent value := by
    intro value
    rw [appendText_eq, appendText_eq, hcontent]
  unfold CPug.absorbToken absorbStep
  by_cases hd : token.depth ≠ a.depth
  · rw [if_pos hd, if_pos hd]
    exact ⟨content, isInline, rfl, hcontent⟩
  · rw [if_neg hd, if_neg hd]
    cases token.type with
    | tokenClass =>
      refine ⟨content, isInline, ?_, ?_⟩
      · unfold parseClasses
        dsimp only
        split <;> rfl
      · unfold parseClasses
        dsimp only
        split <;> exact hcontent
    | tokenAttribute => cases token.value <;> exact ⟨content, isInline, rfl, hcontent⟩
    | tokenText | tokenInterpolation =>
      exact ⟨some (appendText a.textContent (token.value.getD [])), true, by rw [happend], rfl⟩
    | tokenId => exact ⟨content, isInline, rfl, hcontent⟩
    | _ => exact ⟨content, isInline, rfl, hcontent⟩

theorem SameText.foldl {a b : ASTNode} (h : SameText a b) (tokens : List Token) :
    SameText (tokens.foldl CPug.absorbToken a) (tokens.foldl CPug.absorbToken b) := by
  induction tokens generalizing a b with
  | nil => exact h
  | cons token tokens ih => exact ih (h.absorbToken token)

theorem stripped_absorbToken {node : ASTNode} (h : Stripped (node.textContent.getD []))
    (token : Token) : Stripped ((absorbToken node token).textContent.getD []) := by
  by_cases htext : token.type = .tokenText ∨ token.type = .tokenInterpolation
  · by_cases hd : node.depth = token.depth
    · have hof : TextOf token token := ⟨rfl, htext⟩
      rw [absorbToken_text hof hd, Option.getD_some, appendText_eq]
      exact stripped_gStrstrip _
    · have hsame : absorbToken node token = node := by
        unfold absorbToken absorbStep
        rw [if_pos (Ne.symm hd)]
      rw [hsame]
      exact h
  · rw [absorbToken_other node (not_or.mp htext)]
    exact h

theorem stripped_foldl {node : ASTNode} (h : Stripped (node.textContent.getD []))
    (tokens : List Token) :
    Stripped ((tokens.foldl absorbToken node).textContent.getD []) := by
  induction tokens generalizing node with
  | nil => exact h
  | cons token tokens ih => exact ih (stripped_absorbToken h token)

/-- A taken blank text leaves the text of the node as it is. -/
theorem sameText_blank {node : ASTNode} {blank : Token} (hblank : IsBlankText node.depth blank)
    (h : Stripped (node.textContent.getD [])) : SameText node (absorbToken node blank) := by
  refine ⟨some (appendText node.textContent (blank.value.getD [])), true, ?_, ?_⟩
  · unfold absorbToken absorbStep
    rw [if_neg (by simp [hblank.depth])]
    simp only [hblank.type]
  · rw [Option.getD_some, appendText_eq,
      gStrstrip_append_blank _ (blank_space_append.mpr hblank.blank), gStrstrip_eq_self h]

section Written

variable {useTabs : Bool} {tabSize : Nat}

/-- The same is written of two TAG nodes with the same text. -/
theorem SameText.insert {a b : ASTNode} (h : SameText a b) (htype : a.nodeType = .tokenTag)
    (O : OnePass Char) (opened : Bool) :
    O.insert (htmlWriter useTabs tabSize) ASTNode.depth (b, opened) =
      O.insert (htmlWriter useTabs tabSize) ASTNode.depth (a, opened) := by
  obtain ⟨content, isInline, rfl, hcontent⟩ := h
  apply OnePass.insert_same
  · rfl
  · unfold htmlWriter
    dsimp only
    rw [hcontent, if_pos htype, if_pos htype]
    rfl
  · rfl
  · rfl

/-- A node other than a TAG is written at once. -/
theorem insert_ne_tag {token : Token} (hs : token.type.startsNode = true)
    (ht : token.type ≠ .tokenTag) (O : OnePass Char) (opened : Bool) :
    O.insert (htmlWriter useTabs tabSize) ASTNode.depth (startNode token, opened) =
      if opened then
        ((O.pop token.depth).emit ((htmlWriter useTabs tabSize).before (startNode token))).push
          ⟨token.depth, false, []⟩
      else (O.pop token.depth).emit ((htmlWriter useTabs tabSize).before (startNode token)) := by
  obtain ⟨-, htype, hroot, -⟩ := startNode_of_ne_tag hs ht
  have henters : entered (startNode token) = false := by simp [entered, hroot, htype]
  have hafter : (htmlWriter useTabs tabSize).after (startNode token) = [] := by
    simp [htmlWriter, henters]
  have hopen : OnePass.openNode (htmlWriter useTabs tabSize) ASTNode.depth (startNode token) =
      ⟨token.depth, false, []⟩ := by
    unfold OnePass.openNode
    rw [hafter, (startNode_head hs).1]
    exact congrArg (fun enters => (⟨token.depth, enters, []⟩ : OpenNode Char)) henters
  unfold OnePass.insert
  dsimp only
  rw [hopen, hafter, OnePass.emit_nil, (startNode_head hs).1]

/-- Nothing is written of a blank text. -/
theorem insert_blank {depth : Nat} {blank : Token} (hblank : IsBlankText depth blank)
    (O : OnePass Char) (opened : Bool) :
    O.insert (htmlWriter useTabs tabSize) ASTNode.depth (startNode blank, opened) =
      if opened then (O.pop depth).push ⟨depth, false, []⟩ else O.pop depth := by
  obtain ⟨type, value, line, column, d⟩ := blank
  obtain ⟨rfl, rfl, hvalue⟩ := hblank
  have hbefore : (htmlWriter useTabs tabSize).before
      (startNode ⟨.tokenText, value, line, column, d⟩) = [] := by
    have hstrip : gStrstrip (value.getD []) = [] := gStrstrip_eq_nil.mpr hvalue
    simp [htmlWriter, startNode, parseNodeFrom, isRoot, astNodeCreate, renderNode, unlessMinified,
      hstrip, escapeHtml]
  rw [insert_ne_tag rfl (by simp), hbefore, OnePass.emit_nil]

end Written

/-! ## Where a blank text is harmless -/

/-- The last token has the depth and is taken by a node. -/
def Joins (tokens : List Token) (depth : Nat) : Prop :=
  ∃ before prev, tokens = before ++ [prev] ∧ prev.depth = depth ∧
    Control.idle.after before ≠ .dropNext ∧ Control.idle.after tokens ≠ .dropNext

/-- The first node of these tokens has depth `d`, not more than `depth`; with `d` zero, there may be
no node in them. -/
inductive Resumes (depth : Nat) : Nat → List Token → Prop
  | node {next : Token} {more : List Token} (hs : next.type.startsNode = true)
      (hle : next.depth ≤ depth) : Resumes depth next.depth (next :: more)
  | noNode {later : List Token} (h : ∀ t ∈ later, t.type.startsNode = false) : Resumes depth 0 later
  | rejected {d : Nat} {token skipped : Token} {more : List Token}
      (hs : token.type.startsNode = false) (h : Resumes depth d more) :
      Resumes depth d (token :: skipped :: more)

/-- No TAG takes the first of the later tokens. -/
def NotTaken (tokens later : List Token) : Prop :=
  ∀ d, Control.idle.after tokens = .inside d → StopsAt (absorbs d) later

/-- A blank text of this depth behind `tokens` and in front of `later` makes no difference. -/
inductive Harmless (tokens : List Token) (depth : Nat) (later : List Token) : Prop
  | joins (h : Joins tokens depth)
  | noNode (hab : NotTaken tokens later) (h : ∀ t ∈ later, t.type.startsNode = false)
  | fresh (hab : NotTaken tokens later) (hc : Control.idle.after tokens ≠ .dropNext) {d : Nat}
      (h : Resumes depth d later) (hd : ∀ next ∈ later.head?, d ≤ next.depth)

/-- Tokens in front of which the scan starts afresh do not matter. -/
theorem Harmless.drop {before tokens later : List Token} {depth : Nat} (hne : tokens ≠ [])
    (hfresh : ∀ some' rest, tokens = some' ++ rest → some' ≠ [] →
      Control.idle.after (before ++ some') = Control.idle.after some')
    (h : Harmless (before ++ tokens) depth later) : Harmless tokens depth later := by
  have hall := hfresh tokens [] (List.append_nil _).symm hne
  cases h with
  | joins hjoins =>
    obtain ⟨front, prev, hsplit, hdepth, hfront, hlast⟩ := hjoins
    obtain ⟨inner, last, rfl⟩ : ∃ inner last, tokens = inner ++ [last] :=
      ⟨_, _, (List.dropLast_append_getLast hne).symm⟩
    rw [← List.append_assoc] at hsplit
    obtain ⟨rfl, hlastEq⟩ := List.append_inj' hsplit rfl
    cases hlastEq
    rw [hall] at hlast
    refine .joins ⟨inner, prev, rfl, hdepth, ?_, hlast⟩
    by_cases hinner : inner = []
    · rw [hinner]
      simp
    · rwa [hfresh inner [prev] rfl hinner] at hfront
  | noNode hab h =>
    unfold NotTaken at hab
    rw [hall] at hab
    exact .noNode hab h
  | fresh hab hc h hd =>
    unfold NotTaken at hab
    rw [hall] at hab hc
    exact .fresh hab hc h hd

/-! ## The two runs -/

section Runs

variable {w : NodeWriter ASTNode Char} {O O' : OnePass Char} {token next : Token} {more : List Token}

theorem emitted_accepts (hs : token.type.startsNode = true) (hv : Valued (token :: more)) :
    emitted w O (token :: more) =
      emitted w (O.insert w ASTNode.depth
        ((group token more).foldl absorbToken (startNode token),
          deeperNext token.depth (more.drop (group token more).length)))
        (more.drop (group token more).length) := by
  unfold emitted
  rw [parseEntries_accepts hs hv, Option.map_map]
  rfl

theorem emitted_rejects (hs : token.type.startsNode = false) (ht : token.type ≠ .tokenEof)
    (hnext : next.type ≠ .tokenEof) :
    emitted w O (token :: next :: more) = emitted w O more := by
  unfold emitted
  rw [parseEntries_rejects hs ht hnext]

theorem emitted_eof (ht : token.type = .tokenEof) :
    emitted w O (token :: more) = some O.finish := by
  unfold emitted
  rw [parseEntries_eof (parseNodeFrom_eof more ht) rfl ht]
  rfl

/-- A rejected token in front of EOF. -/
theorem emitted_rejects_last (hs : token.type.startsNode = false) (ht : token.type ≠ .tokenEof)
    (hnext : next.type = .tokenEof) : emitted w O (token :: next :: more) = some O.finish := by
  unfold emitted
  rw [parseEntries_eof (parseNodeFrom_rejects _ hs ht) rfl hnext]
  rfl

/-- Tokens none of which starts a node. -/
theorem emitted_noNode {later : List Token} {eof : Token} (heof : eof.type = .tokenEof)
    (h : ∀ t ∈ later, t.type.startsNode = false) :
    emitted w O (later ++ [eof]) = some O.finish := by
  induction hn : later.length using Nat.strongRecOn generalizing later with
  | ind n ih =>
    subst hn
    cases later with
    | nil => exact emitted_eof heof
    | cons token later =>
      have hs := h token List.mem_cons_self
      by_cases ht : token.type = .tokenEof
      · exact emitted_eof ht
      cases later with
      | nil => exact emitted_rejects_last hs ht heof
      | cons next later =>
        by_cases hnext : next.type = .tokenEof
        · exact emitted_rejects_last hs ht hnext
        · rw [List.cons_append, List.cons_append, emitted_rejects hs ht hnext]
          apply ih later.length (by simp only [List.length_cons]; omega) _ rfl
          intro t hmem
          exact h t (List.mem_cons_of_mem _ (List.mem_cons_of_mem _ hmem))

theorem Resumes.le {depth d : Nat} {later : List Token} (h : Resumes depth d later) : d ≤ depth := by
  induction h with
  | node _ hle => exact hle
  | noNode => exact Nat.zero_le depth
  | rejected _ _ ih => exact ih

variable {depth d : Nat} {blank eof : Token} {later : List Token} {useTabs : Bool} {tabSize : Nat}

/-- The rest of the output sees the state only up to what the next node closes. -/
theorem emitted_congr (hlater : Resumes depth d later) (heof : eof.type = .tokenEof)
    (hv : Valued (later ++ [eof])) (h : O.pop d = O'.pop d) :
    emitted w O (later ++ [eof]) = emitted w O' (later ++ [eof]) := by
  induction hlater with
  | @node next more hs _ =>
    have hdepth : ((group next (more ++ [eof])).foldl absorbToken (startNode next)).depth ≤
        next.depth := by
      rw [(foldl_absorbToken_sameHead _ _).depth, (startNode_head hs).1]
    rw [List.cons_append] at hv ⊢
    rw [emitted_accepts hs hv, emitted_accepts hs hv, OnePass.insert_congr hdepth h]
  | noNode hlater => rw [emitted_noNode heof hlater, emitted_noNode heof hlater, OnePass.finish_congr h]
  | @rejected d token skipped more hs _ ih =>
    by_cases ht : token.type = .tokenEof
    · rw [List.cons_append, emitted_eof ht, emitted_eof ht, OnePass.finish_congr h]
    rw [List.cons_append, List.cons_append]
    by_cases hskipped : skipped.type = .tokenEof
    · rw [emitted_rejects_last hs ht hskipped, emitted_rejects_last hs ht hskipped,
        OnePass.finish_congr h]
    · rw [emitted_rejects hs ht hskipped, emitted_rejects hs ht hskipped]
      exact ih (fun t hmem => hv t (List.mem_cons_of_mem _ (List.mem_cons_of_mem _ hmem))) h

/-- A blank text of its own, where no deeper node comes next. -/
theorem emitted_blank (hblank : IsBlankText depth blank) (hlater : Resumes depth d later)
    (heof : eof.type = .tokenEof) (hv : Valued (later ++ [eof])) (h : O.pop d = O'.pop d) :
    emitted (htmlWriter useTabs tabSize) O (blank :: (later ++ [eof])) =
      emitted (htmlWriter useTabs tabSize) O' (later ++ [eof]) := by
  have hs : blank.type.startsNode = true := by
    rw [hblank.type]
    rfl
  have hgroup : group blank (later ++ [eof]) = [] := if_neg (by simp [hblank.type])
  have hvalued : Valued (blank :: (later ++ [eof])) :=
    @Valued.append [blank] _ (valued_singleton (by simp [hblank.type])) hv
  have hclosed : (O.pop depth).pop d = O'.pop d := by
    rw [OnePass.pop_pop hlater.le, h]
  rw [emitted_accepts hs hvalued, hgroup, List.foldl_nil, List.length_nil, List.drop_zero,
    insert_blank hblank]
  apply emitted_congr hlater heof hv
  split
  · rw [OnePass.pop_push hlater.le, OnePass.emit_nil, hclosed]
  · exact hclosed

theorem group_append_of_lt (h : (group token more).length < more.length) (later : List Token) :
    group token (more ++ later) = group token more := by
  unfold group at h ⊢
  split at h
  · rename_i ht
    rw [if_pos ht, if_pos ht, List.takeWhile_append, if_neg (by omega)]
  · rename_i ht
    rw [if_neg ht, if_neg ht]

theorem group_append_of_eq (ht : token.type = .tokenTag) (h : group token more = more)
    (later : List Token) :
    group token (more ++ later) = more ++ later.takeWhile (absorbs token.depth) := by
  unfold group at h ⊢
  rw [if_pos ht] at h ⊢
  rw [List.takeWhile_append, if_pos (by rw [h])]

theorem valued_insert {before later : List Token} (hblank : IsBlankText depth blank)
    (hv : Valued (before ++ later)) : Valued (before ++ blank :: later) := by
  have hone : Valued [blank] := valued_singleton (by simp [hblank.type])
  have hbefore : Valued before := fun t ht => hv t (List.mem_append_left _ ht)
  have hlater : Valued later := fun t ht => hv t (List.mem_append_right _ ht)
  exact hbefore.append (hone.append hlater)

/-- The node takes the blank text. -/
theorem emitted_absorbed (ht : token.type = .tokenTag) (hall : group token more = more)
    (hblank : IsBlankText token.depth blank) {later : List Token}
    (hv : Valued (token :: (more ++ later))) :
    emitted (htmlWriter useTabs tabSize) O (token :: (more ++ blank :: later)) =
      emitted (htmlWriter useTabs tabSize) O (token :: (more ++ later)) := by
  have hs : token.type.startsNode = true := by
    rw [ht]
    rfl
  have hab : absorbs token.depth blank = true := by
    simp [absorbs, hblank.depth, hblank.type, TokenType.isAbsorbed]
  have hvalued : Valued (token :: more ++ blank :: later) := valued_insert hblank hv
  rw [List.cons_append] at hvalued
  have hstrip : Stripped ((startNode token).textContent.getD []) := by
    have hnone : (startNode token).textContent = none := by
      simp [startNode, parseNodeFrom, ht, absorb, astNodeCreate]
    rw [hnone]
    exact stripped_of_forall (by simp)
  have hdepth : (more.foldl absorbToken (startNode token)).depth = token.depth := by
    rw [(foldl_absorbToken_sameHead _ _).depth, (startNode_head hs).1]
  have htype : ∀ taken : List Token,
      (taken.foldl absorbToken (startNode token)).nodeType = .tokenTag := by
    intro taken
    rw [(foldl_absorbToken_sameHead _ _).nodeType]
    simp [startNode, parseNodeFrom, ht, absorb, astNodeCreate]
  rw [emitted_accepts hs hvalued, emitted_accepts hs hv, group_append_of_eq ht hall,
    group_append_of_eq ht hall, List.takeWhile_cons_of_pos hab]
  generalize later.takeWhile (absorbs token.depth) = taken
  have hsame : SameText ((more ++ taken).foldl absorbToken (startNode token))
      ((more ++ blank :: taken).foldl absorbToken (startNode token)) := by
    rw [List.foldl_append, List.foldl_append, List.foldl_cons]
    apply SameText.foldl
    apply sameText_blank
    · rw [hdepth]
      exact hblank
    · exact stripped_foldl hstrip more
  have hdrop : (more ++ blank :: later).drop (more ++ blank :: taken).length =
      (more ++ later).drop (more ++ taken).length := by
    simp [List.drop_append]
  rw [hdrop, hsame.insert (htype _)]

/-- Blank text behind a node that takes neither it nor the token after it. -/
theorem emitted_fresh (hs : token.type.startsNode = true) (hblank : IsBlankText depth blank)
    (hlater : Resumes depth d later) (hd : ∀ next ∈ later.head?, d ≤ next.depth)
    (hgroup : group token (more ++ blank :: (later ++ [eof])) = more)
    (hgroup' : group token (more ++ (later ++ [eof])) = more) (heof : eof.type = .tokenEof)
    (hv : Valued (token :: (more ++ (later ++ [eof])))) :
    emitted (htmlWriter useTabs tabSize) O (token :: (more ++ blank :: (later ++ [eof]))) =
      emitted (htmlWriter useTabs tabSize) O (token :: (more ++ (later ++ [eof]))) := by
  have hvlater : Valued (later ++ [eof]) := fun t ht =>
    hv t (List.mem_cons_of_mem _ (List.mem_append_right _ ht))
  have hvalued : Valued (token :: more ++ blank :: (later ++ [eof])) := valued_insert hblank hv
  rw [List.cons_append] at hvalued
  have hdepth : (more.foldl absorbToken (startNode token)).depth = token.depth := by
    rw [(foldl_absorbToken_sameHead _ _).depth, (startNode_head hs).1]
  rw [emitted_accepts hs hvalued, emitted_accepts hs hv, hgroup, hgroup', List.drop_left,
    List.drop_left]
  apply emitted_blank hblank hlater heof hvlater
  -- The node is left open in both runs, or what comes next closes it.
  by_cases hle : d ≤ token.depth
  · have hclosed := hle.trans hdepth.ge
    exact (OnePass.pop_insert _ _ _ hclosed).trans (OnePass.pop_insert _ _ _ hclosed).symm
  · have hflag : deeperNext token.depth (blank :: (later ++ [eof])) = true := by
      have hlt := hlater.le
      show decide (token.depth < blank.depth) = true
      rw [hblank.depth]
      exact decide_eq_true (by omega)
    have hflag' : deeperNext token.depth (later ++ [eof]) = true := by
      cases later with
      | nil =>
        cases hlater
        exact absurd (Nat.zero_le _) hle
      | cons next later =>
        have hnext := hd next rfl
        exact decide_eq_true (show token.depth < next.depth by omega)
    rw [hflag, hflag']

/-- Blank text behind a token of its depth that is a node of its own. -/
theorem emitted_joined (hs : token.type.startsNode = true) (ht : token.type ≠ .tokenTag)
    (hblank : IsBlankText token.depth blank) {later : List Token} (hv : Valued later) :
    emitted (htmlWriter useTabs tabSize) O (token :: blank :: later) =
      emitted (htmlWriter useTabs tabSize) O (token :: later) := by
  have hsblank : blank.type.startsNode = true := by
    rw [hblank.type]
    rfl
  have hattr : token.type ≠ .tokenAttribute := by
    intro h
    rw [h] at hs
    cases hs
  have hvblank : Valued (blank :: later) :=
    @Valued.append [blank] _ (valued_singleton (by simp [hblank.type])) hv
  have hvtoken : ∀ {rest : List Token}, Valued rest → Valued (token :: rest) := fun hrest =>
    @Valued.append [token] _ (valued_singleton hattr) hrest
  have hgroup : ∀ rest, group token rest = [] := fun rest => if_neg ht
  have hgroup' : group blank later = [] := if_neg (by simp [hblank.type])
  have hflag : deeperNext token.depth (blank :: later) = false := by
    show decide (token.depth < blank.depth) = false
    rw [hblank.depth]
    exact decide_eq_false (Nat.lt_irrefl _)
  -- What the first of the two nodes leaves open is already closed.
  have hfirst : O.insert (htmlWriter useTabs tabSize) ASTNode.depth (startNode token, false) =
      (O.pop token.depth).emit ((htmlWriter useTabs tabSize).before (startNode token)) := by
    rw [insert_ne_tag hs ht, if_neg (by simp)]
  have hpop : ∀ text : CString, ((O.pop token.depth).emit text).pop token.depth =
      (O.pop token.depth).emit text := fun text =>
    OnePass.pop_of_lt (OnePass.head_pop_lt O token.depth)
  rw [emitted_accepts hs (hvtoken hvblank), emitted_accepts hs (hvtoken hv), hgroup, hgroup,
    List.length_nil, List.drop_zero, List.drop_zero, hflag, List.foldl_nil, hfirst,
    emitted_accepts hsblank hvblank, hgroup', List.length_nil, List.drop_zero, List.foldl_nil,
    hblank.depth, insert_blank hblank, hpop, insert_ne_tag hs ht]

end Runs

/-! ## The insertion -/

section Insertion

variable {token skipped : Token} {more tokens later : List Token} {depth : Nat} {blank eof : Token}
  {useTabs : Bool} {tabSize : Nat}

/-- Behind a node that ends within the tokens. -/
theorem Harmless.after_group (hs : token.type.startsNode = true)
    (hlt : (group token more).length < more.length) (h : Harmless (token :: more) depth later) :
    Harmless (more.drop (group token more).length) depth later := by
  have hhead := atHead_after_group token more hs
  have hnil : more.drop (group token more).length ≠ [] := by
    rw [Ne, List.drop_eq_nil_iff]
    omega
  have hsplit : token :: more =
      token :: group token more ++ more.drop (group token more).length := by
    rw [List.cons_append, group_append_drop]
  rw [hsplit] at h
  apply h.drop hnil
  intro some' rest heq hne
  obtain ⟨first, inner, rfl⟩ := List.exists_cons_of_ne_nil hne
  rw [heq] at hhead
  rw [after_group_append rfl, after_cons, after_cons, hhead.next]
  rfl

/-- Behind a rejected token and the token that is skipped after it. -/
theorem Harmless.after_rejected (hs : token.type.startsNode = false)
    (h : Harmless (token :: skipped :: more) depth later) : Harmless more depth later := by
  have hreject : Control.idle.after [token] = .dropNext := start_rejects hs
  have hidle : ∀ rest, Control.idle.after (token :: skipped :: rest) = Control.idle.after rest := by
    intro rest
    show ((Control.idle.after [token]).next skipped).after rest = _
    rw [hreject]
    rfl
  by_cases hnil : more = []
  · subst hnil
    cases h with
    | joins h =>
      obtain ⟨before, prev, hsplit, -, hbefore, -⟩ := h
      have hlast : [token] ++ [skipped] = before ++ [prev] := hsplit
      obtain ⟨rfl, -⟩ := List.append_inj' hlast rfl
      exact absurd hreject hbefore
    | noNode hab h =>
      unfold NotTaken at hab
      rw [hidle] at hab
      exact .noNode hab h
    | fresh hab hc h hd =>
      unfold NotTaken at hab
      rw [hidle] at hab hc
      exact .fresh hab hc h hd
  · have hdrop : Harmless ([token, skipped] ++ more) depth later := h
    exact hdrop.drop hnil fun some' _ _ _ => hidle some'

/-- A blank text behind a rejected token is skipped in place of the token after it, which makes no
difference only where no node comes any more. -/
theorem Harmless.last_rejected (hs : token.type.startsNode = false)
    (h : Harmless [token] depth later) : ∀ t ∈ later, t.type.startsNode = false := by
  have hreject : Control.idle.after [token] = .dropNext := start_rejects hs
  cases h with
  | joins h =>
    obtain ⟨_, _, -, -, -, hlast⟩ := h
    exact absurd hreject hlast
  | noNode _ h => exact h
  | fresh _ hc => exact absurd hreject hc

/-- A blank text that does not join a token is a node of its own, or no node comes any more. -/
theorem Harmless.resumes (h : Harmless tokens depth later) (hjoins : ¬ Joins tokens depth) :
    NotTaken tokens later ∧
      ∃ d, Resumes depth d later ∧ ∀ next ∈ later.head?, d ≤ next.depth := by
  cases h with
  | joins h => exact absurd h hjoins
  | noNode hab h => exact ⟨hab, 0, .noNode h, fun next _ => Nat.zero_le _⟩
  | fresh hab _ h hd => exact ⟨hab, _, h, hd⟩

/-- A node that ends within the tokens is the same whatever comes behind them. -/
theorem emitted_within {w : NodeWriter ASTNode Char} {O : OnePass Char}
    (hs : token.type.startsNode = true) (hlt : (group token more).length < more.length)
    (hv : Valued (token :: (more ++ later))) :
    emitted w O (token :: (more ++ later)) =
      emitted w (O.insert w ASTNode.depth
        ((group token more).foldl absorbToken (startNode token),
          deeperNext token.depth (more.drop (group token more).length)))
        (more.drop (group token more).length ++ later) := by
  obtain ⟨first, inner, hfirst⟩ : ∃ first inner,
      more.drop (group token more).length = first :: inner := by
    apply List.exists_cons_of_ne_nil
    rw [Ne, List.drop_eq_nil_iff]
    omega
  unfold emitted
  rw [parseEntries_accepts_append hs (group_append_of_lt hlt later) hv, Option.map_map, hfirst]
  rfl

/-- Behind a node that takes all of the tokens. -/
theorem emitted_behind (hs : token.type.startsNode = true) (hall : group token more = more)
    (hv : Valued (token :: (more ++ (later ++ [eof])))) (heof : eof.type = .tokenEof)
    (hblank : IsBlankText depth blank)
    (h : Harmless (token :: more) depth later) (O : OnePass Char) :
    emitted (htmlWriter useTabs tabSize) O (token :: (more ++ blank :: (later ++ [eof]))) =
      emitted (htmlWriter useTabs tabSize) O (token :: (more ++ (later ++ [eof]))) := by
  have hafter : Control.idle.after (token :: more) = Control.start token := by
    have hnil := @after_group_append .idle token rfl more []
    rwa [List.append_nil, hall] at hnil
  by_cases ht : token.type = .tokenTag
  · by_cases hdepth : depth = token.depth
    · subst hdepth
      exact emitted_absorbed ht hall hblank hv
    · -- Every token so far has the depth of the TAG.
      have hjoins : ¬ Joins (token :: more) depth := by
        rintro ⟨before, prev, hsplit, hprev, -, -⟩
        have hmem : prev ∈ token :: more := by
          rw [hsplit]
          simp
        rcases List.mem_cons.mp hmem with rfl | hmem
        · exact hdepth hprev.symm
        · rw [← hall] at hmem
          have htaken := mem_group_isAbsorbed prev hmem
          simp only [absorbs, Bool.and_eq_true, decide_eq_true_eq] at htaken
          exact hdepth (hprev.symm.trans htaken.1)
      obtain ⟨hab, d, hresumes, hd⟩ := h.resumes hjoins
      have hstop : StopsAt (absorbs token.depth) (later ++ [eof]) := by
        cases later with
        | nil => exact .cons (by simp [absorbs, heof, TokenType.isAbsorbed]) _
        | cons next later => exact hab _ (hafter.trans (if_pos ht))
      have hnext : (later ++ [eof]).takeWhile (absorbs token.depth) = [] :=
        @takeWhile_append_stop _ _ [] _ (by simp) hstop
      have hblankAb : absorbs token.depth blank = false := by
        simp [absorbs, hblank.depth, hdepth]
      apply emitted_fresh hs hblank hresumes hd _ _ heof hv
      · rw [group_append_of_eq ht hall, List.takeWhile_cons_of_neg (by simp [hblankAb]),
          List.append_nil]
      · rw [group_append_of_eq ht hall, hnext, List.append_nil]
  · have hgroup : ∀ rest, group token rest = [] := fun rest => if_neg ht
    rw [hgroup] at hall
    subst hall
    by_cases hjoins : Joins [token] depth
    · obtain ⟨before, prev, hsplit, rfl, -, -⟩ := hjoins
      have hlast : [] ++ [token] = before ++ [prev] := hsplit
      obtain ⟨-, hprev⟩ := List.append_inj' hlast rfl
      cases hprev
      exact emitted_joined hs ht hblank fun t htmem => hv t (List.mem_cons_of_mem _ htmem)
    · obtain ⟨-, d, hresumes, hd⟩ := h.resumes hjoins
      exact emitted_fresh hs hblank hresumes hd (hgroup _) (hgroup _) heof hv

/-- **A harmless blank text.** Put behind `tokens`, it does not change what is written. -/
theorem emitted_insert (hne : ∀ t ∈ tokens, t.type ≠ .tokenEof)
    (hv : Valued (tokens ++ (later ++ [eof]))) (heof : eof.type = .tokenEof)
    (hblank : IsBlankText depth blank) (h : Harmless tokens depth later) (O : OnePass Char) :
    emitted (htmlWriter useTabs tabSize) O (tokens ++ blank :: (later ++ [eof])) =
      emitted (htmlWriter useTabs tabSize) O (tokens ++ (later ++ [eof])) := by
  induction hn : tokens.length using Nat.strongRecOn generalizing tokens O with
  | ind n ih =>
    subst hn
    cases tokens with
    | nil =>
      have hjoins : ¬ Joins [] depth := by
        rintro ⟨before, prev, hnil, -⟩
        simp at hnil
      obtain ⟨-, d, hresumes, -⟩ := h.resumes hjoins
      exact emitted_blank hblank hresumes heof hv rfl
    | cons token more =>
      have htoken := hne token List.mem_cons_self
      have hmore : ∀ t ∈ more, t.type ≠ .tokenEof := fun t ht => hne t (List.mem_cons_of_mem _ ht)
      have hvblank := valued_insert hblank hv
      rw [List.cons_append] at hv hvblank ⊢
      rw [List.cons_append]
      cases hs : token.type.startsNode with
      | false =>
        cases more with
        | nil =>
          have hblankEof : blank.type ≠ .tokenEof := by simp [hblank.type]
          have hlater := h.last_rejected hs
          have hall : ∀ t ∈ token :: later, t.type.startsNode = false :=
            List.forall_mem_cons.mpr ⟨hs, hlater⟩
          rw [List.nil_append, List.nil_append, emitted_rejects hs htoken hblankEof,
            emitted_noNode heof hlater]
          exact (emitted_noNode heof hall).symm
        | cons skipped more =>
          have hskipped := hmore skipped List.mem_cons_self
          have hvmore : Valued (more ++ (later ++ [eof])) := fun t ht => hv t (by simp_all)
          rw [List.cons_append, List.cons_append, emitted_rejects hs htoken hskipped,
            emitted_rejects hs htoken hskipped]
          exact ih more.length (by simp only [List.length_cons]; omega)
            (fun t ht => hmore t (List.mem_cons_of_mem _ ht)) hvmore (h.after_rejected hs) O rfl
      | true =>
        by_cases hlt : (group token more).length < more.length
        · have hshorter : (more.drop (group token more).length).length < (token :: more).length := by
            rw [List.length_drop, List.length_cons]
            omega
          have hvrest : Valued (more.drop (group token more).length ++ (later ++ [eof])) := by
            rw [← List.drop_append_of_le_length hlt.le]
            exact Valued.drop (fun t ht => hv t (List.mem_cons_of_mem _ ht)) _
          rw [emitted_within hs hlt hvblank, emitted_within hs hlt hv]
          exact ih _ hshorter (fun t ht => hmore t (List.mem_of_mem_drop ht)) hvrest
            (h.after_group hs hlt) _ rfl
        · have hall : group token more = more := by
            have htake := take_length_group token more
            rw [List.take_of_length_le (by omega)] at htake
            exact htake.symm
          exact emitted_behind hs hall hv heof hblank h O

end Insertion

end CPug
