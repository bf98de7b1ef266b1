import CPug.Nodes
import CPug.TokenInvariant

/-!
# Strings without newlines

A token takes its value from one line, and the parser only cuts such values, splits them and puts them
together with spaces. So no string of the tree of a file has a newline in it (`singleLine_of_mem`).
-/

namespace CPug

open Outline

/-- None of the strings of the node has a newline in it. -/
structure SingleLine (node : ASTNode) : Prop where
  tag : ∀ s ∈ node.tag, '\n' ∉ s
  text : ∀ s ∈ node.textContent, '\n' ∉ s
  id : ∀ s ∈ node.id, '\n' ∉ s
  classes : ∀ s ∈ node.classes, '\n' ∉ s
  attributes : ∀ attr ∈ node.attributes.getD [], '\n' ∉ attr.name ∧ '\n' ∉ attr.value

/-! ## Cutting and splitting -/

theorem newline_notMem_strip {s : CString} (h : '\n' ∉ s) : '\n' ∉ gStrstrip s := fun hmem =>
  h (gStrstrip_subset s _ hmem)

theorem newline_notMem_getD {value : Option CString} (h : ∀ s ∈ value, '\n' ∉ s) {default : CString}
    (hd : '\n' ∉ default) : '\n' ∉ value.getD default := by
  cases value with
  | none => exact hd
  | some s => exact h s rfl

theorem newline_notMem_stripQuotes {s : CString} (h : '\n' ∉ s) : '\n' ∉ stripQuotes s := by
  rw [stripQuotes]
  split
  · simp
  · split
    · exact fun hmem => h ((List.dropLast_sublist s).subset (List.mem_of_mem_drop hmem))
    · exact h

/-- The pieces of a split list are made of its entries, the separator apart. -/
theorem mem_of_mem_splitOn {α : Type} [BEq α] [LawfulBEq α] {separator : α} (l : List α) :
    ∀ piece ∈ l.splitOn separator, ∀ a ∈ piece, a ∈ l ∧ a ≠ separator := by
  induction l with
  | nil => simp [List.splitOn_nil]
  | cons b l ih =>
    intro piece hpiece a ha
    rw [List.splitOn_cons_eq_if_modifyHead] at hpiece
    split at hpiece
    · rcases List.mem_cons.mp hpiece with rfl | hpiece
      · cases ha
      · obtain ⟨hmem, hne⟩ := ih piece hpiece a ha
        exact ⟨List.mem_cons_of_mem _ hmem, hne⟩
    · rename_i hb
      obtain ⟨first, rest, hsplit⟩ := List.exists_cons_of_ne_nil (List.splitOn_ne_nil separator l)
      rw [hsplit, List.modifyHead_cons] at hpiece
      rw [hsplit] at ih
      have hold : ∀ old ∈ first :: rest, a ∈ old → a ∈ b :: l ∧ a ≠ separator := fun old hold ha =>
        ⟨List.mem_cons_of_mem _ (ih old hold a ha).1, (ih old hold a ha).2⟩
      rcases List.mem_cons.mp hpiece with rfl | hpiece
      · rcases List.mem_cons.mp ha with rfl | ha
        · exact ⟨List.mem_cons_self, fun heq => hb (beq_iff_eq.mpr heq)⟩
        · exact hold first List.mem_cons_self ha
      · exact hold piece (List.mem_cons_of_mem _ hpiece) ha

theorem newline_notMem_attribute {value : CString} (h : '\n' ∉ value) :
    ∀ attr ∈ parseAttributes value, '\n' ∉ attr.name ∧ '\n' ∉ attr.value := by
  intro attr hattr
  obtain ⟨pair, hpair, hparse⟩ := List.mem_filterMap.mp hattr
  have hpair : '\n' ∉ gStrstrip pair := newline_notMem_strip fun hmem => by
    rw [gStrsplit] at hpair
    split at hpair
    · cases hpair
    · exact h (mem_of_mem_splitOn value pair hpair '\n' hmem).1
  rw [parseAttributePair] at hparse
  dsimp only at hparse
  split at hparse
  · cases hparse
  rcases gStrsplit2_cases (gStrstrip pair) '=' with ⟨-, hsplit⟩ | ⟨key, rest, heq, -, hsplit⟩
  · rw [hsplit] at hparse
    cases hparse
  · rw [hsplit] at hparse
    dsimp only at hparse
    rw [heq] at hpair
    have hkey : '\n' ∉ key := fun hmem => hpair (List.mem_append_left _ hmem)
    have hrest : '\n' ∉ rest := fun hmem =>
      hpair (List.mem_append_right _ (List.mem_cons_of_mem _ hmem))
    split at hparse
    · cases hparse
    split at hparse
    · cases hparse
    · cases hparse
      exact ⟨newline_notMem_strip hkey, newline_notMem_stripQuotes (newline_notMem_strip hrest)⟩

/-! ## Nodes -/

/-- The first token of a node. -/
theorem singleLine_startNode {token : Token} (hs : token.type.startsNode = true)
    (hv : ∀ s ∈ token.value, '\n' ∉ s) : SingleLine (startNode token) := by
  have he : token.type ≠ .tokenEof := ne_eof_of_startsNode hs
  have htext : ∀ default : CString, '\n' ∉ default → '\n' ∉ gStrstrip (token.value.getD default) :=
    fun default hd => newline_notMem_strip (newline_notMem_getD hv hd)
  have hnil := htext [] (by simp)
  have hhtml := htext ['h', 't', 'm', 'l'] (by decide)
  have htag : '\n' ∉ token.value.getD ['d', 'i', 'v'] := newline_notMem_getD hv (by decide)
  rw [startNode, parseNodeFrom, if_neg he]
  cases htype : token.type <;> simp [htype, TokenType.startsNode] at hs <;>
    constructor <;> simp [absorb, astNodeCreate, hnil, hhtml, htag]

theorem SingleLine.absorbToken {node : ASTNode} (h : SingleLine node) {token : Token}
    (hv : ∀ s ∈ token.value, '\n' ∉ s) : SingleLine (absorbToken node token) := by
  have hvalue : '\n' ∉ token.value.getD [] := newline_notMem_getD hv (by simp)
  have hstrip := newline_notMem_strip hvalue
  have happend : '\n' ∉ appendText node.textContent (token.value.getD []) := by
    cases htext : node.textContent with
    | none => exact hstrip
    | some text =>
      apply newline_notMem_strip
      simp [h.text text htext, hvalue]
  rw [CPug.absorbToken]
  split
  · rename_i taken hstep
    unfold absorbStep at hstep
    split at hstep
    · cases hstep
    split at hstep
    · cases hstep
      exact ⟨h.tag, h.text, by simpa using hstrip, h.classes, h.attributes⟩
    · cases hstep
      rw [parseClasses]
      split
      · exact h
      · refine ⟨h.tag, h.text, h.id, fun s hmem => ?_, h.attributes⟩
        rcases List.mem_append.mp hmem with hmem | hmem
        · exact h.classes s hmem
        · rwa [List.mem_singleton.mp hmem]
    · split at hstep
      · cases hstep
      · rename_i value hval
        cases hstep
        refine ⟨h.tag, h.text, h.id, h.classes, fun attr hmem => ?_⟩
        rcases List.mem_append.mp hmem with hmem | hmem
        · exact h.attributes attr hmem
        · exact newline_notMem_attribute (hv value hval) attr hmem
    · cases hstep
      exact ⟨h.tag, by simpa using happend, h.id, h.classes, h.attributes⟩
    · cases hstep
      exact ⟨h.tag, by simpa using happend, h.id, h.classes, h.attributes⟩
    · cases hstep
  · exact h

theorem SingleLine.foldl_absorbToken {node : ASTNode} (h : SingleLine node) {tokens : List Token}
    (hv : ∀ t ∈ tokens, ∀ s ∈ t.value, '\n' ∉ s) : SingleLine (tokens.foldl CPug.absorbToken node) := by
  induction tokens generalizing node with
  | nil => exact h
  | cons token tokens ih =>
    exact ih (h.absorbToken (hv token List.mem_cons_self)) fun t ht =>
      hv t (List.mem_cons_of_mem _ ht)

theorem newline_notMem_value {content : CString} {t : Token} (h : t ∈ tokenizeFile content) :
    ∀ s ∈ t.value, '\n' ∉ s := by
  intro s hs
  rcases List.mem_append.mp h with h | h
  · obtain ⟨-, -, -, value, hvalue, hnewline, -⟩ := fileToken_ok h
    cases hvalue.symm.trans hs
    exact hnewline
  · rw [List.mem_singleton.mp h] at hs
    cases hs

/-- The nodes of a file. -/
theorem singleLine_of_mem {content : CString} {ctx : ParserContext}
    (h : parsePug (tokenizeFile content) = some ctx) :
    ∀ node ∈ (rootNode ctx).labels, SingleLine node := by
  obtain ⟨kids, hroot, hnodes⟩ := parsePug_nodes h
  intro node hnode
  rw [hroot, Forest.labels_node, Forest.labels_nil, List.append_nil] at hnode
  rcases List.mem_cons.mp hnode with rfl | hnode
  · constructor <;> simp [rootLabel, astNodeCreate]
  · obtain ⟨token, more, hsuffix, hs, rfl⟩ := hnodes node hnode
    have hvalue : ∀ t ∈ token :: more, ∀ s ∈ t.value, '\n' ∉ s := fun t ht =>
      newline_notMem_value (hsuffix.subset ht)
    refine (singleLine_startNode hs (hvalue token List.mem_cons_self)).foldl_absorbToken ?_
    intro t ht
    rw [← take_length_group token more] at ht
    exact hvalue t (List.mem_cons_of_mem _ (List.mem_of_mem_take ht))

end CPug
