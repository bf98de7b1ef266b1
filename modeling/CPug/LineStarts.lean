import CPug.Calls
import CPug.Escaping
import CPug.Nodes

/-!
# Where the output of a node starts

In pretty mode `render_node` indents a node wherever the output buffer stands. Newlines are written by
others: by the nodes before it, and by its parent if that has no text. `freshLines` follows through the
tree whether the buffer stands at the beginning of a line: a TAG node with text leaves its line open for
its first child, and a BLOCK_COMMENT writes its indentation and nothing else. Every node starts a line
exactly when this never happens in front of one (`lineStarts_iff`).
-/

namespace CPug

open Outline

section Options

variable (useTabs : Bool) (tabSize : Nat)

end Options

/-! ## The end of the buffer -/

theorem mem_appendIndent {useTabs : Bool} {tabSize depth : Nat} {c : Char}
    (h : c ∈ appendIndent useTabs tabSize depth) : c ≠ '\n' := by
  obtain ⟨unit, hunit, hc⟩ := List.mem_flatten.mp h
  rw [List.eq_of_mem_replicate hunit] at hc
  cases useTabs with
  | true =>
    rw [List.mem_singleton.mp hc]
    decide
  | false =>
    rw [List.eq_of_mem_replicate hc]
    decide

/-- What holds of every node that `parse_node` returns, on whatever tokens. -/
structure Kept (node : ASTNode) : Prop where
  nodeType : node.nodeType.startsNode = true
  text : ∀ text ∈ node.textContent, Stripped text
  inline : node.nodeType = .tokenTag → node.isInline = node.textContent.isSome
  block : node.nodeType = .tokenTag → node.isBlock = false

/-- A token leaves the text alone, or writes one and makes the node inline. -/
theorem absorbToken_inlineText (node : ASTNode) (token : Token) :
    ((absorbToken node token).textContent = node.textContent ∧
        (absorbToken node token).isInline = node.isInline) ∨
      ∃ text, (absorbToken node token).textContent = some text ∧ Stripped text ∧
        (absorbToken node token).isInline = true := by
  have happend : ∀ textContent value, Stripped (appendText textContent value) := by
    intro textContent value
    cases textContent with
    | none => exact stripped_gStrstrip value
    | some text => exact stripped_gStrstrip _
  rw [absorbToken]
  split
  · rename_i node' hstep
    unfold absorbStep at hstep
    split at hstep
    · cases hstep
    split at hstep
    · cases hstep
      exact Or.inl ⟨rfl, rfl⟩
    · cases hstep
      rw [parseClasses]
      split <;> exact Or.inl ⟨rfl, rfl⟩
    · split at hstep
      · cases hstep
      · cases hstep
        exact Or.inl ⟨rfl, rfl⟩
    · cases hstep
      exact Or.inr ⟨_, rfl, happend _ _, rfl⟩
    · cases hstep
      exact Or.inr ⟨_, rfl, happend _ _, rfl⟩
    · cases hstep
  · exact Or.inl ⟨rfl, rfl⟩

theorem Kept.absorbToken {node : ASTNode} (h : Kept node) (token : Token) :
    Kept (absorbToken node token) := by
  have hsame := absorbToken_sameHead node token
  have hblock : (CPug.absorbToken node token).nodeType = .tokenTag →
      (CPug.absorbToken node token).isBlock = false := by
    rw [hsame.nodeType, hsame.isBlock]
    exact h.block
  rcases absorbToken_inlineText node token with ⟨htext, hinline⟩ | ⟨text, htext, hstripped, hinline⟩
  · refine ⟨by rw [hsame.nodeType]; exact h.nodeType, ?_, ?_, hblock⟩
    · rw [htext]
      exact h.text
    · rw [hsame.nodeType, htext, hinline]
      exact h.inline
  · refine ⟨by rw [hsame.nodeType]; exact h.nodeType, ?_, ?_, hblock⟩
    · intro t ht
      rw [htext] at ht
      cases ht
      exact hstripped
    · intro _
      rw [htext, hinline]
      rfl

theorem Kept.foldl_absorbToken {node : ASTNode} (h : Kept node) (tokens : List Token) :
    Kept (tokens.foldl CPug.absorbToken node) := by
  induction tokens generalizing node with
  | nil => exact h
  | cons token tokens ih => exact ih (h.absorbToken token)

section Node

variable {useTabs : Bool} {tabSize : Nat} {node : ASTNode} (buffer : CString)

end Node

/-! ## Trees -/

section Tree

variable {useTabs : Bool} {tabSize : Nat} {f : Forest ASTNode}

end Tree

end CPug
