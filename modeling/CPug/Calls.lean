import CPug.Emission

/-!
# The calls of `render_node`

`calls` lists the nodes that `render_node` is called for, in the order of the calls, each with what the
output buffer holds at that moment: these are the visited nodes (`map_snd_calls`), and what a call
appends comes right behind its buffer in the output (`calls_split`). A statement about where the
output of a node stands is a statement about these buffers.
-/

namespace CPug

open Outline

section Options

variable (useTabs : Bool) (tabSize : Nat) (minify : Bool)

/-- What a TAG node with children appends before them. -/
def beforeChildren (node : ASTNode) : CString :=
  unlessMinified minify (appendIndent useTabs tabSize node.depth) ++ renderOpening node ++ ['>'] ++
    renderText useTabs tabSize minify node ++
      if node.textContent.isNone || node.isBlock then unlessMinified minify ['\n'] else []

/-- What a TAG node with children appends after them. -/
def afterChildren (node : ASTNode) : CString :=
  (if node.isInline then [] else unlessMinified minify (appendIndent useTabs tabSize node.depth)) ++
    "</".toList ++ node.tag.getD "div".toList ++ ['>'] ++ unlessMinified minify ['\n']

/-- The calls for the nodes of a forest, the first of them with the buffer `out`. -/
def calls (out : CString) : Forest ASTNode → List (CString × ASTNode)
  | .nil => []
  | .node node kids next =>
    (out, node) ::
      ((if isRoot node then calls out kids
        else if entered node then calls (out ++ beforeChildren useTabs tabSize minify node) kids
        else []) ++
      calls (out ++ renderNode useTabs tabSize minify node (decide (kids ≠ .nil))
        (renderNodes useTabs tabSize minify kids)) next)

theorem renderNode_root {node : ASTNode} (hroot : isRoot node = true) (hasChildren : Bool)
    (children : CString) :
    renderNode useTabs tabSize minify node hasChildren children = children := if_pos hroot

/-- The children stand between what is appended before and after them. -/
theorem renderNode_entered {node : ASTNode} (hroot : isRoot node = false)
    (h : entered node = true) (children : CString) :
    renderNode useTabs tabSize minify node true children =
      beforeChildren useTabs tabSize minify node ++ children ++
        afterChildren useTabs tabSize minify node := by
  simp only [entered, hroot, Bool.false_or, Bool.and_eq_true, decide_eq_true_eq,
    Bool.not_eq_true'] at h
  unfold renderNode beforeChildren afterChildren renderChildren
  rw [if_neg (by simp [hroot]), h.1]
  simp only [h.2, Bool.false_eq_true, if_false, if_true, List.append_assoc]

/-- `render_node` is called for the visited nodes. -/
theorem map_snd_calls (out : CString) (f : Forest ASTNode) :
    (calls useTabs tabSize minify out f).map Prod.snd = f.visit entered := by
  induction f generalizing out with
  | nil => rfl
  | node node kids next ihk ihn =>
    rw [calls, List.map_cons, List.map_append, ihn, Forest.visit_node]
    refine congrArg (node :: ·) (congrArg (· ++ next.visit entered) ?_)
    by_cases hroot : isRoot node = true
    · rw [if_pos hroot, if_pos (by simp [entered, hroot]), ihk]
    · rw [if_neg hroot]
      split
      · exact ihk _
      · rfl

/-- What a call appends follows its buffer. -/
theorem calls_split {out : CString} {f : Forest ASTNode} {call : CString × ASTNode}
    (h : call ∈ calls useTabs tabSize minify out f) :
    ∃ hasChildren children after, out ++ renderNodes useTabs tabSize minify f =
      call.1 ++ renderNode useTabs tabSize minify call.2 hasChildren children ++ after := by
  induction f generalizing out with
  | nil => cases h
  | node node kids next ihk ihn =>
    rw [renderNodes]
    rcases List.mem_cons.mp h with rfl | h
    · exact ⟨_, _, _, (List.append_assoc _ _ _).symm⟩
    rcases List.mem_append.mp h with h | h
    · have hkids : decide (kids ≠ .nil) = true := by
        cases kids with
        | nil => simp [calls] at h
        | node => rfl
      by_cases hroot : isRoot node = true
      · rw [if_pos hroot] at h
        obtain ⟨hasChildren, children, after, heq⟩ := ihk h
        refine ⟨hasChildren, children, after ++ renderNodes useTabs tabSize minify next, ?_⟩
        rw [renderNode_root _ _ _ hroot, ← List.append_assoc, heq, List.append_assoc]
      · rw [if_neg hroot] at h
        split at h
        · rename_i hentered
          obtain ⟨hasChildren, children, after, heq⟩ := ihk h
          refine ⟨hasChildren, children, after ++ (afterChildren useTabs tabSize minify node ++
            renderNodes useTabs tabSize minify next), ?_⟩
          rw [hkids, renderNode_entered _ _ _ (by simpa using hroot) hentered, ← List.append_assoc _ after,
            ← heq]
          simp only [List.append_assoc]
        · cases h
    · obtain ⟨hasChildren, children, after, heq⟩ := ihn h
      exact ⟨hasChildren, children, after, by rw [← heq, List.append_assoc]⟩

end Options

theorem mem_labels_of_mem_calls {useTabs : Bool} {tabSize : Nat} {minify : Bool} {out : CString}
    {f : Forest ASTNode} {call : CString × ASTNode}
    (h : call ∈ calls useTabs tabSize minify out f) : call.2 ∈ f.labels := by
  apply Forest.mem_labels_of_mem_visit
  rw [← map_snd_calls useTabs tabSize minify out f]
  exact List.mem_map_of_mem h

end CPug
