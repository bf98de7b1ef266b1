import CPug.Renderer

/-!
# Relabelling tokens and nodes

A map of tokens and a map of nodes that the parser does not tell from the identity (`Relabels`):
`parse_node` on the mapped tokens returns the mapped node (`parseNodeFrom_map`). When the two maps
also keep the order of the depths, the tree of the mapped tokens is the mapped tree
(`builtForest_map`), and a map of nodes that the renderer does not see leaves the output as it is
(`renderNodes_map`).
-/

namespace CPug

open Outline

/-- A step with its node mapped. -/
def AbsorbStep.map (ψ : ASTNode → ASTNode) : AbsorbStep → AbsorbStep
  | .stops => .stops
  | .spins => .spins
  | .takes out => .takes (ψ out)

/-- A result with its node mapped. -/
def NodeResult.map (ψ : ASTNode → ASTNode) : NodeResult → NodeResult
  | .hangs => .hangs
  | .null advanced => .null advanced
  | .node out advanced => .node (ψ out) advanced

/-- The parser does to mapped tokens and nodes what it does to the tokens and nodes. -/
structure Relabels (φ : Token → Token) (ψ : ASTNode → ASTNode) : Prop where
  type : ∀ t, (φ t).type = t.type
  startNode : ∀ t, t.type.startsNode = true → startNode (φ t) = ψ (startNode t)
  absorbStep : ∀ node t, absorbStep (ψ node) (φ t) = (absorbStep node t).map ψ

section Parser

variable {φ : Token → Token} {ψ : ASTNode → ASTNode}

theorem absorb_map (h : Relabels φ ψ) (node : ASTNode) (advanced : Nat) (rest : List Token) :
    absorb (ψ node) advanced (rest.map φ) = (absorb node advanced rest).map ψ := by
  induction rest generalizing node advanced with
  | nil => rfl
  | cons token rest ih =>
    rw [List.map_cons, absorb, absorb, h.absorbStep]
    cases absorbStep node token with
    | stops => rfl
    | spins => rfl
    | takes node' => exact ih node' (advanced + 1)

theorem parseNodeFrom_map (h : Relabels φ ψ) (rest : List Token) :
    parseNodeFrom (rest.map φ) = (parseNodeFrom rest).map ψ := by
  cases rest with
  | nil => rfl
  | cons token rest =>
    rw [List.map_cons]
    have htype := h.type token
    by_cases he : token.type = .tokenEof
    · rw [parseNodeFrom_eof _ (htype.trans he), parseNodeFrom_eof _ he]
      rfl
    cases hs : token.type.startsNode with
    | false =>
      rw [parseNodeFrom_rejects _ (by rw [htype, hs]) (by rwa [htype]),
        parseNodeFrom_rejects _ hs he]
      rfl
    | true =>
      have hstart := h.startNode token hs
      by_cases ht : token.type = .tokenTag
      · rw [parseNodeFrom_tag _ (htype.trans ht), parseNodeFrom_tag _ ht, hstart, absorb_map h]
      · rw [parseNodeFrom_single _ (by rw [htype, hs]) (by rwa [htype]),
          parseNodeFrom_single _ hs ht, hstart]
        rfl

/-- The look-ahead after a node compares the same depths. -/
theorem deeperNext_map {node : ASTNode} {rest : List Token}
    (hd : ∀ t ∈ rest, (ψ node).depth < (φ t).depth ↔ node.depth < t.depth) :
    deeperNext (ψ node).depth (rest.map φ) = deeperNext node.depth rest := by
  cases rest with
  | nil => rfl
  | cons t rest =>
    have ht := hd t List.mem_cons_self
    simp [deeperNext, ht]

theorem parseEntries_map (h : Relabels φ ψ) {rest : List Token}
    (hd : ∀ node, ∀ t ∈ rest, (ψ node).depth < (φ t).depth ↔ node.depth < t.depth) :
    parseEntries (rest.map φ) = (parseEntries rest).map (List.map (Prod.map ψ id)) := by
  induction hn : rest.length using Nat.strongRecOn generalizing rest with
  | ind n ih =>
    subst hn
    have hmap := parseNodeFrom_map h rest
    cases hnode : parseNodeFrom rest with
    | hangs =>
      rw [hnode] at hmap
      rw [parseEntries_hangs hnode, parseEntries_hangs hmap]
      rfl
    | node node advanced =>
      rw [hnode] at hmap
      obtain ⟨hpos, hle⟩ := parseNodeFrom_advanced hnode
      have hdrop : ∀ t ∈ rest.drop advanced, t ∈ rest := fun t ht => List.mem_of_mem_drop ht
      have hrec := @ih (rest.drop advanced).length (by rw [List.length_drop]; omega)
        (rest.drop advanced) (fun node t ht => hd node t (hdrop t ht)) rfl
      have hdeeper := deeperNext_map fun t ht => hd node t (hdrop t ht)
      rw [parseEntries_node hnode, parseEntries_node hmap, ← List.map_drop, hrec, hdeeper,
        Option.map_map, Option.map_map]
      rfl
    | null advanced =>
      rw [hnode] at hmap
      cases hrest : rest.drop advanced with
      | nil =>
        have hrest' : (rest.map φ).drop advanced = [] := by
          rw [← List.map_drop, hrest]
          rfl
        rw [parseEntries_end hnode hrest, parseEntries_end hmap hrest']
        rfl
      | cons token more =>
        have hrest' : (rest.map φ).drop advanced = φ token :: more.map φ := by
          rw [← List.map_drop, hrest]
          rfl
        by_cases ht : token.type = .tokenEof
        · rw [parseEntries_eof hnode hrest ht,
            parseEntries_eof hmap hrest' ((h.type token).trans ht)]
          rfl
        · have ht' : (φ token).type ≠ .tokenEof := by rwa [h.type]
          have hmore : ∀ t ∈ more, t ∈ rest := fun t hmem => by
            apply List.mem_of_mem_drop (i := advanced)
            rw [hrest]
            exact List.mem_cons_of_mem _ hmem
          have hlen := congrArg List.length hrest
          simp only [List.length_drop, List.length_cons] at hlen
          rw [parseEntries_skip hnode hrest ht, parseEntries_skip hmap hrest' ht']
          exact ih more.length (by omega) (fun node t hmem => hd node t (hmore t hmem)) rfl

/-- The tree of the mapped tokens is the mapped tree. -/
theorem builtForest_map (h : Relabels φ ψ)
    (hle : ∀ a b : ASTNode, (ψ a).depth ≤ (ψ b).depth ↔ a.depth ≤ b.depth) {tokens : List Token}
    (hd : ∀ node, ∀ t ∈ tokens, (ψ node).depth < (φ t).depth ↔ node.depth < t.depth) :
    builtForest (tokens.map φ) = (builtForest tokens).map (Forest.map ψ) := by
  rw [builtForest, builtForest, parseEntries_map h hd, Option.map_map, Option.map_map]
  congr 1
  funext entries
  exact (congrArg Spine.close (Spine.run_map hle Spine.empty entries)).trans (Spine.close_map _)

end Parser

/-- A map of nodes that the renderer does not see. -/
theorem renderNodes_map {useTabs : Bool} {tabSize : Nat} {minify : Bool} {ψ : ASTNode → ASTNode}
    (h : ∀ node hasChildren children, renderNode useTabs tabSize minify (ψ node) hasChildren children =
      renderNode useTabs tabSize minify node hasChildren children) (f : Forest ASTNode) :
    renderNodes useTabs tabSize minify (f.map ψ) = renderNodes useTabs tabSize minify f := by
  induction f with
  | nil => rfl
  | node node kids next ihk ihn =>
    have hkids : kids.map ψ ≠ .nil ↔ kids ≠ .nil := by cases kids <;> simp
    rw [Forest.map_node, renderNodes, renderNodes, h, ihk, ihn]
    simp only [hkids]

end CPug
