import CPug.Outline.Spine

/-!
# Writing a forest in one pass

A `NodeWriter` says what stands before and after the children of a node and whether the children are
written at all. `write` writes a finished forest. `OnePass` is the machine that writes the forest of
the spine machine without building it: of an open node it keeps the depth, whether its children are
written, and what stands after them. `finish_run` says that both write the same.

The state of the second machine is all that the rest of the output depends on, so two runs can be
compared by their states: `pop_insert` is the main tool.
-/

namespace Outline

universe u v

variable {α : Type u} {β : Type v}

/-- What is written for a node, apart from its children. -/
structure NodeWriter (α : Type u) (β : Type v) where
  before : α → List β
  enters : α → Bool
  after : α → List β

/-- The children of a node when they are written. -/
def NodeWriter.inside (w : NodeWriter α β) (a : α) (children : List β) : List β :=
  if w.enters a then children else []

def NodeWriter.write (w : NodeWriter α β) : Forest α → List β
  | .nil => []
  | .node a kids next => w.before a ++ w.inside a (w.write kids) ++ w.after a ++ w.write next

theorem NodeWriter.write_append (w : NodeWriter α β) (f g : Forest α) :
    w.write (f ++ g) = w.write f ++ w.write g := by
  induction f with
  | nil => rfl
  | node a kids next _ ih =>
    rw [Forest.node_append, write, write, ih]
    simp only [List.append_assoc]

/-! ## The machine -/

/-- What is kept of an open node. -/
structure OpenNode (β : Type v) where
  depth : Nat
  enters : Bool
  after : List β

/-- The open nodes, innermost first, and what is written so far. -/
structure OnePass (β : Type v) where
  frames : List (OpenNode β)
  out : List β

namespace OnePass

def empty : OnePass β := ⟨[], []⟩

/-- Write something, unless some open node keeps its children back. -/
def emit (O : OnePass β) (text : List β) : OnePass β :=
  { O with out := O.out ++ if O.frames.all OpenNode.enters then text else [] }

def push (O : OnePass β) (open' : OpenNode β) : OnePass β := { O with frames := open' :: O.frames }

/-- Close the open nodes of depth at least `d`. -/
def popFrames (d : Nat) : List (OpenNode β) → List β → OnePass β
  | [], out => ⟨[], out⟩
  | frame :: frames, out =>
      if d ≤ frame.depth then popFrames d frames (emit ⟨frames, out⟩ frame.after).out
      else ⟨frame :: frames, out⟩

def pop (d : Nat) (O : OnePass β) : OnePass β := popFrames d O.frames O.out

section NodeWriter

variable (w : NodeWriter α β) (depth : α → Nat)

def openNode (a : α) : OpenNode β := ⟨depth a, w.enters a, w.after a⟩

/-- One entry: close what is not shallower, write the node, leave it open if told to. -/
def insert (O : OnePass β) (entry : α × Bool) : OnePass β :=
  let O := (O.pop (depth entry.1)).emit (w.before entry.1)
  if entry.2 then O.push (openNode w depth entry.1) else O.emit (w.after entry.1)

def run (O : OnePass β) (entries : List (α × Bool)) : OnePass β :=
  entries.foldl (insert w depth) O

end NodeWriter

/-- What is written when every open node is closed. -/
def finish (O : OnePass β) : List β := (O.pop 0).out

@[simp] theorem emit_nil (O : OnePass β) : O.emit [] = O := by
  unfold emit
  simp

theorem emit_emit (O : OnePass β) (x y : List β) : (O.emit x).emit y = O.emit (x ++ y) := by
  unfold emit
  cases O.frames.all OpenNode.enters <;> simp

/-! ## Closing -/

theorem pop_of_lt {O : OnePass β} {d : Nat} (h : ∀ frame ∈ O.frames.head?, frame.depth < d) :
    O.pop d = O := by
  obtain ⟨frames, out⟩ := O
  cases frames with
  | nil => rfl
  | cons frame frames => exact if_neg (Nat.not_le.mpr (h frame rfl))

theorem pop_push {O : OnePass β} {frame : OpenNode β} {d : Nat} (h : d ≤ frame.depth) :
    (O.push frame).pop d = (O.emit frame.after).pop d := if_pos h

/-- After a `pop`, the innermost open node is shallower than the bound. -/
theorem head_pop_lt (O : OnePass β) (d : Nat) :
    ∀ frame ∈ (O.pop d).frames.head?, frame.depth < d := by
  obtain ⟨frames, out⟩ := O
  unfold pop
  induction frames generalizing out with
  | nil => simp [popFrames]
  | cons frame frames ih =>
    unfold popFrames
    split
    · exact ih _
    · rename_i hle
      rintro _ ⟨⟩
      exact Nat.lt_of_not_le hle

theorem pop_pop {d d' : Nat} (h : d ≤ d') (O : OnePass β) : (O.pop d').pop d = O.pop d := by
  obtain ⟨frames, out⟩ := O
  unfold pop
  induction frames generalizing out with
  | nil => rfl
  | cons frame frames ih =>
    by_cases hle : d' ≤ frame.depth
    · rw [popFrames, if_pos hle, ih]
      conv_rhs => rw [popFrames, if_pos (h.trans hle)]
    · rw [popFrames, if_neg hle]

theorem finish_pop (O : OnePass β) (d : Nat) : (O.pop d).finish = O.finish := by
  unfold finish
  rw [pop_pop (Nat.zero_le d)]

theorem finish_congr {O O' : OnePass β} {d : Nat} (h : O.pop d = O'.pop d) :
    O.finish = O'.finish := by
  rw [← finish_pop O d, ← finish_pop O' d, h]

/-! ## Entries -/

section Entries

variable {w : NodeWriter α β} {depth : α → Nat}

@[simp] theorem run_nil (O : OnePass β) : O.run w depth [] = O := rfl

@[simp] theorem run_cons (O : OnePass β) (entry : α × Bool) (entries : List (α × Bool)) :
    O.run w depth (entry :: entries) = (O.insert w depth entry).run w depth entries := rfl

/-- An entry sees only what `pop` at its own depth leaves. -/
theorem insert_congr {O O' : OnePass β} {entry : α × Bool} {d : Nat} (hd : depth entry.1 ≤ d)
    (h : O.pop d = O'.pop d) : O.insert w depth entry = O'.insert w depth entry := by
  unfold insert
  rw [← pop_pop hd O, ← pop_pop hd O', h]

/-- Below a node that is closed again it does not matter whether it was left open. -/
theorem pop_insert (O : OnePass β) (a : α) (opened : Bool) {d : Nat} (h : d ≤ depth a) :
    (O.insert w depth (a, opened)).pop d = (O.insert w depth (a, false)).pop d := by
  cases opened with
  | false => rfl
  | true => exact pop_push h

/-- Two nodes of which the same is written leave the same state. -/
theorem insert_same (O : OnePass β) {a b : α} (hdepth : depth a = depth b)
    (hbefore : w.before a = w.before b) (henters : w.enters a = w.enters b)
    (hafter : w.after a = w.after b) (opened : Bool) :
    O.insert w depth (a, opened) = O.insert w depth (b, opened) := by
  unfold insert openNode
  rw [hdepth, hbefore, henters, hafter]

end Entries

end OnePass

/-! ## The machine writes the forest -/

namespace Spine

variable (w : NodeWriter α β) (depth : α → Nat)

/-- What is written of the open nodes and their finished children. -/
def written : List (Frame α) → Forest α → List β
  | [], top => w.write top
  | frame :: frames, top =>
      written frames top ++
        if frames.all (fun frame => w.enters frame.label) then
          w.before frame.label ++ w.inside frame.label (w.write frame.before)
        else []

/-- The state of the one-pass machine where the spine machine is in state `S`. -/
def view (S : Spine α) : OnePass β :=
  ⟨S.frames.map fun frame => OnePass.openNode w depth frame.label, written w S.frames S.top⟩

variable {w depth}

/-- Text goes to the innermost open node. -/
theorem view_add (S : Spine α) (f : Forest α) :
    (S.add f).view w depth = (S.view w depth).emit (w.write f) := by
  obtain ⟨frames, top⟩ := S
  unfold view OnePass.emit add
  cases frames with
  | nil => simp [written, w.write_append]
  | cons frame frames =>
    have hall : (((frame :: frames).map fun frame => OnePass.openNode w depth frame.label).all
        OpenNode.enters) =
          (w.enters frame.label && frames.all fun frame => w.enters frame.label) := by
      rw [List.all_map]
      rfl
    rw [hall]
    simp only [List.map_cons, written, w.write_append, NodeWriter.inside]
    cases frames.all fun frame => w.enters frame.label with
    | false => cases w.enters frame.label <;> simp
    | true => cases w.enters frame.label <;> simp

theorem view_cons (frame : Frame α) (frames : List (Frame α)) (top : Forest α) :
    view w depth ⟨frame :: frames, top⟩ =
      ((view w depth ⟨frames, top⟩).emit
        (w.before frame.label ++ w.inside frame.label (w.write frame.before))).push
          (OnePass.openNode w depth frame.label) := by
  unfold view OnePass.emit OnePass.push
  simp only [List.map_cons, List.all_map, written]
  rfl

theorem view_push (S : Spine α) (a : α) :
    (S.push a).view w depth =
      ((S.view w depth).emit (w.before a)).push (OnePass.openNode w depth a) := by
  have hnil : w.inside a (w.write .nil) = [] := by
    unfold NodeWriter.inside NodeWriter.write
    split <;> rfl
  unfold push
  rw [view_cons, hnil, List.append_nil]

/-- Closing a node writes what stands after its children. -/
theorem view_pop (S : Spine α) (d : Nat) :
    (S.pop depth d).view w depth = (S.view w depth).pop d := by
  induction S using pop_induction depth d with
  | stays S h =>
    have hlt : ∀ frame ∈ (S.pop depth d).frames.head?, depth frame.label < d := head_pop_lt S d
    rw [h] at hlt ⊢
    symm
    apply OnePass.pop_of_lt
    intro frame hframe
    obtain ⟨frame', hframe', rfl⟩ : ∃ frame' ∈ S.frames.head?,
        OnePass.openNode w depth frame'.label = frame := by
      unfold view at hframe
      simpa [List.head?_map] using hframe
    exact hlt frame' hframe'
  | closes frame frames top hle ih =>
    have hwrite : w.write (.node frame.label frame.before .nil) =
        w.before frame.label ++ w.inside frame.label (w.write frame.before) ++
          w.after frame.label := by
      simp [NodeWriter.write]
    have hclose : d ≤ (OnePass.openNode w depth frame.label).depth := hle
    rw [pop_cons_of_le hle, ih, view_add, hwrite, view_cons, OnePass.pop_push hclose,
      OnePass.emit_emit]
    rfl

/-- One entry does the same in both machines. -/
theorem view_insert (S : Spine α) (entry : α × Bool) :
    (S.insert depth entry).view w depth = (S.view w depth).insert w depth entry := by
  have hleaf : w.write (.leaf entry.1) = w.before entry.1 ++ w.after entry.1 := by
    simp [Forest.leaf, NodeWriter.write, NodeWriter.inside]
  unfold insert OnePass.insert
  dsimp only
  split
  · rw [view_push, view_pop]
  · rw [view_add, view_pop, hleaf, OnePass.emit_emit]

theorem view_run (S : Spine α) (entries : List (α × Bool)) :
    (S.run depth entries).view w depth = (S.view w depth).run w depth entries := by
  induction entries generalizing S with
  | nil => rfl
  | cons entry entries ih => rw [run_cons, OnePass.run_cons, ih, view_insert]

/-- The forest that the machine builds is written in one pass. -/
theorem finish_run (entries : List (α × Bool)) :
    w.write (empty.run depth entries).close = (OnePass.empty.run w depth entries).finish := by
  have hzero : ((empty.run depth entries).pop depth 0).view w depth =
      ((empty.run depth entries).view w depth).pop 0 := view_pop _ 0
  rw [pop_zero, view_run] at hzero
  exact congrArg OnePass.out hzero

end Spine

end Outline
