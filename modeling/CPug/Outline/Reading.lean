import CPug.Outline.Forest

/-!
# Reading a forest from its events

A reader meets the nodes of a forest one after the other: a node opens, the node of a key closes, a node
stands alone. `assemble` builds the forest, with the nodes that are open on a stack. What stands side by
side may join: `join a b` is what the label `a` becomes when `b` follows it.

* `Forest.attach` puts one tree behind a forest, `Forest.joined` all the trees of another one.
* `Assembles` says what a sequence of events does to the forest read so far, whatever is open around it.
  `assemble_events`: the events of a forest give the forest back, joined.
-/

namespace Outline

universe u v

variable {α : Type u} {κ : Type v}

/-- What a reader meets. -/
inductive Event (α : Type u) (κ : Type v) where
  | opens (label : α)
  | closes (key : κ)
  | alone (label : α)
deriving Repr, DecidableEq

namespace Forest

/-- Put a tree behind a forest; its label may join the last one. -/
def attach (join : α → α → Option α) : Forest α → α → Forest α → Forest α
  | nil, a, kids => node a kids nil
  | node b below nil, a, kids =>
      match join b a with
      | some c => node c below nil
      | none => node b below (node a kids nil)
  | node b below (node c kids' next), a, kids =>
      node b below (attach join (node c kids' next) a kids)

/-- Put the trees of a forest behind `done`, joined all the way down. -/
def joined (join : α → α → Option α) : Forest α → Forest α → Forest α
  | nil, done => done
  | node a kids next, done => joined join next (done.attach join a (joined join kids nil))

/-- The labels that stand alone have nothing below them. -/
def Childless (alone : α → Bool) : Forest α → Prop
  | nil => True
  | node a kids next =>
      (alone a = true → kids = nil) ∧ kids.Childless alone ∧ next.Childless alone

/-- The events of a forest. -/
def events (key : α → κ) (alone : α → Bool) : Forest α → List (Event α κ)
  | nil => []
  | node a kids next =>
      (if alone a then [.alone a]
        else .opens a :: (kids.events key alone ++ [.closes (key a)])) ++ next.events key alone

/-- `a` followed by `b` reads as `c`, behind whatever label. -/
structure Joins (join : α → α → Option α) (a b c : α) : Prop where
  self : join a b = some c
  after : ∀ d e, join d a = some e → ∃ g, join e b = some g ∧ join d c = some g
  apart : ∀ d, join d a = none → join d c = none

section Attach

variable {join : α → α → Option α}

@[simp] theorem joined_nil (done : Forest α) : joined join nil done = done := rfl

@[simp] theorem joined_node (a : α) (kids next done : Forest α) :
    joined join (node a kids next) done =
      joined join next (done.attach join a (joined join kids nil)) := rfl

theorem joined_append (f g done : Forest α) :
    joined join (f ++ g) done = joined join g (joined join f done) := by
  induction f generalizing done with
  | nil => rfl
  | node a kids next _ ih => rw [node_append, joined_node, joined_node, ih]

theorem attach_node_of_ne_nil (b : α) (below : Forest α) {next : Forest α} (h : next ≠ nil) (a : α)
    (kids : Forest α) :
    (node b below next).attach join a kids = node b below (next.attach join a kids) := by
  cases next with
  | nil => exact absurd rfl h
  | node => rfl

theorem attach_ne_nil (f : Forest α) (a : α) (kids : Forest α) : f.attach join a kids ≠ nil := by
  cases f with
  | nil => simp [attach]
  | node b below next =>
    cases next with
    | nil =>
      rw [attach]
      split <;> simp
    | node => simp [attach]

/-- A label that joins nothing starts a tree of its own. -/
theorem attach_of_apart {a : α} (h : ∀ b, join b a = none) (f kids : Forest α) :
    f.attach join a kids = f ++ node a kids nil := by
  induction f with
  | nil => rfl
  | node b below next _ ih =>
    by_cases hnext : next = nil
    · subst hnext
      simp [attach, h]
    · rw [attach_node_of_ne_nil b below hnext, ih, node_append]

/-- Two labels that join are attached as one. -/
theorem attach_attach {a b c : α} (h : Joins join a b c) (f : Forest α) :
    (f.attach join a nil).attach join b nil = f.attach join c nil := by
  induction f with
  | nil => simp [attach, h.self]
  | node d below next _ ih =>
    by_cases hnext : next = nil
    · subst hnext
      cases hda : join d a with
      | none => simp [attach, hda, h.apart d hda, h.self]
      | some e =>
        obtain ⟨g, heb, hdc⟩ := h.after d e hda
        simp [attach, hda, heb, hdc]
    · rw [attach_node_of_ne_nil d below hnext, attach_node_of_ne_nil d below hnext,
        attach_node_of_ne_nil d below (attach_ne_nil next a nil), ih]

end Attach

theorem childless_append {alone : α → Bool} {f g : Forest α} (hf : f.Childless alone)
    (hg : g.Childless alone) : (f ++ g).Childless alone := by
  induction f with
  | nil => exact hg
  | node a kids next _ ih => exact ⟨hf.1, hf.2.1, ih hf.2.2⟩

theorem events_append (key : α → κ) (alone : α → Bool) (f g : Forest α) :
    (f ++ g).events key alone = f.events key alone ++ g.events key alone := by
  induction f with
  | nil => rfl
  | node a kids next _ ih => rw [node_append, events, events, ih, List.append_assoc]

end Forest

/-! ## The reader -/

section Reader

variable [DecidableEq κ] (key : α → κ) (join : α → α → Option α)

/-- Build a forest from events: `done` is what has been read on the level that is being read, `stack` holds
the nodes that are open, each with what was read before it. -/
def assemble : List (α × Forest α) → Forest α → List (Event α κ) → Option (Forest α)
  | stack, done, [] => if stack.isEmpty then some done else none
  | stack, done, .alone a :: events => assemble stack (done.attach join a .nil) events
  | stack, done, .opens a :: events => assemble ((a, done) :: stack) .nil events
  | [], _, .closes _ :: _ => none
  | top :: stack, done, .closes k :: events =>
      if key top.1 = k then assemble stack (top.2.attach join top.1 done) events else none

/-- The events make `done'` of `done`, whatever is open and whatever follows. -/
def Assembles (events : List (Event α κ)) (done done' : Forest α) : Prop :=
  ∀ stack rest, assemble key join stack done (events ++ rest) = assemble key join stack done' rest

variable {key join}

theorem Assembles.nil (done : Forest α) : Assembles key join [] done done := fun _ _ => rfl

theorem Assembles.append {xs ys : List (Event α κ)} {done done' done'' : Forest α}
    (hxs : Assembles key join xs done done') (hys : Assembles key join ys done' done'') :
    Assembles key join (xs ++ ys) done done'' := by
  intro stack rest
  rw [List.append_assoc, hxs, hys]

theorem Assembles.alone (a : α) (done : Forest α) :
    Assembles key join [.alone a] done (done.attach join a .nil) := by
  intro stack rest
  cases stack <;> rfl

theorem Assembles.element {inner : List (Event α κ)} {kids : Forest α}
    (h : Assembles key join inner .nil kids) (a : α) (done : Forest α) :
    Assembles key join (.opens a :: (inner ++ [.closes (key a)])) done (done.attach join a kids) := by
  intro stack rest
  have hopen : assemble key join stack done (.opens a :: (inner ++ .closes (key a) :: rest)) =
      assemble key join ((a, done) :: stack) .nil (inner ++ .closes (key a) :: rest) := by
    cases stack <;> rfl
  rw [List.cons_append, List.append_assoc, List.singleton_append, hopen, h, assemble, if_pos rfl]

/-- The events of a forest put its trees behind what was read before. -/
theorem assembles_events {alone : α → Bool} {f : Forest α} (h : f.Childless alone)
    (done : Forest α) :
    Assembles key join (f.events key alone) done (f.joined join done) := by
  induction f generalizing done with
  | nil => exact .nil done
  | node a kids next ihk ihn =>
    obtain ⟨halone, hkids, hnext⟩ := h
    rw [Forest.events, Forest.joined_node]
    refine .append ?_ (ihn hnext _)
    split
    · rename_i ha
      rw [halone ha]
      exact .alone a done
    · exact .element (ihk hkids .nil) a done

/-- A forest is read back from its events, joined. -/
theorem assemble_events {alone : α → Bool} {f : Forest α} (h : f.Childless alone) :
    assemble key join [] .nil (f.events key alone) = some (f.joined join .nil) := by
  rw [← List.append_nil (f.events key alone), assembles_events h]
  rfl

end Reader

end Outline
