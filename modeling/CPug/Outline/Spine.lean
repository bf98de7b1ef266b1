import Mathlib.Data.List.TakeWhile
import Mathlib.Order.Basic
import Mathlib.Tactic.Set
import CPug.Outline.Forest

/-!
# Outlines and the spine machine

An outline is a list of labels with a depth each; `outline` is its meaning, the forest in
which the children of an entry are the entries after it that are deeper, up to the first
that is not.

The machine builds a forest from left to right. Its state is the path of open nodes (the
spine), each with the children it has so far, and the finished top-level trees. An entry
first closes the open nodes that are not shallower than it (`pop`), is then added, and stays
open only when the caller says so. `close_run_withNext` says that the machine computes the
outline when an entry is left open exactly if the entry after it is deeper; `run_append_top`
and `pop_zero` describe it on every other input as well.
-/

namespace Outline

universe u v

variable {α : Type u}

/-! ## Outlines -/

/-- The forest of an outline. -/
def outline (depth : α → Nat) : List α → Forest α
  | [] => .nil
  | a :: rest =>
      .node a (outline depth (rest.takeWhile fun b => decide (depth a < depth b)))
        (outline depth (rest.dropWhile fun b => decide (depth a < depth b)))
termination_by l => l.length
decreasing_by
  · have := (List.takeWhile_sublist (l := rest) fun b => decide (depth a < depth b)).length_le
    simp only [List.length_cons]
    omega
  · have := (List.dropWhile_sublist (l := rest) fun b => decide (depth a < depth b)).length_le
    simp only [List.length_cons]
    omega

/-- Every top-level node has depth `k`, its children have depth `k + 1`, and so on. -/
def Leveled (depth : α → Nat) (k : Nat) : Forest α → Prop
  | .nil => True
  | .node a kids next => depth a = k ∧ Leveled depth (k + 1) kids ∧ Leveled depth k next

theorem Leveled.le_depth {depth : α → Nat} {k : Nat} {f : Forest α} (h : Leveled depth k f) :
    ∀ a ∈ f.labels, k ≤ depth a := by
  induction f generalizing k with
  | nil => simp
  | node b kids next ihk ihn =>
    obtain ⟨hb, hk, hn⟩ := h
    intro a ha
    rcases List.mem_cons.mp ha with rfl | ha
    · omega
    · rcases List.mem_append.mp ha with ha | ha
      · have := ihk hk a ha
        omega
      · exact ihn hn a ha

theorem Leveled.head_depth {depth : α → Nat} {k : Nat} {f : Forest α} (h : Leveled depth k f)
    {a : α} {rest : List α} (ha : f.labels = a :: rest) : depth a = k := by
  cases f with
  | nil => simp at ha
  | node b kids next =>
    obtain ⟨rfl, -⟩ := List.cons.inj ha
    exact h.1

theorem leveled_withLevel (f : Forest α) (k : Nat) : Leveled Prod.fst k (f.withLevel k) := by
  induction f generalizing k with
  | nil => trivial
  | node a kids next ihk ihn => exact ⟨rfl, ihk (k + 1), ihn k⟩

theorem Leveled.map {β : Type v} {depth : α → Nat} {depth' : β → Nat} {g : α → β}
    (hg : ∀ a, depth' (g a) = depth a) {k : Nat} {f : Forest α} (h : Leveled depth k f) :
    Leveled depth' k (f.map g) := by
  induction f generalizing k with
  | nil => trivial
  | node a kids next ihk ihn => exact ⟨(hg a).trans h.1, ihk h.2.1, ihn h.2.2⟩

/-- A forest whose depths are its levels is the outline of its own traversal. -/
theorem outline_labels {depth : α → Nat} {k : Nat} {f : Forest α} (h : Leveled depth k f) :
    outline depth f.labels = f := by
  induction f generalizing k with
  | nil => rw [Forest.labels_nil, outline]
  | node a kids next ihk ihn =>
    obtain ⟨ha, hk, hn⟩ := h
    have hdeep : ∀ b ∈ kids.labels, decide (depth a < depth b) = true := by
      intro b hb
      have := hk.le_depth b hb
      exact decide_eq_true (by omega)
    have htake : (kids.labels ++ next.labels).takeWhile (fun b => decide (depth a < depth b)) =
        kids.labels := by
      rw [List.takeWhile_append_of_pos hdeep]
      cases hl : next.labels with
      | nil => simp
      | cons b rest =>
        have hb := hn.head_depth hl
        rw [List.takeWhile_cons_of_neg (by simp; omega), List.append_nil]
    have hdrop : (kids.labels ++ next.labels).dropWhile (fun b => decide (depth a < depth b)) =
        next.labels := by
      rw [List.dropWhile_append_of_pos hdeep]
      cases hl : next.labels with
      | nil => simp
      | cons b rest =>
        have hb := hn.head_depth hl
        rw [List.dropWhile_cons_of_neg (by simp; omega)]
    rw [Forest.labels_node, outline, htake, hdrop, ihk hk, ihn hn]

/-! ## The machine -/

/-- An open node and the children it has so far. -/
structure Frame (α : Type u) where
  label : α
  before : Forest α

/-- The open nodes, innermost first, and the finished top-level trees. -/
structure Spine (α : Type u) where
  frames : List (Frame α)
  top : Forest α

namespace Spine

/-- No node yet. -/
def empty : Spine α := ⟨[], .nil⟩

/-- Add finished trees below the innermost open node. -/
def add (S : Spine α) (f : Forest α) : Spine α :=
  match S.frames with
  | [] => ⟨[], S.top ++ f⟩
  | frame :: frames => ⟨⟨frame.label, frame.before ++ f⟩ :: frames, S.top⟩

/-- Open a new innermost node. -/
def push (S : Spine α) (a : α) : Spine α := ⟨⟨a, .nil⟩ :: S.frames, S.top⟩

/-- Close the innermost open nodes of depth at least `d`; `pending` are trees that wait for
the first node that stays open. -/
def settle (depth : α → Nat) (d : Nat) (pending : Forest α) : List (Frame α) → Forest α → Spine α
  | [], top => ⟨[], top ++ pending⟩
  | frame :: frames, top =>
      if d ≤ depth frame.label then
        settle depth d (.node frame.label (frame.before ++ pending) .nil) frames top
      else ⟨⟨frame.label, frame.before ++ pending⟩ :: frames, top⟩

/-- Close the open nodes of depth at least `d`. -/
def pop (depth : α → Nat) (d : Nat) (S : Spine α) : Spine α := settle depth d .nil S.frames S.top

/-- One entry: close what is not shallower, add the entry, leave it open if told to. -/
def insert (depth : α → Nat) (S : Spine α) (entry : α × Bool) : Spine α :=
  if entry.2 then (S.pop depth (depth entry.1)).push entry.1
  else (S.pop depth (depth entry.1)).add (.leaf entry.1)

/-- A run over a list of entries. -/
def run (depth : α → Nat) (S : Spine α) (entries : List (α × Bool)) : Spine α :=
  entries.foldl (insert depth) S

/-- The forest built so far: every open node closed. -/
def close (S : Spine α) : Forest α := (settle (fun _ => 0) 0 .nil S.frames S.top).top

variable {depth : α → Nat}

theorem insert_open (S : Spine α) (a : α) :
    S.insert depth (a, true) = (S.pop depth (depth a)).push a := rfl

theorem insert_closed (S : Spine α) (a : α) :
    S.insert depth (a, false) = (S.pop depth (depth a)).add (.leaf a) := rfl

@[simp] theorem run_nil (S : Spine α) : S.run depth [] = S := rfl

@[simp] theorem run_cons (S : Spine α) (entry : α × Bool) (entries : List (α × Bool)) :
    S.run depth (entry :: entries) = (S.insert depth entry).run depth entries := rfl

theorem run_append (S : Spine α) (xs ys : List (α × Bool)) :
    S.run depth (xs ++ ys) = (S.run depth xs).run depth ys :=
  List.foldl_append

@[simp] theorem add_nil (S : Spine α) : S.add .nil = S := by
  obtain ⟨frames, top⟩ := S
  cases frames <;> simp [add]

theorem add_add (S : Spine α) (f g : Forest α) : (S.add f).add g = S.add (f ++ g) := by
  obtain ⟨frames, top⟩ := S
  cases frames <;> simp [add]

@[simp] theorem push_add (S : Spine α) (a : α) (f : Forest α) :
    (S.push a).add f = ⟨⟨a, f⟩ :: S.frames, S.top⟩ := by
  simp [push, add]

/-- Adding trees does not change which node is innermost. -/
theorem head_add_lt {S : Spine α} {d : Nat}
    (h : ∀ frame ∈ S.frames.head?, depth frame.label < d) (f : Forest α) :
    ∀ frame ∈ (S.add f).frames.head?, depth frame.label < d := by
  obtain ⟨frames, top⟩ := S
  cases frames with
  | nil => simp [add]
  | cons frame frames => simpa [add] using h

theorem settle_eq (d : Nat) (pending : Forest α) (frames : List (Frame α)) (top : Forest α) :
    settle depth d pending frames top = (add ⟨frames, top⟩ pending).pop depth d := by
  cases frames with
  | nil => simp [settle, add, pop]
  | cons frame frames => simp [settle, add, pop]

/-- Nothing is closed when the innermost open node is shallower. -/
theorem pop_of_lt {S : Spine α} {d : Nat}
    (h : ∀ frame ∈ S.frames.head?, depth frame.label < d) : S.pop depth d = S := by
  obtain ⟨frames, top⟩ := S
  cases frames with
  | nil => simp [pop, settle]
  | cons frame frames =>
    have := h frame rfl
    simp [pop, settle, Nat.not_le.mpr this]

theorem pop_push (S : Spine α) (a : α) (f : Forest α) {d : Nat} (h : d ≤ depth a) :
    pop depth d ⟨⟨a, f⟩ :: S.frames, S.top⟩ = (S.add (.node a f .nil)).pop depth d := by
  rw [pop, settle, if_pos h, Forest.append_nil, settle_eq]

/-- After a `pop`, the innermost open node is shallower than the bound. -/
theorem head_pop_lt (S : Spine α) (d : Nat) :
    ∀ frame ∈ (S.pop depth d).frames.head?, depth frame.label < d := by
  obtain ⟨frames, top⟩ := S
  suffices h : ∀ pending, ∀ frame ∈ (settle depth d pending frames top).frames.head?,
      depth frame.label < d from h .nil
  induction frames with
  | nil => simp [settle]
  | cons frame frames ih =>
    intro pending
    by_cases hle : d ≤ depth frame.label
    · simpa [settle, hle] using ih _
    · simp only [settle, if_neg hle, List.head?_cons, Option.mem_def, Option.some.injEq]
      rintro _ rfl
      exact Nat.lt_of_not_le hle

theorem pop_settle {d d' : Nat} (h : d ≤ d') (pending : Forest α) (frames : List (Frame α))
    (top : Forest α) :
    (settle depth d' pending frames top).pop depth d = settle depth d pending frames top := by
  induction frames generalizing pending with
  | nil => simp [settle, pop]
  | cons frame frames ih =>
    by_cases hle : d' ≤ depth frame.label
    · have hle' : d ≤ depth frame.label := by omega
      simp only [settle, if_pos hle, if_pos hle', ih]
    · simp only [settle, if_neg hle, pop, Forest.append_nil]

/-- Closing twice is closing once at the lower bound. -/
theorem pop_pop {d d' : Nat} (h : d ≤ d') (S : Spine α) :
    (S.pop depth d').pop depth d = S.pop depth d := pop_settle h _ _ _

/-- An entry sees only what `pop` at its own depth leaves. -/
theorem insert_pop {d : Nat} (S : Spine α) (entry : α × Bool) (h : depth entry.1 ≤ d) :
    (S.pop depth d).insert depth entry = S.insert depth entry := by
  simp only [insert, pop_pop h]

theorem insert_pop_head {d : Nat} (S : Spine α) {entries : List (α × Bool)}
    (h : ∀ entry ∈ entries.head?, depth entry.1 ≤ d) (hne : entries ≠ []) :
    (S.pop depth d).run depth entries = S.run depth entries := by
  cases entries with
  | nil => exact absurd rfl hne
  | cons entry entries => rw [run_cons, run_cons, insert_pop S entry (h entry rfl)]

theorem pop_cons_of_le {d : Nat} {frame : Frame α} (h : d ≤ depth frame.label)
    (frames : List (Frame α)) (top : Forest α) :
    pop depth d ⟨frame :: frames, top⟩ =
      (add ⟨frames, top⟩ (.node frame.label frame.before .nil)).pop depth d :=
  pop_push ⟨frames, top⟩ frame.label frame.before h

/-- Induction along the nodes that `pop` closes. -/
theorem pop_induction (depth : α → Nat) (d : Nat) {motive : Spine α → Prop}
    (stays : ∀ S, S.pop depth d = S → motive S)
    (closes : ∀ frame frames top, d ≤ depth frame.label →
      motive (add ⟨frames, top⟩ (.node frame.label frame.before .nil)) →
        motive ⟨frame :: frames, top⟩) (S : Spine α) : motive S := by
  obtain ⟨frames, top⟩ := S
  induction h : frames.length generalizing frames top with
  | zero =>
    rw [List.eq_nil_of_length_eq_zero h]
    exact stays _ (pop_of_lt (by simp))
  | succ n ih =>
    cases frames with
    | nil => simp at h
    | cons frame frames =>
      by_cases hle : d ≤ depth frame.label
      · apply closes _ _ _ hle
        cases frames with
        | nil => exact stays _ (pop_of_lt (by simp [add]))
        | cons outer frames => exact ih _ _ (by simpa using h)
      · exact stays _ (pop_of_lt (by simpa using hle))

/-! ### Closing everything -/

theorem settle_zero (pending : Forest α) (frames : List (Frame α)) (top : Forest α) :
    settle depth 0 pending frames top = settle (fun _ => 0) 0 pending frames top := by
  induction frames generalizing pending with
  | nil => rfl
  | cons frame frames ih => simp [settle, ih]

theorem settle_zero_frames (pending : Forest α) (frames : List (Frame α)) (top : Forest α) :
    (settle (fun _ => 0) 0 pending frames top).frames = [] := by
  induction frames generalizing pending with
  | nil => rfl
  | cons frame frames ih => simpa [settle] using ih _

/-- Depth `0` closes every open node. -/
theorem pop_zero (S : Spine α) : S.pop depth 0 = ⟨[], S.close⟩ := by
  rw [pop, settle_zero]
  have hframes := settle_zero_frames .nil S.frames S.top
  rw [close]
  generalize settle (fun _ => 0) 0 .nil S.frames S.top = T at hframes
  obtain ⟨frames, top⟩ := T
  cases hframes
  rfl

theorem close_pop (S : Spine α) (d : Nat) : (S.pop depth d).close = S.close := by
  have h : (S.pop depth d).pop depth 0 = S.pop depth 0 := pop_pop (Nat.zero_le d) S
  rw [pop_zero, pop_zero] at h
  exact (Spine.mk.inj h).2

theorem close_top (f : Forest α) : close ⟨[], f⟩ = f := by
  simp [close, settle]

/-! ### A finished prefix of the top level has no influence -/

/-- Put finished trees before everything else. -/
def under (f : Forest α) (S : Spine α) : Spine α := ⟨S.frames, f ++ S.top⟩

theorem settle_under (f : Forest α) (d : Nat) (pending : Forest α) (frames : List (Frame α))
    (top : Forest α) :
    settle depth d pending frames (f ++ top) = under f (settle depth d pending frames top) := by
  induction frames generalizing pending with
  | nil => simp [settle, under]
  | cons frame frames ih =>
    by_cases hle : d ≤ depth frame.label
    · simp only [settle, if_pos hle, ih]
    · simp only [settle, if_neg hle, under]

theorem insert_under (f : Forest α) (S : Spine α) (entry : α × Bool) :
    (under f S).insert depth entry = under f (S.insert depth entry) := by
  have hpop : (under f S).pop depth (depth entry.1) = under f (S.pop depth (depth entry.1)) :=
    settle_under f _ _ _ _
  rw [insert, insert, hpop]
  split
  · rfl
  · generalize S.pop depth (depth entry.1) = T
    obtain ⟨frames, top⟩ := T
    cases frames <;> simp [under, add]

theorem run_under (f : Forest α) (S : Spine α) (entries : List (α × Bool)) :
    (under f S).run depth entries = under f (S.run depth entries) := by
  induction entries generalizing S with
  | nil => rfl
  | cons entry entries ih => rw [run_cons, run_cons, insert_under, ih]

theorem close_under (f : Forest α) (S : Spine α) : (under f S).close = f ++ S.close := by
  rw [close, under, settle_under]
  rfl

/-- A run that comes to an entry of depth `0` starts afresh there. -/
theorem close_run_append (S : Spine α) (xs ys : List (α × Bool))
    (h : ∀ entry ∈ ys.head?, depth entry.1 = 0) :
    (S.run depth (xs ++ ys)).close = (S.run depth xs).close ++ (empty.run depth ys).close := by
  rw [run_append]
  cases ys with
  | nil => simp [empty, close_top]
  | cons entry ys =>
    have hpop : (S.run depth xs).run depth (entry :: ys) =
        ((S.run depth xs).pop depth 0).run depth (entry :: ys) :=
      (insert_pop_head _ (by simpa using h entry rfl) (by simp)).symm
    have hunder : (⟨[], (S.run depth xs).close⟩ : Spine α) = under (S.run depth xs).close empty := by
      simp [under, empty]
    rw [hpop, pop_zero, hunder, run_under, close_under]

/-! ### The machine computes the outline -/

/-- The entries of an outline, each left open when the entry after it is deeper; `last` is
the depth that follows the last one. -/
def withNext (depth : α → Nat) (last : Nat) : List α → List (α × Bool)
  | [] => []
  | a :: rest =>
      (a, decide (depth a < (rest.head?.map depth).getD last)) :: withNext depth last rest

theorem withNext_append (last : Nat) (xs ys : List α) :
    withNext depth last (xs ++ ys) =
      withNext depth ((ys.head?.map depth).getD last) xs ++ withNext depth last ys := by
  induction xs with
  | nil => rfl
  | cons a xs ih =>
    rw [List.cons_append, withNext, ih, withNext, List.cons_append]
    cases xs <;> rfl

/-- A node and the entries of its children, when these end up below it. -/
theorem pop_run_insert {a : α} {S : Spine α}
    (hlt : ∀ frame ∈ S.frames.head?, depth frame.label < depth a) {opened : Bool}
    {entries : List (α × Bool)} {kids : Forest α}
    (hkids : ((S.push a).run depth entries).pop depth (depth a + 1) = (S.push a).add kids)
    (hclosed : opened = false → entries = [] ∧ kids = .nil) :
    ((S.insert depth (a, opened)).run depth entries).pop depth (depth a) =
      S.add (.node a kids .nil) := by
  have hpop : S.pop depth (depth a) = S := pop_of_lt hlt
  have hadd : (S.add (.node a kids .nil)).pop depth (depth a) = S.add (.node a kids .nil) :=
    pop_of_lt (head_add_lt hlt _)
  cases opened with
  | true =>
    rw [insert_open, hpop, ← pop_pop (Nat.le_succ (depth a)), hkids, push_add,
      pop_push S a _ (le_refl _), hadd]
  | false =>
    obtain ⟨rfl, rfl⟩ := hclosed rfl
    rw [insert_closed, hpop, run_nil]
    exact hadd

/-- The first entry and the deeper ones behind it: it is open when there are any, and they end up
below it. -/
theorem pop_run_first {S : Spine α} {a : α} (last last' : Nat) (rest : List α)
    (hS : ∀ frame ∈ S.frames.head?, depth frame.label < depth a)
    (hkids : ((S.push a).run depth
        (withNext depth last' (rest.takeWhile fun c => decide (depth a < depth c)))).pop depth
          (depth a + 1) =
      (S.push a).add (outline depth (rest.takeWhile fun c => decide (depth a < depth c)))) :
    ((S.insert depth (a, decide (depth a < (rest.head?.map depth).getD last))).run depth
        (withNext depth last' (rest.takeWhile fun c => decide (depth a < depth c)))).pop depth
          (depth a) =
      S.add (.node a (outline depth (rest.takeWhile fun c => decide (depth a < depth c))) .nil) := by
  apply pop_run_insert hS hkids
  intro hclosed
  have hnil : rest.takeWhile (fun c => decide (depth a < depth c)) = [] := by
    cases rest with
    | nil => rfl
    | cons c cs =>
      have hc : decide (depth a < depth c) = false := hclosed
      exact List.takeWhile_cons_of_neg (by simpa using hc)
  rw [hnil, outline]
  exact ⟨rfl, rfl⟩

/-- The run lemma: over a list of entries of depth at least `b`, started where only shallower
nodes are open, the machine adds the outline of the list, up to nodes that `b` closes. -/
theorem pop_run_withNext (last : Nat) (xs : List α) {b : Nat} (hb : ∀ a ∈ xs, b ≤ depth a)
    {S : Spine α} (hS : S.pop depth b = S)
    (hlt : ∀ frame ∈ S.frames.head?, depth frame.label < b) :
    (S.run depth (withNext depth last xs)).pop depth b = S.add (outline depth xs) := by
  induction h : xs.length using Nat.strongRecOn generalizing xs b S last with
  | ind n ih =>
  cases xs with
  | nil => simp [withNext, outline, hS]
  | cons a rest =>
    have hab : b ≤ depth a := hb a List.mem_cons_self
    let deeper : α → Bool := fun c => decide (depth a < depth c)
    set kids := rest.takeWhile deeper with hkids
    set later := rest.dropWhile deeper with hlater
    have hsplit : rest = kids ++ later := List.takeWhile_append_dropWhile.symm
    have hlen : rest.length < n := by simp only [List.length_cons] at h; omega
    have hkidsLen : kids.length ≤ rest.length := (List.takeWhile_sublist _).length_le
    have hlaterLen : later.length ≤ rest.length := (List.dropWhile_sublist _).length_le
    have hkidsDeep : ∀ c ∈ kids, depth a + 1 ≤ depth c := fun c hc => by
      have := List.mem_takeWhile_imp hc
      exact Nat.succ_le_of_lt (by simpa [deeper] using this)
    have hlaterLow : ∀ c ∈ later, b ≤ depth c := fun c hc =>
      hb c (List.mem_cons_of_mem _ ((List.dropWhile_sublist _).mem hc))
    have hlaterHead : ∀ c ∈ later.head?, depth c ≤ depth a := fun c hc => by
      have := List.head?_dropWhile_not deeper rest
      rw [← hlater, hc] at this
      simpa [deeper] using this
    have hout : outline depth (a :: rest) = .node a (outline depth kids) (outline depth later) := by
      rw [outline]
    have hlta : ∀ frame ∈ S.frames.head?, depth frame.label < depth a := fun frame hf =>
      lt_of_lt_of_le (hlt frame hf) hab
    have hmid : ∀ last', ((S.insert depth (a, decide (depth a <
          (rest.head?.map depth).getD last))).run depth (withNext depth last' kids)).pop depth
            (depth a) = S.add (.node a (outline depth kids) .nil) := by
      intro last'
      have hpush : (S.push a).pop depth (depth a + 1) = S.push a := pop_of_lt (by simp [push])
      have hkidsRun := ih kids.length (by omega) last' kids hkidsDeep hpush (by simp [push]) rfl
      exact pop_run_first last last' rest hlta hkidsRun
    rw [withNext, run_cons, hout]
    conv_lhs => rw [hsplit, withNext_append, run_append]
    rw [← hsplit]
    specialize hmid ((later.head?.map depth).getD last)
    set T := (S.insert depth (a, decide (depth a < (rest.head?.map depth).getD last))).run depth
      (withNext depth ((later.head?.map depth).getD last) kids)
    -- The later entries: they start where `a` is closed.
    have hadd : (S.add (.node a (outline depth kids) .nil)).add (outline depth later) =
        S.add (.node a (outline depth kids) (outline depth later)) := by
      rw [add_add]
      rfl
    have hhead : ∀ frame ∈ (S.add (.node a (outline depth kids) .nil)).frames.head?,
        depth frame.label < b := head_add_lt hlt _
    cases hl : later with
    | nil =>
      rw [withNext, run_nil, ← pop_pop hab, hmid, outline, pop_of_lt hhead]
    | cons c cs =>
      have hc := hlaterHead c (by rw [hl]; rfl)
      have hstart : T.run depth (withNext depth last (c :: cs)) =
          (T.pop depth (depth a)).run depth (withNext depth last (c :: cs)) :=
        (insert_pop_head T (by simpa [withNext] using hc) (by simp [withNext])).symm
      rw [hstart, hmid, ← hl,
        ih later.length (by omega) last later hlaterLow (pop_of_lt hhead) hhead rfl, hadd]

/-- From the empty state the machine builds the outline. -/
theorem close_run_withNext (last : Nat) (xs : List α) :
    (empty.run depth (withNext depth last xs)).close = outline depth xs := by
  have h : (empty.run depth (withNext depth last xs)).pop depth 0 = empty.add (outline depth xs) :=
    pop_run_withNext last xs (fun _ _ => Nat.zero_le _) (pop_of_lt (by simp [empty]))
      (by simp [empty])
  rw [pop_zero] at h
  simpa [add, empty] using congrArg Spine.top h

/-! ### Order and relabelling -/

theorem labels_settle (pending : Forest α) (frames : List (Frame α)) (top : Forest α) :
    (settle (fun _ => 0) 0 pending frames top).top.labels =
      (settle (fun _ => 0) 0 .nil frames top).top.labels ++ pending.labels := by
  induction frames generalizing pending with
  | nil => simp [settle]
  | cons frame frames ih =>
    simp only [settle, Nat.le_refl, if_true]
    rw [ih, ih (.node frame.label (frame.before ++ .nil) .nil)]
    simp

theorem labels_close_add (S : Spine α) (f : Forest α) :
    (S.add f).close.labels = S.close.labels ++ f.labels := by
  have h : (S.add f).close = (settle (fun _ => 0) 0 f S.frames S.top).top := by
    rw [settle_eq]
    rfl
  rw [h, labels_settle]
  rfl

theorem close_push (S : Spine α) (a : α) : (S.push a).close = (S.add (.leaf a)).close := by
  have h : (S.push a).pop (fun _ => 0) 0 = (S.add (.leaf a)).pop (fun _ => 0) 0 :=
    pop_push S a .nil (Nat.zero_le _)
  rw [pop_zero, pop_zero] at h
  exact (Spine.mk.inj h).2

/-- The traversal of the forest is the list of the entries, in order. -/
theorem labels_close_run (S : Spine α) (entries : List (α × Bool)) :
    (S.run depth entries).close.labels = S.close.labels ++ entries.map Prod.fst := by
  induction entries generalizing S with
  | nil => simp
  | cons entry entries ih =>
    have h : (S.insert depth entry).close.labels = S.close.labels ++ [entry.1] := by
      rw [insert]
      split
      · rw [close_push, labels_close_add, close_pop]
        rfl
      · rw [labels_close_add, close_pop]
        rfl
    rw [run_cons, ih, h]
    simp

variable {β : Type v} {depth' : β → Nat} {g : α → β}

/-- Relabelling a state. -/
def map (g : α → β) (S : Spine α) : Spine β :=
  ⟨S.frames.map fun frame => ⟨g frame.label, frame.before.map g⟩, S.top.map g⟩

theorem settle_map {d d' : Nat} (hd : ∀ a, d' ≤ depth' (g a) ↔ d ≤ depth a) (pending : Forest α)
    (frames : List (Frame α)) (top : Forest α) :
    settle depth' d' (pending.map g) (frames.map fun frame => ⟨g frame.label, frame.before.map g⟩)
        (top.map g) = (settle depth d pending frames top).map g := by
  induction frames generalizing pending with
  | nil => simp [settle, map]
  | cons frame frames ih =>
    rw [List.map_cons, settle, settle]
    by_cases hle : d ≤ depth frame.label
    · rw [if_pos hle, if_pos ((hd frame.label).mpr hle), ← ih]
      simp
    · rw [if_neg hle, if_neg fun h => hle ((hd frame.label).mp h)]
      simp [map]

theorem close_map (S : Spine α) : (S.map g).close = S.close.map g := by
  have h : (S.map g).pop (fun _ => 0) 0 = (S.pop (fun _ => 0) 0).map g :=
    settle_map (fun _ => Iff.rfl) .nil S.frames S.top
  exact congrArg Spine.top h

theorem insert_map (hg : ∀ a b, depth' (g a) ≤ depth' (g b) ↔ depth a ≤ depth b) (S : Spine α)
    (entry : α × Bool) :
    (S.map g).insert depth' (entry.map g id) = (S.insert depth entry).map g := by
  have hpop : (S.map g).pop depth' (depth' (g entry.1)) = (S.pop depth (depth entry.1)).map g :=
    settle_map (hg entry.1) .nil S.frames S.top
  simp only [insert, Prod.map_fst, Prod.map_snd, id, hpop]
  generalize S.pop depth (depth entry.1) = T
  obtain ⟨frames, top⟩ := T
  split
  · rfl
  · cases frames <;> simp [map, add, Forest.leaf]

/-- A relabelling that keeps the order of the depths commutes with a run. -/
theorem run_map (hg : ∀ a b, depth' (g a) ≤ depth' (g b) ↔ depth a ≤ depth b) (S : Spine α)
    (entries : List (α × Bool)) :
    (S.map g).run depth' (entries.map (Prod.map g id)) = (S.run depth entries).map g := by
  induction entries generalizing S with
  | nil => rfl
  | cons entry entries ih => rw [List.map_cons, run_cons, run_cons, insert_map hg, ih]

end Spine

end Outline
