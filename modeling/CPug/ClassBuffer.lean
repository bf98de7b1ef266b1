import CPug.Growth
import CPug.Escaping

/-!
# The class buffer

`parse_classes` keeps the names of a node in a block that grows by five slots. Its size is stored
nowhere: it is taken from `class_count`. `ClassesIn` says what the block and the counter are for a list
of names; every call keeps it, with the list of `parseClasses` (`ClassBuffer.parseClasses_spec`).
-/

namespace CPug

open Memory

/-- The class fields of a node: the pointer `classes`, which may be `NULL`, and `class_count`. -/
structure ClassBuffer where
  classes : Option (Block CString)
  classCount : Nat
deriving Repr, DecidableEq

namespace ClassBuffer

/-- The class fields of a node from `ast_node_create`. -/
def fresh : ClassBuffer where
  classes := none
  classCount := 0

/-- The last statement of `parse_classes`, on the block it has by then. -/
def appendName (classes : Block CString) (classCount : Nat) (className : CString) :
    Option ClassBuffer :=
  (classes.write classCount className).map fun classes =>
    { classes := some classes, classCount := uint (classCount + 1) }

/-- `parse_classes`, where `malloc` and `realloc` succeed. There is no result if a slot is written that
is not allocated. -/
def parseClasses (node : ClassBuffer) (className : CString) : Option ClassBuffer :=
  if className = [] then some node
  else
    match node.classes with
    | none => appendName (Block.malloc 5) 0 className
    | some classes =>
      if node.classCount % 5 = 0 then
        appendName (classes.realloc (uint (node.classCount + 5))) node.classCount className
      else appendName classes node.classCount className

/-- The block behind the pointer, that of `NULL` being empty. -/
def block (node : ClassBuffer) : Block CString := node.classes.getD (Block.malloc 0)

/-- `classes[0]` up to `classes[class_count - 1]`, if all of them can be read. -/
def names (node : ClassBuffer) : Option (List CString) :=
  Block.readFirst node.classCount node.block.slots

/-- `render_classes` on the node. -/
def renderClasses (node : ClassBuffer) : Option CString := node.names.map CPug.renderClasses

/-- The buffer of a list of names: the slots are the least multiple of five that has room for them. -/
structure ClassesIn (node : ClassBuffer) (classes : List CString) : Prop where
  count_eq : node.classCount = classes.length
  slots_eq : node.block.size = 5 * ((classes.length + 4) / 5)
  holds : node.block.Holds classes

theorem classesIn_fresh : ClassesIn fresh [] where
  count_eq := rfl
  slots_eq := Block.size_malloc 0
  holds := Block.Holds.nil _

/-- A name goes into the first slot behind the others. -/
theorem appendName_spec {block : Block CString} {classes : List CString}
    (hholds : block.Holds classes) (hslots : block.size = 5 * ((classes.length + 1 + 4) / 5))
    (hlen : classes.length + 1 < 2 ^ 32) (className : CString) :
    ∃ node, appendName block classes.length className = some node ∧
      node.ClassesIn (classes ++ [className]) := by
  obtain ⟨block', hwrite, hholds', hsize⟩ := hholds.write (by omega) className
  have hlength : (classes ++ [className]).length = classes.length + 1 := by simp
  refine ⟨_, by rw [appendName, hwrite]; rfl, ?_⟩
  constructor
  case count_eq =>
    show uint (classes.length + 1) = _
    rw [hlength]
    exact Nat.mod_eq_of_lt hlen
  case slots_eq =>
    show block'.size = _
    rw [hlength, hsize, hslots]
  case holds => exact hholds'

/-- One call of `parse_classes`: the buffer stays that of the names of the node. -/
theorem parseClasses_spec {buffer : ClassBuffer} {node : ASTNode}
    (h : buffer.ClassesIn node.classes) (hlen : node.classes.length + 5 < 2 ^ 32)
    (className : CString) :
    ∃ buffer', buffer.parseClasses className = some buffer' ∧
      buffer'.ClassesIn (CPug.parseClasses node className).classes := by
  rw [parseClasses, CPug.parseClasses]
  by_cases hempty : className = []
  · rw [if_pos hempty, if_pos hempty]
    exact ⟨buffer, rfl, h⟩
  · rw [if_neg hempty, if_neg hempty]
    have hslots := h.slots_eq
    have hholds := h.holds
    rw [block] at hslots hholds
    cases hclasses : buffer.classes with
    | none =>
      -- `NULL` has no slot, so there is no name yet.
      rw [hclasses, Option.getD_none, Block.size_malloc] at hslots
      have hnil : node.classes = [] := List.length_eq_zero_iff.mp (by omega)
      rw [hnil]
      exact appendName_spec (Block.Holds.nil _) (Block.size_malloc 5) (by decide) className
    | some classes =>
      rw [hclasses, Option.getD_some] at hslots hholds
      simp only [h.count_eq]
      by_cases hfull : node.classes.length % 5 = 0
      · have huint : uint (node.classes.length + 5) = node.classes.length + 5 :=
          Nat.mod_eq_of_lt hlen
        rw [if_pos hfull, huint]
        apply appendName_spec
        · exact hholds.realloc (by omega)
        · rw [Block.size_realloc]
          omega
        · omega
      · rw [if_neg hfull]
        apply appendName_spec hholds
        · omega
        · omega

/-- A run of `parse_classes`. -/
theorem foldlM_parseClasses {buffer : ClassBuffer} {node : ASTNode} (names : List CString)
    (h : buffer.ClassesIn node.classes)
    (hlen : node.classes.length + names.length + 5 ≤ 2 ^ 32) :
    ∃ buffer', names.foldlM parseClasses buffer = some buffer' ∧
      buffer'.ClassesIn (names.foldl CPug.parseClasses node).classes := by
  induction names generalizing buffer node with
  | nil => exact ⟨buffer, rfl, h⟩
  | cons name names ih =>
    rw [List.length_cons] at hlen
    obtain ⟨buffer', hcall, h'⟩ := parseClasses_spec h (by omega) name
    have hle : (CPug.parseClasses node name).classes.length ≤ node.classes.length + 1 := by
      rw [CPug.parseClasses]
      split
      · omega
      · simp
    obtain ⟨buffer'', hrun, h''⟩ := ih h' (by omega)
    exact ⟨buffer'', by rw [List.foldlM_cons, hcall]; exact hrun, h''⟩

end ClassBuffer

/-- Without empty names among them, the calls append all names. -/
theorem classes_foldl_parseClasses {names : List CString} (hnames : ∀ name ∈ names, name ≠ [])
    (node : ASTNode) : (names.foldl parseClasses node).classes = node.classes ++ names := by
  induction names generalizing node with
  | nil => exact (List.append_nil _).symm
  | cons name names ih =>
    rw [List.forall_mem_cons] at hnames
    rw [List.foldl_cons, ih hnames.2, parseClasses, if_neg hnames.1]
    simp

/-! ## The class attribute -/

theorem intercalate_map_escapeHtml (names : List CString) :
    [' '].intercalate (names.map escapeHtml) = escapeHtml ([' '].intercalate names) := by
  induction names with
  | nil => rfl
  | cons name names ih =>
    by_cases hne : names = []
    · subst hne
      rw [List.map_singleton, List.intercalate_singleton, List.intercalate_singleton]
    · have hmap : names.map escapeHtml ≠ [] := by simpa using hne
      rw [List.map_cons, List.intercalate_cons_of_ne_nil hmap, List.intercalate_cons_of_ne_nil hne,
        ih, escapeHtml_append, escapeHtml_append]
      rfl

/-- The markup of `render_classes` is one attribute, whose value is the names. -/
theorem readAttributes_renderClasses {names : List CString} (hne : names ≠ []) :
    readAttributes (renderClasses names) = some [("class".toList, [' '].intercalate names)] := by
  have hquote : '"' ∉ escapeHtml ([' '].intercalate names) := fun hmem =>
    ((safeEncoding_escapeHtml _).safe _ hmem).2.2.1 rfl
  have hmarkup : renderClasses names =
      ' ' :: ("class".toList ++ '=' :: '"' ::
        (escapeHtml ([' '].intercalate names) ++ '"' :: [])) := by
    rw [renderClasses, if_neg hne, intercalate_map_escapeHtml]
    simp
  rw [hmarkup, readAttributes_attribute (by decide) hquote, decodeEntities_escapeHtml, readAttributes]
  rfl

/-- **Classes.** After `n` calls of `parse_classes` with non-empty names the buffer has the least
multiple of five slots for them, it holds them in order, and `render_classes` writes them as one
attribute. -/
theorem parseClasses_buffer {names : List CString} (hnames : ∀ name ∈ names, name ≠ [])
    (hlen : names.length < 2 ^ 32 - 5) :
    ∃ node, names.foldlM ClassBuffer.parseClasses .fresh = some node ∧
      node.block.size = 5 * ((names.length + 4) / 5) ∧ node.classCount = names.length ∧
      node.names = some names ∧
      (names ≠ [] → ∃ output, node.renderClasses = some output ∧
        readAttributes output = some [("class".toList, [' '].intercalate names)]) := by
  have hclasses := classes_foldl_parseClasses hnames (astNodeCreate .tokenTag 0)
  have hroom : (astNodeCreate .tokenTag 0).classes.length + names.length + 5 ≤ 2 ^ 32 := by
    show 0 + names.length + 5 ≤ 2 ^ 32
    omega
  obtain ⟨node, hrun, h⟩ :=
    ClassBuffer.foldlM_parseClasses names ClassBuffer.classesIn_fresh hroom
  rw [hclasses] at h
  have hread : node.names = some names := by
    rw [ClassBuffer.names, h.count_eq]
    exact h.holds.readFirst
  refine ⟨node, hrun, h.slots_eq, h.count_eq, hread, fun hne => ⟨renderClasses names, ?_, ?_⟩⟩
  · rw [ClassBuffer.renderClasses, hread, Option.map_some]
  · exact readAttributes_renderClasses hne

theorem parseClasses_buffer_three :
    ∃ node, (["a".toList, "b&".toList, "c".toList] : List CString).foldlM
        ClassBuffer.parseClasses .fresh = some node ∧
      node.block.size = 5 ∧ node.classCount = 3 ∧
      node.names = some ["a".toList, "b&".toList, "c".toList] ∧
      ((["a".toList, "b&".toList, "c".toList] : List CString) ≠ [] →
        ∃ output, node.renderClasses = some output ∧
          readAttributes output = some [("class".toList, "a b& c".toList)]) :=
  parseClasses_buffer (by decide) (by decide)

end CPug
