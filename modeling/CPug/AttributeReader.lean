import CPug.Attributes
import CPug.Renderer

/-!
# Reading rendered attributes back

`readAttributes` reads markup of the form ` name="value"` back into names and values, decoding the
entities of `entityTable`. `render_attributes` writes the values as they are, so it is read
back exactly when no value holds a double quote or an entity (`readsBack_iff`); the other emitters
escape.
-/

namespace CPug

/-! ## Entities -/

/-- The entities, each with the character it stands for. -/
def entityTable : List (CString × Char) :=
  [("&amp;".toList, '&'), ("&lt;".toList, '<'), ("&gt;".toList, '>'), ("&quot;".toList, '"'),
    ("&#39;".toList, '\'')]

/-- The entity that the string begins with. -/
def entityAt (s : CString) : Option (CString × Char) :=
  entityTable.find? fun entry => entry.1.isPrefixOf s

/-- Replace every entity by its character, from left to right. -/
def decodeEntities : CString → CString
  | [] => []
  | c :: cs =>
    match entityAt (c :: cs) with
    | some entry => entry.2 :: decodeEntities (cs.drop (entry.1.length - 1))
    | none => c :: decodeEntities cs
termination_by s => s.length
decreasing_by
  · simp only [List.length_drop, List.length_cons]
    omega
  · simp

/-- One of the five entities occurs in the string. -/
def HasEntity (s : CString) : Prop := ∃ entry ∈ entityTable, entry.1 <:+: s

theorem entityAt_eq_some {s : CString} {entry : CString × Char} (h : entityAt s = some entry) :
    entry ∈ entityTable ∧ entry.1 <+: s := by
  have hpre := List.find?_some h
  exact ⟨List.mem_of_find?_eq_some h, List.isPrefixOf_iff_prefix.mp hpre⟩

theorem entityAt_eq_none {s : CString} :
    entityAt s = none ↔ ¬ ∃ entry ∈ entityTable, entry.1 <+: s := by
  rw [entityAt, List.find?_eq_none]
  constructor
  · rintro h ⟨entry, hentry, hpre⟩
    exact h entry hentry (List.isPrefixOf_iff_prefix.mpr hpre)
  · intro h entry hentry hpre
    exact h ⟨entry, hentry, List.isPrefixOf_iff_prefix.mp hpre⟩

theorem two_le_length_entity : ∀ entry ∈ entityTable, 2 ≤ entry.1.length := by
  intro entry hentry
  simp only [entityTable, List.mem_cons, List.not_mem_nil, or_false] at hentry
  rcases hentry with rfl | rfl | rfl | rfl | rfl <;> decide

theorem hasEntity_cons (c : Char) (cs : CString) :
    HasEntity (c :: cs) ↔ (∃ entry ∈ entityTable, entry.1 <+: c :: cs) ∨ HasEntity cs := by
  constructor
  · rintro ⟨entry, hentry, hinfix⟩
    rcases List.infix_cons_iff.mp hinfix with hpre | hinfix
    · exact Or.inl ⟨entry, hentry, hpre⟩
    · exact Or.inr ⟨entry, hentry, hinfix⟩
  · rintro (⟨entry, hentry, hpre⟩ | ⟨entry, hentry, hinfix⟩)
    · exact ⟨entry, hentry, hpre.isInfix⟩
    · exact ⟨entry, hentry, List.infix_cons_iff.mpr (Or.inr hinfix)⟩

/-- Decoding leaves a string without entities as it is and shortens every other one. -/
theorem decodeEntities_spec (s : CString) :
    (¬ HasEntity s ∧ decodeEntities s = s) ∨
      (HasEntity s ∧ (decodeEntities s).length < s.length) := by
  fun_induction decodeEntities s with
  | case1 =>
    refine Or.inl ⟨?_, rfl⟩
    rintro ⟨entry, hentry, hinfix⟩
    have hlen := two_le_length_entity entry hentry
    rw [List.infix_nil.mp hinfix] at hlen
    simp at hlen
  | case2 c cs entry hfind ih =>
    obtain ⟨hentry, hpre⟩ := entityAt_eq_some hfind
    have hlen := two_le_length_entity entry hentry
    have hle : (decodeEntities (cs.drop (entry.1.length - 1))).length ≤
        (cs.drop (entry.1.length - 1)).length := by
      rcases ih with ⟨-, hself⟩ | ⟨-, hlt⟩
      · rw [hself]
      · exact hlt.le
    have hcs := hpre.length_le
    refine Or.inr ⟨(hasEntity_cons c cs).mpr (Or.inl ⟨entry, hentry, hpre⟩), ?_⟩
    simp only [List.length_cons, List.length_drop] at hle hcs ⊢
    omega
  | case3 c cs hfind ih =>
    have hnone := entityAt_eq_none.mp hfind
    rw [hasEntity_cons]
    rcases ih with ⟨hno, hself⟩ | ⟨hyes, hlt⟩
    · exact Or.inl ⟨fun h => h.elim hnone hno, by rw [hself]⟩
    · exact Or.inr ⟨Or.inr hyes, by simpa using hlt⟩

theorem decodeEntities_eq_self_iff (s : CString) : decodeEntities s = s ↔ ¬ HasEntity s := by
  rcases decodeEntities_spec s with ⟨hno, hself⟩ | ⟨hyes, hlt⟩
  · exact ⟨fun _ => hno, fun _ => hself⟩
  · refine ⟨fun h => ?_, fun h => absurd hyes h⟩
    rw [h] at hlt
    exact absurd hlt (lt_irrefl _)

theorem length_decodeEntities_le (s : CString) : (decodeEntities s).length ≤ s.length := by
  rcases decodeEntities_spec s with ⟨-, hself⟩ | ⟨-, hlt⟩
  · rw [hself]
  · exact hlt.le

/-! ## The reader -/

/-- Read attributes: a space, the name up to `=`, a value between double quotes. -/
def readAttributes (markup : CString) : Option (List (CString × CString)) :=
  match markup with
  | [] => some []
  | ' ' :: s =>
    match _h : s.dropWhile (· != '=') with
    | '=' :: '"' :: after =>
      match _h' : after.dropWhile (· != '"') with
      | '"' :: rest =>
        (readAttributes rest).map fun attrs =>
          (s.takeWhile (· != '='), decodeEntities (after.takeWhile (· != '"'))) :: attrs
      | _ => none
    | _ => none
  | _ => none
termination_by markup.length
decreasing_by
  have h1 := (List.dropWhile_sublist (l := s) (· != '=')).length_le
  have h2 := (List.dropWhile_sublist (l := after) (· != '"')).length_le
  rw [_h] at h1
  rw [_h'] at h2
  simp only [List.length_cons] at h1 h2 ⊢
  omega

/-- The attributes are read back from their markup as they are. -/
def ReadsBack (attrs : List Attribute) : Prop :=
  readAttributes (renderAttributes attrs) = some (attrs.map fun attr => (attr.name, attr.value))

theorem renderAttributes_cons {attr : Attribute} (hattr : Parsed attr) (attrs : List Attribute) :
    renderAttributes (attr :: attrs) =
      ' ' :: (attr.name ++ '=' :: '"' :: (attr.value ++ '"' :: renderAttributes attrs)) := by
  simp [renderAttributes, renderAttribute, hattr.type]

/-- The value that is read runs to the first quote. -/
theorem readAttributes_attribute {name value rest : CString} (hname : '=' ∉ name)
    (hvalue : '"' ∉ value) :
    readAttributes (' ' :: (name ++ '=' :: '"' :: (value ++ '"' :: rest))) =
      (readAttributes rest).map fun attrs => (name, decodeEntities value) :: attrs := by
  have hname' := forall_ne_of_not_mem hname
  have hvalue' := forall_ne_of_not_mem hvalue
  have hdrop : (name ++ '=' :: '"' :: (value ++ '"' :: rest)).dropWhile (· != '=') =
      '=' :: '"' :: (value ++ '"' :: rest) :=
    dropWhile_append_stop hname' (.cons rfl _)
  have htake : (name ++ '=' :: '"' :: (value ++ '"' :: rest)).takeWhile (· != '=') = name :=
    takeWhile_append_stop hname' (.cons rfl _)
  have hdrop' : (value ++ '"' :: rest).dropWhile (· != '"') = '"' :: rest :=
    dropWhile_append_stop hvalue' (.cons rfl _)
  have htake' : (value ++ '"' :: rest).takeWhile (· != '"') = value :=
    takeWhile_append_stop hvalue' (.cons rfl _)
  rw [readAttributes]
  split
  · rename_i after h
    rw [hdrop] at h
    cases h
    split
    · rename_i rest' h
      rw [hdrop'] at h
      cases h
      rw [htake, htake']
    · rename_i h
      exact absurd hdrop' (h _)
  · rename_i h
    exact absurd hdrop (h _)

theorem readsBack_nil : ReadsBack [] := by
  rw [ReadsBack, renderAttributes, List.flatMap_nil, readAttributes]
  rfl

/-- One attribute: it has to be read back itself, and then the others. -/
theorem readsBack_cons_iff {attr : Attribute} (hattr : Parsed attr) (attrs : List Attribute) :
    ReadsBack (attr :: attrs) ↔
      ('"' ∉ attr.value ∧ ¬ HasEntity attr.value) ∧ ReadsBack attrs := by
  rw [ReadsBack, renderAttributes_cons hattr, List.map_cons]
  by_cases hquote : '"' ∈ attr.value
  · -- The value that is read ends at the quote inside the value.
    obtain ⟨before, after, hvalue, hbefore⟩ := List.eq_append_cons_of_mem hquote
    have hmarkup : attr.value ++ '"' :: renderAttributes attrs =
        before ++ '"' :: (after ++ '"' :: renderAttributes attrs) := by simp [hvalue]
    rw [hmarkup, readAttributes_attribute hattr.name_eq hbefore]
    constructor
    · intro h
      obtain ⟨read, -, hcons⟩ := Option.map_eq_some_iff.mp h
      have hdecode : decodeEntities before = attr.value :=
        (Prod.mk.inj (List.cons.inj hcons).1).2
      have hlen := length_decodeEntities_le before
      rw [hdecode, hvalue, List.length_append, List.length_cons] at hlen
      omega
    · rintro ⟨⟨hnot, -⟩, -⟩
      exact absurd hquote hnot
  · rw [readAttributes_attribute hattr.name_eq hquote, ← decodeEntities_eq_self_iff, ReadsBack]
    constructor
    · intro h
      obtain ⟨read, hread, hcons⟩ := Option.map_eq_some_iff.mp h
      obtain ⟨hhead, rfl⟩ := List.cons.inj hcons
      exact ⟨⟨hquote, (Prod.mk.inj hhead).2⟩, hread⟩
    · rintro ⟨⟨-, hself⟩, hread⟩
      rw [hread, hself]
      rfl

/-- **Attribute values.** The attributes of a node are read back from the output of
`render_attributes` exactly when no value holds a double quote or one of the five entities. -/
theorem readsBack_iff (values : List CString) :
    ReadsBack (values.flatMap parseAttributes) ↔
      ∀ attr ∈ values.flatMap parseAttributes, '"' ∉ attr.value ∧ ¬ HasEntity attr.value := by
  have hparsed : ∀ attr ∈ values.flatMap parseAttributes, Parsed attr := by
    intro attr hattr
    obtain ⟨value, -, hmem⟩ := List.mem_flatMap.mp hattr
    exact parsed_of_mem hmem
  generalize values.flatMap parseAttributes = attrs at hparsed ⊢
  induction attrs with
  | nil => simp [readsBack_nil]
  | cons attr attrs ih =>
    have hrest := ih fun a ha => hparsed a (List.mem_cons_of_mem _ ha)
    rw [readsBack_cons_iff (hparsed attr List.mem_cons_self), List.forall_mem_cons]
    exact and_congr_right fun _ => hrest

/-- In the line `a(x='say "hi"')` the value ends its own quotes. -/
theorem attributes_not_readsBack :
    ¬ ∀ line lineNumber, ∀ token ∈ tokenizeLine line lineNumber, token.type = .tokenAttribute →
      ReadsBack (parseAttributes (token.value.getD [])) := by
  intro h
  have hline : tokenizeLine "a(x='say \"hi\"')".toList 1 =
      [createToken .tokenTag (some "a".toList) 0 1 0,
        createToken .tokenAttribute (some "x='say \"hi\"'".toList) 0 1 0] := by decide +kernel
  have hmem : createToken .tokenAttribute (some "x='say \"hi\"'".toList) 0 1 0 ∈
      tokenizeLine "a(x='say \"hi\"')".toList 1 := by rw [hline]; simp
  have hread := h _ 1 _ hmem rfl
  have hnone : readAttributes (renderAttributes (parseAttributes "x='say \"hi\"'".toList)) =
      none := by decide +kernel
  rw [ReadsBack] at hread
  exact absurd (hnone.symm.trans hread) (by simp)

end CPug
