import CPug.AttributeReader

/-!
# Escaping can be undone

`escape_html` replaces five characters by entities that all begin with `&`, the `&` itself among
them, so an entity in its output is always one that it wrote (`decodeEntities_escapeHtml`), also
where the input spells entities of its own.
-/

namespace CPug

/-- The characters that `escape_html` replaces. -/
def specialChars : List Char := ['&', '<', '>', '"', '\'']

/-- The entities that `escape_html` writes. -/
def entities : List CString :=
  ["&amp;".toList, "&lt;".toList, "&gt;".toList, "&quot;".toList, "&#39;".toList]

/-- What a reader of HTML relies on: none of the characters that end text or an attribute value, every
`&` begins an entity, and the entities stand for the characters of `s`. -/
structure SafeEncoding (s encoded : CString) : Prop where
  safe : ∀ c ∈ encoded, c ≠ '<' ∧ c ≠ '>' ∧ c ≠ '"' ∧ c ≠ '\''
  ampersand : ∀ rest, '&' :: rest <:+ encoded → ∃ entity ∈ entities, entity <+: '&' :: rest
  decodes : decodeEntities encoded = s

/-! ## One character -/

theorem map_escapeChar_specialChars : specialChars.map escapeChar = entities := rfl

/-- What `escape_html` writes for a character is the entity of that character. -/
theorem entityTable_eq : entityTable = specialChars.map fun c => (escapeChar c, c) := rfl

theorem mem_entityTable {entry : CString × Char} (h : entry ∈ entityTable) :
    entry.2 ∈ specialChars ∧ entry.1 = escapeChar entry.2 := by
  rw [entityTable_eq] at h
  obtain ⟨c, hc, rfl⟩ := List.mem_map.mp h
  exact ⟨hc, rfl⟩

theorem escapeChar_of_not_mem {c : Char} (h : c ∉ specialChars) : escapeChar c = [c] := by
  simp only [specialChars, List.mem_cons, List.not_mem_nil, or_false, not_or] at h
  obtain ⟨h1, h2, h3, h4, h5⟩ := h
  rw [escapeChar, if_neg h1, if_neg h2, if_neg h3, if_neg h4, if_neg h5]

/-- A replaced character is an entity: an `&` with no `&` behind it. -/
theorem escapeChar_of_mem {c : Char} (h : c ∈ specialChars) :
    escapeChar c ∈ entities ∧ ∃ name, escapeChar c = '&' :: name ∧
      ∀ d ∈ name, d ≠ '&' ∧ d ≠ '<' ∧ d ≠ '>' ∧ d ≠ '"' ∧ d ≠ '\'' := by
  refine ⟨map_escapeChar_specialChars ▸ List.mem_map_of_mem h, ?_⟩
  simp only [specialChars, List.mem_cons, List.not_mem_nil, or_false] at h
  rcases h with rfl | rfl | rfl | rfl | rfl
  · exact ⟨"amp;".toList, rfl, by simp⟩
  · exact ⟨"lt;".toList, rfl, by simp⟩
  · exact ⟨"gt;".toList, rfl, by simp⟩
  · exact ⟨"quot;".toList, rfl, by simp⟩
  · exact ⟨"#39;".toList, rfl, by simp⟩

theorem safe_escapeChar (c : Char) : ∀ d ∈ escapeChar c, d ≠ '<' ∧ d ≠ '>' ∧ d ≠ '"' ∧ d ≠ '\'' := by
  by_cases h : c ∈ specialChars
  · obtain ⟨-, name, heq, hname⟩ := escapeChar_of_mem h
    rw [heq]
    intro d hd
    rcases List.mem_cons.mp hd with rfl | hd
    · decide
    · exact (hname d hd).2
  · rw [escapeChar_of_not_mem h]
    intro d hd
    rw [List.mem_singleton.mp hd]
    simp only [specialChars, List.mem_cons, List.not_mem_nil, or_false, not_or] at h
    exact h.2

/-- No entity is the beginning of another one. -/
theorem entity_unique {c d : Char} (hc : c ∈ specialChars) (hd : d ∈ specialChars)
    {rest : CString} (h : escapeChar d <+: escapeChar c ++ rest) : d = c := by
  simp only [specialChars, List.mem_cons, List.not_mem_nil, or_false] at hc hd
  rcases hc with rfl | rfl | rfl | rfl | rfl <;> rcases hd with rfl | rfl | rfl | rfl | rfl <;>
    first | rfl | (simp [escapeChar, List.cons_prefix_cons] at h)

/-- At the entity of a character there is no other one. -/
theorem entityAt_escapeChar {c : Char} (h : c ∈ specialChars) (rest : CString) :
    entityAt (escapeChar c ++ rest) = some (escapeChar c, c) := by
  have hmem : (escapeChar c, c) ∈ entityTable := by
    rw [entityTable_eq]
    exact List.mem_map_of_mem h
  cases hfound : entityAt (escapeChar c ++ rest) with
  | none => exact absurd ⟨_, hmem, List.prefix_append _ _⟩ (entityAt_eq_none.mp hfound)
  | some entry =>
    obtain ⟨hentry, hpre⟩ := entityAt_eq_some hfound
    obtain ⟨hspecial, heq⟩ := mem_entityTable hentry
    rw [heq] at hpre
    have hchar := entity_unique h hspecial hpre
    rw [← hchar, ← heq]

/-- Every entity begins with `&`. -/
theorem entityAt_of_ne {c : Char} (h : c ≠ '&') (cs : CString) : entityAt (c :: cs) = none := by
  rw [entityAt_eq_none]
  rintro ⟨entry, hentry, hpre⟩
  obtain ⟨hspecial, hentity⟩ := mem_entityTable hentry
  obtain ⟨-, name, heq, -⟩ := escapeChar_of_mem hspecial
  rw [hentity, heq] at hpre
  exact h (List.cons_prefix_cons.mp hpre).1.symm

/-- Decoding reads one character back and goes on behind it. -/
theorem decodeEntities_escapeChar (c : Char) (rest : CString) :
    decodeEntities (escapeChar c ++ rest) = c :: decodeEntities rest := by
  by_cases h : c ∈ specialChars
  · obtain ⟨-, name, heq, -⟩ := escapeChar_of_mem h
    have hfind := entityAt_escapeChar h rest
    rw [heq, List.cons_append] at hfind ⊢
    rw [decodeEntities, hfind]
    simp
  · have hne : c ≠ '&' := by
      rintro rfl
      exact h (by decide)
    rw [escapeChar_of_not_mem h, List.cons_append, List.nil_append, decodeEntities,
      entityAt_of_ne hne]

/-! ## Strings -/

theorem escapeHtml_append (s t : CString) : escapeHtml (s ++ t) = escapeHtml s ++ escapeHtml t :=
  List.flatMap_append

theorem decodeEntities_escapeHtml (s : CString) : decodeEntities (escapeHtml s) = s := by
  induction s with
  | nil => rw [escapeHtml, List.flatMap_nil, decodeEntities]
  | cons c s ih =>
    rw [escapeHtml, List.flatMap_cons, decodeEntities_escapeChar]
    exact congrArg (c :: ·) ih

/-- A suffix of `s ++ t` that begins with a character not in `s` is one of `t`. -/
theorem suffix_of_suffix_append {d : Char} {s t rest : CString} (hd : d ∉ s)
    (h : d :: rest <:+ s ++ t) : d :: rest <:+ t := by
  induction s with
  | nil => exact h
  | cons c s ih =>
    simp only [List.mem_cons, not_or] at hd
    rcases List.suffix_cons_iff.mp h with h | h
    · exact absurd (List.cons.inj h).1 hd.1
    · exact ih hd.2 h

/-- An `&` in the output is the first character of an entity: there is none inside an entity. -/
theorem ampersand_escapeHtml (s : CString) :
    ∀ rest, '&' :: rest <:+ escapeHtml s → ∃ entity ∈ entities, entity <+: '&' :: rest := by
  induction s with
  | nil =>
    intro rest h
    cases List.suffix_nil.mp h
  | cons c s ih =>
    intro rest h
    rw [escapeHtml, List.flatMap_cons] at h
    by_cases hc : c ∈ specialChars
    · obtain ⟨hentity, name, heq, hname⟩ := escapeChar_of_mem hc
      rw [heq, List.cons_append] at h
      rcases List.suffix_cons_iff.mp h with h | h
      · refine ⟨_, hentity, ?_⟩
        rw [h, heq, ← List.cons_append]
        exact List.prefix_append _ _
      · exact ih rest (suffix_of_suffix_append (fun hmem => (hname _ hmem).1 rfl) h)
    · rw [escapeChar_of_not_mem hc, List.singleton_append] at h
      rcases List.suffix_cons_iff.mp h with h | h
      · rw [← (List.cons.inj h).1] at hc
        exact absurd (by decide) hc
      · exact ih rest h

theorem safeEncoding_escapeHtml (s : CString) : SafeEncoding s (escapeHtml s) where
  safe c hc := by
    obtain ⟨d, -, hd⟩ := List.mem_flatMap.mp hc
    exact safe_escapeChar d c hd
  ampersand := ampersand_escapeHtml s
  decodes := decodeEntities_escapeHtml s

/-- `escape_html` encodes every string safely, and no two strings alike. -/
theorem escapeHtml_invertible :
    (∀ s, SafeEncoding s (escapeHtml s)) ∧ Function.Injective escapeHtml := by
  refine ⟨safeEncoding_escapeHtml, fun s t h => ?_⟩
  rw [← decodeEntities_escapeHtml s, h, decodeEntities_escapeHtml t]

end CPug
