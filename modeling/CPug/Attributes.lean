import CPug.Parser

/-!
# Attribute lists

`parse_attributes` cuts the text between the parentheses at its commas and reads every piece by
itself. `parseAttributePair_quoted` says what it reads from a piece `name=<q>value<q>`: exactly the
name and the value, whatever the value holds.
-/

namespace CPug

/-- A value between two quotes. -/
def quoted (q : Char) (value : CString) : CString := q :: (value ++ [q])

/-- The characters of an attribute name that something else would take for its end. -/
def isNameStop (c : Char) : Bool :=
  gAsciiIsspace c || c == ',' || c == '=' || c == '(' || c == ')'

/-- An attribute name that is read back as it is written. -/
structure IsName (name : CString) : Prop where
  ne_nil : name ≠ []
  chars : ∀ c ∈ name, isNameStop c = false

theorem IsName.not_mem {name : CString} (h : IsName name) {c : Char} (hc : isNameStop c = true) :
    c ∉ name := by
  intro hmem
  rw [h.chars c hmem] at hc
  cases hc

theorem IsName.not_isspace {name : CString} (h : IsName name) :
    ∀ c ∈ name, gAsciiIsspace c = false := by
  intro c hc
  have := h.chars c hc
  simp only [isNameStop, Bool.or_eq_false_iff] at this
  exact this.1.1.1.1

/-- The empty text has no attribute, and any other is cut at its commas. -/
theorem parseAttributes_eq (value : CString) :
    parseAttributes value = (value.splitOn ',').filterMap parseAttributePair := by
  by_cases h : value = []
  · subst h
    rfl
  · rw [parseAttributes, gStrsplit_of_ne_nil h]

theorem stripQuotes_quoted {q : Char} (hq : q = '"' ∨ q = '\'') (value : CString) :
    stripQuotes (quoted q value) = value := by
  have hlast : (quoted q value).getLast? = some q := by
    rw [quoted, ← List.cons_append, List.getLast?_concat]
  have hcond : ((quoted q value).head? = some '"' ∧ (quoted q value).getLast? = some '"') ∨
      ((quoted q value).head? = some '\'' ∧ (quoted q value).getLast? = some '\'') := by
    rcases hq with rfl | rfl
    · exact Or.inl ⟨rfl, hlast⟩
    · exact Or.inr ⟨rfl, hlast⟩
  rw [stripQuotes, if_neg (by simp [quoted]), if_pos hcond, quoted, ← List.cons_append,
    List.dropLast_concat, List.drop_succ_cons, List.drop_zero]

theorem not_isspace_quote {q : Char} (hq : q = '"' ∨ q = '\'') : gAsciiIsspace q = false := by
  rcases hq with rfl | rfl <;> decide

/-- A string that ends in a quote and starts with no white space is stripped. -/
theorem stripped_concat_quote {q : Char} (hq : q = '"' ∨ q = '\'') {s : CString}
    (hs : ∀ c ∈ s.head?, gAsciiIsspace c = false) : Stripped (s ++ [q]) := by
  refine ⟨?_, ?_⟩
  · cases s with
    | nil => simpa using not_isspace_quote hq
    | cons c s => simpa using hs
  · rw [List.getLast?_concat]
    simpa using not_isspace_quote hq

/-- A piece `name=<q>value<q>`. -/
theorem parseAttributePair_quoted {name value : CString} {q : Char} (hname : IsName name)
    (hq : q = '"' ∨ q = '\'') :
    parseAttributePair (name ++ '=' :: quoted q value) =
      some { name := name, value := value, type := .attrString } := by
  have hhead : ∀ c ∈ (name ++ '=' :: (q :: value)).head?, gAsciiIsspace c = false := by
    obtain ⟨c, cs, rfl⟩ := List.exists_cons_of_ne_nil hname.ne_nil
    intro d hd
    cases hd
    exact hname.not_isspace c List.mem_cons_self
  have hpiece : name ++ '=' :: quoted q value = (name ++ '=' :: (q :: value)) ++ [q] := by
    simp [quoted]
  have hstrip : gStrstrip (name ++ '=' :: quoted q value) = name ++ '=' :: quoted q value := by
    rw [hpiece]
    exact gStrstrip_eq_self (stripped_concat_quote hq hhead)
  have hvalue : gStrstrip (quoted q value) = quoted q value := by
    rw [quoted, ← List.cons_append]
    refine gStrstrip_eq_self (stripped_concat_quote hq ?_)
    simpa using not_isspace_quote hq
  have hkey : gStrstrip name = name := gStrstrip_eq_self (stripped_of_forall hname.not_isspace)
  have hsplit : gStrsplit2 (name ++ '=' :: quoted q value) '=' = [name, quoted q value] :=
    gStrsplit2_append_cons (hname.not_mem rfl) _
  simp only [parseAttributePair, hstrip, hsplit, hkey, hvalue, stripQuotes_quoted hq,
    if_neg hname.ne_nil]
  rw [if_neg (by simp)]

theorem parseAttributes_of_not_mem {piece : CString} (h : ',' ∉ piece) :
    parseAttributes piece = (parseAttributePair piece).toList := by
  rw [parseAttributes_eq, List.splitOn_eq_singleton h]
  cases hpair : parseAttributePair piece with
  | none => rw [List.filterMap_cons_none hpair]; rfl
  | some attr => rw [List.filterMap_cons_some hpair]; rfl

/-- The first piece is read by itself. -/
theorem parseAttributes_append {piece : CString} (h : ',' ∉ piece) (rest : CString) :
    parseAttributes (piece ++ ',' :: rest) =
      (parseAttributePair piece).toList ++ parseAttributes rest := by
  rw [parseAttributes_eq, parseAttributes_eq, List.splitOn_append_cons_self_of_not_mem h]
  cases hpair : parseAttributePair piece with
  | none => rw [List.filterMap_cons_none hpair]; rfl
  | some attr => rw [List.filterMap_cons_some hpair]; rfl

/-- The pieces of a text that was put together from pieces without a comma. -/
theorem parseAttributes_intercalate {pieces : List CString} (h : ∀ piece ∈ pieces, ',' ∉ piece) :
    parseAttributes ([','].intercalate pieces) = pieces.filterMap parseAttributePair := by
  by_cases hne : pieces = []
  · subst hne
    rfl
  · rw [parseAttributes_eq, List.splitOn_intercalate ',' h hne]

/-- A property of the separator and of every piece holds of every character of the text. -/
theorem forall_mem_intercalate {p : Char → Prop} {sep : Char} (hsep : p sep) {pieces : List CString}
    (h : ∀ piece ∈ pieces, ∀ c ∈ piece, p c) : ∀ c ∈ [sep].intercalate pieces, p c := by
  induction pieces with
  | nil => simp
  | cons piece pieces ih =>
    intro c hc
    by_cases hne : pieces = []
    · subst hne
      rw [List.intercalate_singleton] at hc
      exact h piece List.mem_cons_self c hc
    · rw [List.intercalate_cons_of_ne_nil hne] at hc
      rcases List.mem_append.mp hc with hc | hc
      · rcases List.mem_append.mp hc with hc | hc
        · exact h piece List.mem_cons_self c hc
        · rw [List.mem_singleton.mp hc]
          exact hsep
      · exact ih (fun piece' hp => h piece' (List.mem_cons_of_mem _ hp)) c hc

/-- What `parse_attributes` guarantees of an attribute. -/
structure Parsed (attr : Attribute) : Prop where
  name_ne_nil : attr.name ≠ []
  name_eq : '=' ∉ attr.name
  type : attr.type = .attrString

theorem parsed_of_parseAttributePair {pair : CString} {attr : Attribute}
    (h : parseAttributePair pair = some attr) : Parsed attr := by
  unfold parseAttributePair at h
  dsimp only at h
  split at h
  · cases h
  rcases gStrsplit2_cases (gStrstrip pair) '=' with ⟨-, hsplit⟩ | ⟨key, value, -, hkey, hsplit⟩
  · rw [hsplit] at h
    cases h
  · rw [hsplit] at h
    dsimp only at h
    split at h
    · cases h
    split at h
    · cases h
    · rename_i hne
      cases h
      exact ⟨hne, fun hmem => hkey (gStrstrip_subset key _ hmem), rfl⟩

theorem parsed_of_mem {value : CString} {attr : Attribute} (h : attr ∈ parseAttributes value) :
    Parsed attr := by
  obtain ⟨pair, -, hpair⟩ := List.mem_filterMap.mp h
  exact parsed_of_parseAttributePair hpair

end CPug
