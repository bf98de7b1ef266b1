import Mathlib.Data.List.DropRight

/-!
# C strings and the GLib string functions

A `char*` is the list of the characters before its terminating NUL: the end of the list is the
NUL, and a pointer into a string is a suffix of the list. The functions below are the ones the
program calls on such strings; where GLib works in place, the model returns the new string.
`isalpha` and `isalnum` are those of the C locale, which the program never leaves.
-/

namespace CPug

abbrev CString := List Char

/-- `isalpha` of the C locale. -/
def isalpha (c : Char) : Bool := c.isAlpha

/-- `isalnum` of the C locale. -/
def isalnum (c : Char) : Bool := c.isAlphanum

/-- `g_ascii_isspace`. -/
def gAsciiIsspace (c : Char) : Bool :=
  c == ' ' || c == '\t' || c == '\n' || c == '\r' || c == '\x0c'

/-- `g_strchug`: drop the leading white space. -/
def gStrchug (s : CString) : CString := s.dropWhile gAsciiIsspace

/-- `g_strchomp`: drop the trailing white space. -/
def gStrchomp (s : CString) : CString := s.rdropWhile gAsciiIsspace

/-- `g_strstrip`. -/
def gStrstrip (s : CString) : CString := gStrchomp (gStrchug s)

/-- `g_strsplit` with a one-character delimiter and no limit on the number of pieces. The empty
string has no piece at all. -/
def gStrsplit (s : CString) (delimiter : Char) : List CString :=
  if s = [] then [] else s.splitOn delimiter

/-- `g_strsplit` of a non-empty string into at most two pieces. -/
def gStrsplit2 (s : CString) (delimiter : Char) : List CString :=
  match s.dropWhile (· != delimiter) with
  | [] => [s]
  | _ :: rest => [s.takeWhile (· != delimiter), rest]

/-- `g_str_has_prefix`. -/
def gStrHasPrefix (s pfx : CString) : Bool := pfx.isPrefixOf s

/-- `g_string_truncate`. -/
def gStringTruncate (s : CString) (len : Nat) : CString := s.take len

theorem isalnum_of_isalpha {c : Char} (h : isalpha c = true) : isalnum c = true := by
  simp only [isalpha] at h
  simp [isalnum, Char.isAlphanum, h]

/-! ## The end of a run of characters -/

/-- The list does not go on with an element of the class. -/
def StopsAt {α : Type} (p : α → Bool) (rest : List α) : Prop := ∀ c ∈ rest.head?, p c = false

section Stop

variable {α : Type} {p : α → Bool}

theorem StopsAt.nil (p : α → Bool) : StopsAt p [] := by simp [StopsAt]

theorem StopsAt.cons {c : α} (h : p c = false) (rest : List α) : StopsAt p (c :: rest) := by
  simpa [StopsAt] using h

theorem takeWhile_append_stop {word rest : List α} (hword : ∀ c ∈ word, p c = true)
    (hrest : StopsAt p rest) : (word ++ rest).takeWhile p = word := by
  rw [List.takeWhile_append_of_pos hword]
  cases rest with
  | nil => simp
  | cons c rest => rw [List.takeWhile_cons_of_neg (by simp [hrest c rfl]), List.append_nil]

theorem dropWhile_append_stop {word rest : List α} (hword : ∀ c ∈ word, p c = true)
    (hrest : StopsAt p rest) : (word ++ rest).dropWhile p = rest := by
  rw [List.dropWhile_append_of_pos hword]
  cases rest with
  | nil => simp
  | cons c rest => rw [List.dropWhile_cons_of_neg (by simp [hrest c rfl])]

/-- What is appended behind a stop is not taken. -/
theorem takeWhile_append_of_stopsAt (word : List α) {rest : List α} (hrest : StopsAt p rest) :
    (word ++ rest).takeWhile p = word.takeWhile p := by
  induction word with
  | nil => exact takeWhile_append_stop (by simp) hrest
  | cons c word ih =>
    rw [List.cons_append, List.takeWhile_cons, List.takeWhile_cons, ih]

theorem dropWhile_append_of_stopsAt (word : List α) {rest : List α} (hrest : StopsAt p rest) :
    (word ++ rest).dropWhile p = word.dropWhile p ++ rest := by
  induction word with
  | nil => exact dropWhile_append_stop (by simp) hrest
  | cons c word ih =>
    rw [List.cons_append, List.dropWhile_cons, List.dropWhile_cons, ih]
    split <;> rfl

theorem drop_length_takeWhile (l : List α) : l.drop (l.takeWhile p).length = l.dropWhile p := by
  have h : (l.takeWhile p ++ l.dropWhile p).drop (l.takeWhile p).length = l.dropWhile p :=
    List.drop_left' rfl
  rwa [List.takeWhile_append_dropWhile] at h

theorem stopsAt_dropWhile (l : List α) : StopsAt p (l.dropWhile p) := by
  intro c hc
  have := List.head?_dropWhile_not p l
  rw [hc] at this
  exact this

end Stop

theorem forall_ne_of_not_mem {d : Char} {s : CString} (h : d ∉ s) : ∀ c ∈ s, (c != d) = true := by
  intro c hc
  have : c ≠ d := fun he => h (he ▸ hc)
  simpa using this

/-- What is left behind a run without `d` is nothing or begins with `d`. -/
theorem dropWhile_bne_cases (d : Char) (s : CString) :
    s.dropWhile (· != d) = [] ∨ ∃ rest, s.dropWhile (· != d) = d :: rest := by
  cases hs : s.dropWhile (· != d) with
  | nil => exact Or.inl rfl
  | cons c rest =>
    have hc : (c != d) = false := stopsAt_dropWhile s c (by rw [hs]; rfl)
    rw [bne_eq_false_iff_eq.mp hc]
    exact Or.inr ⟨rest, rfl⟩

theorem dropWhile_bne_eq_nil {d : Char} {s : CString}
    (h : ∀ rest, s.dropWhile (· != d) ≠ d :: rest) : s.dropWhile (· != d) = [] := by
  rcases dropWhile_bne_cases d s with hnil | ⟨rest, hrest⟩
  · exact hnil
  · exact absurd hrest (h rest)

/-- A string splits in one way at its first occurrence of a character. -/
theorem append_cons_inj {d : Char} {a a' r r' : CString} (ha : d ∉ a) (ha' : d ∉ a')
    (h : a ++ d :: r = a' ++ d :: r') : a = a' ∧ r = r' := by
  have hstop : ∀ r, StopsAt (· != d) (d :: r) := fun r => StopsAt.cons (by simp) r
  have htake := congrArg (List.takeWhile (· != d)) h
  have hdrop := congrArg (List.dropWhile (· != d)) h
  rw [takeWhile_append_stop (forall_ne_of_not_mem ha) (hstop r),
    takeWhile_append_stop (forall_ne_of_not_mem ha') (hstop r')] at htake
  rw [dropWhile_append_stop (forall_ne_of_not_mem ha) (hstop r),
    dropWhile_append_stop (forall_ne_of_not_mem ha') (hstop r')] at hdrop
  exact ⟨htake, List.tail_eq_of_cons_eq hdrop⟩

/-! ## Stripping -/

/-- No white space at either end. -/
def Stripped (s : CString) : Prop :=
  (∀ c ∈ s.head?, gAsciiIsspace c = false) ∧ ∀ c ∈ s.getLast?, gAsciiIsspace c = false

theorem gStrchug_eq_self {s : CString} (h : ∀ c ∈ s.head?, gAsciiIsspace c = false) :
    gStrchug s = s := by
  cases s with
  | nil => rfl
  | cons c s => exact List.dropWhile_cons_of_neg (by simp [h c rfl])

theorem gStrchomp_eq_self {s : CString} (h : ∀ c ∈ s.getLast?, gAsciiIsspace c = false) :
    gStrchomp s = s := by
  rw [gStrchomp, List.rdropWhile_eq_self_iff]
  intro hne
  simp [h _ (List.getLast?_eq_some_getLast hne)]

theorem gStrstrip_eq_self {s : CString} (h : Stripped s) : gStrstrip s = s := by
  rw [gStrstrip, gStrchug_eq_self h.1, gStrchomp_eq_self h.2]

theorem gStrstrip_subset (s : CString) : ∀ c ∈ gStrstrip s, c ∈ s := by
  intro c hc
  have hpre : gStrstrip s <+: gStrchug s := List.rdropWhile_prefix gAsciiIsspace _
  have h : c ∈ gStrchug s := hpre.subset hc
  exact (List.dropWhile_sublist _).mem h

/-- A string without white space is stripped. -/
theorem stripped_of_forall {s : CString} (h : ∀ c ∈ s, gAsciiIsspace c = false) : Stripped s :=
  ⟨fun c hc => h c (List.mem_of_mem_head? hc), fun c hc => h c (List.mem_of_getLast? hc)⟩

/-! ### Stripping what is put together -/

/-- Only white space. -/
def Blank (s : CString) : Prop := ∀ c ∈ s, gAsciiIsspace c = true

theorem blank_nil : Blank [] := by simp [Blank]

theorem blank_append {s t : CString} : Blank (s ++ t) ↔ Blank s ∧ Blank t := by
  simp only [Blank, List.mem_append]
  constructor
  · exact fun h => ⟨fun c hc => h c (Or.inl hc), fun c hc => h c (Or.inr hc)⟩
  · rintro ⟨hs, ht⟩ c (hc | hc)
    · exact hs c hc
    · exact ht c hc

theorem gStrchug_eq_nil {s : CString} : gStrchug s = [] ↔ Blank s := List.dropWhile_eq_nil_iff

theorem gStrchomp_eq_nil {s : CString} : gStrchomp s = [] ↔ Blank s := List.rdropWhile_eq_nil_iff

theorem blank_gStrchug {s : CString} : Blank (gStrchug s) ↔ Blank s := by
  constructor
  · intro h
    have hsplit : s.takeWhile gAsciiIsspace ++ gStrchug s = s := List.takeWhile_append_dropWhile
    rw [← hsplit]
    exact blank_append.mpr ⟨fun c hc => List.mem_takeWhile_imp hc, h⟩
  · intro h
    rw [gStrchug_eq_nil.mpr h]
    exact blank_nil

theorem gStrstrip_eq_nil {s : CString} : gStrstrip s = [] ↔ Blank s := by
  rw [gStrstrip, gStrchomp_eq_nil, blank_gStrchug]

theorem gStrchug_append_blank {s : CString} (hs : Blank s) (t : CString) :
    gStrchug (s ++ t) = gStrchug t := List.dropWhile_append_of_pos hs

theorem gStrchug_append {s : CString} (hs : ¬ Blank s) (t : CString) :
    gStrchug (s ++ t) = gStrchug s ++ t := by
  have hne : gStrchug s ≠ [] := fun h => hs (gStrchug_eq_nil.mp h)
  rw [gStrchug, List.dropWhile_append, if_neg (by simpa [gStrchug] using hne)]
  rfl

theorem gStrchomp_append_blank (s : CString) {t : CString} (ht : Blank t) :
    gStrchomp (s ++ t) = gStrchomp s := by
  have hrev : ∀ c ∈ t.reverse, gAsciiIsspace c = true := fun c hc => ht c (List.mem_reverse.mp hc)
  rw [gStrchomp, gStrchomp, List.rdropWhile, List.rdropWhile, List.reverse_append,
    List.dropWhile_append_of_pos hrev]

theorem gStrchomp_append (s : CString) {t : CString} (ht : ¬ Blank t) :
    gStrchomp (s ++ t) = s ++ gStrchomp t := by
  have hne : t.reverse.dropWhile gAsciiIsspace ≠ [] := by
    intro h
    rw [List.dropWhile_eq_nil_iff] at h
    exact ht fun c hc => h c (List.mem_reverse.mpr hc)
  rw [gStrchomp, gStrchomp, List.rdropWhile, List.rdropWhile, List.reverse_append,
    List.dropWhile_append, if_neg (by simpa using hne), List.reverse_append, List.reverse_reverse]

theorem stripped_gStrstrip (s : CString) : Stripped (gStrstrip s) := by
  have hchomp : gStrchomp (gStrchug s) <+: gStrchug s := List.rdropWhile_prefix _ _
  constructor
  · intro c hc
    obtain ⟨r, hr⟩ := hchomp
    have hstrip : (gStrchomp (gStrchug s)).head? = some c := hc
    have hhead : c ∈ (gStrchug s).head? := by
      rw [← hr, List.head?_append, hstrip]
      rfl
    exact stopsAt_dropWhile s c hhead
  · intro c hc
    have hne : gStrstrip s ≠ [] := by
      intro h
      rw [h] at hc
      cases hc
    have hlast := List.rdropWhile_last_not gAsciiIsspace (gStrchug s) hne
    rw [List.getLast?_eq_some_getLast hne] at hc
    cases hc
    exact Bool.eq_false_iff.mpr hlast

/-- Stripping a concatenation of two strings that are not blank. -/
theorem gStrstrip_append {s t : CString} (hs : ¬ Blank s) (ht : ¬ Blank t) :
    gStrstrip (s ++ t) = gStrchug s ++ gStrchomp t := by
  rw [gStrstrip, gStrchug_append hs, gStrchomp_append _ ht]

theorem gStrstrip_append_blank (s : CString) {t : CString} (ht : Blank t) :
    gStrstrip (s ++ t) = gStrstrip s := by
  by_cases hs : Blank s
  · rw [gStrstrip_eq_nil.mpr hs, gStrstrip_eq_nil.mpr (blank_append.mpr ⟨hs, ht⟩)]
  · rw [gStrstrip, gStrchug_append hs, gStrchomp_append_blank _ ht, gStrstrip]

theorem gStrstrip_blank_append {s : CString} (hs : Blank s) (t : CString) :
    gStrstrip (s ++ t) = gStrstrip t := by
  rw [gStrstrip, gStrchug_append_blank hs, gStrstrip]

/-! ## Splitting -/

theorem gStrsplit_of_ne_nil {s : CString} (h : s ≠ []) (delimiter : Char) :
    gStrsplit s delimiter = s.splitOn delimiter := if_neg h

/-- The delimiter is in none of the pieces. -/
theorem not_mem_of_mem_gStrsplit {s piece : CString} {delimiter : Char}
    (h : piece ∈ gStrsplit s delimiter) : delimiter ∉ piece := by
  have hsplit : ∀ s : CString, ∀ piece ∈ s.splitOn delimiter, delimiter ∉ piece := by
    intro s
    induction s with
    | nil => simp [List.splitOn_nil]
    | cons c s ih =>
      intro piece h
      rw [List.splitOn_cons_eq_if_modifyHead] at h
      split at h
      · rcases List.mem_cons.mp h with rfl | h
        · exact List.not_mem_nil
        · exact ih piece h
      · rename_i hc
        obtain ⟨first, rest, hs⟩ := List.exists_cons_of_ne_nil (List.splitOn_ne_nil delimiter s)
        rw [hs, List.modifyHead_cons] at h
        rw [hs] at ih
        rcases List.mem_cons.mp h with rfl | h
        · have hne : delimiter ≠ c := by
            rintro rfl
            exact hc (beq_self_eq_true _)
          rw [List.mem_cons, not_or]
          exact ⟨hne, ih first List.mem_cons_self⟩
        · exact ih piece (List.mem_cons_of_mem _ h)
  rw [gStrsplit] at h
  split at h
  · cases h
  · exact hsplit s piece h

theorem gStrsplit2_append_cons {s : CString} {delimiter : Char} (h : delimiter ∉ s)
    (rest : CString) : gStrsplit2 (s ++ delimiter :: rest) delimiter = [s, rest] := by
  have hs : ∀ c ∈ s, (c != delimiter) = true := by
    intro c hc
    have : c ≠ delimiter := fun he => h (he ▸ hc)
    simpa using this
  rw [gStrsplit2, List.dropWhile_append_of_pos hs, List.takeWhile_append_of_pos hs]
  simp

theorem gStrsplit2_of_not_mem {s : CString} {delimiter : Char} (h : delimiter ∉ s) :
    gStrsplit2 s delimiter = [s] := by
  have hs : s.dropWhile (· != delimiter) = [] := by
    rw [List.dropWhile_eq_nil_iff]
    intro c hc
    have : c ≠ delimiter := fun he => h (he ▸ hc)
    simpa using this
  rw [gStrsplit2, hs]

/-- Every string splits in two at the first delimiter, or not at all. -/
theorem gStrsplit2_cases (s : CString) (delimiter : Char) :
    delimiter ∉ s ∧ gStrsplit2 s delimiter = [s] ∨
      ∃ k v, s = k ++ delimiter :: v ∧ delimiter ∉ k ∧ gStrsplit2 s delimiter = [k, v] := by
  by_cases h : delimiter ∈ s
  · obtain ⟨k, v, rfl, hk⟩ := List.eq_append_cons_of_mem h
    exact Or.inr ⟨k, v, rfl, hk, gStrsplit2_append_cons hk v⟩
  · exact Or.inl ⟨h, gStrsplit2_of_not_mem h⟩

end CPug
