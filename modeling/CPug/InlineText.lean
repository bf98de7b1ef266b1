import Mathlib.Data.List.Infix
import CPug.Scanner

/-!
# Inline text

The text after a tag and a space goes through the text loop, which cuts it into TEXT and
INTERPOLATION tokens. `written` writes such tokens back. It gives back a text exactly when the
text is made of literal pieces without `#` and of interpolations (`InlineText`):
a `#` that opens no interpolation is dropped (`inlineText_lossless_iff`).
-/

namespace CPug

/-- A TEXT or INTERPOLATION token written back as source text. -/
def writtenToken (token : Token) : CString :=
  match token.type with
  | .tokenText => token.value.getD []
  | .tokenInterpolation => '#' :: '{' :: (token.value.getD [] ++ ['}'])
  | _ => []

/-- The TEXT and INTERPOLATION tokens of a list, written back in order. -/
def written (tokens : List Token) : CString := tokens.flatMap writtenToken

/-- Literal pieces without `#` and interpolations, in any order and number. -/
inductive InlineText : CString → Prop
  | literal {text : CString} (htext : '#' ∉ text) : InlineText text
  | interpolation {text value rest : CString} (htext : '#' ∉ text) (hvalue : '}' ∉ value)
      (hrest : InlineText rest) : InlineText (text ++ '#' :: '{' :: (value ++ '}' :: rest))

/-- Every `#{` has a `}` after it. -/
def Closed (text : CString) : Prop := ∀ a b, text = a ++ '#' :: '{' :: b → '}' ∈ b

theorem closed_iff_tails (text : CString) :
    Closed text ↔ ∀ s ∈ text.tails, "#\x7b".toList <+: s → '}' ∈ s.drop 2 := by
  constructor
  · intro h s hs hpre
    obtain ⟨b, rfl⟩ := hpre
    obtain ⟨a, rfl⟩ := (List.mem_tails _ _).mp hs
    exact h a b rfl
  · rintro h a b rfl
    exact h ('#' :: '{' :: b) ((List.mem_tails _ _).mpr (List.suffix_append _ _)) ⟨b, rfl⟩

instance (text : CString) : Decidable (Closed text) :=
  decidable_of_iff _ (closed_iff_tails text).symm

theorem Closed.suffix {a b : CString} (h : Closed (a ++ b)) : Closed b := by
  intro x y hxy
  exact h (a ++ x) y (by rw [hxy, List.append_assoc])

/-- A closed text is literal, or comes to a lone `#`, or to an interpolation. -/
theorem Closed.cases {text : CString} (h : Closed text) :
    '#' ∉ text ∨
      (∃ a rest, text = a ++ '#' :: rest ∧ '#' ∉ a ∧ rest.head? ≠ some '{') ∨
      ∃ a value rest, text = a ++ '#' :: '{' :: (value ++ '}' :: rest) ∧ '#' ∉ a ∧ '}' ∉ value := by
  by_cases hmem : '#' ∈ text
  · obtain ⟨a, rest, rfl, ha⟩ := List.eq_append_cons_of_mem hmem
    by_cases hopen : rest.head? = some '{'
    · obtain ⟨b, rfl⟩ : ∃ b, rest = '{' :: b := by
        cases rest with
        | nil => cases hopen
        | cons c b =>
          cases hopen
          exact ⟨b, rfl⟩
      obtain ⟨value, rest, rfl, hvalue⟩ := List.eq_append_cons_of_mem (h a b rfl)
      exact Or.inr (Or.inr ⟨a, value, rest, rfl, ha, hvalue⟩)
    · exact Or.inr (Or.inl ⟨a, rest, rfl, ha, hopen⟩)
  · exact Or.inl hmem

theorem not_inlineText_hash {a rest : CString} (ha : '#' ∉ a) (hrest : rest.head? ≠ some '{') :
    ¬ InlineText (a ++ '#' :: rest) := by
  intro h
  generalize htext : a ++ '#' :: rest = text at h
  cases h with
  | literal hlit =>
    subst htext
    simp at hlit
  | interpolation ha' _ _ =>
    obtain ⟨-, rfl⟩ := append_cons_inj ha ha' htext
    simp at hrest

theorem inlineText_interpolation_iff {a value rest : CString} (ha : '#' ∉ a) (hv : '}' ∉ value) :
    InlineText (a ++ '#' :: '{' :: (value ++ '}' :: rest)) ↔ InlineText rest := by
  constructor
  · intro h
    generalize htext : a ++ '#' :: '{' :: (value ++ '}' :: rest) = text at h
    cases h with
    | literal hlit =>
      subst htext
      simp at hlit
    | interpolation ha' hv' hrest' =>
      obtain ⟨-, htail⟩ := append_cons_inj ha ha' htext
      obtain ⟨-, rfl⟩ := append_cons_inj hv hv' (List.tail_eq_of_cons_eq htail)
      exact hrest'
  · exact fun h => .interpolation ha hv h

theorem written_append (xs ys : List Token) : written (xs ++ ys) = written xs ++ written ys :=
  List.flatMap_append

theorem written_textToken (indentLevel lineNumber column : Nat) (text : CString) :
    written (textToken indentLevel lineNumber column text) = text := by
  cases text <;> simp [textToken, written, writtenToken, createToken]

/-- The text loop gives back an inline text; from any other closed text it loses characters. -/
theorem written_tokenizeText (indentLevel lineNumber column pos : Nat) (buffer : CString)
    {text : CString} (h : Closed text) :
    (InlineText text ∧
        written (tokenizeText indentLevel lineNumber column pos buffer text) = text) ∨
      ¬ InlineText text ∧
        (written (tokenizeText indentLevel lineNumber column pos buffer text)).length <
          text.length := by
  induction hn : text.length using Nat.strongRecOn generalizing text column pos buffer with
  | ind n ih =>
    subst hn
    rcases h.cases with htext | ⟨a, rest, rfl, ha, hrest⟩ | ⟨a, value, rest, rfl, ha, hv⟩
    · rw [tokenizeText_text _ _ _ _ _ htext, written_textToken]
      exact Or.inl ⟨.literal htext, rfl⟩
    · obtain ⟨buffer', he⟩ :=
        tokenizeText_hash indentLevel lineNumber column pos buffer ha hrest
      have hclosed : Closed rest :=
        Closed.suffix (a := a ++ ['#']) (by simpa using h)
      have hlen : (written (tokenizeText indentLevel lineNumber column (pos + a.length + 1) buffer'
          rest)).length ≤ rest.length := by
        rcases ih rest.length (by simp; omega) column (pos + a.length + 1) buffer' hclosed rfl with
          ⟨-, hw⟩ | ⟨-, hw⟩
        · rw [hw]
        · exact hw.le
      rw [he, written_append, written_textToken]
      refine Or.inr ⟨not_inlineText_hash ha hrest, ?_⟩
      simp only [List.length_append, List.length_cons]
      omega
    · obtain ⟨buffer', he⟩ :=
        @tokenizeText_interpolation indentLevel lineNumber column pos buffer a value rest ha hv
      have hclosed : Closed rest :=
        Closed.suffix (a := a ++ '#' :: '{' :: (value ++ ['}'])) (by simpa using h)
      have hwritten : ∀ tokens : List Token,
          written (createToken .tokenInterpolation (some value) indentLevel lineNumber
            (pos + a.length + 2) :: tokens) = '#' :: '{' :: (value ++ '}' :: written tokens) := by
        intro tokens
        simp [written, writtenToken, createToken]
      rw [he, written_append, written_textToken, hwritten, inlineText_interpolation_iff ha hv]
      rcases ih rest.length (by simp; omega) (pos + a.length + 2)
          (pos + a.length + 2 + value.length + 1) buffer' hclosed rfl with ⟨hi, hw⟩ | ⟨hi, hw⟩
      · exact Or.inl ⟨hi, by rw [hw]⟩
      · refine Or.inr ⟨hi, ?_⟩
        simp only [List.length_append, List.length_cons]
        omega

/-- The texts a line may have after its tag and a space. -/
structure TextAfterTag (text : CString) : Prop where
  singleLine : '\n' ∉ text
  start : ∀ c ∈ text.head?, isBlank c = false ∧ c ≠ '#' ∧ c ≠ '.'
  closed : Closed text

instance (text : CString) : Decidable (TextAfterTag text) :=
  haveI : Decidable (∀ c ∈ text.head?, isBlank c = false ∧ c ≠ '#' ∧ c ≠ '.') :=
    Option.decidableForallMem _
  decidable_of_iff ('\n' ∉ text ∧ (∀ c ∈ text.head?, isBlank c = false ∧ c ≠ '#' ∧ c ≠ '.') ∧
    Closed text) ⟨fun h => ⟨h.1, h.2.1, h.2.2⟩, fun h => ⟨h.singleLine, h.start, h.closed⟩⟩

/-- The tokens of a line `tag text`. -/
theorem tokenizeLine_tag_text {name text : CString} (hname : IsTagName name)
    (hkey : NoKeyword name) (hstart : ∀ c ∈ text.head?, isBlank c = false ∧ c ≠ '#' ∧ c ≠ '.')
    (n : Nat) :
    tokenizeLine (name ++ ' ' :: text) n =
      createToken .tokenTag (some name) 0 n 0 ::
        tokenizeText 0 n (name.length + 1) (name.length + 1) [] text := by
  have hstop : StopsAt isTagChar (' ' :: text) := StopsAt.cons rfl _
  have hindent : countIndentLevel (name ++ ' ' :: text) = 0 := by
    obtain ⟨c, cs, rfl, halpha, -⟩ := hname
    have h1 : c ≠ '\t' := isalpha_ne halpha rfl
    have h2 : c ≠ ' ' := isalpha_ne halpha rfl
    rw [List.cons_append, countIndentLevel, if_neg h1, if_neg h2]
  have hline := tokenizeLine_tag (w := []) (by simp) hname hkey hstop n
  rw [List.nil_append, List.length_nil, hindent, tokenizeLoop_tag _ _ _ _ hname hstop,
    Nat.zero_add] at hline
  rw [hline]
  congr 1
  cases text with
  | nil => rw [tokenizeLoop_space_nil, tokenizeText_nil]
  | cons c cs =>
    obtain ⟨hblank, hhash, hdot⟩ := hstart c rfl
    rw [tokenizeLoop_space _ _ _ _ rfl hblank hhash hdot]

/-- **Inline text.** The TEXT and INTERPOLATION tokens after the TAG token of a line `tag text`,
written back, give the text exactly when it is made of literal pieces without `#` and of
interpolations. -/
theorem inlineText_lossless_iff {name text : CString} (hname : IsTagName name)
    (hkey : NoKeyword name) (htext : TextAfterTag text) (lineNumber : Nat) :
    written ((tokenizeLine (name ++ ' ' :: text) lineNumber).drop 1) = text ↔ InlineText text := by
  rw [tokenizeLine_tag_text hname hkey htext.start, List.drop_one, List.tail_cons]
  rcases written_tokenizeText 0 lineNumber (name.length + 1) (name.length + 1) [] htext.closed with
    ⟨hi, hw⟩ | ⟨hi, hw⟩
  · exact ⟨fun _ => hi, fun _ => hw⟩
  · refine ⟨fun he => ?_, fun h => absurd h hi⟩
    rw [he] at hw
    exact absurd hw (lt_irrefl _)

theorem inlineText_lossless_iff_paragraph :
    written ((tokenizeLine ("p".toList ++ ' ' :: "a #\x7bb\x7d c".toList) 1).drop 1) =
        "a #\x7bb\x7d c".toList ↔ InlineText "a #\x7bb\x7d c".toList :=
  inlineText_lossless_iff ⟨'p', [], rfl, rfl, by simp⟩ (by decide) (by decide) 1

/-- A lone `#` is dropped: the line `p a # b`. -/
theorem inlineText_not_lossless :
    ¬ ∀ (name text : CString) (lineNumber : Nat), IsTagName name → NoKeyword name →
      TextAfterTag text →
        written ((tokenizeLine (name ++ ' ' :: text) lineNumber).drop 1) = text := by
  intro h
  have hp := h "p".toList "a # b".toList 1 ⟨'p', [], rfl, rfl, by simp⟩ (by decide) (by decide)
  have hne : written ((tokenizeLine ("p".toList ++ ' ' :: "a # b".toList) 1).drop 1) ≠
      "a # b".toList := by decide +kernel
  exact hne hp

end CPug
