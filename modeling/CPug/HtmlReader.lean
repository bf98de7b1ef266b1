import CPug.DebugComments
import CPug.Escaping
import CPug.Outline.Reading
import CPug.Scanner

/-!
# A reader of HTML

`readHtml` reads markup: characters, entities among them, build up text, a tag opens or closes an element,
its attributes are read up to the `>` that ends it. It knows nothing of the renderer. It is simpler than
the reader of a browser: attributes need double quotes, and an attribute name goes up to the next `=`,
blanks and `/` included.
The lemmas say what it meets where the renderer wrote a piece: a text (`readEvents_escapeHtml`), an opening
tag (`readMarkup_opening`), a self-closed one, a closing tag, a doctype or a comment.
-/

namespace CPug

open Outline

/-- A node of a document. -/
inductive HtmlNode where
  | text (content : CString)
  | doctype (content : CString)
  | comment (content : CString)
  | element (name : CString) (attributes : List (CString × CString))
  | void (name : CString) (attributes : List (CString × CString))
deriving Repr, DecidableEq

namespace HtmlNode

/-- The name that closes an element. -/
def name : HtmlNode → CString
  | element name _ | void name _ => name
  | _ => []

/-- Nothing stands below the node. -/
def alone : HtmlNode → Bool
  | element _ _ => false
  | _ => true

/-- Text behind text is one text. -/
def join : HtmlNode → HtmlNode → Option HtmlNode
  | text s, text t => some (text (s ++ t))
  | _, _ => none

theorem joins_text (s t : CString) : Forest.Joins join (text s) (text t) (text (s ++ t)) where
  self := rfl
  after d e h := by
    cases d with
    | text r =>
      cases h
      exact ⟨text (r ++ s ++ t), rfl, by rw [join, List.append_assoc]⟩
    | doctype | comment | element | void => cases h
  apart d h := by
    cases d with
    | text => cases h
    | doctype | comment | element | void => rfl

theorem join_element (name : CString) (attrs : List (CString × CString)) (node : HtmlNode) :
    join node (element name attrs) = none := by cases node <;> rfl

theorem join_void (name : CString) (attrs : List (CString × CString)) (node : HtmlNode) :
    join node (void name attrs) = none := by cases node <;> rfl

end HtmlNode

abbrev HtmlEvent := Event HtmlNode CString

/-! ## The reader -/

/-- The attributes of a tag, whether it closes itself, and what follows its `>`. -/
structure Fields where
  attributes : List (CString × CString)
  selfClosed : Bool
  rest : CString
deriving Repr, DecidableEq

/-- Read the attributes of a tag: a space, a name up to `=` whatever it holds, a value between double
quotes. -/
def readFields (markup : CString) : Option Fields :=
  match markup with
  | '>' :: rest => some ⟨[], false, rest⟩
  | ' ' :: '/' :: '>' :: rest => some ⟨[], true, rest⟩
  | ' ' :: s =>
    match _h : s.dropWhile (· != '=') with
    | '=' :: '"' :: after =>
      match _h' : after.dropWhile (· != '"') with
      | '"' :: rest =>
        (readFields rest).map fun fields =>
          { fields with
            attributes :=
              (s.takeWhile (· != '='), decodeEntities (after.takeWhile (· != '"'))) ::
                fields.attributes }
      | _ => none
    | _ => none
  | _ => none
termination_by markup.length
decreasing_by
  have h1 := (List.dropWhile_sublist (l := s) (· != '=')).length_le
  have h2 := (List.dropWhile_sublist (l := after) (· != '"')).length_le
  rw [_h] at h1
  rw [_h'] at h2
  simp only [List.length_cons] at h1 h2 ⊢
  omega

/-- Up to the next `>`: the body and what follows. -/
def readBody (s : CString) : Option (CString × CString) :=
  match s.dropWhile (· != '>') with
  | [] => none
  | _ :: rest => some (s.takeWhile (· != '>'), rest)

/-- The characters of a name. -/
def isNameChar (c : Char) : Bool := c != ' ' && c != '>'

/-- The event of an opening tag whose attributes have been read. -/
def openingEvent (name : CString) (fields : Fields) : HtmlEvent :=
  if fields.selfClosed then .alone (.void name fields.attributes)
  else .opens (.element name fields.attributes)

/-- Read a tag or a declaration behind its `<`. -/
def readMarkup (s : CString) : Option (HtmlEvent × CString) :=
  if gStrHasPrefix s "!DOCTYPE ".toList then
    (readBody (s.drop 9)).map fun read => (.alone (.doctype read.1), read.2)
  else if gStrHasPrefix s "!--".toList then
    (readComment (s.drop 3)).map fun read => (.alone (.comment read.1), read.2)
  else if s.head? = some '/' then
    (readBody (s.drop 1)).map fun read => (.closes read.1, read.2)
  else
    (readFields (s.dropWhile isNameChar)).map fun fields =>
      (openingEvent (s.takeWhile isNameChar) fields, fields.rest)

theorem length_readFields {markup : CString} {fields : Fields} (h : readFields markup = some fields) :
    fields.rest.length < markup.length := by
  fun_induction readFields markup generalizing fields with
  | case1 rest =>
    cases h
    simp
  | case2 rest =>
    cases h
    simp only [List.length_cons]
    omega
  | case3 s _ after hs rest hafter ih =>
    obtain ⟨inner, hinner, rfl⟩ := Option.map_eq_some_iff.mp h
    have hlt := ih hinner
    have h1 := (List.dropWhile_sublist (l := s) (· != '=')).length_le
    have h2 := (List.dropWhile_sublist (l := after) (· != '"')).length_le
    rw [hs] at h1
    rw [hafter] at h2
    simp only [List.length_cons] at h1 h2 ⊢
    omega
  | case4 => cases h
  | case5 => cases h
  | case6 => cases h

theorem length_readBody {s : CString} {read : CString × CString} (h : readBody s = some read) :
    read.2.length < s.length := by
  have hle := (List.dropWhile_sublist (l := s) (· != '>')).length_le
  rw [readBody] at h
  split at h
  · cases h
  · rename_i c rest heq
    cases h
    rw [heq, List.length_cons] at hle
    exact hle

theorem length_readComment {s : CString} {read : CString × CString} (h : readComment s = some read) :
    read.2.length ≤ s.length := by
  induction s generalizing read with
  | nil => cases h
  | cons c s ih =>
    rw [readComment] at h
    split at h
    · cases h
      exact (List.drop_sublist 3 (c :: s)).length_le
    · obtain ⟨inner, hinner, rfl⟩ := Option.map_eq_some_iff.mp h
      have := ih hinner
      show inner.2.length ≤ s.length + 1
      omega

theorem length_readMarkup {s : CString} {read : HtmlEvent × CString} (h : readMarkup s = some read) :
    read.2.length < s.length := by
  rw [readMarkup] at h
  split at h
  · obtain ⟨body, hbody, rfl⟩ := Option.map_eq_some_iff.mp h
    have := length_readBody hbody
    rw [List.length_drop] at this
    show body.2.length < s.length
    omega
  split at h
  · rename_i hpre
    obtain ⟨comment, hcomment, rfl⟩ := Option.map_eq_some_iff.mp h
    have hle := length_readComment hcomment
    have hlt : 3 ≤ s.length := (List.isPrefixOf_iff_prefix.mp hpre).length_le
    rw [List.length_drop] at hle
    show comment.2.length < s.length
    omega
  split at h
  · obtain ⟨body, hbody, rfl⟩ := Option.map_eq_some_iff.mp h
    have := length_readBody hbody
    rw [List.length_drop] at this
    show body.2.length < s.length
    omega
  · obtain ⟨fields, hfields, rfl⟩ := Option.map_eq_some_iff.mp h
    have hlt := length_readFields hfields
    have hle := (List.dropWhile_sublist (l := s) isNameChar).length_le
    show fields.rest.length < s.length
    omega

/-- The character at the head of a non-empty string, and what follows it; an entity is one character. -/
def readChar (c : Char) (cs : CString) : Char × CString :=
  match entityAt (c :: cs) with
  | some entry => (entry.2, cs.drop (entry.1.length - 1))
  | none => (c, cs)

/-- What a reader meets from the beginning of the markup to its end. -/
def readEvents (markup : CString) : Option (List HtmlEvent) :=
  match markup with
  | [] => some []
  | c :: cs =>
    if c = '<' then
      match _h : readMarkup cs with
      | some read => (readEvents read.2).map (read.1 :: ·)
      | none => none
    else (readEvents (readChar c cs).2).map (.alone (.text [(readChar c cs).1]) :: ·)
termination_by markup.length
decreasing_by
  · have := length_readMarkup _h
    simp only [List.length_cons]
    omega
  · rw [readChar]
    split
    · simp only [List.length_drop, List.length_cons]
      omega
    · simp

/-- Read a document. -/
def readHtml (markup : CString) : Option (Forest HtmlNode) :=
  (readEvents markup).bind (assemble HtmlNode.name HtmlNode.join [] .nil)

/-! ## Text -/

/-- The events of a text: its characters. -/
def textEvents (s : CString) : List HtmlEvent := s.map fun c => .alone (.text [c])

/-- Entities begin with `&`: every other character stands for itself. -/
theorem readChar_of_ne {c : Char} (h : c ≠ '&') (cs : CString) : readChar c cs = (c, cs) := by
  rw [readChar, entityAt_of_ne h]

/-- The entity of a character is read as the character. -/
theorem readChar_entity {c : Char} (h : c ∈ specialChars) {name : CString}
    (heq : escapeChar c = '&' :: name) (rest : CString) :
    readChar '&' (name ++ rest) = (c, rest) := by
  have hfind := entityAt_escapeChar h rest
  rw [heq, List.cons_append] at hfind
  rw [readChar, hfind]
  simp

theorem readChar_escapeChar (c : Char) (rest : CString) :
    ∃ d ds, escapeChar c ++ rest = d :: ds ∧ d ≠ '<' ∧ readChar d ds = (c, rest) := by
  by_cases h : c ∈ specialChars
  · obtain ⟨-, name, heq, -⟩ := escapeChar_of_mem h
    exact ⟨'&', name ++ rest, by rw [heq]; rfl, by decide, readChar_entity h heq rest⟩
  · refine ⟨c, rest, by rw [escapeChar_of_not_mem h]; rfl, ?_, readChar_of_ne ?_ rest⟩
    · rintro rfl
      exact h (by decide)
    · rintro rfl
      exact h (by decide)

theorem readEvents_nil : readEvents [] = some [] := by rw [readEvents]

theorem readEvents_cons {c : Char} (h : c ≠ '<') (cs : CString) :
    readEvents (c :: cs) =
      (readEvents (readChar c cs).2).map (.alone (.text [(readChar c cs).1]) :: ·) := by
  rw [readEvents, if_neg h]

/-- An escaped text is read as its characters. -/
theorem readEvents_escapeHtml (s rest : CString) :
    readEvents (escapeHtml s ++ rest) = (readEvents rest).map (textEvents s ++ ·) := by
  induction s with
  | nil => simp [escapeHtml, textEvents]
  | cons c s ih =>
    obtain ⟨d, ds, hd, hne, hread⟩ := readChar_escapeChar c (escapeHtml s ++ rest)
    have hsplit : escapeHtml (c :: s) ++ rest = d :: ds := by
      rw [← hd, escapeHtml, List.flatMap_cons, List.append_assoc, escapeHtml]
    rw [hsplit, readEvents_cons hne, hread, ih, Option.map_map]
    rfl

/-- So is a text that is not escaped, if it has neither `<` nor `&`. -/
theorem readEvents_raw {s : CString} (h : '<' ∉ s ∧ '&' ∉ s) (rest : CString) :
    readEvents (s ++ rest) = (readEvents rest).map (textEvents s ++ ·) := by
  induction s with
  | nil => simp [textEvents]
  | cons c s ih =>
    simp only [List.mem_cons, not_or] at h
    obtain ⟨⟨hlt, hlts⟩, hamp, hamps⟩ := h
    rw [List.cons_append, readEvents_cons (Ne.symm hlt), readChar_of_ne (Ne.symm hamp),
      ih ⟨hlts, hamps⟩, Option.map_map]
    rfl

/-! ## Tags -/

/-- A tag or a declaration is one event. -/
theorem readEvents_markup {s rest : CString} {event : HtmlEvent}
    (h : readMarkup s = some (event, rest)) :
    readEvents ('<' :: s) = (readEvents rest).map (event :: ·) := by
  rw [readEvents, if_pos rfl]
  split
  · rename_i read hread
    rw [h] at hread
    cases hread
    rfl
  · rename_i hread
    rw [h] at hread
    cases hread

theorem readBody_append {body : CString} (h : '>' ∉ body) (rest : CString) :
    readBody (body ++ '>' :: rest) = some (body, rest) := by
  have hbody := forall_ne_of_not_mem h
  rw [readBody, dropWhile_append_stop hbody (.cons rfl _), takeWhile_append_stop hbody (.cons rfl _)]

theorem readMarkup_doctype {text : CString} (h : '>' ∉ text) (rest : CString) :
    readMarkup ("!DOCTYPE ".toList ++ (text ++ '>' :: rest)) =
      some (.alone (.doctype text), rest) := by
  have hpre : gStrHasPrefix ("!DOCTYPE ".toList ++ (text ++ '>' :: rest)) "!DOCTYPE ".toList = true :=
    List.isPrefixOf_iff_prefix.mpr (List.prefix_append _ _)
  have hdrop : ("!DOCTYPE ".toList ++ (text ++ '>' :: rest)).drop 9 = text ++ '>' :: rest := rfl
  rw [readMarkup, if_pos hpre, hdrop, readBody_append h]
  rfl

theorem readMarkup_closing {name : CString} (h : '>' ∉ name) (rest : CString) :
    readMarkup ('/' :: (name ++ '>' :: rest)) = some (.closes name, rest) := by
  have hpre : ¬ gStrHasPrefix ('/' :: (name ++ '>' :: rest)) "!DOCTYPE ".toList = true := by
    simp [gStrHasPrefix, List.isPrefixOf]
  have hdash : ¬ gStrHasPrefix ('/' :: (name ++ '>' :: rest)) "!--".toList = true := by
    simp [gStrHasPrefix, List.isPrefixOf]
  have hslash : ('/' :: (name ++ '>' :: rest)).head? = some '/' := rfl
  rw [readMarkup, if_neg hpre, if_neg hdash, if_pos hslash, List.drop_one, List.tail_cons, readBody_append h]
  rfl

/-- A comment goes on to the first `-->`. -/
theorem readMarkup_comment {text : CString} (h : ¬ "-->".toList <:+: text) (rest : CString) :
    readMarkup ("!--".toList ++ (text ++ " -->".toList ++ rest)) =
      some (.alone (.comment (text ++ [' '])), rest) := by
  have hpre : ¬ gStrHasPrefix ("!--".toList ++ (text ++ " -->".toList ++ rest))
      "!DOCTYPE ".toList = true := by
    simp [gStrHasPrefix, List.isPrefixOf]
  have hdash : gStrHasPrefix ("!--".toList ++ (text ++ " -->".toList ++ rest)) "!--".toList = true :=
    List.isPrefixOf_iff_prefix.mpr (List.prefix_append _ _)
  have hdrop : ("!--".toList ++ (text ++ " -->".toList ++ rest)).drop 3 =
      text ++ " -->".toList ++ rest := rfl
  rw [readMarkup, if_neg hpre, if_pos hdash, hdrop, (readComment_append text rest).mpr h]
  rfl

/-- A tag that begins with a name. -/
theorem readMarkup_opening {name : CString} (h : IsTagName name) {markup : CString}
    (hstop : StopsAt isNameChar markup) :
    readMarkup (name ++ markup) =
      (readFields markup).map fun fields => (openingEvent name fields, fields.rest) := by
  have hchars : ∀ c ∈ name, isNameChar c = true := by
    intro c hc
    have hspace : c ≠ ' ' := fun he => h.not_mem (d := ' ') rfl (he ▸ hc)
    have hgt : c ≠ '>' := fun he => h.not_mem (d := '>') rfl (he ▸ hc)
    simp [isNameChar, hspace, hgt]
  have htake := takeWhile_append_stop hchars hstop
  have hdrop := dropWhile_append_stop hchars hstop
  obtain ⟨c, cs, rfl, hc, -⟩ := h
  have hbang : c ≠ '!' := by rintro rfl; cases hc
  have hslash : c ≠ '/' := by rintro rfl; cases hc
  have hpre : ¬ gStrHasPrefix (c :: cs ++ markup) "!DOCTYPE ".toList = true := by
    simp [gStrHasPrefix, List.isPrefixOf, hbang.symm]
  have hdash : ¬ gStrHasPrefix (c :: cs ++ markup) "!--".toList = true := by
    simp [gStrHasPrefix, List.isPrefixOf, hbang.symm]
  have hhead : (c :: cs ++ markup).head? ≠ some '/' := by simpa using hslash
  rw [readMarkup, if_neg hpre, if_neg hdash, if_neg hhead, htake, hdrop]

section Fields

variable {name : CString}

theorem readFields_close (rest : CString) : readFields ('>' :: rest) = some ⟨[], false, rest⟩ := by
  rw [readFields]

theorem readFields_selfClose (rest : CString) :
    readFields (" />".toList ++ rest) = some ⟨[], true, rest⟩ := by
  show readFields (' ' :: '/' :: '>' :: rest) = _
  rw [readFields]

/-- One attribute is read, its value decoded. -/
theorem readFields_attribute {value : CString} (heq : '=' ∉ name) (hgt : '>' ∉ name)
    (hvalue : '"' ∉ value) (rest : CString) :
    readFields (' ' :: (name ++ '=' :: '"' :: (value ++ '"' :: rest))) =
      (readFields rest).map fun fields =>
        { fields with attributes := (name, decodeEntities value) :: fields.attributes } := by
  have hname' := forall_ne_of_not_mem heq
  have hvalue' := forall_ne_of_not_mem hvalue
  have hdrop : (name ++ '=' :: '"' :: (value ++ '"' :: rest)).dropWhile (· != '=') =
      '=' :: '"' :: (value ++ '"' :: rest) :=
    dropWhile_append_stop hname' (.cons rfl _)
  have htake : (name ++ '=' :: '"' :: (value ++ '"' :: rest)).takeWhile (· != '=') = name :=
    takeWhile_append_stop hname' (.cons rfl _)
  have hdrop' : (value ++ '"' :: rest).dropWhile (· != '"') = '"' :: rest :=
    dropWhile_append_stop hvalue' (.cons rfl _)
  have htake' : (value ++ '"' :: rest).takeWhile (· != '"') = value :=
    takeWhile_append_stop hvalue' (.cons rfl _)
  rw [readFields.eq_def]
  split
  · rename_i h
    cases h
  · -- A name without `>` is not the end of a self-closed tag.
    rename_i after h
    obtain ⟨-, h⟩ := List.cons.inj h
    rcases name with _ | ⟨c, _ | ⟨d, name⟩⟩
    · cases h
    · cases h
    · cases h
      exact absurd (by simp) hgt
  · rename_i s _ h
    obtain ⟨-, rfl⟩ := List.cons.inj h
    split
    · rename_i after h
      rw [hdrop] at h
      cases h
      split
      · rename_i rest' h
        rw [hdrop'] at h
        cases h
        rw [htake, htake']
      · rename_i h
        exact absurd hdrop' (h _)
    · rename_i h
      exact absurd hdrop (h _)
  · rename_i h
    exact absurd rfl (h _)

end Fields

end CPug
