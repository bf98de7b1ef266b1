import CPug.Attributes
import CPug.Scanner
import CPug.Control

/-!
# Quoted values with separators in them

For a line `tag(name=<q>value<q>,…)` three scans cut the text between the parentheses: at the
parenthesis that closes it, at commas and at `=`; none of them sees the quotes.
`quotedAttributes_iff` says when the attributes come out as they were written: exactly when no value
holds a comma and the parentheses of the values, taken together, match. An `=` or the other quote in
a value does no harm.
-/

namespace CPug

open Outline

/-- An attribute that is written with quotes. -/
structure QuotedAttribute where
  name : CString
  quote : Char
  value : CString
  name_ne_nil : name ≠ []
  name_chars : ∀ c ∈ name, isTagChar c = true
  quote_ok : quote = '"' ∨ quote = '\''
  quote_free : quote ∉ value
  singleLine : '\n' ∉ value

namespace QuotedAttribute

/-- `name=<q>value<q>` -/
def written (attr : QuotedAttribute) : CString := attr.name ++ '=' :: quoted attr.quote attr.value

/-- The attribute that was meant. -/
def meant (attr : QuotedAttribute) : Attribute :=
  { name := attr.name, value := attr.value, type := .attrString }

theorem isName (attr : QuotedAttribute) : IsName attr.name := by
  refine ⟨attr.name_ne_nil, fun c hc => ?_⟩
  have htag := attr.name_chars c hc
  have hne : ∀ d, isTagChar d = false → c ≠ d := by
    rintro d hd rfl
    rw [htag] at hd
    cases hd
  simp [isNameStop, gAsciiIsspace, hne ' ' rfl, hne '\t' rfl, hne '\n' rfl,
    hne '\r' rfl, hne '\x0c' rfl, hne ',' rfl, hne '=' rfl,
    hne '(' rfl, hne ')' rfl]

end QuotedAttribute

/-- The text between the parentheses. -/
def writtenAttributes (attrs : List QuotedAttribute) : CString :=
  [','].intercalate (attrs.map QuotedAttribute.written)

/-- The line `tag(name=<q>value<q>,…)`. -/
def quotedLine (tag : CString) (attrs : List QuotedAttribute) : CString :=
  tag ++ '(' :: (writtenAttributes attrs ++ [')'])

/-- No value holds a comma, and the parentheses of the values match, `open` being open before. -/
def Separable (opened : Nat) (attrs : List QuotedAttribute) : Prop :=
  (∀ attr ∈ attrs, ',' ∉ attr.value) ∧
    nesting opened (attrs.flatMap QuotedAttribute.value) = some 0

/-! ## A piece that was cut inside its value -/

theorem gStrchomp_append_cons {c : Char} (hc : gAsciiIsspace c = false) (s w : CString) :
    gStrchomp (s ++ c :: w) = s ++ c :: gStrchomp w := by
  induction w using List.reverseRecOn with
  | nil =>
    rw [gStrchomp_eq_self (by simpa using hc), gStrchomp_eq_self (by simp)]
  | append_singleton w d ih =>
    have hcat : s ++ c :: (w ++ [d]) = (s ++ c :: w) ++ [d] := by simp
    rw [hcat, gStrchomp, gStrchomp, List.rdropWhile_concat, List.rdropWhile_concat]
    split
    · exact ih
    · simp

/-- A piece `name=<q>rest` is read up to its trailing white space. -/
theorem parseAttributePair_open {name : CString} {q : Char} (hname : IsName name)
    (hq : q = '"' ∨ q = '\'') (rest : CString) :
    parseAttributePair (name ++ '=' :: q :: rest) =
      some { name := name, value := stripQuotes (q :: gStrchomp rest), type := .attrString } := by
  have hspace := not_isspace_quote hq
  have hchug : gStrchug (name ++ '=' :: q :: rest) = name ++ '=' :: q :: rest := by
    obtain ⟨c, cs, rfl⟩ := List.exists_cons_of_ne_nil hname.ne_nil
    apply gStrchug_eq_self
    simpa using hname.not_isspace c List.mem_cons_self
  have hstrip : gStrstrip (name ++ '=' :: q :: rest) = name ++ '=' :: q :: gStrchomp rest := by
    have hcat : name ++ '=' :: q :: rest = (name ++ ['=']) ++ q :: rest := by simp
    rw [gStrstrip, hchug, hcat, gStrchomp_append_cons hspace]
    simp
  have hvalue : gStrstrip (q :: gStrchomp rest) = q :: gStrchomp rest := by
    have hcat : gStrchomp (q :: gStrchomp rest) = q :: gStrchomp (gStrchomp rest) :=
      gStrchomp_append_cons hspace [] _
    rw [gStrstrip, gStrchug_eq_self (by simpa using hspace), hcat, gStrchomp, gStrchomp,
      List.rdropWhile_idempotent]
  have hkey : gStrstrip name = name := gStrstrip_eq_self (stripped_of_forall hname.not_isspace)
  have hsplit : gStrsplit2 (name ++ '=' :: q :: gStrchomp rest) '=' =
      [name, q :: gStrchomp rest] := gStrsplit2_append_cons (hname.not_mem rfl) _
  simp only [parseAttributePair, hstrip, hsplit, hkey, hvalue, if_neg hname.ne_nil]
  rw [if_neg (by simp)]

/-- What is left of a value that was cut is empty or still starts with its quote. -/
theorem stripQuotes_open {q : Char} {rest : CString} (hrest : q ∉ rest) :
    stripQuotes (q :: rest) = [] ∨ stripQuotes (q :: rest) = q :: rest := by
  cases hr : rest with
  | nil =>
    rw [stripQuotes, if_neg (by simp)]
    split
    · exact Or.inl rfl
    · exact Or.inr rfl
  | cons c cs =>
    have hlast : (q :: rest).getLast? ≠ some q := by
      rw [hr, List.getLast?_cons_cons, ← hr]
      intro h
      exact hrest (List.mem_of_getLast? h)
    rw [hr] at hlast
    refine Or.inr ?_
    rw [stripQuotes, if_neg (by simp), if_neg]
    rintro (⟨hhead, hl⟩ | ⟨hhead, hl⟩)
    · cases hhead
      exact hlast hl
    · cases hhead
      exact hlast hl

theorem gStrchomp_subset (s : CString) : ∀ c ∈ gStrchomp s, c ∈ s := by
  intro c hc
  have hpre : gStrchomp s <+: s := List.rdropWhile_prefix gAsciiIsspace s
  exact hpre.subset hc

/-- A piece that was cut inside its value does not give the attribute that was meant. -/
theorem parseAttributePair_cut (attr : QuotedAttribute) {w : CString} (hw : attr.quote ∉ w)
    (hne : attr.value ≠ []) :
    ∃ bad, parseAttributePair (attr.name ++ '=' :: attr.quote :: w) = some bad ∧
      bad ≠ attr.meant := by
  refine ⟨_, parseAttributePair_open attr.isName attr.quote_ok w, fun h => ?_⟩
  have hvalue : stripQuotes (attr.quote :: gStrchomp w) = attr.value := congrArg Attribute.value h
  have hrest : attr.quote ∉ gStrchomp w := fun hmem => hw (gStrchomp_subset w _ hmem)
  rcases stripQuotes_open hrest with hempty | hquote
  · exact hne (hvalue.symm.trans hempty)
  · apply attr.quote_free
    have hmem : attr.quote ∈ stripQuotes (attr.quote :: gStrchomp w) := by
      rw [hquote]
      exact List.mem_cons_self
    rwa [hvalue] at hmem

/-- Nor does one that runs over its closing quote to a parenthesis. -/
theorem parseAttributePair_unclosed (attr : QuotedAttribute) :
    ∃ bad, parseAttributePair (attr.written ++ [')']) = some bad ∧ bad ≠ attr.meant := by
  have hpiece : attr.written ++ [')'] =
      attr.name ++ '=' :: attr.quote :: (attr.value ++ [attr.quote, ')']) := by
    simp [QuotedAttribute.written, quoted]
  have hchomp : gStrchomp (attr.value ++ [attr.quote, ')']) = attr.value ++ [attr.quote, ')'] := by
    apply gStrchomp_eq_self
    simp [gAsciiIsspace]
  have hstrip : stripQuotes (attr.quote :: (attr.value ++ [attr.quote, ')'])) =
      attr.quote :: (attr.value ++ [attr.quote, ')']) := by
    have hlast : (attr.quote :: (attr.value ++ [attr.quote, ')'])).getLast? = some ')' := by
      rw [← List.cons_append, List.getLast?_append_of_ne_nil _ (by simp)]
      rfl
    rw [stripQuotes, if_neg (by simp), if_neg]
    rw [hlast]
    simp
  refine ⟨_, by rw [hpiece]; exact parseAttributePair_open attr.isName attr.quote_ok _, fun h => ?_⟩
  have hvalue := congrArg Attribute.value h
  simp only [hchomp, hstrip, QuotedAttribute.meant] at hvalue
  apply attr.quote_free
  rw [← hvalue]
  exact List.mem_cons_self

/-! ## The text between the parentheses -/

/-- What the parenthesis loop makes of the rest of a line after an attribute, with `n` parentheses
open in front of it: it runs on behind the closing quote, or it stops inside the value. -/
theorem scanParens_attribute (attr : QuotedAttribute) (n : Nat) (more : CString) :
    (∃ m, nesting n attr.value = some m ∧
      scanParens (n + 1) (attr.written ++ more) =
        (attr.written ++ (scanParens (m + 1) more).1, (scanParens (m + 1) more).2)) ∨
    ∃ w rest, nesting n attr.value = none ∧ attr.value = w ++ ')' :: rest ∧
      (scanParens (n + 1) (attr.written ++ more)).1 = attr.name ++ '=' :: attr.quote :: w := by
  have hname : nesting n attr.name = some n :=
    nesting_of_not_mem (attr.isName.not_mem rfl) (attr.isName.not_mem rfl) n
  have hquote : attr.quote ≠ '(' ∧ attr.quote ≠ ')' := by
    rcases attr.quote_ok with h | h <;> simp [h]
  have hopen : ∀ w, nesting n (attr.name ++ '=' :: attr.quote :: w) = nesting n w := by
    intro w
    rw [nesting_append, hname, Option.bind_some, nesting, if_neg (by decide), if_neg (by decide),
      nesting, if_neg hquote.1, if_neg hquote.2]
  cases hv : nesting n attr.value with
  | some m =>
    have hwritten : nesting n attr.written = some m := by
      rw [QuotedAttribute.written, quoted, hopen, nesting_append, hv, Option.bind_some, nesting,
        if_neg hquote.1, if_neg hquote.2]
      rfl
    exact Or.inl ⟨m, rfl, scanParens_append hwritten more⟩
  | none =>
    obtain ⟨w, rest, hvalue, hw⟩ := exists_close_of_nesting_none hv
    have hcut : attr.written ++ more =
        (attr.name ++ '=' :: attr.quote :: w) ++ ')' :: (rest ++ attr.quote :: more) := by
      simp [QuotedAttribute.written, quoted, hvalue]
    have hnest : nesting n (attr.name ++ '=' :: attr.quote :: w) = some 0 := by rw [hopen, hw]
    refine Or.inr ⟨w, rest, rfl, hvalue, ?_⟩
    rw [hcut, scanParens_append hnest, scanParens_close, List.append_nil]

/-- A text that breaks off inside the value of its first attribute does not start with the attribute
that was meant. -/
theorem parseAttributes_cut (attr : QuotedAttribute) {w : CString} (hw : attr.quote ∉ w)
    (hne : attr.value ≠ []) (hcomma : ',' ∉ w) (rest : CString)
    (hrest : ∀ c ∈ rest.head?, c = ',') :
    ∃ bad more, parseAttributes (attr.name ++ '=' :: attr.quote :: (w ++ rest)) = bad :: more ∧
      bad ≠ attr.meant := by
  obtain ⟨bad, hpair, hbad⟩ := parseAttributePair_cut attr hw hne
  have hnot : ',' ∉ attr.name ++ '=' :: attr.quote :: w := by
    have hquote : attr.quote ≠ ',' := by rcases attr.quote_ok with h | h <;> simp [h]
    simp [attr.isName.not_mem (c := ',') rfl, hcomma, hquote.symm]
  cases rest with
  | nil =>
    refine ⟨bad, [], ?_, hbad⟩
    rw [List.append_nil, parseAttributes_of_not_mem hnot, hpair]
    rfl
  | cons c rest =>
    have hc := hrest c rfl
    subst hc
    have hcat : attr.name ++ '=' :: attr.quote :: (w ++ ',' :: rest) =
        (attr.name ++ '=' :: attr.quote :: w) ++ ',' :: rest := by simp
    refine ⟨bad, parseAttributes rest, ?_, hbad⟩
    rw [hcat, parseAttributes_append hnot, hpair]
    rfl

/-- A text that starts with the value of its first attribute up to a comma. -/
theorem parseAttributes_comma (attr : QuotedAttribute) {v : CString} (hv : ',' ∈ v)
    (hquote : attr.quote ∉ v) (hne : attr.value ≠ []) (rest : CString) :
    ∃ bad more, parseAttributes (attr.name ++ '=' :: attr.quote :: (v ++ rest)) = bad :: more ∧
      bad ≠ attr.meant := by
  obtain ⟨u, u', rfl, hu⟩ := List.eq_append_cons_of_mem hv
  have hcat : u ++ ',' :: u' ++ rest = u ++ ',' :: (u' ++ rest) := by simp
  rw [hcat]
  exact parseAttributes_cut attr (fun h => hquote (List.mem_append_left _ h)) hne hu _ (by simp)

theorem written_not_mem_comma {attr : QuotedAttribute} (h : ',' ∉ attr.value) :
    ',' ∉ attr.written := by
  have hquote : attr.quote ≠ ',' := by rcases attr.quote_ok with h | h <;> simp [h]
  simp [QuotedAttribute.written, quoted, attr.isName.not_mem (c := ',') rfl, h, hquote.symm]

theorem parseAttributePair_written (attr : QuotedAttribute) :
    parseAttributePair attr.written = some attr.meant :=
  parseAttributePair_quoted attr.isName attr.quote_ok

theorem separable_cons (n : Nat) (attr : QuotedAttribute) (attrs : List QuotedAttribute) :
    Separable n (attr :: attrs) ↔
      ',' ∉ attr.value ∧ ∃ m, nesting n attr.value = some m ∧ Separable m attrs := by
  rw [Separable, List.forall_mem_cons, List.flatMap_cons, nesting_append]
  constructor
  · rintro ⟨⟨hcomma, hall⟩, hnest⟩
    obtain ⟨m, hm, hrest⟩ := Option.bind_eq_some_iff.mp hnest
    exact ⟨hcomma, m, hm, hall, hrest⟩
  · rintro ⟨hcomma, m, hm, hall, hrest⟩
    exact ⟨⟨hcomma, hall⟩, by rw [hm, Option.bind_some, hrest]⟩

/-- The parenthesis that closes the text lies inside the value. -/
theorem not_meant_of_closed (attr : QuotedAttribute) {w rest : CString}
    (hvalue : attr.value = w ++ ')' :: rest) (more l : List Attribute) :
    parseAttributes (attr.name ++ '=' :: attr.quote :: w) ++ more ≠ attr.meant :: l := by
  have hne : attr.value ≠ [] := by simp [hvalue]
  have hquote : attr.quote ∉ w := fun h => attr.quote_free (by rw [hvalue]; simp [h])
  obtain ⟨bad, others, hparse, hbad⟩ : ∃ bad others,
      parseAttributes (attr.name ++ '=' :: attr.quote :: w) = bad :: others ∧
        bad ≠ attr.meant := by
    rw [← List.append_nil w]
    by_cases hcomma : ',' ∈ w
    · exact parseAttributes_comma attr hcomma hquote hne []
    · exact parseAttributes_cut attr hquote hne hcomma [] (by simp)
  rw [hparse, List.cons_append]
  exact fun h => hbad (List.cons.inj h).1

/-- There is a comma in the value. -/
theorem not_meant_of_comma (attr : QuotedAttribute) (hcomma : ',' ∈ attr.value) (rest : CString)
    (more l : List Attribute) :
    parseAttributes (attr.written ++ rest) ++ more ≠ attr.meant :: l := by
  have hne : attr.value ≠ [] := fun h => by simp [h] at hcomma
  obtain ⟨bad, others, hparse, hbad⟩ :=
    parseAttributes_comma attr hcomma attr.quote_free hne (attr.quote :: rest)
  have hcat : attr.written ++ rest =
      attr.name ++ '=' :: attr.quote :: (attr.value ++ attr.quote :: rest) := by
    simp [QuotedAttribute.written, quoted]
  rw [hcat, hparse, List.cons_append]
  exact fun h => hbad (List.cons.inj h).1

theorem writtenAttributes_cons (attr next : QuotedAttribute) (attrs : List QuotedAttribute) :
    writtenAttributes (attr :: next :: attrs) =
      attr.written ++ ',' :: writtenAttributes (next :: attrs) := by
  simp [writtenAttributes, List.intercalate_cons_cons]

/-- The first attribute: the parenthesis loop runs through it, or no attributes that start with it
are separable and the text does not start with the attribute that was meant. -/
theorem scanParens_first (attr : QuotedAttribute) (n : Nat) (tail : CString) :
    (∃ m, (∀ attrs, Separable n (attr :: attrs) ↔ Separable m attrs) ∧ ',' ∉ attr.value ∧
      scanParens (n + 1) (attr.written ++ tail) =
        (attr.written ++ (scanParens (m + 1) tail).1, (scanParens (m + 1) tail).2)) ∨
    ((∀ attrs, ¬ Separable n (attr :: attrs)) ∧ ∀ more l,
      parseAttributes (scanParens (n + 1) (attr.written ++ tail)).1 ++ more ≠ attr.meant :: l) := by
  rcases scanParens_attribute attr n tail with ⟨m, hm, hscan⟩ | ⟨w, rest, hnone, hvalue, hscan⟩
  · rw [hscan]
    by_cases hcomma : ',' ∈ attr.value
    · refine Or.inr ⟨fun attrs h => ?_, fun more l => not_meant_of_comma attr hcomma _ more l⟩
      exact ((separable_cons n attr attrs).mp h).1 hcomma
    · refine Or.inl ⟨m, fun attrs => ?_, hcomma, rfl⟩
      rw [separable_cons, hm]
      simp [hcomma]
  · rw [hscan]
    refine Or.inr ⟨fun attrs h => ?_, fun more l => not_meant_of_closed attr hvalue more l⟩
    obtain ⟨-, m, hm, -⟩ := (separable_cons n attr attrs).mp h
    cases hnone.symm.trans hm

/-- The value of the ATTRIBUTE token, with `n` parentheses open: either the attributes are separable
and it is the whole text between the parentheses, or they are not and its attributes do not start
as they were meant. -/
theorem scanParens_attributes (attr : QuotedAttribute) (attrs : List QuotedAttribute) (n : Nat) :
    (Separable n (attr :: attrs) ∧
      scanParens (n + 1) (writtenAttributes (attr :: attrs) ++ [')']) =
        (writtenAttributes (attr :: attrs), []) ∧
      parseAttributes (writtenAttributes (attr :: attrs)) =
        (attr :: attrs).map QuotedAttribute.meant) ∨
    (¬ Separable n (attr :: attrs) ∧ ∀ more,
      parseAttributes (scanParens (n + 1) (writtenAttributes (attr :: attrs) ++ [')'])).1 ++ more ≠
        (attr :: attrs).map QuotedAttribute.meant) := by
  induction attrs generalizing attr n with
  | nil =>
    have hwritten : writtenAttributes [attr] = attr.written := by simp [writtenAttributes]
    rw [hwritten]
    rcases scanParens_first attr n [')'] with ⟨m, hsep, hcomma, hscan⟩ | ⟨hsep, hnot⟩
    · have hnil : Separable m [] ↔ m = 0 := by simp [Separable, nesting]
      rw [hscan, hsep, hnil]
      cases m with
      | zero =>
        refine Or.inl ⟨rfl, by simp [scanParens_close], ?_⟩
        rw [parseAttributes_of_not_mem (written_not_mem_comma hcomma), parseAttributePair_written]
        rfl
      | succ m =>
        refine Or.inr ⟨by omega, fun more => ?_⟩
        have hopen : scanParens (m + 1 + 1) [')'] = ([')'], []) := by simp [scanParens]
        obtain ⟨bad, hpair, hbad⟩ := parseAttributePair_unclosed attr
        have hnot : ',' ∉ attr.written ++ [')'] := by
          simp [written_not_mem_comma hcomma]
        rw [hopen, parseAttributes_of_not_mem hnot, hpair]
        exact fun h => hbad (List.cons.inj h).1
    · exact Or.inr ⟨hsep [], fun more => hnot more []⟩
  | cons next attrs ih =>
    rw [writtenAttributes_cons, List.append_assoc, List.cons_append]
    rcases scanParens_first attr n (',' :: (writtenAttributes (next :: attrs) ++ [')'])) with
      ⟨m, hsep, hcomma, hscan⟩ | ⟨hsep, hnot⟩
    · have hstep : scanParens (m + 1) (',' :: (writtenAttributes (next :: attrs) ++ [')'])) =
          (',' :: (scanParens (m + 1) (writtenAttributes (next :: attrs) ++ [')'])).1,
            (scanParens (m + 1) (writtenAttributes (next :: attrs) ++ [')'])).2) := by
        simp [scanParens]
      have hparse : ∀ rest, parseAttributes (attr.written ++ ',' :: rest) =
          attr.meant :: parseAttributes rest := by
        intro rest
        rw [parseAttributes_append (written_not_mem_comma hcomma), parseAttributePair_written]
        rfl
      rw [hscan, hstep, hsep]
      rcases ih next m with ⟨hrest, hscan', hmeant⟩ | ⟨hrest, hnot⟩
      · refine Or.inl ⟨hrest, by rw [hscan'], ?_⟩
        rw [hparse, hmeant]
        rfl
      · refine Or.inr ⟨hrest, fun more h => ?_⟩
        rw [hparse] at h
        exact hnot more (List.cons.inj h).2
    · exact Or.inr ⟨hsep (next :: attrs), fun more => hnot more _⟩

/-! ## The node of the line -/

/-- The first node of the tree, after the artificial root. -/
def firstNode (content : CString) : Option ASTNode :=
  ((parsePug (tokenizeFile content)).map rootNode).bind fun root => root.labels[1]?

/-- The first token of a file that is accepted makes the first node. -/
theorem firstNode_eq {content : CString} {token : Token} {more : List Token}
    (htokens : tokenizeFile content = token :: more) (hs : token.type.startsNode = true)
    (hv : Valued (token :: more)) (heof : EndsInEof (token :: more)) :
    firstNode content = some ((group token more).foldl absorbToken (startNode token)) := by
  obtain ⟨entries, hentries⟩ := parseEntries_isSome hv heof
  have hbuilt : builtForest (tokenizeFile content) =
      some (Spine.empty.run ASTNode.depth entries).close := by
    rw [builtForest, htokens, hentries]
    rfl
  obtain ⟨entries', hentries', hlabels⟩ := builtForest_labels hbuilt
  rw [htokens, hentries] at hentries'
  cases hentries'
  rw [parseEntries_accepts hs hv] at hentries
  obtain ⟨later, -, rfl⟩ := Option.map_eq_some_iff.mp hentries
  rw [firstNode, parsePug_rootNode, hbuilt, Option.map_some, Option.bind_some, Forest.labels_node,
    hlabels]
  rfl

/-- Later tokens only add to the attributes of a node. -/
theorem foldl_absorbToken_attributes {node : ASTNode} {l : List Attribute}
    (h : node.attributes = some l) (tokens : List Token) :
    ∃ more, (tokens.foldl absorbToken node).attributes = some (l ++ more) := by
  induction tokens generalizing node l with
  | nil => exact ⟨[], by simpa using h⟩
  | cons token tokens ih =>
    obtain ⟨l', hl'⟩ : ∃ l', (absorbToken node token).attributes = some (l ++ l') := by
      rcases absorbToken_attributes node token with heq | ⟨value, heq⟩
      · exact ⟨[], by rw [heq, h, List.append_nil]⟩
      · exact ⟨parseAttributes value, by rw [heq, h]; rfl⟩
    obtain ⟨more, hmore⟩ := ih hl'
    exact ⟨l' ++ more, by rw [List.foldl_cons, hmore, List.append_assoc]⟩

theorem not_mem_newline_quotedLine {tag : CString} (htag : IsTagName tag)
    (attrs : List QuotedAttribute) : '\n' ∉ quotedLine tag attrs := by
  have hwritten : ∀ c ∈ writtenAttributes attrs, c ≠ '\n' := by
    refine forall_mem_intercalate (p := fun c => c ≠ '\n') (by decide) ?_
    intro piece hpiece c hc
    obtain ⟨attr, -, rfl⟩ := List.mem_map.mp hpiece
    have hquote : attr.quote ≠ '\n' := by rcases attr.quote_ok with h | h <;> simp [h]
    rintro rfl
    simp [QuotedAttribute.written, quoted, attr.isName.not_mem (c := '\n') rfl, attr.singleLine,
      hquote.symm] at hc
  have hnot : '\n' ∉ writtenAttributes attrs := fun h => hwritten _ h rfl
  have hname : '\n' ∉ tag := by
    intro h
    have := htag.all _ h
    simp [isTagChar, isalnum] at this
  simp [quotedLine, hname, hnot]

/-- The tokens of the line: a TAG, an ATTRIBUTE, and what the parentheses leave over. -/
theorem tokenizeFile_quotedLine {tag : CString} (htag : IsTagName tag) (hkey : NoKeyword tag)
    (attrs : List QuotedAttribute) :
    ∃ pos, tokenizeFile (quotedLine tag attrs) =
      createToken .tokenTag (some tag) 0 1 0 ::
        createToken .tokenAttribute (some (scanParens 1 (writtenAttributes attrs ++ [')'])).1)
          0 1 0 ::
        (tokenizeLoop 0 1 0 pos (scanParens 1 (writtenAttributes attrs ++ [')'])).2 ++
          [fileEof (quotedLine tag attrs)]) := by
  have hstop : StopsAt isTagChar ('(' :: (writtenAttributes attrs ++ [')'])) :=
    .cons rfl _
  have hindent : countIndentLevel (quotedLine tag attrs) = 0 := by
    obtain ⟨c, cs, rfl, halpha, -⟩ := htag
    rw [quotedLine, List.cons_append, countIndentLevel, if_neg (isalpha_ne halpha rfl),
      if_neg (isalpha_ne halpha rfl)]
  have hne : quotedLine tag attrs ≠ [] := by simp [quotedLine]
  have hline := tokenizeLine_tag (w := []) (by simp) htag hkey hstop 1
  rw [List.nil_append, ← quotedLine, hindent, quotedLine, tokenizeLoop_tag _ _ _ _ htag hstop,
    tokenizeLoop_paren, ← quotedLine, List.length_nil] at hline
  refine ⟨0 + tag.length + 1 + ((writtenAttributes attrs ++ [')']).length -
    (scanParens 1 (writtenAttributes attrs ++ [')'])).2.length), ?_⟩
  rw [tokenizeFile_eq, fileTokens, gStrsplit_of_ne_nil hne,
    List.splitOn_eq_singleton (not_mem_newline_quotedLine htag attrs), tokenizeLines, tokenizeLines,
    hline, List.append_nil]
  rfl

/-- The first node of the line has the attributes that were meant. -/
def GivesMeant (tag : CString) (attrs : List QuotedAttribute) : Prop :=
  ∃ node, firstNode (quotedLine tag attrs) = some node ∧
    node.attributes = some (attrs.map QuotedAttribute.meant)

/-- **Quoted values.** The line `tag(name=<q>value<q>,…)` gives a node with exactly the attributes
that were written if and only if no value holds a comma and the parentheses of the values match. -/
theorem quotedAttributes_iff {tag : CString} (htag : IsTagName tag) (hkey : NoKeyword tag)
    {attrs : List QuotedAttribute} (hne : attrs ≠ []) :
    GivesMeant tag attrs ↔ Separable 0 attrs := by
  obtain ⟨pos, htokens⟩ := tokenizeFile_quotedLine htag hkey attrs
  obtain ⟨attr, others, rfl⟩ := List.exists_cons_of_ne_nil hne
  have hfile := tokenFile_content (quotedLine tag (attr :: others))
  have hv := hfile.valued_append
  have heof := hfile.endsInEof
  rw [← tokenizeFile_eq, htokens] at hv heof
  have hnode := firstNode_eq htokens rfl hv heof
  set tagToken := createToken .tokenTag (some tag) 0 1 0 with htagToken
  set scanned := scanParens 1 (writtenAttributes (attr :: others) ++ [')'])
  set attrToken := createToken .tokenAttribute (some scanned.1) 0 1 0 with hattrToken
  set eof := fileEof (quotedLine tag (attr :: others))
  have hgroup : group tagToken (attrToken :: (tokenizeLoop 0 1 0 pos scanned.2 ++ [eof])) =
      attrToken :: (tokenizeLoop 0 1 0 pos scanned.2 ++ [eof]).takeWhile (absorbs 0) := by
    have htype : tagToken.type = .tokenTag := rfl
    rw [group, if_pos htype]
    exact List.takeWhile_cons_of_pos rfl
  have hfirst : (absorbToken (startNode tagToken) attrToken).attributes =
      some (parseAttributes scanned.1) := by
    have hstart : startNode tagToken = { astNodeCreate .tokenTag 0 with
      tag := some tag, line := 1 } := rfl
    simp [hstart, hattrToken, absorbToken, absorbStep, createToken, astNodeCreate]
  rw [hgroup, List.foldl_cons] at hnode
  rcases scanParens_attributes attr others 0 with ⟨hsep, hscan, hmeant⟩ | ⟨hsep, hnot⟩
  · refine ⟨fun _ => hsep, fun _ => ⟨_, hnode, ?_⟩⟩
    have hscan' : scanned = (writtenAttributes (attr :: others), []) := hscan
    have hstop : absorbs 0 eof = false := rfl
    rw [hscan'] at hfirst ⊢
    rw [tokenizeLoop_nil, List.nil_append, List.takeWhile_cons_of_neg (by simp [hstop]),
      List.foldl_nil, hfirst, hmeant]
  · refine ⟨?_, fun h => absurd h hsep⟩
    rintro ⟨node, hnode', hattrs⟩
    cases hnode.symm.trans hnode'
    obtain ⟨more, hmore⟩ := foldl_absorbToken_attributes hfirst
      ((tokenizeLoop 0 1 0 pos scanned.2 ++ [eof]).takeWhile (absorbs 0))
    rw [hmore] at hattrs
    exact absurd (Option.some.inj hattrs) (hnot more)

/-- `x='1=2'` -/
def equation : QuotedAttribute where
  name := "x".toList
  quote := '\''
  value := "1=2".toList
  name_ne_nil := by decide
  name_chars := List.all_eq_true.mp rfl
  quote_ok := Or.inr rfl
  quote_free := by decide
  singleLine := by decide

theorem quotedAttributes_iff_equation :
    GivesMeant "a".toList [equation] ↔ Separable 0 [equation] :=
  quotedAttributes_iff ⟨'a', [], rfl, rfl, by simp⟩ (by decide) (by decide)

/-- `x='1,2'` -/
def pair : QuotedAttribute where
  name := "x".toList
  quote := '\''
  value := "1,2".toList
  name_ne_nil := by decide
  name_chars := List.all_eq_true.mp rfl
  quote_ok := Or.inr rfl
  quote_free := by decide
  singleLine := by decide

/-- In the line `a(x='1,2')` the comma cuts the value. -/
theorem quotedAttributes_fails :
    ¬ ∀ tag attrs, IsTagName tag → NoKeyword tag → attrs ≠ [] → GivesMeant tag attrs := by
  intro h
  obtain ⟨node, hnode, hattrs⟩ :=
    h "a".toList [pair] ⟨'a', [], rfl, rfl, by simp⟩ (by decide) (by decide)
  have hfirst : (firstNode (quotedLine "a".toList [pair])).bind ASTNode.attributes =
      some [⟨"x".toList, "'1".toList, .attrString⟩] := by decide +kernel
  rw [hnode, Option.bind_some, hattrs] at hfirst
  exact absurd hfirst (by decide)

end CPug
