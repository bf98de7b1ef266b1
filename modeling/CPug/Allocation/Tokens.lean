import CPug.Memory.Heap
import CPug.TokenStream

/-!
# The blocks of the tokenizer

The functions of the tokenizer once more, with the blocks they allocate and free and nothing else: which
tokens are made is what `tokenizeLine` says. Each object keeps the addresses of its blocks; `owned` are those
that are freed with it. Every function has a triple: what it needs, and what it leaves.
-/

namespace CPug.Allocation

open Memory

/-! ## GLib -/

/-- `g_strdup`, and what else gives one new string. -/
def gStrdup : Alloc Nat := Heap.malloc

/-- A `GString`: the structure, and the characters it points to. -/
structure GString where
  block : Nat
  str : Nat

/-- `g_string_new`. -/
def gStringNew : Alloc GString := do
  let block ← Heap.malloc
  let str ← Heap.malloc
  pure { block := block, str := str }

/-- `g_string_free` with `TRUE`. -/
def gStringFree (string : GString) : Alloc Unit := do
  Heap.free string.str
  Heap.free string.block

/-- `g_string_free` with `FALSE`: the characters are the caller's. -/
def gStringRelease (string : GString) : Alloc Nat := do
  Heap.free string.block
  pure string.str

/-- What `g_strsplit` gives: a vector of strings. -/
structure Strv where
  vector : Nat
  strings : List Nat

/-- `g_strsplit` into a number of pieces. -/
def gStrsplit (pieces : Nat) : Alloc Strv := do
  let vector ← Heap.malloc
  let strings ← Heap.mallocs pieces
  pure { vector := vector, strings := strings }

/-- `g_strfreev`. -/
def gStrfreev (strv : Strv) : Alloc Unit := do
  strv.strings.forM Heap.free
  Heap.free strv.vector

def GString.owned (string : GString) : Multiset Nat := {string.block} + {string.str}

def Strv.owned (strv : Strv) : Multiset Nat := {strv.vector} + ownedBy (fun p => {p}) strv.strings

theorem gStringNew_spec : Triple 0 gStringNew fun string left => left = string.owned := by
  refine .bindNew .malloc fun block _ hblock => .bindNew .malloc fun str _ hstr => .ret ?_
  rw [hblock, hstr, GString.owned]
  abel

theorem gStringFree_spec (string : GString) :
    Triple string.owned (gStringFree string) fun _ left => left = 0 :=
  .bindFree (.free _) (add_comm _ _) (.free _)

theorem gStringRelease_spec (string : GString) :
    Triple string.owned (gStringRelease string) fun str left => left = {str} :=
  .bindFree (.free _) rfl (.ret rfl)

theorem gStrsplit_spec (pieces : Nat) :
    Triple 0 (gStrsplit pieces) fun strv left => left = strv.owned := by
  refine .bindNew .malloc fun vector _ hvector => .bindNew (.mallocs _) fun strings _ hstrings => .ret ?_
  rw [hvector, hstrings, Strv.owned]
  abel

theorem gStrfreev_spec (strv : Strv) :
    Triple strv.owned (gStrfreev strv) fun _ left => left = 0 :=
  .bindFree (.forM fun p _ => .free p) (add_comm _ _) (.free _)

/-! ## Tokens -/

/-- A token in memory: the structure and the value. The list of attributes is always `NULL`. -/
structure HeapToken where
  block : Nat
  value : Option Nat
  token : Token

/-- `create_token`. -/
def createToken (token : Token) : Alloc HeapToken := do
  let block ← Heap.malloc
  match token.value with
  | none => pure { block := block, value := none, token := token }
  | some _ => do
    let value ← gStrdup
    pure { block := block, value := some value, token := token }

def HeapToken.owned (token : HeapToken) : Multiset Nat := {token.block} + blockIfAny token.value

/-- What `token_list_free` does with a token. -/
def tokenFree (token : HeapToken) : Alloc Unit := do
  Heap.freeIfAny token.value
  Heap.free token.block

/-- A token list: the structure, the array and the tokens. -/
structure HeapTokenList where
  block : Nat
  array : Nat
  capacity : Nat
  tokens : List HeapToken

def HeapTokenList.owned (list : HeapTokenList) : Multiset Nat :=
  {list.block} + {list.array} + ownedBy HeapToken.owned list.tokens

/-- `token_list_create`. -/
def tokenListCreate : Alloc HeapTokenList := do
  let block ← Heap.malloc
  let array ← Heap.malloc
  pure { block := block, array := array, capacity := 10, tokens := [] }

/-- `token_list_add`. -/
def tokenListAdd (list : HeapTokenList) (token : HeapToken) : Alloc HeapTokenList :=
  if list.tokens.length ≥ list.capacity then do
    let array ← Heap.realloc list.array
    pure { list with
      array := array, capacity := list.capacity * 2, tokens := list.tokens ++ [token] }
  else pure { list with tokens := list.tokens ++ [token] }

/-- `token_list_free`. -/
def tokenListFree (list : HeapTokenList) : Alloc Unit := do
  list.tokens.forM tokenFree
  Heap.free list.array
  Heap.free list.block

theorem createToken_spec (token : Token) :
    Triple 0 (createToken token) fun made left => left = made.owned ∧ made.token = token := by
  unfold createToken
  refine .bindNew .malloc fun block _ hblock => ?_
  split
  · refine .ret ⟨?_, rfl⟩
    rw [hblock]
    rfl
  · refine .bindNew .malloc fun value _ hvalue => .ret ⟨?_, rfl⟩
    rw [hblock, hvalue, HeapToken.owned, blockIfAny_some]
    abel

theorem tokenFree_spec (token : HeapToken) :
    Triple token.owned (tokenFree token) fun _ left => left = 0 :=
  .bindFree (.freeIfAny _) (add_comm _ _) (.free _)

theorem tokenListCreate_spec :
    Triple 0 tokenListCreate fun list left => left = list.owned ∧ list.tokens = [] := by
  refine .bindNew .malloc fun block _ hblock => .bindNew .malloc fun array _ harray => .ret ⟨?_, rfl⟩
  rw [hblock, harray, HeapTokenList.owned, ownedBy_nil]
  abel

theorem tokenListAdd_spec (list : HeapTokenList) (token : HeapToken) :
    Triple (list.owned + token.owned) (tokenListAdd list token) fun list' left =>
      left = list'.owned ∧ list'.tokens = list.tokens ++ [token] := by
  have howned : ∀ array, {array} + ({list.block} + ownedBy HeapToken.owned list.tokens + token.owned) =
      {list.block} + {array} + ownedBy HeapToken.owned (list.tokens ++ [token]) := by
    intro array
    rw [ownedBy_append, ownedBy_cons, ownedBy_nil]
    abel
  have hsplit : list.owned + token.owned =
      {list.array} + ({list.block} + ownedBy HeapToken.owned list.tokens + token.owned) := by
    rw [HeapTokenList.owned]
    abel
  unfold tokenListAdd
  split
  · refine .bind (.realloc _) hsplit fun array _ harray => .ret ⟨?_, rfl⟩
    rw [harray]
    exact howned array
  · exact .ret ⟨hsplit.trans (howned list.array), rfl⟩

theorem tokenListFree_spec (list : HeapTokenList) :
    Triple list.owned (tokenListFree list) fun _ left => left = 0 := by
  refine .bindFree (.forM fun token _ => tokenFree_spec token) (add_comm _ _) ?_
  exact .bindFree (.free _) (add_comm _ _) (.free _)

/-! ## Lines -/

/-- `create_token` and `token_list_add` for tokens one after the other. -/
def addTokens (list : HeapTokenList) : List Token → Alloc HeapTokenList
  | [] => pure list
  | token :: tokens => do
    let made ← createToken token
    let list ← tokenListAdd list made
    addTokens list tokens

/-- The line is a comment, piped text or code: its token is made without a buffer. -/
def isBufferless (rest : CString) : Bool :=
  match rest with
  | '/' :: '/' :: _ | '|' :: _ | '-' :: _ => true
  | _ => false

/-- `tokenize_line`. -/
def tokenizeLine (list : HeapTokenList) (line : CString) (lineNumber : Nat) : Alloc HeapTokenList :=
  let rest := skipWhitespace line
  if rest = [] then pure list
  else if isBufferless rest then addTokens list (CPug.tokenizeLine line lineNumber)
  else do
    let buffer ← gStringNew
    let list ← addTokens list (CPug.tokenizeLine line lineNumber)
    gStringFree buffer
    pure list

/-- The line loop of `tokenize_file`. -/
def tokenizeLines (list : HeapTokenList) (lineNumber : Nat) : List CString → Alloc HeapTokenList
  | [] => pure list
  | line :: lines => do
    let list ← tokenizeLine list line lineNumber
    tokenizeLines list (lineNumber + 1) lines

/-- `tokenize_file`. -/
def tokenizeFile (content : CString) : Alloc HeapTokenList := do
  let lines := CPug.gStrsplit content '\n'
  let list ← tokenListCreate
  let strv ← gStrsplit lines.length
  let list ← tokenizeLines list 1 lines
  let eof ← createToken (CPug.createToken .tokenEof none 0 (lines.length + 1) 0)
  let list ← tokenListAdd list eof
  gStrfreev strv
  pure list

/-- A list grown by tokens: what is left is what it owns. -/
def Grown (list : HeapTokenList) (tokens : List Token) (list' : HeapTokenList) (left : Multiset Nat) :
    Prop :=
  left = list'.owned ∧ list'.tokens.map HeapToken.token = list.tokens.map HeapToken.token ++ tokens

theorem addTokens_spec (list : HeapTokenList) (tokens : List Token) :
    Triple list.owned (addTokens list tokens) (Grown list tokens) := by
  induction tokens generalizing list with
  | nil => exact .ret ⟨rfl, (List.append_nil _).symm⟩
  | cons token tokens ih =>
    refine .bindNew (createToken_spec token) fun made _ hmade => ?_
    obtain ⟨rfl, rfl⟩ := hmade
    rw [add_comm]
    refine .bind (tokenListAdd_spec list made) (add_zero _).symm fun list' _ hlist' => ?_
    obtain ⟨rfl, htokens⟩ := hlist'
    rw [add_zero]
    refine (ih list').mono fun list'' left hgrown => ⟨hgrown.1, ?_⟩
    rw [hgrown.2, htokens, List.map_append, List.append_assoc]
    rfl

theorem tokenizeLine_spec (list : HeapTokenList) (line : CString) (lineNumber : Nat) :
    Triple list.owned (tokenizeLine list line lineNumber)
      (Grown list (CPug.tokenizeLine line lineNumber)) := by
  unfold tokenizeLine
  dsimp only
  split
  · rename_i hblank
    refine .ret ⟨rfl, ?_⟩
    rw [CPug.tokenizeLine]
    simp [hblank]
  split
  · exact addTokens_spec list _
  · refine .bindNew gStringNew_spec fun buffer _ hbuffer => ?_
    refine .bind (addTokens_spec list _) (add_comm _ _) fun list' left hgrown => ?_
    rw [hbuffer]
    exact .bindFree (gStringFree_spec buffer) (add_comm _ _) (.ret hgrown)

theorem tokenizeLines_spec (list : HeapTokenList) (lineNumber : Nat) (lines : List CString) :
    Triple list.owned (tokenizeLines list lineNumber lines)
      (Grown list (CPug.tokenizeLines lineNumber lines)) := by
  induction lines generalizing list lineNumber with
  | nil => exact .ret ⟨rfl, (List.append_nil _).symm⟩
  | cons line lines ih =>
    refine .bind (tokenizeLine_spec list line lineNumber) (add_zero _).symm fun list' _ hgrown => ?_
    obtain ⟨rfl, htokens⟩ := hgrown
    rw [add_zero]
    refine (ih list' (lineNumber + 1)).mono fun list'' left hgrown => ⟨hgrown.1, ?_⟩
    rw [hgrown.2, htokens, CPug.tokenizeLines, List.append_assoc]

/-- `tokenize_file` leaves the blocks of its list, which holds the tokens of the file. -/
theorem tokenizeFile_spec (content : CString) :
    Triple 0 (tokenizeFile content) fun list left =>
      left = list.owned ∧ list.tokens.map HeapToken.token = CPug.tokenizeFile content := by
  unfold tokenizeFile
  refine .bindNew tokenListCreate_spec fun list _ hlist => ?_
  obtain ⟨rfl, hnil⟩ := hlist
  rw [add_zero]
  refine .bindNew (gStrsplit_spec _) fun strv _ hstrv => ?_
  refine .bind (tokenizeLines_spec list 1 _) (add_comm _ _) fun list' _ hgrown => ?_
  obtain ⟨rfl, htokens⟩ := hgrown
  refine .bindNew (createToken_spec _) fun eof _ heof => ?_
  obtain ⟨rfl, htoken⟩ := heof
  rw [hstrv, ← add_assoc, add_comm eof.owned]
  refine .bind (tokenListAdd_spec list' eof) rfl fun list'' _ hlist'' => ?_
  obtain ⟨rfl, hadded⟩ := hlist''
  refine .bindFree (gStrfreev_spec strv) (add_comm _ _) (.ret ⟨rfl, ?_⟩)
  rw [hadded, List.map_append, htokens, hnil, List.map_singleton, htoken, CPug.tokenizeFile]
  rfl

end CPug.Allocation
