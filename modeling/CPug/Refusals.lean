import CPug.Extent
import CPug.Faults
import CPug.Growth

/-!
# Refused allocations

`realloc` in `token_list_add`, `malloc` in `parser_context_create` and `ast_node_create` may each
return `NULL`, and the code has a branch for each. `Answers` says which calls do,
`processPugFileFaulty` is `process_pug_file` under these answers.

A token that finds the list full and gets no larger one is dropped and the next token tries again,
so that the list holds a sublist of the tokens (`run_addCalls`). Most losses are harmless; the one of
the EOF token is not, since `parse_pug` ends on no other.
-/

namespace CPug

open Outline Memory

/-! ## Tokens that are not stored -/

/-- The calls of `token_list_add` for the tokens; `grows` answers for `realloc`. -/
def addCalls (grows : Nat → Bool) (tokens : List Token) : List (AddCall Token) :=
  tokens.mapIdx fun i token => ⟨some token, grows i⟩

/-- The tokens in the list that `tokenize_file` returns. -/
def storedTokens (grows : Nat → Bool) (content : CString) : Option (List Token) :=
  (Container.tokenList.run (addCalls grows (tokenizeFile content))).bind fun list =>
    Block.readFirst list.count list.block.slots

theorem readFirst_run {grows : Nat → Bool} {tokens stored : List Token} {list : GrowableArray Token}
    (hrun : Container.tokenList.run (addCalls grows tokens) = some list)
    (harray : ArrayOf 10 list stored) :
    ((Container.tokenList.run (addCalls grows tokens)).bind fun list =>
      Block.readFirst list.count list.block.slots) = some stored := by
  rw [hrun, Option.bind_some, harray.count_eq]
  exact harray.holds.readFirst

theorem storedTokens_true (content : CString) (hsize : content.length < 2 ^ 31) :
    storedTokens (fun _ => true) content = some (tokenizeFile content) := by
  have hrun : ∀ tokens : List Token, tokens.length ≤ 2 ^ 31 →
      ∃ list, Container.tokenList.run (addCalls (fun _ => true) tokens) = some list ∧
        ArrayOf 10 list tokens := by
    intro tokens hlen
    induction tokens using List.reverseRecOn with
    | nil => exact ⟨_, rfl, Container.tokenList.create_arrayOf⟩
    | append_singleton tokens token ih =>
      rw [List.length_append, List.length_singleton] at hlen
      obtain ⟨list, hrun, harray⟩ := ih (by omega)
      have hcount := harray.count_eq
      obtain ⟨list', hadd, harray'⟩ := @addChecked_of_not_failsToGrow Token 10 list tokens
        ⟨some token, true⟩ harray (by decide) (by omega) fun hgrow => nomatch hgrow.2.2
      refine ⟨list', ?_, harray'⟩
      rw [addCalls, List.mapIdx_concat, Container.run_concat, ← addCalls, hrun, Option.bind_some]
      exact hadd
  have hlen := length_tokenizeFile_le content
  obtain ⟨list, hlist, harray⟩ := hrun (tokenizeFile content) (by omega)
  exact readFirst_run hlist harray

/-! ## `process_pug_file` -/

/-- The answers of the allocators in a run of `process_pug_file`. -/
structure Answers where
  /-- `realloc` in `token_list_add`, for every token. -/
  grows : Nat → Bool
  /-- `malloc` in `parser_context_create`. -/
  context : Bool
  /-- `ast_node_create` for the root. -/
  root : Bool
  /-- `ast_node_create` in every round of the loop of `parse_pug`. -/
  creates : Nat → Bool

/-- How a run of `process_pug_file` ends; `outOfBounds` is a write outside the token list. -/
inductive Ending where
  | outOfBounds
  | hangs
  | null
  | text (result : CString)
deriving Repr, DecidableEq

/-- `process_pug_file` with these answers. -/
def processPugFileFaulty (answers : Answers) (content : CString) (useTabs : Bool) (tabSize : Nat)
    (minify : Bool) : Ending :=
  match storedTokens answers.grows content with
  | none => .outOfBounds
  | some tokens =>
    if answers.context = false then .null
    -- `parse_pug` returns `NULL`.
    else if answers.root = false then .null
    else
      match parsePugFaulty answers.creates tokens with
      | none => .hangs
      | some ctx => .text (renderAst useTabs tabSize minify (rootNode ctx))

/-- Without refusals it is `process_pug_file`. -/
theorem processPugFileFaulty_true (content : CString) (useTabs : Bool) (tabSize : Nat)
    (minify : Bool) (hsize : content.length < 2 ^ 31) :
    processPugFileFaulty ⟨fun _ => true, true, true, fun _ => true⟩ content useTabs tabSize minify =
      ((processPugFile useTabs tabSize minify content).map Ending.text).getD .hangs := by
  rw [processPugFileFaulty, storedTokens_true content hsize, processPugFile]
  show (match parsePugFaulty (fun _ => true) (tokenizeFile content) with
    | none => Ending.hangs
    | some ctx => .text (renderAst useTabs tabSize minify (rootNode ctx))) = _
  rw [parsePugFaulty, faultyLoop_true, ← parsePug]
  cases parsePug (tokenizeFile content) <;> rfl

end CPug
