import CPug.CString

/-!
# Tokens and AST nodes

The data types of `pug_tokens.h`. A pointer that may be `NULL` is an `Option`; `unsigned int`
counters are natural numbers. An AST node is kept without its links: the parent and child
pointers live in the cell that holds the node.
-/

namespace CPug

/-- `TokenType`, without the count `TOKEN_COUNT`. -/
inductive TokenType where
  | tokenTag
  | tokenClass
  | tokenId
  | tokenAttribute
  | tokenText
  | tokenIndentation
  | tokenDot
  | tokenPipe
  | tokenComment
  | tokenBlockComment
  | tokenInterpolation
  | tokenCode
  | tokenDoctype
  | tokenInclude
  | tokenExtends
  | tokenMixin
  | tokenCall
  | tokenEof
deriving Repr, DecidableEq

inductive AttributeType where
  | attrString
  | attrBoolean
  | attrExpression
  | attrClass
  | attrId
deriving Repr, DecidableEq

/-- An attribute of a node. Name and value are never `NULL`: `parse_attributes` is the only
place that makes one. -/
structure Attribute where
  name : CString
  value : CString
  type : AttributeType
deriving Repr, DecidableEq

structure Token where
  type : TokenType
  value : Option CString
  line : Nat
  column : Nat
  depth : Nat
deriving Repr, DecidableEq

/-- `ASTNode` without its links. `classes` holds `class_count` names. -/
structure ASTNode where
  tag : Option CString
  textContent : Option CString
  nodeType : TokenType
  attributes : Option (List Attribute)
  classes : List CString
  id : Option CString
  depth : Nat
  line : Nat
  column : Nat
  isVoid : Bool
  isInline : Bool
  isBlock : Bool
deriving Repr, DecidableEq

/-- `ast_node_create`. -/
def astNodeCreate (type : TokenType) (depth : Nat) : ASTNode where
  tag := none
  textContent := none
  nodeType := type
  attributes := none
  classes := []
  id := none
  depth := depth
  line := 0
  column := 0
  isVoid := false
  isInline := false
  isBlock := false

/-- `UINT_MAX`, the depth `-1` of the artificial root as an `unsigned int`. -/
def uintMax : Nat := 4294967295

end CPug
