import CPug.Allocation.Tokens
import CPug.ParserRun

/-!
# The blocks of a node

`parse_node` with the blocks it allocates and frees. The control is that of the parser: the loop after a TAG
token takes the tokens that `absorbStep` takes. What a node owns is freed with it, with one exception: the id
of a node that has one is overwritten by the next ID token and not freed. `parseNode_spec` counts these.
-/

namespace CPug.Allocation

open Memory

/-! ## Attributes -/

/-- An attribute in memory. -/
structure HeapAttribute where
  block : Nat
  name : Nat
  value : Nat

def HeapAttribute.owned (attr : HeapAttribute) : Multiset Nat :=
  {attr.block} + {attr.name} + {attr.value}

/-- What `attribute_list_free` does with an attribute. -/
def attributeFree (attr : HeapAttribute) : Alloc Unit := do
  Heap.free attr.name
  Heap.free attr.value
  Heap.free attr.block

/-- An attribute list: the structure, the array and the attributes. -/
structure HeapAttributeList where
  block : Nat
  array : Nat
  capacity : Nat
  attributes : List HeapAttribute

def HeapAttributeList.owned (list : HeapAttributeList) : Multiset Nat :=
  {list.block} + {list.array} + ownedBy HeapAttribute.owned list.attributes

/-- `attribute_list_create`. -/
def attributeListCreate : Alloc HeapAttributeList := do
  let block ← Heap.malloc
  let array ← Heap.malloc
  pure { block := block, array := array, capacity := 5, attributes := [] }

/-- `attribute_list_add`. -/
def attributeListAdd (list : HeapAttributeList) (attr : HeapAttribute) : Alloc HeapAttributeList :=
  if list.attributes.length ≥ list.capacity then do
    let array ← Heap.realloc list.array
    pure { list with
      array := array, capacity := list.capacity * 2, attributes := list.attributes ++ [attr] }
  else pure { list with attributes := list.attributes ++ [attr] }

/-- `attribute_list_free`. -/
def attributeListFree (list : HeapAttributeList) : Alloc Unit := do
  list.attributes.forM attributeFree
  Heap.free list.array
  Heap.free list.block

/-- The part of the loop of `parse_attributes` that makes the attribute. -/
def addAttribute (list : HeapAttributeList) (key : CString) : Alloc HeapAttributeList := do
  let block ← Heap.malloc
  let name ← gStrdup
  if gStrstrip key = [] then do
    -- The name is not freed.
    Heap.free block
    pure list
  else do
    let value ← gStrdup
    attributeListAdd list { block := block, name := name, value := value }

/-- The test on the two halves of a pair, and what it guards. -/
def addPair (list : HeapAttributeList) : List CString → Alloc HeapAttributeList
  | [key, _] => if key = [] then pure list else addAttribute list key
  | _ => pure list

/-- One round of the loop of `parse_attributes`. -/
def parseAttributePair (list : HeapAttributeList) (pair : CString) : Alloc HeapAttributeList :=
  let attrStr := gStrstrip pair
  if attrStr = [] then pure list
  else do
    let kv ← gStrsplit (gStrsplit2 attrStr '=').length
    let list ← addPair list (gStrsplit2 attrStr '=')
    gStrfreev kv
    pure list

/-- The loop of `parse_attributes`. -/
def parseAttributePairs (list : HeapAttributeList) : List CString → Alloc HeapAttributeList
  | [] => pure list
  | pair :: pairs => do
    let list ← parseAttributePair list pair
    parseAttributePairs list pairs

/-- The list of the node, made if it has none. -/
def listOrCreate : Option HeapAttributeList → Alloc HeapAttributeList
  | some list => pure list
  | none => attributeListCreate

/-- `parse_attributes`, on the list of the node. -/
def parseAttributes (list : Option HeapAttributeList) (value : CString) :
    Alloc HeapAttributeList := do
  let list ← listOrCreate list
  let pairs := CPug.gStrsplit value ','
  let strv ← gStrsplit pairs.length
  let list ← parseAttributePairs list pairs
  gStrfreev strv
  pure list

theorem attributeFree_spec (attr : HeapAttribute) :
    Triple attr.owned (attributeFree attr) fun _ left => left = 0 := by
  have hsplit : attr.owned = {attr.name} + ({attr.value} + {attr.block}) := by
    rw [HeapAttribute.owned]
    abel
  exact .bindFree (.free _) hsplit (.bindFree (.free _) rfl (.free _))

theorem attributeListCreate_spec :
    Triple 0 attributeListCreate fun list left => left = list.owned := by
  refine .bindNew .malloc fun block _ hblock => .bindNew .malloc fun array _ harray => .ret ?_
  rw [hblock, harray, HeapAttributeList.owned, ownedBy_nil]
  abel

theorem attributeListAdd_spec (list : HeapAttributeList) (attr : HeapAttribute) :
    Triple (list.owned + attr.owned) (attributeListAdd list attr) fun list' left =>
      left = list'.owned := by
  have howned : ∀ array,
      {array} + ({list.block} + ownedBy HeapAttribute.owned list.attributes + attr.owned) =
        {list.block} + {array} + ownedBy HeapAttribute.owned (list.attributes ++ [attr]) := by
    intro array
    rw [ownedBy_append, ownedBy_cons, ownedBy_nil]
    abel
  have hsplit : list.owned + attr.owned =
      {list.array} + ({list.block} + ownedBy HeapAttribute.owned list.attributes + attr.owned) := by
    rw [HeapAttributeList.owned]
    abel
  unfold attributeListAdd
  split
  · refine .bind (.realloc _) hsplit fun array _ harray => .ret ?_
    rw [harray]
    exact howned array
  · exact .ret (hsplit.trans (howned list.array))

theorem attributeListFree_spec (list : HeapAttributeList) :
    Triple list.owned (attributeListFree list) fun _ left => left = 0 := by
  refine .bindFree (.forM fun attr _ => attributeFree_spec attr) (add_comm _ _) ?_
  exact .bindFree (.free _) (add_comm _ _) (.free _)

/-- The pair is stripped before it is split: a name that is not empty is not blank either. -/
theorem gStrstrip_key_ne_nil {pair key value : CString}
    (h : gStrsplit2 (gStrstrip pair) '=' = [key, value]) (hkey : key ≠ []) : gStrstrip key ≠ [] := by
  rcases gStrsplit2_cases (gStrstrip pair) '=' with ⟨-, hsplit⟩ | ⟨k, v, heq, -, hsplit⟩
  · rw [hsplit] at h
    cases h
  · rw [hsplit] at h
    cases h
    obtain ⟨c, cs, rfl⟩ := List.exists_cons_of_ne_nil hkey
    have hhead := (stripped_gStrstrip pair).1 c (by rw [heq]; rfl)
    intro hnil
    rw [gStrstrip_eq_nil.mp hnil c List.mem_cons_self] at hhead
    cases hhead

/-- With a name that is not blank, nothing is lost. -/
theorem addAttribute_spec (list : HeapAttributeList) {key : CString} (h : gStrstrip key ≠ []) :
    Triple list.owned (addAttribute list key) fun list' left => left = list'.owned := by
  refine .bindNew .malloc fun block _ hblock => .bindNew .malloc fun name _ hname => ?_
  rw [if_neg h]
  refine .bindNew .malloc fun value _ hvalue => ?_
  have hmade : ({value} : Multiset Nat) + ({name} + ({block} + list.owned)) =
      list.owned + HeapAttribute.owned { block := block, name := name, value := value } := by
    rw [HeapAttribute.owned]
    abel
  rw [hblock, hname, hvalue, hmade]
  exact attributeListAdd_spec list _

theorem addPair_spec (list : HeapAttributeList) (pair : CString) :
    Triple list.owned (addPair list (gStrsplit2 (gStrstrip pair) '=')) fun list' left =>
      left = list'.owned := by
  generalize hsplit : gStrsplit2 (gStrstrip pair) '=' = kv
  unfold addPair
  split
  · split
    · exact .ret rfl
    · rename_i hkey
      exact addAttribute_spec list (gStrstrip_key_ne_nil hsplit hkey)
  · exact .ret rfl

theorem parseAttributePair_spec (list : HeapAttributeList) (pair : CString) :
    Triple list.owned (parseAttributePair list pair) fun list' left => left = list'.owned := by
  unfold parseAttributePair
  dsimp only
  split
  · exact .ret rfl
  · refine .bindNew (gStrsplit_spec _) fun kv _ hkv => ?_
    refine .bind (addPair_spec list pair) (add_comm _ _) fun list' _ hlist' => ?_
    rw [hkv, hlist']
    exact .bindFree (gStrfreev_spec kv) (add_comm _ _) (.ret rfl)

theorem parseAttributePairs_spec (list : HeapAttributeList) (pairs : List CString) :
    Triple list.owned (parseAttributePairs list pairs) fun list' left => left = list'.owned := by
  induction pairs generalizing list with
  | nil => exact .ret rfl
  | cons pair pairs ih =>
    refine .bind (parseAttributePair_spec list pair) (add_zero _).symm fun list' _ hlist' => ?_
    rw [hlist', add_zero]
    exact ih list'

/-- What a pointer to a list that may be `NULL` owns. -/
def attributesOwned : Option HeapAttributeList → Multiset Nat
  | some list => list.owned
  | none => 0

theorem listOrCreate_spec (list : Option HeapAttributeList) :
    Triple (attributesOwned list) (listOrCreate list) fun list' left => left = list'.owned := by
  cases list with
  | some list => exact .ret rfl
  | none => exact attributeListCreate_spec

theorem parseAttributes_spec (list : Option HeapAttributeList) (value : CString) :
    Triple (attributesOwned list) (parseAttributes list value) fun list' left =>
      left = list'.owned := by
  refine .bind (listOrCreate_spec list) (add_zero _).symm fun list _ hlist => ?_
  rw [hlist, add_zero]
  refine .bindNew (gStrsplit_spec _) fun strv _ hstrv => ?_
  refine .bind (parseAttributePairs_spec list _) (add_comm _ _) fun list' _ hlist' => ?_
  rw [hstrv, hlist']
  exact .bindFree (gStrfreev_spec strv) (add_comm _ _) (.ret rfl)

/-! ## Classes -/

/-- The array of classes and the names in it. -/
structure HeapClasses where
  array : Nat
  names : List Nat

/-- What the pointer to the classes owns. -/
def classesOwned : Option HeapClasses → Multiset Nat
  | some classes => {classes.array} + ownedBy (fun p => {p}) classes.names
  | none => 0

/-- `parse_classes`. -/
def parseClasses (classes : Option HeapClasses) (className : CString) :
    Alloc (Option HeapClasses) :=
  if className = [] then pure classes
  else
    match classes with
    | none => do
      let array ← Heap.malloc
      let name ← gStrdup
      pure (some { array := array, names := [name] })
    | some classes =>
      if classes.names.length % 5 = 0 then do
        let array ← Heap.realloc classes.array
        let name ← gStrdup
        pure (some { array := array, names := classes.names ++ [name] })
      else do
        let name ← gStrdup
        pure (some { classes with names := classes.names ++ [name] })

/-- What `ast_node_free` does with the classes. -/
def classesFree : Option HeapClasses → Alloc Unit
  | some classes => do
    classes.names.forM Heap.free
    Heap.free classes.array
  | none => pure ()

theorem parseClasses_spec (classes : Option HeapClasses) (className : CString) :
    Triple (classesOwned classes) (parseClasses classes className) fun classes' left =>
      left = classesOwned classes' := by
  unfold parseClasses
  split
  · exact .ret rfl
  cases classes with
  | none =>
    refine .bindNew .malloc fun array _ harray => .bindNew .malloc fun name _ hname => .ret ?_
    rw [harray, hname, classesOwned, classesOwned, ownedBy_cons, ownedBy_nil]
    abel
  | some classes =>
    have howned : ∀ array name : Nat,
        {name} + ({array} + ownedBy (fun p => {p}) classes.names) =
          classesOwned (some { array := array, names := classes.names ++ [name] }) := by
      intro array name
      rw [classesOwned, ownedBy_append, ownedBy_cons, ownedBy_nil]
      abel
    dsimp only
    split
    · refine .bind (.realloc _) rfl fun array _ harray => .bindNew .malloc fun name _ hname => .ret ?_
      rw [harray, hname]
      exact howned array name
    · refine .bindNew .malloc fun name _ hname => .ret ?_
      rw [hname]
      exact howned classes.array name

theorem classesFree_spec (classes : Option HeapClasses) :
    Triple (classesOwned classes) (classesFree classes) fun _ left => left = 0 := by
  cases classes with
  | none => exact .ret rfl
  | some classes => exact .bindFree (.forM fun p _ => .free p) (add_comm _ _) (.free _)

/-! ## Nodes -/

/-- A node in memory, its children apart: the structure, the array of children, and what the other pointers
lead to. -/
structure HeapNode where
  node : ASTNode
  block : Nat
  children : Nat
  childrenCapacity : Nat
  tag : Option Nat
  textContent : Option Nat
  id : Option Nat
  classes : Option HeapClasses
  attributes : Option HeapAttributeList

/-- The blocks that `ast_node_free` frees, those of the children apart. -/
def HeapNode.owned (heapNode : HeapNode) : Multiset Nat :=
  blockIfAny heapNode.tag + blockIfAny heapNode.textContent + blockIfAny heapNode.id +
    classesOwned heapNode.classes + attributesOwned heapNode.attributes +
    ({heapNode.children} + {heapNode.block})

/-- `ast_node_create`. -/
def astNodeCreate (node : ASTNode) : Alloc HeapNode := do
  let block ← Heap.malloc
  let children ← Heap.malloc
  pure
    { node := node
      block := block
      children := children
      childrenCapacity := 5
      tag := none
      textContent := none
      id := none
      classes := none
      attributes := none }

/-- What `ast_node_free` frees before the children. -/
def freeFields (heapNode : HeapNode) : Alloc Unit := do
  Heap.freeIfAny heapNode.tag
  Heap.freeIfAny heapNode.textContent
  Heap.freeIfAny heapNode.id
  classesFree heapNode.classes
  match heapNode.attributes with
  | some list => attributeListFree list
  | none => pure ()

/-- What `ast_node_free` frees after the children. -/
def freeNode (heapNode : HeapNode) : Alloc Unit := do
  Heap.free heapNode.children
  Heap.free heapNode.block

/-- The text of a TAG node: joined with the text it has. -/
def appendText (textContent : Option Nat) : Alloc Nat :=
  match textContent with
  | some text => do
    let newText ← gStrdup
    Heap.free text
    let joined ← gStrdup
    Heap.free newText
    pure joined
  | none => gStrdup

/-- What the loop after a TAG token allocates for a token it takes. -/
def takeToken (heapNode : HeapNode) (token : Token) : Alloc HeapNode :=
  match token.type with
  | .tokenId => do
    -- The id the node has is not freed.
    let id ← gStrdup
    pure { heapNode with id := some id }
  | .tokenClass => do
    let classes ← parseClasses heapNode.classes (token.value.getD [])
    pure { heapNode with classes := classes }
  | .tokenAttribute => do
    let list ← parseAttributes heapNode.attributes (token.value.getD [])
    pure { heapNode with attributes := some list }
  | .tokenText | .tokenInterpolation => do
    let text ← appendText heapNode.textContent
    pure { heapNode with textContent := some text }
  | _ => pure heapNode

/-- The loop after a TAG token. -/
def absorb (heapNode : HeapNode) : List Token → Alloc HeapNode
  | [] => pure heapNode
  | token :: rest =>
    match absorbStep heapNode.node token with
    | .stops => pure heapNode
    | .spins => Heap.never
    | .takes node => do
      let heapNode ← takeToken heapNode token
      absorb { heapNode with node := node } rest

/-- `parse_node`. -/
def parseNode (rest : List Token) : Alloc (Option HeapNode) :=
  match rest with
  | [] => pure none
  | token :: more =>
    if token.type = .tokenEof then pure none
    else do
      let heapNode ← astNodeCreate (startNode token)
      match token.type with
      | .tokenTag => do
        let tag ← gStrdup
        let heapNode ← absorb { heapNode with tag := some tag } more
        pure (some heapNode)
      | .tokenText | .tokenPipe | .tokenDot | .tokenCode | .tokenComment | .tokenBlockComment
      | .tokenInterpolation => do
        let text ← gStrdup
        pure (some { heapNode with textContent := some text })
      | .tokenDoctype | .tokenInclude | .tokenExtends | .tokenMixin | .tokenCall => do
        let tag ← gStrdup
        let text ← gStrdup
        pure (some { heapNode with tag := some tag, textContent := some text })
      | _ => do
        freeFields heapNode
        freeNode heapNode
        pure none

/-! ## One token -/

/-- How many of the tokens are ID tokens. -/
def idCount (tokens : List Token) : Nat := tokens.countP fun token => token.type = .tokenId

/-- The ids that the node at the head of the tokens overwrites. -/
def overwrittenIds : List Token → Nat
  | [] => 0
  | token :: more => idCount (group token more) - 1

theorem appendText_spec (text : Option Nat) :
    Triple (blockIfAny text) (appendText text) fun joined left => left = {joined} := by
  cases text with
  | none => exact .malloc
  | some text =>
    refine .bindNew .malloc fun newText _ hnew => ?_
    refine .bindFree (.free text) (add_comm _ _) ?_
    refine .bindNew .malloc fun joined _ hjoined => ?_
    rw [hnew, hjoined]
    exact .bindFree (.free newText) (add_comm _ _) (.ret rfl)

/-- An ID token gives the node a new id, and leaves the one it had. -/
theorem takeToken_id (heapNode : HeapNode) {token : Token} (h : token.type = .tokenId) :
    Triple heapNode.owned (takeToken heapNode token) fun heapNode' left =>
      left = heapNode'.owned + blockIfAny heapNode.id ∧ (blockIfAny heapNode'.id).card = 1 := by
  unfold takeToken
  rw [h]
  refine .bindNew .malloc fun id _ hid => .ret ⟨?_, rfl⟩
  rw [hid, HeapNode.owned, HeapNode.owned, blockIfAny_some]
  abel

/-- Any other token leaves nothing but what the node owns. -/
theorem takeToken_ne_id (heapNode : HeapNode) {token : Token} (h : token.type ≠ .tokenId) :
    Triple heapNode.owned (takeToken heapNode token) fun heapNode' left =>
      left = heapNode'.owned ∧ heapNode'.id = heapNode.id := by
  have htext : Triple heapNode.owned
      (appendText heapNode.textContent >>= fun text =>
        pure { heapNode with textContent := some text }) fun heapNode' left =>
        left = heapNode'.owned ∧ heapNode'.id = heapNode.id := by
    have hsplit : heapNode.owned = blockIfAny heapNode.textContent + (blockIfAny heapNode.tag +
        blockIfAny heapNode.id + classesOwned heapNode.classes +
        attributesOwned heapNode.attributes + ({heapNode.children} + {heapNode.block})) := by
      rw [HeapNode.owned]
      abel
    refine .bind (appendText_spec _) hsplit fun text _ htext => .ret ⟨?_, rfl⟩
    rw [htext, HeapNode.owned, blockIfAny_some]
    abel
  unfold takeToken
  split
  · exact absurd ‹_› h
  · have hsplit : heapNode.owned = classesOwned heapNode.classes + (blockIfAny heapNode.tag +
        blockIfAny heapNode.textContent + blockIfAny heapNode.id +
        attributesOwned heapNode.attributes + ({heapNode.children} + {heapNode.block})) := by
      rw [HeapNode.owned]
      abel
    refine .bind (parseClasses_spec _ _) hsplit fun classes _ hclasses => .ret ⟨?_, rfl⟩
    rw [hclasses, HeapNode.owned]
    abel
  · have hsplit : heapNode.owned = attributesOwned heapNode.attributes +
        (blockIfAny heapNode.tag + blockIfAny heapNode.textContent + blockIfAny heapNode.id +
        classesOwned heapNode.classes + ({heapNode.children} + {heapNode.block})) := by
      rw [HeapNode.owned]
      abel
    refine .bind (parseAttributes_spec _ _) hsplit fun list _ hlist => .ret ⟨?_, rfl⟩
    rw [hlist, HeapNode.owned, attributesOwned]
    abel
  · exact htext
  · exact htext
  · exact .ret ⟨rfl, rfl⟩

/-- A node after some tokens: `lost` are the ids that were overwritten. -/
def Taken (heapNode : HeapNode) (tokens : List Token) (heapNode' : HeapNode) (left : Multiset Nat) :
    Prop :=
  heapNode'.node = tokens.foldl absorbToken heapNode.node ∧
    ∃ lost, left = heapNode'.owned + lost ∧
      lost.card = idCount tokens + (blockIfAny heapNode.id).card - 1

theorem card_blockIfAny_le (p : Option Nat) : (blockIfAny p).card ≤ 1 := by
  cases p <;> simp

/-- The loop after a TAG token. -/
theorem absorb_spec (heapNode : HeapNode) {rest : List Token} (hvalued : Valued rest) :
    Triple heapNode.owned (absorb heapNode rest)
      (Taken heapNode (rest.takeWhile (absorbs heapNode.node.depth))) := by
  induction rest generalizing heapNode with
  | nil =>
    refine .ret ⟨rfl, 0, (add_zero _).symm, ?_⟩
    have := card_blockIfAny_le heapNode.id
    simp only [List.takeWhile_nil, idCount, List.countP_nil, Multiset.card_zero]
    omega
  | cons token rest ih =>
    cases habsorbs : absorbs heapNode.node.depth token with
    | false =>
      rw [absorb, absorbStep_stops habsorbs, List.takeWhile_cons_of_neg (by simp [habsorbs])]
      refine .ret ⟨rfl, 0, (add_zero _).symm, ?_⟩
      have := card_blockIfAny_le heapNode.id
      simp only [idCount, List.countP_nil, Multiset.card_zero]
      omega
    | true =>
      rw [absorb, absorbStep_takes habsorbs (hvalued token List.mem_cons_self),
        List.takeWhile_cons_of_pos habsorbs]
      have hdepth := (absorbToken_sameHead heapNode.node token).depth
      have hrest : Valued rest := fun t ht => hvalued t (List.mem_cons_of_mem _ ht)
      by_cases hid : token.type = .tokenId
      · refine .bind (takeToken_id heapNode hid) (add_zero _).symm fun taken _ htaken => ?_
        obtain ⟨rfl, hcard⟩ := htaken
        rw [add_zero]
        have hloop := ih { taken with node := absorbToken heapNode.node token } hrest
        refine (hloop.frame rfl).mono fun heapNode' left hleft => ?_
        obtain ⟨_, ⟨hnode, lost, rfl, hlost⟩, rfl⟩ := hleft
        rw [hdepth] at hnode hlost
        refine ⟨hnode, lost + blockIfAny heapNode.id, add_assoc _ _ _, ?_⟩
        have hcons : idCount (token :: rest.takeWhile (absorbs heapNode.node.depth)) =
            idCount (rest.takeWhile (absorbs heapNode.node.depth)) + 1 :=
          List.countP_cons_of_pos (by simp [hid])
        rw [Multiset.card_add, hlost, hcons]
        show _ + (blockIfAny taken.id).card - 1 + _ = _
        omega
      · refine .bind (takeToken_ne_id heapNode hid) (add_zero _).symm fun taken _ htaken => ?_
        obtain ⟨rfl, hsame⟩ := htaken
        rw [add_zero]
        have hloop := ih { taken with node := absorbToken heapNode.node token } hrest
        refine hloop.mono fun heapNode' left hleft => ?_
        obtain ⟨hnode, lost, rfl, hlost⟩ := hleft
        rw [hdepth] at hnode hlost
        refine ⟨hnode, lost, rfl, ?_⟩
        have hcons : idCount (token :: rest.takeWhile (absorbs heapNode.node.depth)) =
            idCount (rest.takeWhile (absorbs heapNode.node.depth)) :=
          List.countP_cons_of_neg (by simp [hid])
        rw [hlost, hcons]
        show _ + (blockIfAny taken.id).card - 1 = _
        rw [hsame]

/-- What `ast_node_free` frees before the children and after them is what the node owns. -/
theorem freeFields_spec (heapNode : HeapNode) :
    Triple heapNode.owned (freeFields heapNode) fun _ left =>
      left = {heapNode.children} + {heapNode.block} := by
  have hattributes : Triple (attributesOwned heapNode.attributes)
      (match heapNode.attributes with
        | some list => attributeListFree list
        | none => pure ()) fun _ left => left = 0 := by
    cases heapNode.attributes with
    | none => exact .ret rfl
    | some list => exact attributeListFree_spec list
  have hsplit : heapNode.owned = blockIfAny heapNode.tag + (blockIfAny heapNode.textContent +
      (blockIfAny heapNode.id + (classesOwned heapNode.classes +
        (attributesOwned heapNode.attributes + ({heapNode.children} + {heapNode.block}))))) := by
    rw [HeapNode.owned]
    abel
  refine .bindFree (.freeIfAny _) hsplit (.bindFree (.freeIfAny _) rfl (.bindFree (.freeIfAny _) rfl
    (.bindFree (classesFree_spec _) rfl ?_)))
  refine (hattributes.frame rfl).mono fun _ left hleft => ?_
  obtain ⟨_, rfl, rfl⟩ := hleft
  exact zero_add _

theorem freeNode_spec (heapNode : HeapNode) :
    Triple ({heapNode.children} + {heapNode.block}) (freeNode heapNode) fun _ left => left = 0 :=
  .bindFree (.free _) rfl (.free _)

/-- A new node has no tag, no text and no id. -/
def Fresh (node : ASTNode) (heapNode : HeapNode) : Prop :=
  heapNode.node = node ∧ heapNode.tag = none ∧ heapNode.textContent = none ∧ heapNode.id = none

theorem astNodeCreate_spec (node : ASTNode) :
    Triple 0 (astNodeCreate node) fun heapNode left =>
      left = heapNode.owned ∧ Fresh node heapNode := by
  refine .bindNew .malloc fun block _ hblock => .bindNew .malloc fun children _ hchildren => ?_
  refine .ret ⟨?_, rfl, rfl, rfl, rfl⟩
  rw [hblock, hchildren]
  simp only [HeapNode.owned, blockIfAny_none, classesOwned, attributesOwned, zero_add, add_zero]

/-- What `parse_node` leaves: the node it returns and the ids this node has overwritten. -/
def Parsed (rest : List Token) : Option HeapNode → Multiset Nat → Prop
  | none, left =>
    (∃ advanced, parseNodeFrom rest = .null advanced) ∧ left = 0 ∧ overwrittenIds rest = 0
  | some heapNode, left =>
    (∃ advanced, parseNodeFrom rest = .node heapNode.node advanced) ∧
      ∃ lost, left = heapNode.owned + lost ∧ lost.card = overwrittenIds rest

theorem overwrittenIds_of_ne_tag {token : Token} (more : List Token) (h : token.type ≠ .tokenTag) :
    overwrittenIds (token :: more) = 0 := by
  rw [overwrittenIds, group, if_neg h]
  rfl

theorem parsed_single {token : Token} (more : List Token) (hs : token.type.startsNode = true)
    (ht : token.type ≠ .tokenTag) {heapNode : HeapNode} (hnode : heapNode.node = startNode token) :
    Parsed (token :: more) (some heapNode) heapNode.owned := by
  refine ⟨⟨1, ?_⟩, 0, (add_zero _).symm, (overwrittenIds_of_ne_tag more ht).symm⟩
  rw [hnode]
  exact parseNodeFrom_single more hs ht

theorem parsed_tag {token : Token} {more : List Token} (ht : token.type = .tokenTag)
    (hvalued : Valued more) {heapNode heapNode' : HeapNode} {left : Multiset Nat}
    (hnode : heapNode.node = startNode token) (hid : heapNode.id = none)
    (htaken : Taken heapNode (more.takeWhile (absorbs token.depth)) heapNode' left) :
    Parsed (token :: more) (some heapNode') left := by
  obtain ⟨hnode', lost, rfl, hlost⟩ := htaken
  have hdepth : (startNode token).depth = token.depth := (startNode_head (by simp [ht]; rfl)).1
  refine ⟨⟨1 + (more.takeWhile (absorbs token.depth)).length, ?_⟩, lost, rfl, ?_⟩
  · rw [parseNodeFrom_tag more ht, absorb_of_valued _ _ hvalued, hdepth, hnode', hnode]
  · rw [hlost, hid, overwrittenIds, group, if_pos ht]
    simp

theorem owned_tag {heapNode : HeapNode} (h : heapNode.tag = none) (tag : Nat) :
    {tag} + heapNode.owned = { heapNode with tag := some tag }.owned := by
  rw [HeapNode.owned, HeapNode.owned, h, blockIfAny_some, blockIfAny_none]
  abel

theorem owned_textContent {heapNode : HeapNode} (h : heapNode.textContent = none) (text : Nat) :
    {text} + heapNode.owned = { heapNode with textContent := some text }.owned := by
  rw [HeapNode.owned, HeapNode.owned, h, blockIfAny_some, blockIfAny_none]
  abel

/-- `parse_node` leaves the blocks of the node it returns, and one block for every id it overwrote. -/
theorem parseNode_spec {rest : List Token} (hvalued : Valued rest) :
    Triple 0 (parseNode rest) (Parsed rest) := by
  unfold parseNode
  split
  · exact .ret ⟨⟨0, rfl⟩, rfl, rfl⟩
  rename_i token more
  split
  · rename_i heof
    exact .ret ⟨⟨0, parseNodeFrom_eof more heof⟩, rfl,
      overwrittenIds_of_ne_tag more (by simp [heof])⟩
  rename_i heof
  refine .bindNew (astNodeCreate_spec _) fun heapNode _ hmade => ?_
  obtain ⟨rfl, hnode, htag, htext, hid⟩ := hmade
  rw [add_zero]
  -- The nodes that take one token: those with a text, and those with a tag and a text.
  have hsingle : token.type.startsNode = true → token.type ≠ .tokenTag →
      Triple heapNode.owned (gStrdup >>= fun text =>
        pure (some { heapNode with textContent := some text })) (Parsed (token :: more)) := by
    intro hs ht
    refine .bindNew .malloc fun text _ hdup => .ret ?_
    rw [hdup, owned_textContent htext]
    exact parsed_single more hs ht hnode
  have hlabelled : token.type.startsNode = true → token.type ≠ .tokenTag →
      Triple heapNode.owned (gStrdup >>= fun tag => gStrdup >>= fun text =>
        pure (some { heapNode with tag := some tag, textContent := some text }))
        (Parsed (token :: more)) := by
    intro hs ht
    refine .bindNew .malloc fun tag _ hdup => .bindNew .malloc fun text _ hdup' => .ret ?_
    rw [hdup', hdup, owned_tag htag]
    have howned := @owned_textContent { heapNode with tag := some tag } htext text
    rw [howned]
    exact parsed_single more hs ht hnode
  have hrejected : token.type.startsNode = false →
      Triple heapNode.owned (freeFields heapNode >>= fun _ => freeNode heapNode >>= fun _ =>
        pure none) (Parsed (token :: more)) := by
    intro hs
    refine .bind (freeFields_spec heapNode) (add_zero _).symm fun _ _ hleft => ?_
    rw [hleft]
    refine .bindFree (freeNode_spec heapNode) rfl (.ret ⟨⟨1, parseNodeFrom_rejects more hs heof⟩,
      rfl, overwrittenIds_of_ne_tag more ?_⟩)
    intro htag
    rw [htag] at hs
    cases hs
  cases htype : token.type with
  | tokenTag =>
    have hmore : Valued more := fun t ht => hvalued t (List.mem_cons_of_mem _ ht)
    refine .bindNew .malloc fun tag _ hdup => ?_
    rw [hdup, owned_tag htag]
    refine .bind (absorb_spec _ hmore) (add_zero _).symm fun heapNode' left htaken => .ret ?_
    rw [add_zero]
    have hdepth : heapNode.node.depth = token.depth := by
      rw [hnode, (startNode_head (by simp [htype]; rfl)).1]
    refine @parsed_tag token more htype hmore { heapNode with tag := some tag } _ _ hnode hid ?_
    rw [← hdepth]
    exact htaken
  | tokenText => exact hsingle (by rw [htype]; rfl) (by simp [htype])
  | tokenPipe => exact hsingle (by rw [htype]; rfl) (by simp [htype])
  | tokenDot => exact hsingle (by rw [htype]; rfl) (by simp [htype])
  | tokenCode => exact hsingle (by rw [htype]; rfl) (by simp [htype])
  | tokenComment => exact hsingle (by rw [htype]; rfl) (by simp [htype])
  | tokenBlockComment => exact hsingle (by rw [htype]; rfl) (by simp [htype])
  | tokenInterpolation => exact hsingle (by rw [htype]; rfl) (by simp [htype])
  | tokenDoctype => exact hlabelled (by rw [htype]; rfl) (by simp [htype])
  | tokenInclude => exact hlabelled (by rw [htype]; rfl) (by simp [htype])
  | tokenExtends => exact hlabelled (by rw [htype]; rfl) (by simp [htype])
  | tokenMixin => exact hlabelled (by rw [htype]; rfl) (by simp [htype])
  | tokenCall => exact hlabelled (by rw [htype]; rfl) (by simp [htype])
  | tokenEof => exact absurd htype heof
  | tokenClass => exact hrejected (by rw [htype]; rfl)
  | tokenId => exact hrejected (by rw [htype]; rfl)
  | tokenAttribute => exact hrejected (by rw [htype]; rfl)
  | tokenIndentation => exact hrejected (by rw [htype]; rfl)

end CPug.Allocation
