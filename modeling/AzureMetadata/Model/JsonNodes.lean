import AzureMetadata.Clib.Siblings
import AzureMetadata.Model.JsonTree
import AzureMetadata.Model.JsonUnicode

/-!
# The nodes of `src/json.c`

Lines 407-431, 448-621 and 1317-1385.  A pointer to a node is `NULL` or the number of the
node, and `calloc` gives a number that no node had before.  Each member of the structure is
a function of the node, `children` too, which is used of arrays and objects only.  A string
belongs to the node that points to it: `free` of a string shows in the pointer alone.

`json_delete` and `json_check` call themselves; `frames` is how many of their calls the
stack holds at one time.  A loop along `next` is bounded by the number of nodes.
-/

set_option autoImplicit false

namespace AzureMetadata.Model.Nodes

open Clib Clib.Links

/-- `JsonTag` (json.h:30-37). -/
inductive JsonTag
  | JSON_NULL
  | JSON_BOOL
  | JSON_STRING
  | JSON_NUMBER
  | JSON_ARRAY
  | JSON_OBJECT
deriving DecidableEq, Repr

/-- The tag and the member of the union that goes with it, but for `children`. -/
inductive JsonContent (double : Type)
  | JSON_NULL
  | JSON_BOOL (bool_ : Bool)
  | JSON_STRING (string_ : CString)
  | JSON_NUMBER (number_ : double)
  | JSON_ARRAY
  | JSON_OBJECT

namespace JsonContent

def tag {double : Type} : JsonContent double → JsonTag
  | .JSON_NULL => .JSON_NULL
  | .JSON_BOOL _ => .JSON_BOOL
  | .JSON_STRING _ => .JSON_STRING
  | .JSON_NUMBER _ => .JSON_NUMBER
  | .JSON_ARRAY => .JSON_ARRAY
  | .JSON_OBJECT => .JSON_OBJECT

end JsonContent

/-- The nodes that a program has made, `count` of them. -/
structure JsonNodes (double : Type) where
  count : ℕ
  live : ℕ → Bool
  links : Links ℕ
  key : ℕ → Option CString
  content : ℕ → JsonContent double
  requests : ℕ

/-- A call that works on the nodes. -/
abbrev NodeCall (double α : Type) := StateT (JsonNodes double) (Except Stop) α

section

variable {double α : Type}

/-- The node that a pointer points to. -/
def nodeAt (p : Ptr) : NodeCall double ℕ := fun st =>
  match p with
  | none => .error (.fault .nullPointer)
  | some n => if st.live n then .ok (n, st) else .error (.fault .releasedBlock)

/-- `p->f`. -/
def load (f : JsonNodes double → ℕ → α) (p : Ptr) : NodeCall double α := do
  let n ← nodeAt p
  return f (← get) n

def getParent (st : JsonNodes double) : ℕ → Ptr := st.links.parent

def getPrev (st : JsonNodes double) : ℕ → Ptr := st.links.prev

def getNext (st : JsonNodes double) : ℕ → Ptr := st.links.next

def getHead (st : JsonNodes double) : ℕ → Ptr := st.links.head

def getTail (st : JsonNodes double) : ℕ → Ptr := st.links.tail

def getTag (st : JsonNodes double) (n : ℕ) : JsonTag := (st.content n).tag

/-- `p->f = v;` for one of the links. -/
def assign (f : Links ℕ → ℕ → Links ℕ) (p : Ptr) : NodeCall double Unit := do
  let n ← nodeAt p
  modify fun st => { st with links := f st.links n }

/-- `p->key = key;` -/
def assignKey (key : Option CString) (p : Ptr) : NodeCall double Unit := do
  let n ← nodeAt p
  modify fun st => { st with key := Function.update st.key n key }

def assert (b : Prop) [Decidable b] : NodeCall double Unit :=
  if b then pure () else throw .assertion

end

/-! ## Construction -/

section Construction

variable {double : Type} (A : Allocator UInt8)

/-- `malloc` or `calloc` with `out_of_memory` after it. -/
def allocate (size : ℕ) : NodeCall double Unit := fun st =>
  if (A st.requests).granted ∧ size ≤ ptrdiffMax then
    .ok ((), { st with requests := st.requests + 1 })
  else
    .error .exit

/-- `json_strdup` (json.c:38-45). -/
def jsonStrdup (str : CString) : NodeCall double CString := do
  allocate A (str.bytes.length + 1)
  return str

/-- The links of a node that `calloc` has cleared. -/
def clearLinks (L : Links ℕ) (n : ℕ) : Links ℕ :=
  setTail none (setHead none (setNext none (setPrev none (setParent none L n) n) n) n) n

/-- `mknode` (json.c:486-493), with the assignment to the union that follows it; a node has
56 bytes. -/
def mknode (content : JsonContent double) : NodeCall double Ptr := do
  allocate A 56
  let st ← get
  let n := st.count
  set { st with
    count := n + 1
    live := Function.update st.live n true
    links := clearLinks st.links n
    key := Function.update st.key n none
    content := Function.update st.content n content }
  return some n

/-- Lines 495-498. -/
def jsonMknull : NodeCall double Ptr := mknode A .JSON_NULL

/-- Lines 500-505. -/
def jsonMkbool (b : Bool) : NodeCall double Ptr := mknode A (.JSON_BOOL b)

/-- Lines 507-512. -/
def mkstring (s : CString) : NodeCall double Ptr := mknode A (.JSON_STRING s)

/-- Lines 514-517. -/
def jsonMkstring (s : CString) : NodeCall double Ptr := do mkstring A (← jsonStrdup A s)

/-- Lines 519-524. -/
def jsonMknumber (n : double) : NodeCall double Ptr := mknode A (.JSON_NUMBER n)

/-- Lines 526-529. -/
def jsonMkarray : NodeCall double Ptr := mknode A .JSON_ARRAY

/-- Lines 531-534. -/
def jsonMkobject : NodeCall double Ptr := mknode A .JSON_OBJECT

end Construction

/-! ## Manipulation -/

section Manipulation

variable {double : Type}

/-- `append_node` (json.c:536-547). -/
def appendNode (parent child : Ptr) : NodeCall double Unit := do
  assign (setParent parent) child
  assign (setPrev (← load getTail parent)) child
  assign (setNext none) child
  let tail ← load getTail parent
  if tail ≠ none then assign (setNext child) tail
  else assign (setHead child) parent
  assign (setTail child) parent

/-- `prepend_node` (json.c:549-560). -/
def prependNode (parent child : Ptr) : NodeCall double Unit := do
  assign (setParent parent) child
  assign (setPrev none) child
  assign (setNext (← load getHead parent)) child
  let head ← load getHead parent
  if head ≠ none then assign (setPrev child) head
  else assign (setTail child) parent
  assign (setHead child) parent

/-- `append_member` (json.c:562-566). -/
def appendMember (object : Ptr) (key : CString) (value : Ptr) : NodeCall double Unit := do
  assignKey (some key) value
  appendNode object value

/-- `json_append_element` (json.c:568-574). -/
def jsonAppendElement (array element : Ptr) : NodeCall double Unit := do
  assert ((← load getTag array) = .JSON_ARRAY)
  assert ((← load getParent element) = none)
  appendNode array element

/-- `json_prepend_element` (json.c:576-582). -/
def jsonPrependElement (array element : Ptr) : NodeCall double Unit := do
  assert ((← load getTag array) = .JSON_ARRAY)
  assert ((← load getParent element) = none)
  prependNode array element

/-- `json_append_member` (json.c:584-590). -/
def jsonAppendMember (A : Allocator UInt8) (object : Ptr) (key : CString) (value : Ptr) :
    NodeCall double Unit := do
  assert ((← load getTag object) = .JSON_OBJECT)
  assert ((← load getParent value) = none)
  appendMember object (← jsonStrdup A key) value

/-- `json_prepend_member` (json.c:592-599). -/
def jsonPrependMember (A : Allocator UInt8) (object : Ptr) (key : CString) (value : Ptr) :
    NodeCall double Unit := do
  assert ((← load getTag object) = .JSON_OBJECT)
  assert ((← load getParent value) = none)
  assignKey (some (← jsonStrdup A key)) value
  prependNode object value

/-- `json_remove_from_parent` (json.c:601-621). -/
def jsonRemoveFromParent (node : Ptr) : NodeCall double Unit := do
  let parent ← load getParent node
  if parent ≠ none then
    let prev ← load getPrev node
    if prev ≠ none then assign (setNext (← load getNext node)) prev
    else assign (setHead (← load getNext node)) parent
    let next ← load getNext node
    if next ≠ none then assign (setPrev (← load getPrev node)) next
    else assign (setTail (← load getPrev node)) parent
    -- The key is freed here.
    assign (setParent none) node
    assign (setPrev none) node
    assign (setNext none) node
    assignKey none node

/-- `free(node);` -/
def freeNode (node : Ptr) : NodeCall double Unit := do
  let n ← nodeAt node
  modify fun st => { st with live := Function.update st.live n false }

/-- The loop of `json_delete`, for at most so many rounds. -/
def deleteChildren (delete : Ptr → NodeCall double Unit) : ℕ → Ptr → NodeCall double Unit
  | _, none => pure ()
  | 0, some _ => throw .loopLimit
  | n + 1, some child => do
    let next ← load getNext (some child)
    delete (some child)
    deleteChildren delete n next

/-- `json_delete` (json.c:407-431). -/
def jsonDelete : ℕ → Ptr → NodeCall double Unit
  | 0, _ => throw .stackOverflow
  | _ + 1, none => pure ()
  | frames + 1, some node => do
    jsonRemoveFromParent (some node)
    let tag ← load getTag (some node)
    if tag = .JSON_ARRAY ∨ tag = .JSON_OBJECT then
      let head ← load getHead (some node)
      deleteChildren (fun child => jsonDelete frames child) (← get).count head
    freeNode (some node)

end Manipulation

/-! ## Lookup and traversal -/

section Lookup

variable {double : Type}

/-- `json_first_child` (json.c:479-484). -/
def jsonFirstChild (node : Ptr) : NodeCall double Ptr := do
  if node = none then return none
  else
    let tag ← load getTag node
    if tag = .JSON_ARRAY ∨ tag = .JSON_OBJECT then load getHead node else return none

/-- `strcmp(member->key, name) == 0`. -/
def keyEquals (member : Ptr) (name : CString) : NodeCall double Bool := do
  match ← load JsonNodes.key member with
  | none => throw (.fault .nullPointer)
  | some key => return decide (key.bytes = name.bytes)

/-- The loop of `json_find_member`, for at most so many rounds. -/
def findMemberLoop (name : CString) : ℕ → Ptr → NodeCall double Ptr
  | _, none => pure none
  | 0, some _ => throw .loopLimit
  | n + 1, some member => do
    if ← keyEquals (some member) name then return some member
    else findMemberLoop name n (← load getNext (some member))

/-- `json_find_member` (json.c:465-477). -/
def jsonFindMember (object : Ptr) (name : CString) : NodeCall double Ptr := do
  if object = none then return none
  else if (← load getTag object) ≠ .JSON_OBJECT then return none
  else findMemberLoop name (← get).count (← jsonFirstChild object)

end Lookup

/-! ## Debugging -/

section Check

variable {double : Type}

/-- `!utf8_validate(str)`. -/
def invalidUtf8 (str : CString) : NodeCall double Bool := do
  return !(← utf8Validate (str.bytes ++ [0]))

/-- `node->key != NULL && !utf8_validate(node->key)`. -/
def keyInvalid (node : Ptr) : NodeCall double Bool := do
  match ← load JsonNodes.key node with
  | none => return false
  | some key => invalidUtf8 key

/-- `p != NULL && p->prev != child`. -/
def notBackTo (child p : Ptr) : NodeCall double Bool := do
  if p = none then return false
  else return decide ((← load getPrev p) ≠ child)

/-- The loop of `json_check`, for at most so many rounds: the problem it finds or `last`. -/
def checkChildren (check : Ptr → NodeCall double (Option String)) (node head : Ptr)
    (tag : JsonTag) : ℕ → Ptr → Ptr → NodeCall double (Except String Ptr)
  | _, none, last => pure (.ok last)
  | 0, some _, _ => throw .loopLimit
  | n + 1, some c, _ => do
    let child := some c
    let next ← load getNext child
    if child = node then return .error "node is its own child"
    else if next = child then return .error "child->next == child (cycle)"
    else if next = head then return .error "child->next == head (cycle)"
    else if (← load getParent child) ≠ node then
      return .error "child does not point back to parent"
    else if ← notBackTo child next then return .error "child->next does not point back to child"
    else
      let key ← load JsonNodes.key child
      if tag = .JSON_ARRAY ∧ key ≠ none then return .error "Array element's key is not NULL"
      else if tag = .JSON_OBJECT ∧ key = none then return .error "Object member's key is NULL"
      else
        match ← check child with
        | some problem => return .error problem
        | none => checkChildren check node head tag n next child

/-- `json_check` (json.c:1317-1385): what it writes to `errmsg` before it returns false, or
`none` if it returns true. -/
def jsonCheck : ℕ → Ptr → NodeCall double (Option String)
  | 0, _ => throw .stackOverflow
  | frames + 1, node => do
    if ← keyInvalid node then return some "key contains invalid UTF-8"
    else
      match ← load JsonNodes.content node with
      | .JSON_STRING s =>
        if ← invalidUtf8 s then return some "string_ contains invalid UTF-8" else return none
      | .JSON_ARRAY => checkContainer (fun child => jsonCheck frames child) node .JSON_ARRAY
      | .JSON_OBJECT => checkContainer (fun child => jsonCheck frames child) node .JSON_OBJECT
      | _ => return none
where
  /-- The branch for arrays and objects. -/
  checkContainer (check : Ptr → NodeCall double (Option String)) (node : Ptr) (tag : JsonTag) :
      NodeCall double (Option String) := do
    let head ← load getHead node
    let tail ← load getTail node
    if head = none ∨ tail = none then
      if head ≠ none then return some "tail is NULL, but head is not"
      else if tail ≠ none then return some "head is NULL, but tail is not"
      else return none
    else if (← load getPrev head) ≠ none then
      return some "First child's prev pointer is not NULL"
    else
      match ← checkChildren check node head tag (← get).count head none with
      | .error problem => return some problem
      | .ok last =>
        if last ≠ tail then
          return some
            "tail does not match pointer found by starting at head and following next links"
        else return none

end Check

end AzureMetadata.Model.Nodes
