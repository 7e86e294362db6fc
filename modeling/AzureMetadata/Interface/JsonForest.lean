import AzureMetadata.Clib.Descent
import AzureMetadata.Clib.Transition
import AzureMetadata.Model.JsonNodes

/-!
# The interface of JSON nodes, and the forest they stand for

`NodeOp` lists the calls that make, link and release nodes, and `nodeStep` runs one.  A
`Forest` has the children of each node as a list instead of pointers; `Describes st f` says
that the pointers describe those lists.  An assertion is all that the code has against
linking a node twice: nothing keeps a node from being linked below itself, so that a forest
is one of trees only as far as the program takes care of that.
-/

set_option autoImplicit false

namespace AzureMetadata.Interface

open Clib Clib.Links AzureMetadata.Model AzureMetadata.Model.Nodes

/-- A call on nodes; a pointer is not `NULL`, except where `NULL` is of use. -/
inductive NodeOp (double : Type)
  | mknull
  | mkbool (b : Bool)
  | mkstring (s : CString)
  | mknumber (n : double)
  | mkarray
  | mkobject
  | appendElement (array element : ℕ)
  | prependElement (array element : ℕ)
  | appendMember (object : ℕ) (key : CString) (value : ℕ)
  | prependMember (object : ℕ) (key : CString) (value : ℕ)
  | removeFromParent (node : ℕ)
  | delete (node : Ptr)

section System

variable {double : Type} (A : Allocator UInt8) (frames : ℕ)

/-- One call; what it returns is a pointer or nothing. -/
def nodeStep : NodeOp double → NodeCall double Ptr
  | .mknull => jsonMknull A
  | .mkbool b => jsonMkbool A b
  | .mkstring s => jsonMkstring A s
  | .mknumber n => jsonMknumber A n
  | .mkarray => jsonMkarray A
  | .mkobject => jsonMkobject A
  | .appendElement array element => do
      jsonAppendElement (some array) (some element)
      return none
  | .prependElement array element => do
      jsonPrependElement (some array) (some element)
      return none
  | .appendMember object key value => do
      jsonAppendMember A (some object) key (some value)
      return none
  | .prependMember object key value => do
      jsonPrependMember A (some object) key (some value)
      return none
  | .removeFromParent node => do
      jsonRemoveFromParent (some node)
      return none
  | .delete node => do
      jsonDelete frames node
      return none

/-- A program that has not made a node yet. -/
def noNodes (content : JsonContent double) (requests : ℕ) : JsonNodes double where
  count := 0
  live := fun _ => false
  links := ⟨fun _ => none, fun _ => none, fun _ => none, fun _ => none, fun _ => none⟩
  key := fun _ => none
  content := fun _ => content
  requests := requests

/-- Nodes in use: a step is a call that returns. -/
def nodeSystem (content : JsonContent double) : Transition (JsonNodes double) (NodeOp double) where
  start st := ∃ requests, st = noNodes content requests
  step st op st' := ∃ out, (nodeStep A frames op).run st = .ok (out, st')

end System

/-! ## The abstract forest -/

/-- Nodes with their children in order. -/
@[ext] structure Forest (double : Type) where
  count : ℕ
  live : ℕ → Bool
  children : ℕ → List ℕ
  key : ℕ → Option CString
  content : ℕ → JsonContent double

namespace Forest

variable {double : Type}

/-- Children are those of live containers, and the members of objects, but no others, have
keys. -/
structure Sound (f : Forest double) : Prop where
  bound : ∀ n, f.live n = true → n < f.count
  live : ∀ p c, c ∈ f.children p → f.live p = true ∧ f.live c = true
  container : ∀ p c, c ∈ f.children p →
    (f.content p).tag = .JSON_ARRAY ∨ (f.content p).tag = .JSON_OBJECT
  element : ∀ p c, c ∈ f.children p → (f.content p).tag = .JSON_ARRAY → f.key c = none
  member : ∀ p c, c ∈ f.children p → (f.content p).tag = .JSON_OBJECT → (f.key c).isSome
  root : ∀ c, Root f.children c → f.key c = none

/-- The nodes that have not been released. -/
def nodes (f : Forest double) : Finset ℕ := (Finset.range f.count).filter fun n => f.live n = true

/-- A new node. -/
def make (f : Forest double) (content : JsonContent double) : Forest double where
  count := f.count + 1
  live := Function.update f.live f.count true
  children := f.children
  key := Function.update f.key f.count none
  content := Function.update f.content f.count content

/-- The children of `p` are now those, among them `c` with that key. -/
def link (f : Forest double) (p c : ℕ) (key : Option CString) (children : List ℕ) :
    Forest double :=
  { f with
    children := Function.update f.children p children
    key := Function.update f.key c key }

def append (f : Forest double) (p c : ℕ) (key : Option CString) : Forest double :=
  f.link p c key (f.children p ++ [c])

def prepend (f : Forest double) (p c : ℕ) (key : Option CString) : Forest double :=
  f.link p c key (c :: f.children p)

/-- The node is no child any more. -/
def detach (f : Forest double) (n : ℕ) : Forest double :=
  { f with
    children := fun p => (f.children p).erase n
    key := Function.update f.key n none }

open Classical in
/-- The nodes of a set are released. -/
noncomputable def drop (f : Forest double) (S : Set ℕ) : Forest double :=
  { f with
    live := fun m => f.live m && decide (m ∉ S)
    children := dropNodes f.children S
    key := fun m => if m ∈ S then none else f.key m }

/-- Everything below the node is released. -/
noncomputable def delete (f : Forest double) (n : ℕ) : Forest double :=
  f.drop { m | Below f.children n m }

/-- The tree at a node, if no more than so many nodes are below each other. -/
def tree (f : Forest double) : ℕ → ℕ → Option (JsonTree double)
  | 0, _ => none
  | k + 1, n =>
    match f.content n with
    | .JSON_NULL => some .JSON_NULL
    | .JSON_BOOL b => some (.JSON_BOOL b)
    | .JSON_STRING s => some (.JSON_STRING s)
    | .JSON_NUMBER x => some (.JSON_NUMBER x)
    | .JSON_ARRAY => ((f.children n).mapM fun c => f.tree k c).map .JSON_ARRAY
    | .JSON_OBJECT => ((f.children n).mapM fun c => do
        return (← f.key c, ← f.tree k c)).map .JSON_OBJECT

end Forest

/-- What a call does to the forest. -/
noncomputable def forestEffect {double : Type} (f : Forest double) : NodeOp double → Forest double
  | .mknull => f.make .JSON_NULL
  | .mkbool b => f.make (.JSON_BOOL b)
  | .mkstring s => f.make (.JSON_STRING s)
  | .mknumber n => f.make (.JSON_NUMBER n)
  | .mkarray => f.make .JSON_ARRAY
  | .mkobject => f.make .JSON_OBJECT
  | .appendElement array element => f.append array element none
  | .prependElement array element => f.prepend array element none
  | .appendMember object key value => f.append object value (some key)
  | .prependMember object key value => f.prepend object value (some key)
  | .removeFromParent node => f.detach node
  | .delete none => f
  | .delete (some node) => f.delete node

namespace NodeOp

variable {double : Type}

/-- The nodes that a call is given. -/
def nodes : NodeOp double → List ℕ
  | .appendElement array element => [array, element]
  | .prependElement array element => [array, element]
  | .appendMember object _ value => [object, value]
  | .prependMember object _ value => [object, value]
  | .removeFromParent node => [node]
  | .delete node => node.toList
  | _ => []

/-- What the assertions of a call say. -/
def Asserted (f : Forest double) : NodeOp double → Prop
  | .appendElement array element =>
      (f.content array).tag = .JSON_ARRAY ∧ Root f.children element
  | .prependElement array element =>
      (f.content array).tag = .JSON_ARRAY ∧ Root f.children element
  | .appendMember object _ value => (f.content object).tag = .JSON_OBJECT ∧ Root f.children value
  | .prependMember object _ value => (f.content object).tag = .JSON_OBJECT ∧ Root f.children value
  | _ => True

/-- How often a call requests memory. -/
def requests : NodeOp double → ℕ
  | .mkstring _ => 2
  | .appendElement _ _ => 0
  | .prependElement _ _ => 0
  | .removeFromParent _ => 0
  | .delete _ => 0
  | _ => 1

/-- The allocator refuses one of the requests of a call, which come after `k` others. -/
def Refused (A : Allocator UInt8) (k : ℕ) (op : NodeOp double) : Prop :=
  ∃ i < op.requests, (A (k + i)).granted = false

/-- Why a call does not return, after `k` requests and with so many frames. -/
def Prevents (A : Allocator UInt8) (k : ℕ) (f : Forest double) (frames : ℕ)
    (op : NodeOp double) : Stop → Prop
  | .fault fault => fault = .releasedBlock ∧ ∃ n ∈ op.nodes, f.live n = false
  | .assertion => ¬ op.Asserted f
  | .exit => op.Refused A k
  | .stackOverflow => (frames = 0 ∨ frames < f.nodes.card) ∧ ∃ n, op = .delete n
  | .loopLimit => False

/-- The pointer that a call returns. -/
def result (f : Forest double) : NodeOp double → Ptr
  | .appendElement _ _ => none
  | .prependElement _ _ => none
  | .appendMember _ _ _ => none
  | .prependMember _ _ _ => none
  | .removeFromParent _ => none
  | .delete _ => none
  | _ => some f.count

end NodeOp

/-- The pointers of the nodes describe the forest. -/
structure Describes {double : Type} (st : JsonNodes double) (f : Forest double) : Prop where
  count : st.count = f.count
  live : st.live = f.live
  key : st.key = f.key
  content : st.content = f.content
  linked : Linked st.links f.children
  sound : f.Sound

/-- The forest of a program that has not made a node yet. -/
def noForest {double : Type} (content : JsonContent double) : Forest double :=
  ⟨0, fun _ => false, fun _ => [], fun _ => none, fun _ => content⟩

/-- The forest as a transition system. -/
noncomputable def forestSystem {double : Type} (content : JsonContent double) :
    Transition (Forest double) (NodeOp double) :=
  Transition.ofEffect (noForest content) forestEffect

end AzureMetadata.Interface
