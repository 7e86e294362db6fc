import AzureMetadata.Model.Json

/-!
# JSON trees with their numbers

`struct JsonNode` as in `AzureMetadata.Model.Json`, with the value of a number.  What the
program needs of floating point is a parameter: `double`, the value `strtod` gives to the
text it recognises, and the text `sprintf` makes of a value with `%.16g`.
-/

set_option autoImplicit false

namespace AzureMetadata.Model

open Clib

/-- `double`, with the value of a number's text and the text `%.16g` writes. -/
structure Floating where
  double : Type
  value : List UInt8 → double
  format : double → CString

/-- `struct JsonNode` (json.h:42-67). -/
inductive JsonTree (double : Type)
  | JSON_NULL
  | JSON_BOOL (bool_ : Bool)
  | JSON_STRING (string_ : CString)
  | JSON_NUMBER (number_ : double)
  | JSON_ARRAY (children : List (JsonTree double))
  | JSON_OBJECT (children : List (CString × JsonTree double))

namespace JsonTree

variable {double : Type}

/-- What holds of a tree if it holds of a node whenever it holds of its children. -/
@[elab_as_elim, induction_eliminator]
theorem induct {P : JsonTree double → Prop} (null : P .JSON_NULL)
    (bool : ∀ b, P (.JSON_BOOL b)) (string : ∀ s, P (.JSON_STRING s))
    (number : ∀ x, P (.JSON_NUMBER x))
    (array : ∀ children, (∀ v ∈ children, P v) → P (.JSON_ARRAY children))
    (object : ∀ children : List (CString × JsonTree double),
      (∀ m ∈ children, P m.2) → P (.JSON_OBJECT children)) (v : JsonTree double) : P v :=
  JsonTree.rec (motive_1 := P) (motive_2 := fun vs => ∀ v ∈ vs, P v)
    (motive_3 := fun ms => ∀ m ∈ ms, P m.2) (motive_4 := fun m => P m.2)
    null bool string number array object
    (fun _ h => nomatch h)
    (fun _ _ hv hvs => List.forall_mem_cons.mpr ⟨hv, hvs⟩)
    (fun _ h => nomatch h)
    (fun _ _ hm hms => List.forall_mem_cons.mpr ⟨hm, hms⟩)
    (fun _ _ hv => hv) v

mutual

/-- The tree without the values of its numbers. -/
def node : JsonTree double → JsonNode
  | .JSON_NULL => .JSON_NULL
  | .JSON_BOOL b => .JSON_BOOL b
  | .JSON_STRING s => .JSON_STRING s
  | .JSON_NUMBER _ => .JSON_NUMBER
  | .JSON_ARRAY children => .JSON_ARRAY (nodes children)
  | .JSON_OBJECT children => .JSON_OBJECT (memberNodes children)

def nodes : List (JsonTree double) → List JsonNode
  | [] => []
  | v :: vs => v.node :: nodes vs

def memberNodes : List (CString × JsonTree double) → List (CString × JsonNode)
  | [] => []
  | (key, v) :: ms => (key, v.node) :: memberNodes ms

end

end JsonTree

end AzureMetadata.Model
