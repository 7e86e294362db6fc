import AzureMetadata.Model.Dynstring

/-!
# The trees of `src/json.h`

What the program uses of the JSON library: the tree `json_decode` returns and the
lookup of a member.  The decoder is a parameter of the functions that call it, a
function from the characters of a C string to a tree or `NULL`; that the strings of a
tree contain no NUL is in their type.  The value of a number is left out.
-/

set_option autoImplicit false

namespace AzureMetadata.Model

open Clib

/-- `struct JsonNode` with its children in order (json.h:30-67). -/
inductive JsonNode
  | JSON_NULL
  | JSON_BOOL (bool_ : Bool)
  | JSON_STRING (string_ : CString)
  | JSON_NUMBER
  | JSON_ARRAY (children : List JsonNode)
  | JSON_OBJECT (children : List (CString × JsonNode))

/-- `json_find_member` (json.c:465-477): the first member with that key. -/
def jsonFindMember (object : Option JsonNode) (name : List UInt8) : Option JsonNode :=
  match object with
  | some (.JSON_OBJECT children) =>
      (children.find? fun member => member.1.bytes == name).map Prod.snd
  | _ => none

/-- `json_decode`: the tree of a C string, or `NULL`. -/
abbrev JsonDecoder := List UInt8 → Option JsonNode

end AzureMetadata.Model
