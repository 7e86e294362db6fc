import AzureMetadata.Interface.JsonGrammar

/-!
# What a text can carry of a value

A JSON text carries the strings of a value as far as they are Unicode text, and its
numbers as far as their decimal texts are numbers again.  `limit` bounds how long the text
gets that is written for a value.
-/

set_option autoImplicit false

namespace AzureMetadata.Interface

open Clib AzureMetadata.Model

/-- The bytes are Unicode text in UTF-8. -/
def IsText (s : CString) : Prop := ∃ cs, s.bytes = utf8 cs

/-- The bytes have no unit separator, U+001F. -/
def NoSeparator (s : CString) : Prop := 0x1F ∉ s.bytes

section Strings

variable {double : Type}

mutual

/-- The strings and keys in a value. -/
def strings : JsonTree double → List CString
  | .JSON_STRING s => [s]
  | .JSON_ARRAY children => elementStrings children
  | .JSON_OBJECT children => memberStrings children
  | _ => []

def elementStrings : List (JsonTree double) → List CString
  | [] => []
  | v :: vs => strings v ++ elementStrings vs

def memberStrings : List (CString × JsonTree double) → List CString
  | [] => []
  | (key, v) :: ms => key :: (strings v ++ memberStrings ms)

end

end Strings

section Limits

variable {double : Type}

/-- How long a literal of a string gets: no byte takes more than two escapes of six. -/
def stringLimit (s : CString) : ℕ := 12 * s.bytes.length + 2

mutual

/-- How long the text of a value gets at a level of indentation, each `width` wide. -/
def limit (width : ℕ) : JsonTree double → ℕ → ℕ
  | .JSON_STRING s, _ => stringLimit s
  | .JSON_ARRAY children, level => elementsLimit width children level + width * level + 4
  | .JSON_OBJECT children, level => membersLimit width children level + width * level + 4
  | _, _ => 64

def elementsLimit (width : ℕ) : List (JsonTree double) → ℕ → ℕ
  | [], _ => 0
  | v :: vs, level =>
    width * (level + 1) + limit width v (level + 1) + 2 + elementsLimit width vs level

def membersLimit (width : ℕ) : List (CString × JsonTree double) → ℕ → ℕ
  | [], _ => 0
  | (key, v) :: ms, level => width * (level + 1) + stringLimit key + 2 +
    limit width v (level + 1) + 2 + membersLimit width ms level

end

/-- How long the text that `json_stringify` writes gets. -/
def textLimit (space : Option CString) (v : JsonTree double) : ℕ :=
  limit (space.elim 0 fun s => s.bytes.length) v 0

end Limits

section ReadBack

variable (F : Floating)

open Classical in
/-- What is read where a number was written. -/
noncomputable def readBackNumber (x : F.double) : JsonTree F.double :=
  if NumberText (F.format x).bytes then .JSON_NUMBER (F.value (F.format x).bytes) else .JSON_NULL

mutual

/-- What is read where a value was written: the value, with its numbers as their decimal
texts give them and `null` for those that are none. -/
noncomputable def readBack : JsonTree F.double → JsonTree F.double
  | .JSON_NULL => .JSON_NULL
  | .JSON_BOOL b => .JSON_BOOL b
  | .JSON_STRING s => .JSON_STRING s
  | .JSON_NUMBER x => readBackNumber F x
  | .JSON_ARRAY children => .JSON_ARRAY (readBackElements children)
  | .JSON_OBJECT children => .JSON_OBJECT (readBackMembers children)

noncomputable def readBackElements : List (JsonTree F.double) → List (JsonTree F.double)
  | [] => []
  | v :: vs => readBack v :: readBackElements vs

noncomputable def readBackMembers :
    List (CString × JsonTree F.double) → List (CString × JsonTree F.double)
  | [] => []
  | (key, v) :: ms => (key, readBack v) :: readBackMembers ms

end

end ReadBack

end AzureMetadata.Interface
