import AzureMetadata.Clib.Decimal
import AzureMetadata.Clib.Outcome
import AzureMetadata.Clib.Utf8
import AzureMetadata.Model.JsonTree

/-!
# The grammar of JSON texts

What a JSON text is, in its own terms: a string is a sequence of Unicode characters, each
written as itself or by an escape; a number has the pattern in the comment of json.c:908-917;
`Derives` relates a value to its texts, and `JsonText` allows blanks around one.  Nothing
here is the code's: the character U+0000 alone is left out, since no C string holds it.
-/

set_option autoImplicit false

namespace AzureMetadata.Interface

open Clib AzureMetadata.Model

/-- White space. -/
def Blank (w : List UInt8) : Prop :=
  ∀ c ∈ w, c = chr ' ' ∨ c = chr '\t' ∨ c = chr '\n' ∨ c = chr '\r'

/-! ## Strings -/

/-- A hexadecimal digit and its value. -/
def HexDigit (c : UInt8) (v : ℕ) : Prop :=
  v < 10 ∧ c.toNat = 0x30 + v ∨
    10 ≤ v ∧ v < 16 ∧ (c.toNat + 10 = 0x41 + v ∨ c.toNat + 10 = 0x61 + v)

instance (c : UInt8) (v : ℕ) : Decidable (HexDigit c v) :=
  inferInstanceAs (Decidable (_ ∨ _))

/-- Four hexadecimal digits and their value. -/
def Hex4 (w : List UInt8) (v : ℕ) : Prop :=
  ∃ c₁ c₂ c₃ c₄ v₁ v₂ v₃ v₄, w = [c₁, c₂, c₃, c₄] ∧ HexDigit c₁ v₁ ∧ HexDigit c₂ v₂ ∧
    HexDigit c₃ v₃ ∧ HexDigit c₄ v₄ ∧ v = v₁ * 4096 + v₂ * 256 + v₃ * 16 + v₄

/-- The escapes of one letter: the letter and the character it stands for. -/
inductive Escape : UInt8 → Char → Prop
  | quote : Escape (chr '"') '"'
  | backslash : Escape (chr '\\') '\\'
  | slash : Escape (chr '/') '/'
  | backspace : Escape (chr 'b') '\x08'
  | formFeed : Escape (chr 'f') '\x0C'
  | lineFeed : Escape (chr 'n') '\n'
  | carriageReturn : Escape (chr 'r') '\r'
  | tab : Escape (chr 't') '\t'

/-- A text that stands for one character of a string. -/
inductive CharText : List UInt8 → Char → Prop
  | plain {c : Char} (hc : 0x20 ≤ c.toNat) (hquote : c ≠ '"') (hslash : c ≠ '\\') :
      CharText (String.utf8EncodeChar c) c
  | escape {e : UInt8} {c : Char} (he : Escape e c) : CharText [chr '\\', e] c
  | unicode {h : List UInt8} {c : Char} (hh : Hex4 h c.toNat) (hc : c ≠ '\x00') :
      CharText (chr '\\' :: chr 'u' :: h) c
  | pair {h l : List UInt8} {u v : ℕ} {c : Char} (hh : Hex4 h (0xD800 + u))
      (hl : Hex4 l (0xDC00 + v)) (hu : u < 0x400) (hv : v < 0x400)
      (hc : c.toNat = 0x10000 + u * 0x400 + v) :
      CharText (chr '\\' :: chr 'u' :: h ++ chr '\\' :: chr 'u' :: l) c

/-- A text between quotation marks and the characters it stands for. -/
inductive CharsText : List UInt8 → List Char → Prop
  | nil : CharsText [] []
  | cons {w w' : List UInt8} {c : Char} {cs : List Char} (hc : CharText w c)
      (hcs : CharsText w' cs) : CharsText (w ++ w') (c :: cs)

/-- A string literal and the string it stands for. -/
def StringText (w : List UInt8) (s : CString) : Prop :=
  ∃ body cs, w = chr '"' :: body ++ [chr '"'] ∧ CharsText body cs ∧ s.bytes = utf8 cs

/-! ## Numbers -/

/-- `[0-9]+` -/
def Digits (w : List UInt8) : Prop := w ≠ [] ∧ ∀ c ∈ w, isDigit c = true

/-- `(0 | [1-9][0-9]*)` -/
def WholeText (w : List UInt8) : Prop := w = [chr '0'] ∨ Digits w ∧ w.head? ≠ some (chr '0')

/-- `('.' [0-9]+)?` -/
def FractionText (w : List UInt8) : Prop := w = [] ∨ ∃ d, Digits d ∧ w = chr '.' :: d

/-- `([Ee] [+-]? [0-9]+)?` -/
def ExponentText (w : List UInt8) : Prop :=
  w = [] ∨ ∃ e sign d, (e = chr 'e' ∨ e = chr 'E') ∧
    (sign = [] ∨ sign = [chr '+'] ∨ sign = [chr '-']) ∧ Digits d ∧ w = e :: (sign ++ d)

/-- `'-'? (0 | [1-9][0-9]*) ('.' [0-9]+)? ([Ee] [+-]? [0-9]+)?` -/
def NumberText (w : List UInt8) : Prop :=
  ∃ sign whole fraction exponent, (sign = [] ∨ sign = [chr '-']) ∧ WholeText whole ∧
    FractionText fraction ∧ ExponentText exponent ∧
    w = sign ++ (whole ++ (fraction ++ exponent))

/-! ## Values -/

/-- What a text can be derived from: a value, or what stands in an array or an object
after the opening bracket and up to the closing one. -/
inductive Symbol (double : Type)
  | value (v : JsonTree double)
  | elements (vs : List (JsonTree double))
  | members (ms : List (CString × JsonTree double))

/-- The texts of a value. -/
inductive Derives (F : Floating) : Symbol F.double → List UInt8 → Prop
  | null : Derives F (.value .JSON_NULL) (ascii "null")
  | false : Derives F (.value (.JSON_BOOL false)) (ascii "false")
  | true : Derives F (.value (.JSON_BOOL true)) (ascii "true")
  | string {w : List UInt8} {s : CString} (hw : StringText w s) :
      Derives F (.value (.JSON_STRING s)) w
  | number {w : List UInt8} (hw : NumberText w) :
      Derives F (.value (.JSON_NUMBER (F.value w))) w
  | array {b w : List UInt8} {vs : List (JsonTree F.double)} (hb : Blank b)
      (hw : Derives F (.elements vs) w) :
      Derives F (.value (.JSON_ARRAY vs)) (chr '[' :: (b ++ w))
  | object {b w : List UInt8} {ms : List (CString × JsonTree F.double)} (hb : Blank b)
      (hw : Derives F (.members ms) w) :
      Derives F (.value (.JSON_OBJECT ms)) (chr '{' :: (b ++ w))
  | noElement : Derives F (.elements []) [chr ']']
  | lastElement {w b : List UInt8} {v : JsonTree F.double} (hw : Derives F (.value v) w)
      (hb : Blank b) : Derives F (.elements [v]) (w ++ (b ++ [chr ']']))
  | element {w b b' w' : List UInt8} {v v' : JsonTree F.double} {vs : List (JsonTree F.double)}
      (hw : Derives F (.value v) w) (hb : Blank b) (hb' : Blank b')
      (hw' : Derives F (.elements (v' :: vs)) w') :
      Derives F (.elements (v :: v' :: vs)) (w ++ (b ++ chr ',' :: (b' ++ w')))
  | noMember : Derives F (.members []) [chr '}']
  | lastMember {k b w b' b'' : List UInt8} {key : CString} {v : JsonTree F.double}
      (hk : StringText k key) (hb : Blank b) (hb' : Blank b') (hw : Derives F (.value v) w)
      (hb'' : Blank b'') :
      Derives F (.members [(key, v)]) (k ++ (b ++ chr ':' :: (b' ++ (w ++ (b'' ++ [chr '}'])))))
  | member {k b w b' b'' c w' : List UInt8} {key : CString} {v : JsonTree F.double}
      {m : CString × JsonTree F.double} {ms : List (CString × JsonTree F.double)}
      (hk : StringText k key) (hb : Blank b) (hb' : Blank b') (hw : Derives F (.value v) w)
      (hb'' : Blank b'') (hc : Blank c) (hw' : Derives F (.members (m :: ms)) w') :
      Derives F (.members ((key, v) :: m :: ms))
        (k ++ (b ++ chr ':' :: (b' ++ (w ++ (b'' ++ chr ',' :: (c ++ w'))))))

/-- A JSON text and the value it stands for. -/
def JsonText (F : Floating) (text : List UInt8) (v : JsonTree F.double) : Prop :=
  ∃ b w b', Blank b ∧ Derives F (.value v) w ∧ Blank b' ∧ text = b ++ (w ++ b')

/-! ## Nesting -/

section Depth

variable {double : Type}

mutual

/-- How many values are inside each other, the outermost counted. -/
def depth : JsonTree double → ℕ
  | .JSON_ARRAY children => elementsDepth children + 1
  | .JSON_OBJECT children => membersDepth children + 1
  | _ => 1

def elementsDepth : List (JsonTree double) → ℕ
  | [] => 0
  | v :: vs => max (depth v) (elementsDepth vs)

def membersDepth : List (CString × JsonTree double) → ℕ
  | [] => 0
  | (_, v) :: ms => max (depth v) (membersDepth ms)

end

end Depth

end AzureMetadata.Interface
