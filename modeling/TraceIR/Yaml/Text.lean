import TraceIR.Bytes

/-!
# The characters of YAML texts

A YAML text is UTF-8, or UTF-16 if it begins with the mark of that, and holds only characters that
can be shown, tabs and line breaks.

* `Yaml.characters?` gives the characters of a text, without the mark in front.
-/

namespace TraceIR.Yaml

/-- A quotation mark. -/
def quote : Char := Char.ofNat 0x22

/-- An apostrophe. -/
def apostrophe : Char := Char.ofNat 0x27

/-- A backslash. -/
def backslash : Char := Char.ofNat 0x5c

/-- A backquote. -/
def backquote : Char := Char.ofNat 0x60

/-- The byte order mark. -/
def orderMark : Char := Char.ofNat 0xfeff

/-- A space or a tab. -/
def isBlank (c : Char) : Bool :=
  c == ' ' || c == '\t'

/-- A character that ends a line. -/
def isBreak (c : Char) : Bool :=
  [0x0a, 0x0d, 0x85, 0x2028, 0x2029].contains c.toNat

/-- What a line break counts as in a scalar that goes on after it. Only the separators of lines and
paragraphs stay what they are. -/
def breakText (c : Char) : List Char :=
  if c.toNat == 0x2028 || c.toNat == 0x2029 then [c] else ['\n']

/-- A letter, a digit or one of the two marks that names hold. -/
def isNameChar (c : Char) : Bool :=
  c.isAlphanum || c == '_' || c == '-'

/-- The value of a hexadecimal digit. -/
def hexValue? (c : Char) : Option Nat :=
  if c.isDigit then some (c.toNat - 0x30)
  else if 'a' ≤ c ∧ c ≤ 'f' then some (c.toNat - 0x57)
  else if 'A' ≤ c ∧ c ≤ 'F' then some (c.toNat - 0x37)
  else none

/-- Does a text end here, or go on with a blank or a line break? -/
def endsWord : List Char → Bool
  | [] => true
  | c :: _ => isBlank c || isBreak c

/-- Three times the same mark, and the end of the word. -/
def isMarker (mark : Char) : List Char → Bool
  | a :: b :: c :: rest => a == mark && b == mark && c == mark && endsWord rest
  | _ => false

/-- The characters that a text may hold. -/
def isAllowed (c : Char) : Bool :=
  let n := c.toNat
  n == 0x09 || n == 0x0a || n == 0x0d || (0x20 ≤ n && n ≤ 0x7e) || n == 0x85 ||
    (0xa0 ≤ n && n ≤ 0xfffd) || 0x10000 ≤ n

/-- The 16-bit units of a text, given which byte of a unit comes first. -/
def units? (bigEndian : Bool) : Bytes → Option (List Nat)
  | [] => some []
  | [_] => none
  | a :: b :: r => do
    let unit := if bigEndian then a.toNat * 256 + b.toNat else b.toNat * 256 + a.toNat
    return unit :: (← units? bigEndian r)

/-- The characters that 16-bit units spell. -/
def ofUnits? : List Nat → Option (List Char)
  | [] => some []
  | u :: r =>
    if u < 0xd800 || 0xe000 ≤ u then do return Char.ofNat u :: (← ofUnits? r)
    else if 0xdc00 ≤ u then none
    else
      match r with
      | [] => none
      | v :: r =>
        if v < 0xdc00 || 0xe000 ≤ v then none
        else do
          return Char.ofNat (0x10000 + (u - 0xd800) * 0x400 + (v - 0xdc00)) :: (← ofUnits? r)

/-- The characters of a text in the encoding that its first bytes show. -/
def decode? : Bytes → Option (List Char)
  | 0xff :: 0xfe :: r => units? false r >>= ofUnits?
  | 0xfe :: 0xff :: r => units? true r >>= ofUnits?
  | 0xef :: 0xbb :: 0xbf :: r => (Bytes.toString? r).map (·.toList)
  | b => (Bytes.toString? b).map (·.toList)

/-- The characters of a text, if it may be a YAML text at all. -/
def characters? (b : Bytes) : Option (List Char) := do
  let cs ← decode? b
  if cs.all isAllowed then some cs else none

end TraceIR.Yaml
