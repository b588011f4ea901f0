import TraceIR.Script.Outcome
import TraceIR.Script.Tree

/-!
# Words of a script

Numbers, names, strings and literals. A scanner says how many bytes at the front of a text belong
to a word; a parser turns them into a lexeme.

* `Token.numberLength?` takes a sign, then either `0x` and hexadecimal digits, or decimal digits
  with at most one point and at most one exponent. Whether the digits make sense is not decided
  here.
* `Token.identLength` stops at the first byte that belongs to no name. A byte outside ASCII that
  begins no character is an error and does not just end the name.
-/

namespace TraceIR.Script.Token

/-! ### Scanners -/

def isDigit (c : UInt8) : Bool :=
  0x30 ≤ c && c ≤ 0x39

def isHexDigit (c : UInt8) : Bool :=
  isDigit c || (0x61 ≤ c && c ≤ 0x66) || (0x41 ≤ c && c ≤ 0x46)

def isSign (c : UInt8) : Bool :=
  c == 0x2d || c == 0x2b

def isLetter (c : UInt8) : Bool :=
  (0x61 ≤ c && c ≤ 0x7a) || (0x41 ≤ c && c ≤ 0x5a) || c == 0x5f

/-- The number of bytes of the digits of a decimal number, and whether it has a point or an
exponent. The arguments say whether a point, an exponent, and anything at all came before. -/
def decimalLength (point exponent begun : Bool) : Bytes → Nat × Bool
  | [] => (0, point || exponent)
  | c :: r =>
    if isDigit c then
      let (n, f) := decimalLength point exponent true r
      (n + 1, f)
    else if c == 0x2e && !point && !exponent then
      let (n, f) := decimalLength true exponent true r
      (n + 1, f)
    else if (c == 0x65 || c == 0x45) && !exponent && begun then
      match r with
      | s :: r' =>
        if isSign s then
          let (n, f) := decimalLength point true true r'
          (n + 2, f)
        else
          let (n, f) := decimalLength point true true (s :: r')
          (n + 1, f)
      | [] => (1, true)
    else (0, point || exponent)

/-- The number of bytes of the sign at the front. -/
def signLength : Bytes → Nat
  | c :: _ => if isSign c then 1 else 0
  | [] => 0

/-- Does the text begin with the mark of hexadecimal digits? -/
def hexMark : Bytes → Bool
  | 0x30 :: c :: _ => c == 0x78 || c == 0x58
  | _ => false

/-- The number of bytes of the number at the front, and whether it is a fraction. A point alone is
no number. -/
def numberLength? (b : Bytes) : Option (Nat × Bool) :=
  let sign := signLength b
  let b := b.drop sign
  if hexMark b then
    let n := ((b.drop 2).takeWhile isHexDigit).length
    if n = 0 then none else some (sign + 2 + n, false)
  else
    let (n, fraction) := decimalLength false false false b
    if n = 0 || (n = 1 && b.head? == some 0x2e) then none else some (sign + n, fraction)

/-- The number of bytes of the rest of a name, and whether a byte that begins no character ended
it. -/
def identLength (b : Bytes) : Nat × Bool :=
  match b with
  | [] => (0, false)
  | c :: r =>
    if isLetter c || isDigit c then
      let (n, bad) := identLength r
      (n + 1, bad)
    else if c < 0x80 then (0, false)
    else
      match _h : Utf8.decode? (c :: r) with
      | none => (0, true)
      | some (code, rest) =>
        if code = Utf8.replacement then (0, true)
        else
          let (n, bad) := identLength rest
          (n + ((c :: r).length - rest.length), bad)
termination_by b.length
decreasing_by
  · simp
  · exact Utf8.decode?_length _h

/-- How the text after an opening quote goes on. -/
inductive StringEnd where
  /-- The closing quote is the last of so many bytes. -/
  | closed (n : Nat)
  /-- A line ends after so many bytes. -/
  | newline (n : Nat)
  /-- The text ends after so many bytes; a backslash at the very end counts as two. -/
  | unterminated (n : Nat)
  deriving DecidableEq, Repr, Inhabited

/-- Count some more bytes in front. -/
def StringEnd.shift (k : Nat) : StringEnd → StringEnd
  | .closed n => .closed (n + k)
  | .newline n => .newline (n + k)
  | .unterminated n => .unterminated (n + k)

/-- Where the string ends that the text after an opening quote belongs to. A backslash takes the
next byte with it, whatever it is. -/
def stringEnd : Bytes → StringEnd
  | [] => .unterminated 0
  | 0x5c :: [] => .unterminated 2
  | 0x5c :: _ :: r => (stringEnd r).shift 2
  | 0x0a :: _ => .newline 0
  | 0x22 :: _ => .closed 1
  | _ :: r => (stringEnd r).shift 1

/-! ### Parsers -/

/-- The next `n` bytes as a lexeme. -/
def take (c : Cursor) (n : Nat) : Lexeme :=
  ⟨c.pos, c.rest.take n⟩

/-- A number of either kind. -/
def number (c : Cursor) : Outcome Arg :=
  match numberLength? c.rest with
  | none => .failed (.expected .num) c.pos
  | some (n, fraction) =>
    .done (if fraction then .float (take c n) else .int (take c n)) (c.advance n)

/-- An integer, as a lexeme. A fraction in its place is an error after it. -/
def integer (c : Cursor) : Outcome Lexeme :=
  match numberLength? c.rest with
  | none => .failed (.expected .int) c.pos
  | some (n, true) => .failed .intGotFloat (c.pos + n)
  | some (n, false) => .done (take c n) (c.advance n)

/-- A number, taken as a fraction even if it has no point and no exponent. -/
def fraction (c : Cursor) : Outcome Arg :=
  match numberLength? c.rest with
  | none => .failed (.expected .float) c.pos
  | some (n, _) => .done (.float (take c n)) (c.advance n)

/-- An integer after `#`. -/
def literal (c : Cursor) : Outcome Arg :=
  match c.rest with
  | 0x23 :: _ => ((integer (c.advance 1)).map (Arg.lit c.pos)).during .lit
  | _ => .failed (.expected .lit) c.pos

/-- A name, as a lexeme. -/
def ident (c : Cursor) : Outcome Lexeme :=
  match c.rest with
  | x :: r =>
    if isLetter x then
      match identLength r with
      | (n, false) => .done (take c (n + 1)) (c.advance (n + 1))
      | (n, true) => .failed .badCharacter (c.pos + n + 1)
    else .failed (.expected .ident) c.pos
  | [] => .failed (.expected .ident) c.pos

/-- A string with its quotes. -/
def string (c : Cursor) : Outcome Arg :=
  match c.rest with
  | 0x22 :: r =>
    match stringEnd r with
    | .closed n => .done (.string (take c (n + 1))) (c.advance (n + 1))
    | .newline n => .failed .newlineInString (c.pos + n + 1)
    | .unterminated n => .failed .unterminatedString (c.pos + n + 1)
  | _ => .failed (.expected .string) c.pos

/-- A fixed text. -/
def fixed (text : Bytes) (c : Cursor) : Outcome Bytes :=
  if text.isPrefixOf c.rest then .done text (c.advance text.length)
  else .failed (.textExpected text) c.pos

end TraceIR.Script.Token
