import TraceIR.Wire

/-!
# Sets of keys as bits

A set of integers not below a base, one bit for each, in words of 64. Only the words that hold a key
are stored, by number and in increasing order, so a key far from the base costs no more than a near
one. The span is the number of words that there is room for: it grows as far as the highest key
needs, and strips down to the last word that holds one.

* `BitSet.contains`, `BitSet.size` and `BitSet.toList` are the views of a set; `toList` is in
  increasing order.
* `BitSet.insert` refuses a key below the base. Keys and bases are signed 64-bit numbers, and a key
  whose distance from the base is no such number has no place: `BitSet.insert`, `BitSet.contains?`
  and `BitSet.erase?` say so.
-/

namespace TraceIR

/-- Why a key has no place in a set. -/
inductive KeyError where
  /-- The key is below the base. -/
  | below (key : Int)
  /-- The distance from the base is no signed 64-bit number. -/
  | tooFar
  deriving DecidableEq, Repr

/-- A finite set of integers from `base` on. -/
structure BitSet where
  base : Int := 0
  /-- The words that are not zero, in increasing order of their numbers. Bit `j` of word `i` stands
  for the key `base + 64 · i + j`. -/
  words : List (Nat × UInt64) := []
  /-- How many words there is room for. -/
  span : Nat := 0
  /-- A set that has never had room for anything is written as no value. -/
  allocated : Bool := false
  deriving DecidableEq, Repr, Inhabited

namespace BitSet

/-- Word number `i`. -/
def word : List (Nat × UInt64) → Nat → UInt64
  | [], _ => 0
  | (n, w) :: ws, i => if n = i then w else if i < n then 0 else word ws i

/-- Make `v` word number `i`. -/
def setWord (i : Nat) (v : UInt64) : List (Nat × UInt64) → List (Nat × UInt64)
  | [] => if v = 0 then [] else [(i, v)]
  | (n, w) :: ws =>
    if n < i then (n, w) :: setWord i v ws
    else
      let rest := if n = i then ws else (n, w) :: ws
      if v = 0 then rest else (i, v) :: rest

/-- Make room for at least `n` words. -/
def reserve (s : BitSet) (n : Nat) : BitSet :=
  { s with span := max s.span n, allocated := true }

/-- An empty set with room for a few keys. -/
def empty (base : Int) : BitSet :=
  { base, span := 2, allocated := true }

/-- An empty set with room for the keys from `base` to below `base + n`. -/
def withCapacity (base n : Int) : BitSet :=
  (empty base).reserve ((n.toNat + 63) / 64)

/-- The distance of a key from the base. -/
def offset (s : BitSet) (k : Int) : Nat :=
  (k - s.base).toNat

/-- The first distance that is no signed 64-bit number. -/
def distanceLimit : Nat :=
  0x8000000000000000

/-- The word in which only bit `j` is set. -/
def bit (j : Nat) : UInt64 :=
  UInt64.ofNat (1 <<< j)

/-- Is the bit of a word set? -/
def testBit (w : UInt64) (j : Nat) : Bool :=
  w.toNat.testBit j

/-- Add a key. There is no room for one below the base, and none is found for one too far. -/
def insert (s : BitSet) (k : Int) : BitSet × Option KeyError :=
  let d := s.offset k
  if k < s.base then (s, some (.below k))
  else if distanceLimit ≤ d then (s.reserve 2, some .tooFar)
  else
    let w := word s.words (d / 64) ||| bit (d % 64)
    ({ s with words := setWord (d / 64) w s.words }.reserve (d / 64 + 1), none)

/-- Add keys in turn up to the first that has no place. -/
def insertAll (s : BitSet) : List Int → BitSet × Option KeyError
  | [] => (s, none)
  | k :: ks =>
    match s.insert k with
    | (s, none) => s.insertAll ks
    | (s, some e) => (s, some e)

/-- Membership. -/
def contains (s : BitSet) (k : Int) : Bool :=
  s.base ≤ k && testBit (word s.words (s.offset k / 64)) (s.offset k % 64)

/-- Take a key out, if it is there. -/
def erase (s : BitSet) (k : Int) : BitSet :=
  if k < s.base then s
  else
    let d := s.offset k
    { s with words := setWord (d / 64) (word s.words (d / 64) &&& ~~~bit (d % 64)) s.words }

/-- Does looking for the key leave the words? Distances wrap around, and those just below zero are
still looked for in the first word, which a set without room does not have. -/
def isTooFar (s : BitSet) (k : Int) : Bool :=
  distanceLimit ≤ s.offset k && (0 < s.span || s.offset k + 64 ≤ 2 * distanceLimit)

/-- Membership of any key. -/
def contains? (s : BitSet) (k : Int) : Except KeyError Bool :=
  if s.isTooFar k then .error .tooFar else .ok (s.contains k)

/-- Take any key out, if it is there. -/
def erase? (s : BitSet) (k : Int) : Except KeyError BitSet :=
  if s.isTooFar k then .error .tooFar else .ok (s.erase k)

/-- The set bits of a word in increasing order. -/
def wordBits (w : UInt64) : List Nat :=
  (List.range 64).filter (testBit w)

/-- The keys in increasing order. -/
def toList (s : BitSet) : List Int :=
  s.words.flatMap fun (i, w) => (wordBits w).map fun j => s.base + ((i * 64 + j : Nat) : Int)

/-- The number of set bits of a word. -/
def popCount (w : UInt64) : Nat :=
  (List.range 64).countP (testBit w)

/-- The number of keys. -/
def size (s : BitSet) : Nat :=
  s.words.foldl (fun n (_, w) => n + popCount w) 0

/-- Give up the room behind the last word that holds a key. -/
def strip (s : BitSet) : BitSet :=
  { s with span := s.words.getLast?.elim 0 (·.1 + 1) }

/-- Take all keys out. -/
def clear (s : BitSet) : BitSet :=
  { s with words := [] }.strip

/-- The log form: the keys in order. -/
def wire (s : BitSet) : Bytes :=
  if s.allocated then Wire.openList (s.toList.map Wire.int) else Wire.null

end BitSet

end TraceIR
