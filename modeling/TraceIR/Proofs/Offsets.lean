import TraceIR.Proofs.Scanning
import TraceIR.Proofs.Characters

/-!
# Reading a text by offsets

A cursor carries the text that lies before it, so a parser on cursors has nothing else to look at.
Here are its scanners once more, on a text and an offset. They look at the byte at an offset, or at
the text from an offset on, and where there is none, they have no answer at all. Nothing but their
own comparisons with the length of the text keeps them from looking there.

* `Offset.byte?`, `Offset.from?` and `Offset.between?` are the only ways to look at a text.
* For each scanner there is a lemma: from every offset of the text, its end included, it looks at
  nothing outside the text and finds what the scanner on cursors finds.
-/

namespace TraceIR.Script.Offset

open Token (isDigit isHexDigit isSign isLetter)

/-! ### Scanners -/

section Scanners

variable (text : Bytes)

/-- The byte at an offset. -/
def byte? (i : Nat) : Option UInt8 :=
  text[i]?

/-- The text from an offset on. At the end of the text it is empty, beyond it there is none. -/
def from? (i : Nat) : Option Bytes :=
  if i ≤ text.length then some (text.drop i) else none

/-- The text between two offsets. -/
def between? (i j : Nat) : Option Bytes :=
  if i ≤ j ∧ j ≤ text.length then some (text.extract i j) else none

/-- Pass bytes of some kind. -/
def passWhile (p : UInt8 → Bool) (i : Nat) : Option Nat :=
  if i < text.length then
    match byte? text i with
    | none => none
    | some x => if p x then passWhile p (i + 1) else some i
  else some i
termination_by text.length - i

/-- Pass blanks. -/
def skip (s : Spaces) (i : Nat) : Option Nat :=
  passWhile text s.has i

/-- Does a line, or the text, end at the offset? -/
def atLineEnd (i : Nat) : Option Bool :=
  if i = text.length then some true
  else do
    let x ← byte? text i
    return x == 0x0a || x == 0x0d

/-- Does a comment begin at the offset? -/
def atComment (i : Nat) : Option Bool := do
  let b ← from? text i
  return [0x2f, 0x2f].isPrefixOf b

/-- Pass the sign of a number. -/
def signEnd (i : Nat) : Option Nat :=
  if i < text.length then do
    let x ← byte? text i
    return if isSign x then i + 1 else i
  else some i

/-- Is there the mark of hexadecimal digits? -/
def hexMark (i : Nat) : Option Bool :=
  if i + 1 < text.length then do
    let x ← byte? text i
    let y ← byte? text (i + 1)
    return x == 0x30 && (y == 0x78 || y == 0x58)
  else some false

/-- Pass the digits of a number that begin at `first`, and say whether there is a point or an
exponent among them. The flags say whether one was passed already. -/
def digitsEnd (hex : Bool) (first : Nat) (point exponent : Bool) (i : Nat) :
    Option (Nat × Bool) :=
  if i < text.length then
    match byte? text i with
    | none => none
    | some x =>
      if isDigit x || hex && isHexDigit x then digitsEnd hex first point exponent (i + 1)
      else if !hex && (x == 0x2e && !point && !exponent) then
        digitsEnd hex first true exponent (i + 1)
      else if !hex && ((x == 0x65 || x == 0x45) && !exponent && i != first) then
        -- an exponent may have a sign
        if i + 1 < text.length then
          match byte? text (i + 1) with
          | none => none
          | some y =>
            if isSign y then digitsEnd hex first point true (i + 2)
            else digitsEnd hex first point true (i + 1)
        else digitsEnd hex first point true (i + 1)
      else some (i, point || exponent)
  else some (i, point || exponent)
termination_by text.length - i

/-- No digits make no number, and neither does a point alone. -/
def checkDigits (first stop : Nat) (fraction : Bool) : Option (Option (Nat × Bool)) :=
  if stop = first then some none
  else if stop = first + 1 then do
    let x ← byte? text first
    return if x == 0x2e then none else some (stop, fraction)
  else some (some (stop, fraction))

/-- Where the number at the offset ends, if there is one, and whether it is a fraction. -/
def numberEnd? (start : Nat) : Option (Option (Nat × Bool)) := do
  let i ← signEnd text start
  let hex ← hexMark text i
  let first := if hex then i + 2 else i
  let (stop, fraction) ← digitsEnd text hex first false false first
  checkDigits text first stop fraction

/-- Pass the rest of a name, and say whether a byte that begins no character ended it. -/
def nameEnd (i : Nat) : Option (Nat × Bool) :=
  if i < text.length then
    match byte? text i with
    | none => none
    | some x =>
      if isLetter x || isDigit x then nameEnd (i + 1)
      else if x < 0x80 then some (i, false)
      else
        match from? text i with
        | none => none
        | some b =>
          match _h : Utf8.decode? b with
          | none => some (i, true)
          | some (code, rest) =>
            if code = Utf8.replacement then some (i, true)
            else nameEnd (i + (b.length - rest.length))
  else some (i, false)
termination_by text.length - i
decreasing_by
  · omega
  · have hlength := Utf8.decode?_length _h
    omega

/-- Where the string ends that an opening quote before the offset begins. -/
def stringEnd (i : Nat) : Option Token.StringEnd :=
  if i < text.length then
    match byte? text i with
    | none => none
    | some x =>
      if x = 0x5c then stringEnd (i + 2)
      else if x = 0x0a then some (.newline i)
      else if x = 0x22 then some (.closed (i + 1))
      else stringEnd (i + 1)
  else some (.unterminated i)
termination_by text.length - i

end Scanners

/-! ### Looking at a text -/

variable {text : Bytes} {i : Nat}

/-- What there is to see where the text goes on. -/
theorem byte?_of_drop {x : UInt8} {r : Bytes} (h : text.drop i = x :: r) :
    i < text.length ∧ byte? text i = some x ∧ text.drop (i + 1) = r := by
  have hlt : i < text.length := by
    refine Nat.lt_of_not_le fun hge => ?_
    rw [List.drop_eq_nil_of_le hge] at h
    cases h
  rw [List.drop_eq_getElem_cons hlt] at h
  obtain ⟨hx, hr⟩ := List.cons.inj h
  exact ⟨hlt, by rw [byte?, List.getElem?_eq_getElem hlt, hx], hr⟩

private theorem not_lt_of_drop (h : text.drop i = []) : ¬ i < text.length :=
  Nat.not_lt.mpr (List.drop_eq_nil_iff.mp h)

theorem from?_of_le (h : i ≤ text.length) : from? text i = some (text.drop i) :=
  if_pos h

theorem between?_of_le {n : Nat} (h : n ≤ (text.drop i).length) (hi : i ≤ text.length) :
    between? text i (i + n) = some ((text.drop i).take n) := by
  rw [List.length_drop] at h
  rw [between?, if_pos ⟨Nat.le_add_right i n, by omega⟩, List.extract, Nat.add_sub_cancel_left]

/-! ### Blanks and comments -/

theorem passWhile_eq (p : UInt8 → Bool) {b : Bytes} (h : text.drop i = b) :
    passWhile text p i = some (i + (b.takeWhile p).length) := by
  induction b generalizing i with
  | nil =>
    rw [passWhile, if_neg (not_lt_of_drop h)]
    rfl
  | cons x r ih =>
    obtain ⟨hlt, hx, hr⟩ := byte?_of_drop h
    rw [passWhile, if_pos hlt, hx]
    dsimp only
    by_cases hp : p x = true
    · rw [if_pos hp, ih hr, List.takeWhile_cons_of_pos hp, List.length_cons]
      congr 1
      omega
    · rw [if_neg hp, List.takeWhile_cons_of_neg hp]
      rfl

private theorem passWhile_ne_none (p : UInt8 → Bool) : passWhile text p i ≠ none := by
  rw [passWhile_eq p rfl]
  exact Option.some_ne_none _

private theorem passWhile_eq_some {p : UInt8 → Bool} {j : Nat} (h : i ≤ text.length)
    (hj : passWhile text p i = some j) :
    i + ((text.drop i).takeWhile p).length = j ∧ j ≤ text.length ∧
      (text.drop i).drop ((text.drop i).takeWhile p).length = text.drop j := by
  have hlength := (List.takeWhile_prefix p (l := text.drop i)).length_le
  rw [List.length_drop] at hlength
  rw [passWhile_eq p rfl, Option.some.injEq] at hj
  exact ⟨hj, by omega, by rw [List.drop_drop, hj]⟩

theorem atComment_of_le (h : i ≤ text.length) :
    atComment text i = some (List.isPrefixOf [0x2f, 0x2f] (text.drop i)) := by
  rw [atComment, from?_of_le h]
  rfl

/-- A comment has its two slashes. -/
private theorem drop_of_atComment (h : atComment text i = some true) :
    ∃ r, text.drop i = 0x2f :: 0x2f :: r := by
  obtain ⟨b, hb, hcomment⟩ := Option.bind_eq_some_iff.mp h
  rw [from?] at hb
  split at hb
  · cases hb
    obtain ⟨r, hr⟩ := List.isPrefixOf_iff_prefix.mp (Option.some.inj hcomment)
    exact ⟨r, hr.symm⟩
  · cases hb

/-- A byte that can stand in a comment. -/
def inLine (x : UInt8) : Bool :=
  x != 0x0a

/-- Pass blanks and comments. -/
def skipComments (text : Bytes) (s : Spaces) (start : Nat) : Option Nat :=
  match _h : skip text s start with
  | none => none
  | some i =>
    match _hcomment : atComment text i with
    | none => none
    | some false => some i
    | some true =>
      match _hline : passWhile text inLine i with
      | none => none
      | some j => skipComments text s j
termination_by text.length - start
decreasing_by
  rw [skip, passWhile_eq _ rfl, Option.some.injEq] at _h
  obtain ⟨r, hr⟩ := drop_of_atComment _hcomment
  have hlt := (byte?_of_drop hr).1
  -- the slashes are passed, at least
  rw [passWhile_eq _ hr, List.takeWhile_cons_of_pos (by decide), Option.some.injEq,
    List.length_cons] at _hline
  omega

/-- Inside a comment everything is passed up to the end of the line. -/
private theorem commentLength_true (s : Spaces) (b : Bytes) :
    s.commentLength true b = (b.takeWhile inLine).length +
      s.commentLength false (b.drop (b.takeWhile inLine).length) := by
  induction b with
  | nil => rfl
  | cons x r ih =>
    rw [Spaces.commentLength, Bool.true_and]
    change (if inLine x = true then _ else _) = _
    by_cases hx : inLine x = true
    · rw [List.takeWhile_cons_of_pos hx, List.length_cons, List.drop_succ_cons, if_pos hx, ih]
      omega
    · -- the end of the line is no part of the comment
      rw [List.takeWhile_cons_of_neg hx, List.length_nil, List.drop_zero, Nat.zero_add, if_neg hx,
        Spaces.commentLength, Bool.false_and, if_neg Bool.false_ne_true]

/-- Outside of comments blanks are passed, and then comes a comment or the end. -/
private theorem commentLength_false (s : Spaces) (b : Bytes) :
    s.commentLength false b = (b.takeWhile s.has).length +
      (if List.isPrefixOf [0x2f, 0x2f] (b.drop (b.takeWhile s.has).length) then
        s.commentLength true (b.drop (b.takeWhile s.has).length) else 0) := by
  induction b with
  | nil => rfl
  | cons x r ih =>
    by_cases hx : s.has x = true
    · rw [Spaces.commentLength, Bool.false_and, if_neg Bool.false_ne_true, if_pos hx, ih,
        List.takeWhile_cons_of_pos hx, List.length_cons, List.drop_succ_cons]
      omega
    · have hslashes :
          List.isPrefixOf [0x2f, 0x2f] (x :: r) = (x == 0x2f && r.head? == some 0x2f) := by
        cases r <;> simp [List.isPrefixOf, Bool.beq_comm]
      rw [List.takeWhile_cons_of_neg hx, Spaces.commentLength, Bool.false_and,
        if_neg Bool.false_ne_true, if_neg hx, List.length_nil, List.drop_zero, Nat.zero_add,
        hslashes]
      split
      · next hcomment =>
        obtain ⟨hslash, -⟩ := Bool.and_eq_true_iff.mp hcomment
        rw [eq_of_beq hslash, Spaces.commentLength, if_pos (by decide)]
      · rfl

theorem skipComments_eq (s : Spaces) {start : Nat} (h : start ≤ text.length) :
    skipComments text s start = some (start + s.commentLength false (text.drop start)) := by
  fun_induction skipComments text s start with
  | case1 start hnone => exact absurd hnone (passWhile_ne_none _)
  | case2 start i hsome hcomment =>
    rw [atComment_of_le (passWhile_eq_some h hsome).2.1] at hcomment
    cases hcomment
  | case3 start i hsome hcomment =>
    obtain ⟨hi, hle, hdrop⟩ := passWhile_eq_some h hsome
    rw [atComment_of_le hle, Option.some.injEq] at hcomment
    rw [commentLength_false, hdrop, hcomment, if_neg Bool.false_ne_true, Nat.add_zero, ← hi]
  | case4 start i hsome hcomment hnone => exact absurd hnone (passWhile_ne_none _)
  | case5 start i hsome hcomment j hline ih =>
    -- from `start` to `i` there are blanks, and from `i` to `j` there is a comment
    obtain ⟨hi, hle, hdrop⟩ := passWhile_eq_some h hsome
    obtain ⟨hj, hle', hdrop'⟩ := passWhile_eq_some hle hline
    rw [atComment_of_le hle, Option.some.injEq] at hcomment
    rw [ih hle', commentLength_false s (text.drop start), hdrop, if_pos hcomment,
      commentLength_true, hdrop', ← Nat.add_assoc, ← Nat.add_assoc, hi, hj]

/-! ### Numbers -/

private theorem signEnd_eq (i : Nat) :
    signEnd text i = some (i + Token.signLength (text.drop i)) := by
  cases h : text.drop i with
  | nil =>
    rw [signEnd, if_neg (not_lt_of_drop h)]
    rfl
  | cons x r =>
    obtain ⟨hlt, hx, -⟩ := byte?_of_drop h
    rw [signEnd, if_pos hlt, hx, Token.signLength]
    split <;> simp_all

private theorem hexMark_eq (i : Nat) : hexMark text i = some (Token.hexMark (text.drop i)) := by
  cases h : text.drop i with
  | nil =>
    rw [hexMark, if_neg fun hlt => not_lt_of_drop h (Nat.lt_of_succ_lt hlt)]
    rfl
  | cons x r =>
    obtain ⟨hlt, hx, hr⟩ := byte?_of_drop h
    cases r with
    | nil =>
      rw [hexMark, if_neg (not_lt_of_drop hr), Token.hexMark]
      simp
    | cons y r =>
      obtain ⟨hlt', hy, -⟩ := byte?_of_drop hr
      rw [hexMark, if_pos hlt', hx, hy]
      by_cases hzero : x = 0x30
      · subst hzero
        rfl
      · rw [Token.hexMark]
        · simp [hzero]
        · simp [hzero]

/-- Hexadecimal digits. -/
private theorem digitsEnd_hex {b : Bytes} (first : Nat) (point exponent : Bool)
    (h : text.drop i = b) :
    digitsEnd text true first point exponent i =
      some (i + (b.takeWhile isHexDigit).length, point || exponent) := by
  induction b generalizing i with
  | nil =>
    rw [digitsEnd, if_neg (not_lt_of_drop h)]
    rfl
  | cons x r ih =>
    obtain ⟨hlt, hx, hr⟩ := byte?_of_drop h
    have hkind : (isDigit x || true && isHexDigit x) = isHexDigit x := by
      rw [isHexDigit]
      cases isDigit x <;> simp
    rw [digitsEnd, if_pos hlt, hx]
    simp only [hkind, Bool.not_true, Bool.false_and, Bool.false_eq_true, if_false]
    by_cases hp : isHexDigit x = true
    · rw [if_pos hp, ih hr, List.takeWhile_cons_of_pos hp, List.length_cons]
      congr 2
      omega
    · rw [if_neg hp, List.takeWhile_cons_of_neg hp]
      rfl

/-- One byte of a decimal number. -/
private theorem digitsEnd_cons {x : UInt8} {r : Bytes} (first : Nat) (point exponent : Bool)
    (h : text.drop i = x :: r) :
    digitsEnd text false first point exponent i =
      if isDigit x then digitsEnd text false first point exponent (i + 1)
      else if x == 0x2e && !point && !exponent then digitsEnd text false first true exponent (i + 1)
      else if (x == 0x65 || x == 0x45) && !exponent && i != first then
        digitsEnd text false first point true (i + 1 + Token.signLength r)
      else some (i, point || exponent) := by
  obtain ⟨hlt, hx, hr⟩ := byte?_of_drop h
  rw [digitsEnd, if_pos hlt, hx]
  simp only [Bool.false_and, Bool.or_false, Bool.not_false, Bool.true_and]
  cases r with
  | nil =>
    rw [if_neg (not_lt_of_drop hr)]
    rfl
  | cons y r =>
    obtain ⟨hlt', hy, -⟩ := byte?_of_drop hr
    rw [if_pos hlt', hy, Token.signLength]
    dsimp only
    by_cases hsign : isSign y = true
    · rw [if_pos hsign, if_pos hsign]
    · rw [if_neg hsign, if_neg hsign]

/-- Decimal digits. Whether anything came before can be told by the offset. -/
private theorem digitsEnd_decimal {b : Bytes} {first : Nat} {point exponent begun : Bool}
    (h : text.drop i = b) (hfirst : first ≤ i) (hbegun : begun = (i != first)) :
    digitsEnd text false first point exponent i =
      some (i + (Token.decimalLength point exponent begun b).1,
        (Token.decimalLength point exponent begun b).2) := by
  -- after a byte the offset is not the first one any more
  have hlater : ∀ {k}, first < k → true = (k != first) := fun hlt => by
    rw [eq_comm, bne_iff_ne]
    exact Nat.ne_of_gt hlt
  fun_induction Token.decimalLength point exponent begun b generalizing i with
  | case1 point exponent begun =>
    rw [digitsEnd, if_neg (not_lt_of_drop h)]
    rfl
  | case2 point exponent begun x r hdigit n f hn ih =>
    obtain ⟨hlt, hx, hr⟩ := byte?_of_drop h
    rw [digitsEnd_cons _ _ _ h, if_pos hdigit, ih hr (by omega) (hlater (by omega)), hn]
    dsimp only
    congr 2
    omega
  | case3 point exponent begun x r hdigit hpoint n f hn ih =>
    obtain ⟨hlt, hx, hr⟩ := byte?_of_drop h
    rw [digitsEnd_cons _ _ _ h, if_neg hdigit, if_pos hpoint, ih hr (by omega) (hlater (by omega)),
      hn]
    dsimp only
    congr 2
    omega
  | case4 point exponent begun x hdigit hpoint hexponent y r hsign n f hn ih =>
    obtain ⟨hlt, hx, hr⟩ := byte?_of_drop h
    obtain ⟨hlt', hy, hr'⟩ := byte?_of_drop hr
    rw [digitsEnd_cons _ _ _ h, if_neg hdigit, if_neg hpoint, ← hbegun, if_pos hexponent,
      Token.signLength, if_pos hsign, ih hr' (by omega) (hlater (by omega)), hn]
    dsimp only
    congr 2
    omega
  | case5 point exponent begun x hdigit hpoint hexponent y r hsign n f hn ih =>
    obtain ⟨hlt, hx, hr⟩ := byte?_of_drop h
    rw [digitsEnd_cons _ _ _ h, if_neg hdigit, if_neg hpoint, ← hbegun, if_pos hexponent,
      Token.signLength, if_neg hsign, Nat.add_zero, ih hr (by omega) (hlater (by omega)), hn]
    dsimp only
    congr 2
    omega
  | case6 point exponent begun x hdigit hpoint hexponent =>
    obtain ⟨hlt, hx, hr⟩ := byte?_of_drop h
    rw [digitsEnd_cons _ _ _ h, if_neg hdigit, if_neg hpoint, ← hbegun, if_pos hexponent,
      Token.signLength, Nat.add_zero, digitsEnd, if_neg (not_lt_of_drop hr), Bool.or_true]
  | case7 point exponent begun x r hdigit hpoint hexponent =>
    rw [digitsEnd_cons _ _ _ h, if_neg hdigit, if_neg hpoint, ← hbegun, if_neg hexponent]
    rfl

private theorem checkDigits_eq {n : Nat} (fraction : Bool) (h : n ≤ (text.drop i).length) :
    checkDigits text i (i + n) fraction =
      some (if n = 0 || (n = 1 && (text.drop i).head? == some 0x2e) then none
        else some (i + n, fraction)) := by
  rcases n with _ | _ | n
  · rw [checkDigits, if_pos (Nat.add_zero i)]
    rfl
  · -- one byte, which may be a point
    cases hdrop : text.drop i with
    | nil =>
      rw [hdrop] at h
      cases h
    | cons x r =>
      rw [checkDigits, if_neg (by omega), if_pos (by omega), (byte?_of_drop hdrop).2.1]
      simp
  · rw [checkDigits, if_neg (by omega), if_neg (by omega)]
    simp

/-- A point is no hexadecimal digit. -/
private theorem takeWhile_isHexDigit_of_point {b : Bytes} (h : b.head? = some 0x2e) :
    b.takeWhile isHexDigit = [] := by
  cases b with
  | nil => rfl
  | cons x r =>
    rw [List.head?_cons, Option.some.injEq] at h
    rw [h, List.takeWhile_cons_of_neg (by decide)]

theorem numberEnd?_eq (start : Nat) :
    numberEnd? text start =
      some ((Token.numberLength? (text.drop start)).map fun p => (start + p.1, p.2)) := by
  rw [numberEnd?, signEnd_eq, Token.numberLength?]
  simp only [Option.bind_eq_bind, Option.bind_some, hexMark_eq, List.drop_drop]
  generalize Token.signLength (text.drop start) = sign
  -- only decimal digits can be a point alone, but the check is the same for both kinds
  by_cases hhex : Token.hexMark (text.drop (start + sign)) = true
  · have hprefix := List.takeWhile_prefix isHexDigit (l := text.drop (start + sign + 2))
    rw [if_pos hhex, if_pos hhex, hhex, digitsEnd_hex _ _ _ rfl, Option.bind_some,
      checkDigits_eq _ hprefix.length_le]
    generalize text.drop (start + sign + 2) = b
    by_cases hzero : (b.takeWhile isHexDigit).length = 0
    · rw [if_pos hzero, hzero]
      rfl
    · have hhead : (b.head? == some 0x2e) = false := by
        rw [beq_eq_false_iff_ne]
        exact fun hpoint => hzero (by rw [takeWhile_isHexDigit_of_point hpoint]; rfl)
      rw [if_neg hzero, hhead, Bool.and_false, decide_eq_false hzero, Bool.or_false,
        if_neg Bool.false_ne_true, Option.map_some, Nat.add_assoc, Nat.add_assoc, Nat.add_assoc]
  · have hle := Token.decimalLength_le false false false (text.drop (start + sign))
    have hbegun : false = ((start + sign) != (start + sign)) := by simp
    rw [if_neg hhex, if_neg hhex, Bool.eq_false_iff.mpr hhex,
      digitsEnd_decimal rfl (Nat.le_refl _) hbegun, Option.bind_some, checkDigits_eq _ hle]
    split
    · rfl
    · simp only [Option.map_some, Nat.add_assoc]

/-! ### Names and strings -/

/-- One byte, or one character, of a name. -/
private theorem nameEnd_cons {x : UInt8} {r : Bytes} (h : text.drop i = x :: r) :
    nameEnd text i =
      if isLetter x || isDigit x then nameEnd text (i + 1)
      else if x < 0x80 then some (i, false)
      else
        match Utf8.decode? (x :: r) with
        | none => some (i, true)
        | some (code, rest) =>
          if code = Utf8.replacement then some (i, true)
          else nameEnd text (i + ((x :: r).length - rest.length)) := by
  obtain ⟨hlt, hx, -⟩ := byte?_of_drop h
  rw [nameEnd, if_pos hlt, hx]
  dsimp only
  rw [from?_of_le (Nat.le_of_lt hlt), h]
  dsimp only
  split
  · rfl
  · split
    · rfl
    · split
      · next hnone => rw [hnone]
      · next code rest hsome => rw [hsome]

theorem nameEnd_eq {b : Bytes} (h : text.drop i = b) :
    nameEnd text i = some (i + (Token.identLength b).1, (Token.identLength b).2) := by
  fun_induction Token.identLength b generalizing i with
  | case1 =>
    rw [nameEnd, if_neg (not_lt_of_drop h)]
    rfl
  | case2 x r hword n bad hn ih =>
    rw [nameEnd_cons h, if_pos hword, ih (byte?_of_drop h).2.2, hn]
    dsimp only
    congr 2
    omega
  | case3 x r hword hascii =>
    rw [nameEnd_cons h, if_neg hword, if_pos hascii]
    rfl
  | case4 x r hword hascii hnone =>
    rw [nameEnd_cons h, if_neg hword, if_neg hascii, hnone]
    rfl
  | case5 x r hword hascii rest hsome =>
    rw [nameEnd_cons h, if_neg hword, if_neg hascii, hsome]
    rfl
  | case6 x r hword hascii code rest hsome hcode n bad hn ih =>
    -- the character is what stands before the rest
    have hchar := (Utf8.decode?_eq_some_iff.mp hsome).2
    have hrest : text.drop (i + ((x :: r).length - rest.length)) = rest := by
      rw [← List.drop_drop, h, hchar, List.length_append, Nat.add_sub_cancel, List.drop_left]
    rw [nameEnd_cons h, if_neg hword, if_neg hascii, hsome]
    dsimp only
    rw [if_neg hcode, ih hrest, hn]
    dsimp only
    congr 2
    omega

/-- One byte of a string. -/
private theorem stringEnd_cons {x : UInt8} {r : Bytes} (h : text.drop i = x :: r) :
    stringEnd text i =
      if x = 0x5c then stringEnd text (i + 2)
      else if x = 0x0a then some (.newline i)
      else if x = 0x22 then some (.closed (i + 1))
      else stringEnd text (i + 1) := by
  obtain ⟨hlt, hx, -⟩ := byte?_of_drop h
  rw [stringEnd, if_pos hlt, hx]

private theorem shift_shift (e : Token.StringEnd) (m n : Nat) :
    (e.shift m).shift n = e.shift (n + m) := by
  cases e <;> simp only [Token.StringEnd.shift, Nat.add_assoc, Nat.add_comm m n]

theorem stringEnd_eq {b : Bytes} (h : text.drop i = b) :
    stringEnd text i = some ((Token.stringEnd b).shift i) := by
  fun_induction Token.stringEnd b generalizing i with
  | case1 => rw [stringEnd, if_neg (not_lt_of_drop h), Token.StringEnd.shift, Nat.zero_add]
  | case2 =>
    -- the backslash takes a byte with it that is not there, and the search goes no further
    have hend := not_lt_of_drop (byte?_of_drop h).2.2
    rw [stringEnd_cons h, if_pos rfl, stringEnd, if_neg (by omega), Token.StringEnd.shift,
      Nat.add_comm]
  | case3 x r ih =>
    have hrest := (byte?_of_drop (byte?_of_drop h).2.2).2.2
    rw [stringEnd_cons h, if_pos rfl, ih hrest, shift_shift]
  | case4 r =>
    rw [stringEnd_cons h, if_neg (by decide), if_pos rfl, Token.StringEnd.shift, Nat.zero_add]
  | case5 r =>
    rw [stringEnd_cons h, if_neg (by decide), if_neg (by decide), if_pos rfl, Token.StringEnd.shift,
      Nat.add_comm]
  | case6 x r hlast hpair hnewline hquote ih =>
    have hbackslash : x ≠ 0x5c := by
      intro hx
      cases r with
      | nil => exact hlast hx rfl
      | cons y r => exact hpair y r hx rfl
    rw [stringEnd_cons h, if_neg hbackslash, if_neg hnewline, if_neg hquote,
      ih (byte?_of_drop h).2.2, shift_shift]

end TraceIR.Script.Offset
