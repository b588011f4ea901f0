import TraceIR.Proofs.Delimiters

/-!
# How words are spelled

The words of a script as data. Each kind of word carries what makes it one, so every value can be
written down, and the scanners accept exactly what is written.

* `Identifier` — a letter, then letters, digits and characters outside ASCII.
* `Numeral` — a sign, then hexadecimal digits after `0x`, or decimal digits with a point and an
  exponent.
* `Quoted` — bytes between quotes, where a backslash takes the next byte with it.
* `Token.identLength_nameChars`, `Numeral.numberLength?_text` and `Quoted.stringEnd_body` — the
  scanner takes up the whole word.
* `Token.exists_nameChars`, `exists_numeral` and `exists_quoted` — what the scanner takes up is a
  word.
-/

namespace TraceIR.Script

/-! ### Names -/

/-- A character that a name can have after its first one. -/
def IsNameChar (c : Nat) : Prop :=
  if c < 0x80 then Token.isLetter (UInt8.ofNat c) = true ∨ Token.isDigit (UInt8.ofNat c) = true
  else Utf8.isScalar c = true ∧ c ≠ Utf8.replacement

/-- A name. -/
structure Identifier where
  first : UInt8
  rest : List Nat
  isLetter : Token.isLetter first = true
  isNameChar : ∀ c ∈ rest, IsNameChar c

def Identifier.text (i : Identifier) : Bytes :=
  i.first :: i.rest.flatMap Utf8.encode

namespace Token

private theorem outside_ascii : ∀ x : UInt8, 0x80 ≤ x →
    isLetter x = false ∧ isDigit x = false ∧ ¬ x < 0x80 := by
  apply Spaces.forall_byte
  decide +kernel

private theorem ascii_of_word : ∀ c : UInt8, (isLetter c || isDigit c) = true → c.toNat < 0x80 := by
  apply Spaces.forall_byte
  decide +kernel

theorem identLength_nameChars {cs : List Nat} (h : ∀ c ∈ cs, IsNameChar c) :
    identLength (cs.flatMap Utf8.encode) = ((cs.flatMap Utf8.encode).length, false) := by
  induction cs with
  | nil => rw [List.flatMap_nil, identLength, List.length_nil]
  | cons c cs ih =>
    obtain ⟨hc, hcs⟩ := List.forall_mem_cons.mp h
    rw [List.flatMap_cons]
    by_cases hascii : c < 0x80
    · -- one byte, and the scanner counts one
      rw [IsNameChar, if_pos hascii] at hc
      rw [Utf8.encode, if_pos hascii, List.singleton_append, identLength, ih hcs]
      simp only [Bool.or_eq_true, hc, if_true, List.length_cons]
    · -- the scanner counts what reading the character takes away
      rw [IsNameChar, if_neg hascii] at hc
      obtain ⟨x, tail, hx, -, hlead⟩ := Utf8.exists_encode c
      obtain ⟨hletter, hdigit, hhigh⟩ := outside_ascii x (hlead hc.1 (Nat.le_of_not_lt hascii))
      have hdecode := Utf8.decode?_encode hc.1 (cs.flatMap Utf8.encode)
      rw [hx, List.cons_append] at hdecode ⊢
      rw [identLength]
      simp only [hletter, hdigit, Bool.or_self, Bool.false_eq_true, if_false, hhigh]
      split
      · next hnone =>
        rw [hdecode] at hnone
        cases hnone
      · next code rest hsome =>
        rw [hdecode] at hsome
        cases hsome
        rw [if_neg hc.2, ih hcs]
        simp only [List.length_cons, List.length_append, Prod.mk.injEq, and_true]
        omega

/-- A character outside ASCII that a name goes on with. -/
private theorem isNameChar_of_decode? {c : UInt8} {r rest : Bytes} {code : Nat}
    (hascii : ¬ c < 0x80) (hdecode : Utf8.decode? (c :: r) = some (code, rest))
    (hcode : code ≠ Utf8.replacement) :
    IsNameChar code := by
  obtain ⟨hscalar, hencode⟩ := Utf8.eq_encode_of_decode? hdecode
  rw [IsNameChar, if_neg]
  · exact ⟨hscalar, hcode⟩
  · intro hlow
    rw [Utf8.encode, if_pos hlow, List.singleton_append, List.cons.injEq] at hencode
    rw [hencode.1, UInt8.lt_iff_toNat_lt, Utf8.toNat_leadByte (by omega)] at hascii
    exact hascii hlow

theorem exists_nameChars (b : Bytes) : (identLength b).2 = false → ∃ (cs : List Nat) (r : Bytes),
    b = cs.flatMap Utf8.encode ++ r ∧ (∀ c ∈ cs, IsNameChar c) ∧
      (identLength b).1 = (cs.flatMap Utf8.encode).length := by
  fun_induction identLength b with
  | case1 => exact fun _ => ⟨[], [], rfl, by simp, rfl⟩
  | case2 c r hword n bad hrest ih =>
    intro hbad
    rw [hrest] at ih
    obtain ⟨cs, r', rfl, hcs, hn⟩ := ih hbad
    have hascii : c.toNat < 0x80 := ascii_of_word c hword
    have hencode : Utf8.encode c.toNat = [c] := by
      rw [Utf8.encode, if_pos hascii, UInt8.ofNat_toNat]
    refine ⟨c.toNat :: cs, r', ?_, List.forall_mem_cons.mpr ⟨?_, hcs⟩, ?_⟩
    · rw [List.flatMap_cons, hencode, List.singleton_append, List.cons_append]
    · rw [IsNameChar, if_pos hascii, UInt8.ofNat_toNat]
      exact Bool.or_eq_true_iff.mp hword
    · rw [List.flatMap_cons, hencode, List.singleton_append, List.length_cons]
      exact congrArg (· + 1) hn
  | case3 c r hword hascii => exact fun _ => ⟨[], c :: r, rfl, by simp, rfl⟩
  | case4 c r hword hascii hnone => exact fun h => by cases h
  | case5 c r hword hascii rest hsome => exact fun h => by cases h
  | case6 c r hword hascii code rest hsome hcode n bad hrest ih =>
    intro hbad
    rw [hrest] at ih
    obtain ⟨cs, r', rfl, hcs, hn⟩ := ih hbad
    obtain ⟨-, hencode⟩ := Utf8.eq_encode_of_decode? hsome
    refine ⟨code :: cs, r', ?_, List.forall_mem_cons.mpr ⟨?_, hcs⟩, ?_⟩
    · rw [hencode, List.flatMap_cons, List.append_assoc]
    · exact isNameChar_of_decode? hascii hsome hcode
    · rw [hencode, List.flatMap_cons, List.length_append]
      change n = _ at hn
      simp only [List.length_append, hn]
      omega

end Token

/-! ### Numbers -/

/-- A sign, or none. -/
inductive Sign where
  | none
  | plus
  | minus

def Sign.text : Sign → Bytes
  | .none => []
  | .plus => [0x2b]
  | .minus => [0x2d]

/-- Decimal digits, or nothing. -/
structure Digits where
  text : Bytes
  isDigit : ∀ c ∈ text, Token.isDigit c = true

/-- An exponent. It may have no digits. -/
structure Exponent where
  mark : UInt8
  sign : Sign
  digits : Digits
  isMark : Token.isExponentMark mark = true

def Exponent.text (e : Exponent) : Bytes :=
  e.mark :: (e.sign.text ++ e.digits.text)

/-- The parts of a decimal number one after the other. -/
def decimalText (whole : Digits) (fraction : Option Digits) (exponent : Option Exponent) : Bytes :=
  whole.text ++ (fraction.elim [] (0x2e :: ·.text) ++ exponent.elim [] Exponent.text)

/-- A number without its sign. -/
inductive Magnitude where
  | hex (mark : UInt8) (digits : Bytes) (isMark : mark = 0x78 ∨ mark = 0x58)
    (isHexDigit : ∀ c ∈ digits, Token.isHexDigit c = true) (ne : digits ≠ [])
  /-- An exponent needs something before it, and a point alone is no number. -/
  | decimal (whole : Digits) (fraction : Option Digits) (exponent : Option Exponent)
    (begun : whole.text ≠ [] ∨ fraction ≠ none ∨ exponent = none)
    (ne : decimalText whole fraction exponent ≠ [] ∧ decimalText whole fraction exponent ≠ [0x2e])

namespace Magnitude

def text : Magnitude → Bytes
  | .hex mark digits .. => 0x30 :: mark :: digits
  | .decimal whole fraction exponent .. => decimalText whole fraction exponent

/-- Does it have a point or an exponent? -/
def isFraction : Magnitude → Bool
  | .hex .. => false
  | .decimal _ fraction exponent .. => fraction.isSome || exponent.isSome

end Magnitude

/-- A number. -/
structure Numeral where
  sign : Sign
  magnitude : Magnitude

def Numeral.text (n : Numeral) : Bytes :=
  n.sign.text ++ n.magnitude.text

def Numeral.isFraction (n : Numeral) : Bool :=
  n.magnitude.isFraction

namespace Token

private theorem decimalLength_digits (point exponent begun : Bool) {ds : Bytes}
    (h : ∀ c ∈ ds, isDigit c = true) (r : Bytes) :
    decimalLength point exponent begun (ds ++ r) =
      (ds.length + (decimalLength point exponent (begun || !ds.isEmpty) r).1,
        (decimalLength point exponent (begun || !ds.isEmpty) r).2) := by
  induction ds generalizing begun with
  | nil => simp
  | cons c ds ih =>
    obtain ⟨hc, hds⟩ := List.forall_mem_cons.mp h
    rw [List.cons_append, decimalLength_digit hc, ih true hds]
    simp only [Bool.true_or, List.isEmpty_cons, Bool.not_false, Bool.or_true, List.length_cons,
      Prod.mk.injEq, and_true]
    omega

/-- After the mark of an exponent there are only digits. -/
private theorem decimalLength_after_mark (point : Bool) (ds : Digits) {r : Bytes}
    (h : ∀ c ∈ r.head?, isDigit c = false) :
    decimalLength point true true (ds.text ++ r) = (ds.text.length, true) := by
  have hstop : decimalLength point true true r = (0, true) := by
    cases r with
    | nil => simp [decimalLength]
    | cons c r =>
      rw [decimalLength_stop (h c rfl) (fun _ => .inr rfl) fun _ => .inl rfl, Bool.or_true]
  rw [decimalLength_digits _ _ _ ds.isDigit, Bool.true_or, hstop, Nat.add_zero]

private theorem foreign_of_isSign : ∀ c : UInt8, isSign c = true →
    isDigit c = false ∧ c ≠ 0x2e ∧ isExponentMark c = false := by
  apply Spaces.forall_byte
  decide +kernel

private theorem isSign_of_isDigit : ∀ c : UInt8, isDigit c = true → isSign c = false := by
  apply Spaces.forall_byte
  decide +kernel

/-- An exponent is taken up as a whole. -/
private theorem decimalLength_exponent_text (point : Bool) (e : Exponent) {r : Bytes}
    (h : ∀ c ∈ r.head?, isDigit c = false)
    (hsign : e.sign = .none → ∀ c ∈ (e.digits.text ++ r).head?, isSign c = false) :
    decimalLength point false true (e.text ++ r) = (e.text.length, true) := by
  obtain ⟨mark, sign, digits, hmark⟩ := e
  have hrest := decimalLength_after_mark point digits h
  cases sign with
  | none =>
    show decimalLength point false true (mark :: (digits.text ++ r)) = _
    rw [decimalLength_exponent hmark (hsign rfl), hrest]
    rfl
  | plus =>
    show decimalLength point false true (mark :: 0x2b :: (digits.text ++ r)) = _
    rw [decimalLength_exponent_sign hmark rfl, hrest]
    rfl
  | minus =>
    show decimalLength point false true (mark :: 0x2d :: (digits.text ++ r)) = _
    rw [decimalLength_exponent_sign hmark rfl, hrest]
    rfl

/-- An exponent or nothing, after a number has begun. -/
private theorem decimalLength_exponent_or_end (point : Bool) (e : Option Exponent) :
    decimalLength point false true (e.elim [] Exponent.text) =
      ((e.elim [] Exponent.text).length, point || e.isSome) := by
  cases e with
  | none => simp [decimalLength]
  | some e =>
    have htext := decimalLength_exponent_text point e (r := []) (by simp) fun _ c hc => by
      rw [List.append_nil] at hc
      exact isSign_of_isDigit c (e.digits.isDigit c (List.mem_of_mem_head? hc))
    rw [List.append_nil] at htext
    simp [htext]

private theorem decimalLength_decimal {whole : Digits} {fraction : Option Digits}
    {exponent : Option Exponent} (h : whole.text ≠ [] ∨ fraction ≠ none ∨ exponent = none) :
    decimalLength false false false (decimalText whole fraction exponent) =
      ((decimalText whole fraction exponent).length, fraction.isSome || exponent.isSome) := by
  rw [decimalText, decimalLength_digits _ _ _ whole.isDigit]
  cases fraction with
  | none =>
    rw [Option.elim_none, List.nil_append]
    cases exponent with
    | none => simp [decimalLength]
    | some e =>
      -- an exponent needs something before it
      have hwhole : whole.text ≠ [] := by simpa using h
      have hbegun : (false || !whole.text.isEmpty) = true := by simp [hwhole]
      rw [hbegun, decimalLength_exponent_or_end]
      simp
  | some f =>
    rw [Option.elim_some, List.cons_append, decimalLength_point,
      decimalLength_digits _ _ _ f.isDigit, Bool.true_or, decimalLength_exponent_or_end]
    simp

/-- Digits in front, up to something else. -/
private theorem exists_digits (b : Bytes) :
    ∃ (ds : Digits) (r : Bytes), b = ds.text ++ r ∧ ∀ c ∈ r.head?, isDigit c = false := by
  refine ⟨⟨b.takeWhile isDigit, fun c hc => List.all_eq_true.mp List.all_takeWhile c hc⟩,
    b.dropWhile isDigit, List.takeWhile_append_dropWhile.symm, fun c hc => ?_⟩
  have hhead := List.head?_dropWhile_not isDigit b
  rw [hc] at hhead
  exact hhead

/-- A sign in front, or none. -/
private theorem exists_sign (b : Bytes) : ∃ (sign : Sign) (r : Bytes), b = sign.text ++ r ∧
    signLength b = sign.text.length ∧ (sign = .none → ∀ c ∈ r.head?, isSign c = false) := by
  cases b with
  | nil => exact ⟨.none, [], rfl, rfl, by simp⟩
  | cons c r =>
    by_cases hc : isSign c = true
    · rw [signLength, if_pos hc]
      rcases Bool.or_eq_true_iff.mp hc with hminus | hplus
      · exact ⟨.minus, r, by rw [eq_of_beq hminus]; rfl, rfl, fun h => by cases h⟩
      · exact ⟨.plus, r, by rw [eq_of_beq hplus]; rfl, rfl, fun h => by cases h⟩
    · rw [signLength, if_neg hc]
      refine ⟨.none, c :: r, rfl, rfl, fun _ x hx => ?_⟩
      cases hx
      exact Bool.eq_false_iff.mpr hc

/-- What a number goes on with where no digit and no first point stands. -/
private theorem exists_exponent_or_end (point : Bool) {b : Bytes}
    (hdigit : ∀ c ∈ b.head?, isDigit c = false) (hpoint : ∀ c ∈ b.head?, c = 0x2e → point = true) :
    ∃ (e : Option Exponent) (r : Bytes), b = e.elim [] Exponent.text ++ r ∧
      decimalLength point false true b = ((e.elim [] Exponent.text).length, point || e.isSome) := by
  cases b with
  | nil => exact ⟨none, [], rfl, by simp [decimalLength]⟩
  | cons c b =>
    by_cases hmark : isExponentMark c = true
    · obtain ⟨sign, b', rfl, -, hsign⟩ := exists_sign b
      obtain ⟨ds, r, rfl, hr⟩ := exists_digits b'
      have htext := decimalLength_exponent_text point ⟨c, sign, ds, hmark⟩ hr hsign
      have hsplit : c :: (sign.text ++ (ds.text ++ r)) =
          Exponent.text ⟨c, sign, ds, hmark⟩ ++ r := by simp [Exponent.text]
      exact ⟨some ⟨c, sign, ds, hmark⟩, r, hsplit, by simp [hsplit, htext]⟩
    · refine ⟨none, c :: b, rfl, ?_⟩
      rw [decimalLength_stop (hdigit c rfl) (fun hc => .inl (hpoint c rfl hc))
        fun hc => absurd hc hmark]
      simp

/-- **What a scan for decimals** takes up is a whole part, a fraction and an exponent. -/
theorem exists_decimal (b : Bytes) :
    ∃ (whole : Digits) (fraction : Option Digits) (exponent : Option Exponent) (r : Bytes),
      b = decimalText whole fraction exponent ++ r ∧
      decimalLength false false false b =
        ((decimalText whole fraction exponent).length, fraction.isSome || exponent.isSome) ∧
      (whole.text ≠ [] ∨ fraction ≠ none ∨ exponent = none) := by
  obtain ⟨whole, r, rfl, hr⟩ := exists_digits b
  rw [decimalLength_digits _ _ _ whole.isDigit, Bool.false_or]
  by_cases hpoint : r.head? = some 0x2e
  · -- the point begins the number, so an exponent may follow even without digits
    obtain ⟨r₁, rfl⟩ := List.head?_eq_some_iff.mp hpoint
    obtain ⟨f, r₂, rfl, hf⟩ := exists_digits r₁
    obtain ⟨e, r₃, rfl, he⟩ := exists_exponent_or_end true hf fun _ _ _ => rfl
    refine ⟨whole, some f, e, r₃, by simp [decimalText], ?_, .inr (.inl (by simp))⟩
    rw [decimalLength_point, decimalLength_digits _ _ _ f.isDigit, Bool.true_or, he]
    simp only [decimalText, Option.elim_some, List.length_append, List.length_cons,
      Option.isSome_some, Prod.mk.injEq, and_true]
    omega
  · by_cases hwhole : whole.text = []
    · -- neither a point nor an exponent can begin a number
      refine ⟨whole, none, none, r, by simp [decimalText], ?_, .inr (.inr rfl)⟩
      have hstop : decimalLength false false (!whole.text.isEmpty) r = (0, false) := by
        rw [hwhole]
        cases r with
        | nil => rfl
        | cons c r =>
          exact decimalLength_stop (hr c rfl) (fun hc => absurd (by rw [hc]; rfl) hpoint)
            fun _ => .inr rfl
      rw [hstop]
      simp [decimalText]
    · have hbegun : (!whole.text.isEmpty) = true := by simp [hwhole]
      obtain ⟨e, r', rfl, he⟩ := exists_exponent_or_end false hr fun c hc hdot => by
        rw [hdot] at hc
        exact absurd hc hpoint
      refine ⟨whole, none, e, r', by simp [decimalText], ?_, .inl hwhole⟩
      rw [hbegun, he]
      simp [decimalText]

end Token

open Token

/-- A decimal number begins with no sign and with no hexadecimal mark: the scanner takes up all of
it. -/
private theorem decimal_front {b : Bytes} {fraction : Bool} (hne : b ≠ [])
    (h : decimalLength false false false b = (b.length, fraction)) :
    (∀ c ∈ b.head?, isSign c = false) ∧ hexMark b = false := by
  refine ⟨fun c hc => ?_, Bool.eq_false_iff.mpr fun hmark => ?_⟩
  · obtain ⟨r, rfl⟩ := List.head?_eq_some_iff.mp hc
    refine Bool.eq_false_iff.mpr fun hsign => ?_
    obtain ⟨hdigit, hpoint, hexp⟩ := foreign_of_isSign c hsign
    rw [decimalLength_stop hdigit (fun hc => absurd hc hpoint) fun hc => by
      rw [hexp] at hc
      cases hc] at h
    cases h
  · obtain ⟨x, r, rfl, hx⟩ := hexMark_eq_true_iff.mp hmark
    -- after the zero the scan would stop at the letter, and not at the end
    rw [decimalLength_digit rfl, decimalLength_stop] at h
    · cases h
    · rcases hx with rfl | rfl <;> rfl
    · rcases hx with rfl | rfl <;> exact fun hc => absurd hc (by decide)
    · rcases hx with rfl | rfl <;> exact fun hc => absurd hc (by decide)

/-- What the scanner refuses after it has counted digits. -/
private theorem tooShort_iff {w r : Bytes} :
    (decide (w.length = 0) || decide (w.length = 1) && (w ++ r).head? == some 0x2e) = true ↔
      w = [] ∨ w = [0x2e] := by
  rcases w with _ | ⟨c, _ | ⟨d, w⟩⟩ <;> simp

private theorem signLength_text (sign : Sign) {r : Bytes} (h : ∀ c ∈ r.head?, isSign c = false) :
    signLength (sign.text ++ r) = sign.text.length := by
  cases sign with
  | none =>
    cases r with
    | nil => rfl
    | cons c r => simp [Sign.text, signLength, h c rfl]
  | plus => rfl
  | minus => rfl

/-- **A number** is taken up as a whole. -/
theorem Numeral.numberLength?_text (n : Numeral) :
    numberLength? n.text = some (n.text.length, n.isFraction) := by
  obtain ⟨sign, m⟩ := n
  cases m with
  | hex mark digits hmark hdigits hne =>
    have hsign := signLength_text sign (r := 0x30 :: mark :: digits) (by simp [isSign])
    have hhex : hexMark (0x30 :: mark :: digits) = true :=
      hexMark_eq_true_iff.mpr ⟨mark, digits, rfl, hmark⟩
    have hall : digits.takeWhile isHexDigit = digits := by
      rw [← List.append_nil digits, List.takeWhile_append_of_pos hdigits]
      rfl
    simp only [Numeral.text, Magnitude.text, numberLength?, hsign, List.drop_left, hhex, if_true,
      List.drop_succ_cons, List.drop_zero, hall, List.length_eq_zero_iff, hne, if_false,
      List.length_append, List.length_cons, Numeral.isFraction, Magnitude.isFraction]
    simp only [Option.some.injEq, Prod.mk.injEq, and_true]
    omega
  | decimal whole fraction exponent hbegun hne =>
    have hlength := decimalLength_decimal hbegun
    obtain ⟨hfront, hmark⟩ := decimal_front hne.1 hlength
    simp only [Numeral.text, Magnitude.text, numberLength?, signLength_text sign hfront,
      List.drop_left, hmark, Bool.false_eq_true, if_false, hlength]
    have hcheck := mt (tooShort_iff (r := [])).mp (not_or.mpr hne)
    rw [List.append_nil] at hcheck
    rw [if_neg hcheck, List.length_append]
    rfl

/-- **What a scan for numbers** takes up is a number. -/
theorem exists_numeral {b : Bytes} {k : Nat} {fraction : Bool}
    (h : numberLength? b = some (k, fraction)) :
    ∃ (n : Numeral) (r : Bytes), b = n.text ++ r ∧ k = n.text.length ∧ n.isFraction = fraction := by
  obtain ⟨sign, r, rfl, hsign, -⟩ := exists_sign b
  simp only [numberLength?, hsign, List.drop_left] at h
  split at h
  · next hmark =>
    obtain ⟨x, r, rfl, hx⟩ := hexMark_eq_true_iff.mp hmark
    split at h
    · cases h
    · next hne =>
      cases h
      have hne : r.takeWhile isHexDigit ≠ [] := by simpa using hne
      refine ⟨⟨sign, .hex x (r.takeWhile isHexDigit) hx
        (fun c hc => List.all_eq_true.mp List.all_takeWhile c hc) hne⟩, r.dropWhile isHexDigit, ?_, ?_,
        rfl⟩
      · simp [Numeral.text, Magnitude.text]
      · simp only [Numeral.text, Magnitude.text, List.length_append, List.length_cons,
          List.drop_succ_cons, List.drop_zero]
        omega
  · obtain ⟨whole, f, e, r, rfl, hlength, hbegun⟩ := exists_decimal r
    rw [hlength] at h
    split at h
    · cases h
    · next hne =>
      cases h
      have hne := not_or.mp (mt tooShort_iff.mpr hne)
      refine ⟨⟨sign, .decimal whole f e hbegun hne⟩, r, ?_, ?_, rfl⟩
      · rw [Numeral.text, List.append_assoc]
        rfl
      · rw [Numeral.text, List.length_append]
        rfl

/-! ### Strings -/

/-- A part of a string. -/
inductive QuotedPart where
  | plain (c : UInt8) (isPlain : c ≠ 0x22 ∧ c ≠ 0x5c ∧ c ≠ 0x0a)
  | escaped (c : UInt8)

def QuotedPart.text : QuotedPart → Bytes
  | .plain c _ => [c]
  | .escaped c => [0x5c, c]

/-- A string with its quotes. -/
structure Quoted where
  parts : List QuotedPart

/-- What follows the opening quote. -/
def Quoted.body (q : Quoted) : Bytes :=
  q.parts.flatMap QuotedPart.text ++ [0x22]

def Quoted.text (q : Quoted) : Bytes :=
  0x22 :: q.body

/-- **A string** is taken up as a whole. -/
theorem Quoted.stringEnd_body (q : Quoted) : stringEnd q.body = .closed q.body.length := by
  obtain ⟨ps⟩ := q
  rw [body]
  induction ps with
  | nil => rfl
  | cons p ps ih =>
    cases p with
    | plain c hc =>
      rw [List.flatMap_cons, QuotedPart.text, List.append_assoc, List.singleton_append,
        stringEnd_plain hc.2.1 hc.2.2 hc.1, ih, StringEnd.shift, List.length_cons]
    | escaped c =>
      rw [List.flatMap_cons, QuotedPart.text, List.append_assoc, List.cons_append, List.cons_append,
        List.nil_append, stringEnd, ih, StringEnd.shift]
      rfl

/-- **What a scan for strings** takes up is a string. -/
theorem exists_quoted (b : Bytes) : ∀ {n}, stringEnd b = .closed n →
    ∃ (q : Quoted) (r : Bytes), b = q.body ++ r ∧ n = q.body.length := by
  fun_induction stringEnd b with
  | case1 => exact fun h => by cases h
  | case2 => exact fun h => by cases h
  | case3 x b ih =>
    intro n h
    obtain ⟨m, hm, rfl⟩ := StringEnd.shift_eq_closed_iff.mp h
    obtain ⟨⟨ps⟩, r, rfl, rfl⟩ := ih hm
    exact ⟨⟨.escaped x :: ps⟩, r, rfl, by simp [Quoted.body, QuotedPart.text]⟩
  | case4 b => exact fun h => by cases h
  | case5 b =>
    intro n h
    cases h
    exact ⟨⟨[]⟩, b, rfl, rfl⟩
  | case6 x b hlast hpair hbreak hquote ih =>
    intro n h
    obtain ⟨m, hm, rfl⟩ := StringEnd.shift_eq_closed_iff.mp h
    have hslash := ne_backslash hlast hpair
    obtain ⟨⟨ps⟩, r, rfl, rfl⟩ := ih hm
    exact ⟨⟨.plain x ⟨hquote, hslash, hbreak⟩ :: ps⟩, r, rfl,
      by simp [Quoted.body, QuotedPart.text]⟩

/-! ### Classes of words -/

def IsIdentifier (b : Bytes) : Prop :=
  ∃ i : Identifier, i.text = b

/-- A number, with a point or an exponent or without. -/
def IsNumeral (fraction : Bool) (b : Bytes) : Prop :=
  ∃ n : Numeral, n.text = b ∧ n.isFraction = fraction

def IsQuoted (b : Bytes) : Prop :=
  ∃ q : Quoted, q.text = b

namespace Token

variable {c next : Cursor} {r : Bytes}

/-- **A name** is read up to what ends it. -/
theorem ident_text (i : Identifier) (pos : Nat) (h : EndsName r) :
    ident ⟨pos, i.text ++ r⟩ = .done ⟨pos, i.text⟩ ⟨pos + i.text.length, r⟩ := by
  have hlength : identLength (i.rest.flatMap Utf8.encode ++ r) =
      ((i.rest.flatMap Utf8.encode).length, false) := by
    rw [identLength_append h, identLength_nameChars i.isNameChar]
  rw [ident]
  simp only [Identifier.text, List.cons_append, i.isLetter, if_true, hlength, take, Cursor.advance,
    List.take_succ_cons, List.drop_succ_cons, List.take_left, List.drop_left, List.length_cons]

theorem isIdentifier_of_ident {l : Lexeme} (h : ident c = .done l next) :
    IsIdentifier l.text := by
  rw [ident] at h
  split at h
  · next x r hrest =>
    split at h
    · next hletter =>
      split at h
      · next n hn =>
        cases h
        obtain ⟨cs, r', rfl, hcs, hlength⟩ := exists_nameChars r (by rw [hn])
        rw [hn] at hlength
        refine ⟨⟨x, cs, hletter, hcs⟩, ?_⟩
        rw [take, hrest, show n = _ from hlength, List.take_succ_cons, List.take_left]
        rfl
      · cases h
    · cases h
  · cases h

/-- **A number** is read up to what ends it. -/
theorem number_text (n : Numeral) (pos : Nat) (h : EndsWord r) :
    number ⟨pos, n.text ++ r⟩ = .done
      (if n.isFraction then .float ⟨pos, n.text⟩ else .int ⟨pos, n.text⟩)
      ⟨pos + n.text.length, r⟩ := by
  rw [number]
  simp only [numberLength?_append h, n.numberLength?_text, take, Cursor.advance, List.take_left,
    List.drop_left]

theorem integer_text (n : Numeral) (hn : n.isFraction = false) (pos : Nat) (h : EndsWord r) :
    integer ⟨pos, n.text ++ r⟩ = .done ⟨pos, n.text⟩ ⟨pos + n.text.length, r⟩ := by
  rw [integer]
  simp only [numberLength?_append h, n.numberLength?_text, hn, take, Cursor.advance, List.take_left,
    List.drop_left]

theorem isNumeral_take {n : Nat} {fraction : Bool}
    (h : numberLength? c.rest = some (n, fraction)) : IsNumeral fraction (take c n).text := by
  obtain ⟨m, r, hr, rfl, hfraction⟩ := exists_numeral h
  refine ⟨m, ?_, hfraction⟩
  rw [take, hr, List.take_left]

/-- **A string** is read up to its closing quote. -/
theorem string_text (q : Quoted) (pos : Nat) (r : Bytes) :
    string ⟨pos, q.text ++ r⟩ = .done (.string ⟨pos, q.text⟩) ⟨pos + q.text.length, r⟩ := by
  have hend := stringEnd_append q.stringEnd_body r
  rw [string]
  simp only [Quoted.text, List.cons_append, hend, take, Cursor.advance, List.take_succ_cons,
    List.drop_succ_cons, List.take_left, List.drop_left, List.length_cons]

theorem isQuoted_of_stringEnd {n : Nat} (h : stringEnd r = .closed n) :
    IsQuoted (0x22 :: r.take n) := by
  obtain ⟨q, r', rfl, rfl⟩ := exists_quoted r h
  exact ⟨q, by rw [List.take_left]; rfl⟩

end Token

end TraceIR.Script
