import TraceIR.Proofs.Shortest

/-!
# A printed number reads back

* `Numeral.decimal_parts` — how a decimal fraction is read that is put together from its parts.
* `Binary64.HasParts` — the parts of a layout, which have the value of the digits. `LaidOut` says that
  there are such parts, and there is one law for each notation.
* `Binary64.decimal_text` — the text of a finite number is read as that number. So two numbers that
  are printed alike are the same (`Binary64.text_injective`).
-/

namespace TraceIR

/-! ### Reading parts -/

namespace Numeral

variable {whole part exponent : Bytes}

/-- What stands between the digits before and behind the point. -/
def fraction (part : Bytes) : Bytes :=
  if part.isEmpty then [] else 0x2e :: part

/-- The sign of a number that is not positive. -/
def minus (negative : Bool) : Bytes :=
  if negative then [0x2d] else []

private theorem digit_ne {c : UInt8} (h : isDigit c = true) : c ≠ 0x2d ∧ c ≠ 0x2b := by
  constructor
  · rintro rfl
    cases h
  · rintro rfl
    cases h

private theorem splitSign_minus (negative : Bool) (hne : whole ≠ [])
    (hwhole : ∀ c ∈ whole, isDigit c = true) (r : Bytes) :
    splitSign (minus negative ++ (whole ++ r)) = (negative, whole ++ r) := by
  cases negative with
  | true => rfl
  | false =>
    obtain ⟨c, whole, rfl⟩ := List.exists_cons_of_ne_nil hne
    obtain ⟨hminus, hplus⟩ := digit_ne (hwhole c List.mem_cons_self)
    show splitSign (c :: (whole ++ r)) = (false, c :: (whole ++ r))
    unfold splitSign
    split
    · next heq => exact absurd (List.cons.inj heq).1 hminus
    · next heq => exact absurd (List.cons.inj heq).1 hplus
    · rfl

private theorem span_digits {ds r : Bytes} (hds : ∀ c ∈ ds, isDigit c = true)
    (hr : ∀ c ∈ r.head?, isDigit c = false) : (ds ++ r).span isDigit = (ds, r) := by
  have hstop : r.takeWhile isDigit = [] ∧ r.dropWhile isDigit = r := by
    cases r with
    | nil => exact ⟨rfl, rfl⟩
    | cons c r =>
      have hc := hr c rfl
      rw [List.takeWhile_cons, List.dropWhile_cons, hc]
      exact ⟨rfl, rfl⟩
  rw [List.span_eq_takeWhile_dropWhile, List.takeWhile_append_of_pos hds,
    List.dropWhile_append_of_pos hds, hstop.1, hstop.2, List.append_nil]

/-- The digits behind a point, if one comes first, and the text after them. -/
def splitPoint (b : Bytes) : Bytes × Bytes :=
  match b with
  | 0x2e :: r => r.span isDigit
  | _ => ([], b)

/-- The value of the parts of a decimal fraction. -/
def ofParts (negative : Bool) (whole part exponent : Bytes) : Except NumeralError Binary64 :=
  match exponent? exponent with
  | none => .error .malformed
  | some e =>
    if (whole ++ part).isEmpty then .error .malformed
    else
      let m := scaledMagnitude (digitsValue (whole ++ part)) (e - part.length)
      if Binary64.infinite ≤ m then .error .outOfRange else .ok (.ofMagnitude negative m)

/-- A decimal fraction is read part by part. -/
private theorem decimal_eq (b : Bytes) :
    decimal b =
      let s := splitSign b
      let w := s.2.span isDigit
      let p := splitPoint w.2
      ofParts s.1 w.1 p.1 p.2 :=
  rfl

private theorem splitPoint_fraction (hpart : ∀ c ∈ part, isDigit c = true)
    (hhead : ∀ c ∈ exponent.head?, isDigit c = false ∧ c ≠ 0x2e) :
    splitPoint (fraction part ++ exponent) = (part, exponent) := by
  cases part with
  | nil =>
    cases exponent with
    | nil => rfl
    | cons c exponent =>
      have hpoint := (hhead c rfl).2
      show splitPoint (c :: exponent) = ([], c :: exponent)
      unfold splitPoint
      split
      · next heq => exact absurd (List.cons.inj heq).1 hpoint
      · rfl
  | cons c part => exact span_digits hpart fun c hc => (hhead c hc).1

/-- **Reading a decimal fraction** that is put together from its parts. -/
theorem decimal_parts {negative : Bool} {e : Int} (hne : whole ≠ [])
    (hwhole : ∀ c ∈ whole, isDigit c = true) (hpart : ∀ c ∈ part, isDigit c = true)
    (hexponent : exponent? exponent = some e)
    (hhead : ∀ c ∈ exponent.head?, isDigit c = false ∧ c ≠ 0x2e) {m : Nat}
    (hm : scaledMagnitude (digitsValue (whole ++ part)) (e - part.length) = m)
    (hfinite : m < Binary64.infinite) :
    decimal (minus negative ++ (whole ++ (fraction part ++ exponent))) =
      .ok (.ofMagnitude negative m) := by
  have hstop : ∀ c ∈ (fraction part ++ exponent).head?, isDigit c = false := by
    intro c hc
    cases part with
    | nil => exact (hhead c hc).1
    | cons d part =>
      cases hc
      rfl
  have hsome : (whole ++ part).isEmpty = false := by
    cases whole with
    | nil => exact absurd rfl hne
    | cons c whole => rfl
  rw [decimal_eq, splitSign_minus negative hne hwhole]
  dsimp only
  rw [span_digits hwhole hstop]
  dsimp only
  rw [splitPoint_fraction hpart hhead, ofParts, hexponent]
  dsimp only
  rw [hsome, if_neg (by decide), hm, if_neg (Nat.not_le_of_lt hfinite)]

/-! ### Exponents -/

/-- An exponent that is not too long has its value. -/
private theorem exponentValue_eq (b : Bytes) (h : digitsValue b < 100000) :
    exponentValue b = digitsValue b := by
  induction b using List.reverseRecOn with
  | nil => rfl
  | append_singleton b c ih =>
    have hvalue : digitsValue (b ++ [c]) = digitsValue b * 10 + (c.toNat - 0x30) := by
      unfold digitsValue
      rw [List.foldl_append]
      rfl
    rw [hvalue] at h ⊢
    have hfront := ih (by omega)
    unfold exponentValue at hfront ⊢
    rw [List.foldl_append, hfront]
    show (if digitsValue b < 10000 then digitsValue b * 10 + (c.toNat - 0x30) else digitsValue b) = _
    rw [if_pos (by omega)]

/-- A written exponent reads back. -/
private theorem exponent?_text {e : Int} (hlow : -100000 < e) (hhigh : e < 100000) (w : Nat) :
    exponent? (Bytes.ascii (if e < 0 then "e-" else "e+") ++
      Bytes.padLeft 0x30 w (Bytes.decimal e.natAbs)) = some e := by
  obtain ⟨ds, hds⟩ : ∃ ds, ds = Bytes.padLeft 0x30 w (Bytes.decimal e.natAbs) := ⟨_, rfl⟩
  have hvalue : digitsValue ds = e.natAbs := by
    rw [hds, digitsValue_padLeft, digitsValue_decimal]
  have hread : exponentValue ds = e.natAbs := by
    rw [exponentValue_eq ds (by omega), hvalue]
  have hdigits : ds.all isDigit = true := by
    rw [List.all_eq_true, hds]
    exact Bytes.isDigit_padLeft_decimal w e.natAbs
  have hsome : ds.isEmpty = false := by
    rw [hds, List.isEmpty_eq_false_iff]
    exact List.append_ne_nil_of_right_ne_nil _ (Bytes.decimal_ne_nil e.natAbs)
  rw [← hds]
  split
  · next hneg =>
    show (if ((0x65 : UInt8) == 0x65 || (0x65 : UInt8) == 0x45) && !ds.isEmpty && ds.all isDigit then
      some (-(exponentValue ds : Int)) else none) = some e
    rw [hsome, hdigits, hread, if_pos (by decide)]
    congr 1
    omega
  · next hpos =>
    show (if ((0x65 : UInt8) == 0x65 || (0x65 : UInt8) == 0x45) && !ds.isEmpty && ds.all isDigit then
      some (exponentValue ds : Int) else none) = some e
    rw [hsome, hdigits, hread, if_pos (by decide)]
    congr 1
    omega

end Numeral

/-! ### Layouts -/

namespace Binary64

open Numeral

variable {ds text : Bytes} {m : Nat} {e : Int}

/-- The text consists of the given parts of a decimal fraction, and the fraction has the value of the
digits `ds` with the first one at the power `e` of ten. -/
structure HasParts (text whole part exponent : Bytes) (f : Int) (ds : Bytes) (e : Int) : Prop where
  text_eq : text = whole ++ (fraction part ++ exponent)
  whole_ne_nil : whole ≠ []
  whole_digits : ∀ c ∈ whole, isDigit c = true
  part_digits : ∀ c ∈ part, isDigit c = true
  exponent_eq : exponent? exponent = some f
  exponent_head : ∀ c ∈ exponent.head?, isDigit c = false ∧ c ≠ 0x2e
  exponent_word : exponent.IsWord
  value : (digitsValue (whole ++ part) : ℚ) * 10 ^ (f - (part.length : Int)) =
    digitsValue ds * 10 ^ (e + 1 - (ds.length : Int))

/-- The text is a decimal fraction with the value of the digits. -/
def LaidOut (text ds : Bytes) (e : Int) : Prop :=
  ∃ whole part exponent f, HasParts text whole part exponent f ds e

/-- Digits with a point have their value, whether there are enough of them or zeros are added. -/
private theorem digitsValue_pointed (ds : Bytes) (j : Nat) :
    (digitsValue (ds.take j ++ List.replicate (j - ds.length) 0x30 ++ ds.drop j) : ℚ) *
        10 ^ (-((ds.drop j).length : Int)) =
      digitsValue ds * 10 ^ ((j : Int) - ds.length) := by
  rcases Nat.le_total j ds.length with hle | hle
  · have hzero : j - ds.length = 0 := by omega
    have hexp : -((ds.drop j).length : Int) = (j : Int) - ds.length := by
      rw [List.length_drop]
      omega
    rw [hzero, List.replicate_zero, List.append_nil, List.take_append_drop, hexp]
  · have hexp : (j : Int) - ds.length = ((j - ds.length : ℕ) : Int) := by omega
    rw [List.take_of_length_le hle, List.drop_of_length_le hle, List.append_nil, digitsValue_append,
      digitsValue_replicate_zero, List.length_replicate, hexp, zpow_natCast]
    push_cast
    simp

private theorem isDigit_pointed (hds : ∀ c ∈ ds, isDigit c = true) (j : Nat) :
    (∀ c ∈ ds.take j ++ List.replicate (j - ds.length) 0x30, isDigit c = true) ∧
      ∀ c ∈ ds.drop j, isDigit c = true := by
  refine ⟨fun c hc => ?_, fun c hc => hds c (List.mem_of_mem_drop hc)⟩
  rcases List.mem_append.mp hc with hc | hc
  · exact hds c (List.mem_of_mem_take hc)
  · rw [List.eq_of_mem_replicate hc]
    rfl

private theorem laidOut_pointed {exponent : Bytes} {j : Nat} {f : Int} (hne : ds ≠ [])
    (hds : ∀ c ∈ ds, isDigit c = true) (hj : 0 < j) (hexponent : exponent? exponent = some f)
    (hhead : ∀ c ∈ exponent.head?, isDigit c = false ∧ c ≠ 0x2e) (hword : exponent.IsWord)
    (he : e + 1 = f + j) : LaidOut (pointed ds j ++ exponent) ds e := by
  obtain ⟨hwhole, hpart⟩ := isDigit_pointed hds j
  refine ⟨_, ds.drop j, exponent, f, ?_, ?_, hwhole, hpart, hexponent, hhead, hword, ?_⟩
  · unfold pointed fraction
    dsimp only
    rw [List.append_assoc (_ ++ _)]
  · obtain ⟨c, ds, rfl⟩ := List.exists_cons_of_ne_nil hne
    obtain ⟨j, rfl⟩ := Nat.exists_eq_succ_of_ne_zero hj.ne'
    exact List.cons_ne_nil _ _
  · have hvalue := digitsValue_pointed ds j
    have hleft : f - ((ds.drop j).length : Int) = -((ds.drop j).length : Int) + f := by ring
    have hright : e + 1 - (ds.length : Int) = (j : Int) - ds.length + f := by omega
    rw [hleft, hright, zpow_add₀ (by norm_num), zpow_add₀ (by norm_num), ← mul_assoc, ← mul_assoc,
      hvalue]

private theorem laidOut_plainText (hne : ds ≠ []) (hds : ∀ c ∈ ds, isDigit c = true) :
    LaidOut (plainText ds e) ds e := by
  unfold plainText
  split
  · next hneg =>
    -- zeros between the point and the first digit
    refine ⟨[0x30], List.replicate (-e - 1).toNat 0x30 ++ ds, [], 0, ?_, List.cons_ne_nil _ _,
      ?_, ?_, rfl, ?_, by decide, ?_⟩
    · obtain ⟨c, ds, rfl⟩ := List.exists_cons_of_ne_nil hne
      unfold fraction
      rw [if_neg (by simp), List.append_nil, List.append_assoc]
      rfl
    · intro c hc
      rw [List.mem_singleton.mp hc]
      rfl
    · intro c hc
      rcases List.mem_append.mp hc with hc | hc
      · rw [List.eq_of_mem_replicate hc]
        rfl
      · exact hds c hc
    · rintro c ⟨⟩
    · have hexp : 0 - ((List.replicate (-e - 1).toNat (0x30 : UInt8) ++ ds).length : Int) =
          e + 1 - ds.length := by
        rw [List.length_append, List.length_replicate]
        push_cast
        omega
      have hvalue : digitsValue ([0x30] ++ (List.replicate (-e - 1).toNat 0x30 ++ ds)) =
          digitsValue ds := by
        rw [← List.append_assoc, digitsValue_append]
        have hzeros : digitsValue ([0x30] ++ List.replicate (-e - 1).toNat 0x30) = 0 :=
          digitsValue_replicate_zero ((-e - 1).toNat + 1)
        rw [hzeros, Nat.zero_mul, Nat.zero_add]
      rw [hexp, hvalue]
  · next hpos =>
    have hpower : exponent? [] = some 0 := rfl
    have h : LaidOut (pointed ds (e.toNat + 1) ++ []) ds e :=
      laidOut_pointed hne hds (Nat.succ_pos _) hpower (by rintro c ⟨⟩) (by decide)
        (by push_cast; omega)
    rwa [List.append_nil] at h

private theorem laidOut_scaledText (l : Layout) (hne : ds ≠ []) (hds : ∀ c ∈ ds, isDigit c = true)
    (hlow : -100000 < e) (hhigh : e < 100000) : LaidOut (scaledText l ds e) ds e := by
  unfold scaledText
  rw [List.append_assoc]
  refine laidOut_pointed hne hds Nat.one_pos (exponent?_text hlow hhigh _) ?_ ?_ (by push_cast; rfl)
  · intro c hc
    split at hc
    · cases hc
      decide
    · cases hc
      decide
  · have hmark : (Bytes.ascii (if e < 0 then "e-" else "e+")).IsWord := by
      split
      · decide
      · decide
    exact hmark.append (Bytes.isWord_of_isDigit (Bytes.isDigit_padLeft_decimal _ _))

/-! ### The digits of a decimal -/

/-- The digits that are left when the zeros at the end are cut off have the same value. -/
private theorem exists_cut (x : Decimal) (hx : 0 < x.coefficient) :
    ∃ z, Bytes.decimal x.coefficient = x.scientific.1 ++ List.replicate z 0x30 ∧
      x.scientific.1 ≠ [] := by
  obtain ⟨zeros, hzeros⟩ : ∃ zeros,
      zeros = (Bytes.decimal x.coefficient).reverse.takeWhile (· == 0x30) := ⟨_, rfl⟩
  have hall : zeros = List.replicate zeros.length 0x30 := by
    rw [List.eq_replicate_iff]
    refine ⟨rfl, fun c hc => ?_⟩
    rw [hzeros] at hc
    exact beq_iff_eq.mp (List.all_eq_true.mp List.all_takeWhile c hc)
  have hsplit : Bytes.decimal x.coefficient = x.scientific.1 ++ List.replicate zeros.length 0x30 := by
    have hparts := List.takeWhile_append_dropWhile (p := (· == (0x30 : UInt8)))
      (l := (Bytes.decimal x.coefficient).reverse)
    rw [← hzeros] at hparts
    rw [← List.reverse_replicate, ← hall]
    calc Bytes.decimal x.coefficient
        = (zeros ++ (Bytes.decimal x.coefficient).reverse.dropWhile (· == 0x30)).reverse := by
          rw [hparts, List.reverse_reverse]
      _ = x.scientific.1 ++ zeros.reverse := List.reverse_append
  refine ⟨zeros.length, hsplit, fun hnil => ?_⟩
  -- only zeros would be the digits of zero
  have hvalue := digitsValue_decimal x.coefficient
  rw [hsplit, hnil, List.nil_append, digitsValue_replicate_zero] at hvalue
  omega

/-- The digits and the power of ten of the first one make up the decimal. -/
private theorem scientific_value (x : Decimal) (hx : 0 < x.coefficient) :
    (digitsValue x.scientific.1 : ℚ) * 10 ^ (x.scientific.2 + 1 - (x.scientific.1.length : Int)) =
        x.coefficient * 10 ^ x.power ∧
      (∀ c ∈ x.scientific.1, isDigit c = true) ∧ x.scientific.1 ≠ [] ∧
      x.scientific.2 = x.power + Nat.log 10 x.coefficient := by
  obtain ⟨z, hsplit, hne⟩ := exists_cut x hx
  have hlength := congrArg List.length hsplit
  rw [List.length_append, List.length_replicate] at hlength
  have hpower : x.scientific.2 = x.power + ((Bytes.decimal x.coefficient).length - 1 : ℕ) := rfl
  refine ⟨?_, fun c hc => ?_, hne, ?_⟩
  · have hvalue : x.coefficient = digitsValue x.scientific.1 * Nat.pow 10 z := by
      have hdigits := digitsValue_decimal x.coefficient
      rw [hsplit, digitsValue_append, digitsValue_replicate_zero, List.length_replicate] at hdigits
      exact hdigits.symm
    have hpos : 0 < x.scientific.1.length := List.length_pos_of_ne_nil hne
    have hexp : x.scientific.2 + 1 - (x.scientific.1.length : Int) = (z : Int) + x.power := by
      rw [hpower]
      omega
    have hcast : (x.coefficient : ℚ) = digitsValue x.scientific.1 * 10 ^ z := by
      rw [hvalue, Nat.cast_mul, Nat.pow_eq, Nat.cast_pow, Nat.cast_ofNat]
    rw [hexp, zpow_add₀ (by norm_num), zpow_natCast, hcast, mul_assoc]
  · refine Bytes.isDigit_decimal x.coefficient c ?_
    rw [hsplit]
    exact List.mem_append_left _ hc
  · rw [hpower, Bytes.length_decimal]
    rfl

/-! ### Whole numbers -/

/-- The text of a positive magnitude is laid out in one of the two notations. -/
private theorem laidOut_magnitudeText (hm : 0 < m) (hfinite : m < infinite) :
    LaidOut (magnitudeText layout m) (shortest m).scientific.1 (shortest m).scientific.2 := by
  obtain ⟨-, hpos, hlow, hhigh⟩ := exists_shortest hm hfinite
  obtain ⟨-, hdigits, hne, hpower⟩ := scientific_value (shortest m) hpos
  rw [← hpower] at hlow hhigh
  unfold magnitudeText
  rw [if_neg hm.ne']
  dsimp only
  split
  · exact laidOut_plainText hne hdigits
  · exact laidOut_scaledText layout hne hdigits (by omega) (by omega)

/-- **The text of a positive magnitude** reads back. -/
theorem decimal_magnitudeText (hm : 0 < m) (hfinite : m < infinite) (negative : Bool) :
    decimal (minus negative ++ magnitudeText layout m) = .ok (.ofMagnitude negative m) := by
  obtain ⟨hread, hpos, -⟩ := exists_shortest hm hfinite
  obtain ⟨hvalue, -⟩ := scientific_value (shortest m) hpos
  obtain ⟨whole, part, exponent, f, hparts⟩ := laidOut_magnitudeText hm hfinite
  rw [hparts.text_eq]
  refine decimal_parts hparts.whole_ne_nil hparts.whole_digits hparts.part_digits hparts.exponent_eq
    hparts.exponent_head ?_ hfinite
  calc scaledMagnitude (digitsValue (whole ++ part)) (f - part.length)
      = scaledMagnitude (shortest m).coefficient (shortest m).power :=
        scaledMagnitude_eq_of_eq (hparts.value.trans hvalue)
    _ = m := hread

private theorem isWord_magnitudeText (hfinite : m < infinite) :
    (magnitudeText layout m).IsWord := by
  rcases Nat.eq_zero_or_pos m with rfl | hm
  · decide
  · obtain ⟨whole, part, exponent, f, hparts⟩ := laidOut_magnitudeText hm hfinite
    have hfraction : (fraction part).IsWord := by
      unfold fraction
      split
      · decide
      · have hpoint : Bytes.IsWord [0x2e] := by decide
        exact hpoint.append (Bytes.isWord_of_isDigit hparts.part_digits)
    rw [hparts.text_eq]
    exact (Bytes.isWord_of_isDigit hparts.whole_digits).append
      (hfraction.append hparts.exponent_word)

theorem ofMagnitude_magnitude (x : Binary64) : ofMagnitude x.isNegative x.magnitude = x := by
  obtain ⟨b⟩ := x
  unfold ofMagnitude isNegative magnitude
  simp only [decide_eq_true_eq, UInt64.le_iff_toNat_le]
  have hlt := b.toNat_lt
  congr 1
  apply UInt64.toNat_inj.mp
  rw [UInt64.toNat_ofNat']
  change (if 0x8000000000000000 ≤ b.toNat then _ else _) % _ = _
  split
  · omega
  · omega

private theorem text_of_finite {x : Binary64} (hx : x.magnitude < infinite) :
    x.text = minus x.isNegative ++ magnitudeText layout x.magnitude := by
  have hnan : x.isNaN = false := decide_eq_false (by omega)
  have hinf : x.isInfinite = false := by
    unfold isInfinite
    rw [beq_eq_false_iff_ne]
    omega
  have hsign : Bytes.ascii (if x.isNegative then "-" else "") = minus x.isNegative := by
    cases x.isNegative with
    | true => rfl
    | false => rfl
  unfold text
  rw [hnan, hinf, if_neg (by decide), if_neg (by decide), hsign]

theorem text_of_infinite {x : Binary64} (hx : x.magnitude = infinite) :
    x.text = Bytes.ascii (if x.isNegative then "-Inf" else "+Inf") := by
  have hnan : x.isNaN = false := decide_eq_false (by omega)
  have hinf : x.isInfinite = true := beq_iff_eq.mpr hx
  unfold text
  rw [hnan, hinf, if_neg (by decide), if_pos rfl]

/-- **The text of a finite number** reads back. -/
theorem decimal_text {x : Binary64} (hx : x.magnitude < infinite) : decimal x.text = .ok x := by
  have hself := ofMagnitude_magnitude x
  rw [text_of_finite hx]
  rcases Nat.eq_zero_or_pos x.magnitude with hzero | hpos
  · rw [hzero] at hself ⊢
    have hread : decimal (minus x.isNegative ++ magnitudeText layout 0) =
        .ok (.ofMagnitude x.isNegative 0) := by
      cases x.isNegative with
      | true => rfl
      | false => rfl
    rw [hread, hself]
  · rw [decimal_magnitudeText hpos hx, hself]

/-- The text of an infinity is read as no number. -/
private theorem decimal_text_of_infinite {x : Binary64} (hx : x.magnitude = infinite) :
    decimal x.text = .error .malformed := by
  rw [text_of_infinite hx]
  cases x.isNegative with
  | true => rfl
  | false => rfl

theorem finite_or_infinite {x : Binary64} (hx : x.isNaN = false) :
    x.magnitude < infinite ∨ x.magnitude = infinite :=
  Nat.lt_or_eq_of_le (Nat.le_of_not_lt (of_decide_eq_false hx))

/-- **Numbers that are printed alike** are the same. -/
theorem text_injective {x y : Binary64} (hx : x.isNaN = false) (hy : y.isNaN = false)
    (h : x.text = y.text) : x = y := by
  rcases finite_or_infinite hx with hx | hx
  · have hread := decimal_text hx
    rcases finite_or_infinite hy with hy | hy
    · rw [h, decimal_text hy] at hread
      exact (Except.ok.inj hread).symm
    · rw [h, decimal_text_of_infinite hy] at hread
      cases hread
  · rcases finite_or_infinite hy with hy | hy
    · have hread := decimal_text_of_infinite hx
      rw [h, decimal_text hy] at hread
      cases hread
    · -- two infinities differ in their signs only
      rw [text_of_infinite hx, text_of_infinite hy] at h
      have hsign : x.isNegative = y.isNegative := by
        cases hxs : x.isNegative with
        | true =>
          cases hys : y.isNegative with
          | true => rfl
          | false =>
            rw [hxs, hys] at h
            exact absurd h (by decide)
        | false =>
          cases hys : y.isNegative with
          | true =>
            rw [hxs, hys] at h
            exact absurd h (by decide)
          | false => rfl
      rw [← ofMagnitude_magnitude x, ← ofMagnitude_magnitude y, hsign, hx, hy]

theorem isWord_text {x : Binary64} (hx : x.isNaN = false) : x.text.IsWord := by
  rcases finite_or_infinite hx with hx | hx
  · rw [text_of_finite hx]
    have hsign : (minus x.isNegative).IsWord := by
      cases x.isNegative with
      | true => decide
      | false => decide
    exact hsign.append (isWord_magnitudeText hx)
  · rw [text_of_infinite hx]
    cases x.isNegative with
    | true => decide
    | false => decide

end Binary64

end TraceIR
