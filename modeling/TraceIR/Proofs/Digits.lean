import Mathlib.Data.Nat.Log
import Mathlib.Tactic.Ring
import TraceIR.Numeral

/-!
# Digits

* `Bytes.ofDigits_digits` — the digits of a number have its value, and `Bytes.length_digits` says how
  many there are.
* `Bytes.decimal_injective`, `Bytes.hex_injective` and `Bytes.signed_injective` — a written number
  can be read in one way only, also if zeros fill the field in front of it
  (`Numeral.digitsValue_padLeft`).
* `Bytes.IsWord` — a text without spaces and newlines, as written numbers are.
* `Numeral.digitsValue_append` — the value of digits that are written one behind the other.
-/

namespace TraceIR

namespace Bytes

variable {b n m : Nat}

/-- The value of digits in base `b`, most significant first. -/
def ofDigits (b : Nat) (ds : List Nat) : Nat :=
  ds.foldl (fun acc d => acc * b + d) 0

private theorem digits_of_lt (h : n < b) : digits b n = [n] := by
  unfold digits
  rw [if_neg (by omega)]

private theorem digits_of_le (hb : 2 ≤ b) (h : b ≤ n) :
    digits b n = digits b (n / b) ++ [n % b] := by
  conv_lhs => unfold digits
  rw [if_pos ⟨hb, h⟩]

/-- **The digits of a number have its value.** -/
theorem ofDigits_digits (hb : 2 ≤ b) (n : Nat) : ofDigits b (digits b n) = n := by
  induction n using Nat.strong_induction_on with
  | _ n ih =>
    by_cases h : b ≤ n
    · have hlt : n / b < n := Nat.div_lt_self (by omega) (by omega)
      have hfront : (digits b (n / b)).foldl (fun acc d => acc * b + d) 0 = n / b := ih _ hlt
      rw [digits_of_le hb h, ofDigits, List.foldl_append, hfront]
      exact Nat.div_add_mod' n b
    · rw [digits_of_lt (Nat.lt_of_not_le h)]
      simp [ofDigits]

theorem lt_of_mem_digits (hb : 2 ≤ b) (n : Nat) : ∀ d ∈ digits b n, d < b := by
  induction n using Nat.strong_induction_on with
  | _ n ih =>
    intro d hd
    by_cases h : b ≤ n
    · rw [digits_of_le hb h, List.mem_append, List.mem_singleton] at hd
      rcases hd with hd | rfl
      · exact ih _ (Nat.div_lt_self (by omega) (by omega)) d hd
      · exact Nat.mod_lt _ (by omega)
    · rw [digits_of_lt (Nat.lt_of_not_le h), List.mem_singleton] at hd
      omega

theorem length_digits (hb : 2 ≤ b) (n : Nat) : (digits b n).length = Nat.log b n + 1 := by
  induction n using Nat.strong_induction_on with
  | _ n ih =>
    by_cases h : b ≤ n
    · have hlt : n / b < n := Nat.div_lt_self (by omega) (by omega)
      rw [digits_of_le hb h, List.length_append, ih _ hlt, Nat.log_of_one_lt_of_le (by omega) h]
      rfl
    · have hlt := Nat.lt_of_not_le h
      rw [digits_of_lt hlt, Nat.log_of_lt hlt]
      rfl

/-! ### Characters of digits -/

private theorem digitValue_digitByte : ∀ d < 36, Numeral.digitValue (digitByte d) = d := by
  decide

private theorem isDigit_digitByte : ∀ d < 10, Numeral.isDigit (digitByte d) = true := by
  decide

private theorem toNat_digitByte : ∀ d < 10, (digitByte d).toNat - 0x30 = d := by
  decide

theorem digitByte_ne_of_lt : ∀ d < 16, digitByte d ≠ 0x20 ∧ digitByte d ≠ 0x0a := by
  decide

/-- The text has no space in it and stays on its line. -/
def IsWord (t : Bytes) : Prop :=
  ∀ c ∈ t, c ≠ 0x20 ∧ c ≠ 0x0a

instance (t : Bytes) : Decidable t.IsWord :=
  List.decidableBAll _ t

theorem IsWord.append {t u : Bytes} (ht : t.IsWord) (hu : u.IsWord) : (t ++ u).IsWord := by
  intro c hc
  rcases List.mem_append.mp hc with hc | hc
  · exact ht c hc
  · exact hu c hc

theorem isWord_of_isDigit {t : Bytes} (h : ∀ c ∈ t, Numeral.isDigit c = true) : t.IsWord := by
  intro c hc
  have hdigit := h c hc
  constructor
  · rintro rfl
    cases hdigit
  · rintro rfl
    cases hdigit

private theorem isWord_hex (n : Nat) : (hex n).IsWord := by
  intro c hc
  obtain ⟨d, hd, rfl⟩ := List.mem_map.mp hc
  exact digitByte_ne_of_lt d (lt_of_mem_digits (by decide) n d hd)

/-- Digits can be read off their characters. -/
private theorem map_digitValue_digits (hb : 2 ≤ b) (hle : b ≤ 16) (n : Nat) :
    ((digits b n).map digitByte).map Numeral.digitValue = digits b n := by
  have hself : ∀ d ∈ digits b n, (Numeral.digitValue ∘ digitByte) d = id d := by
    intro d hd
    have hlt := lt_of_mem_digits hb n d hd
    exact digitValue_digitByte d (by omega)
  rw [List.map_map, List.map_congr_left hself, List.map_id]

private theorem map_digitByte_injective (hb : 2 ≤ b) (hle : b ≤ 16)
    (h : (digits b n).map digitByte = (digits b m).map digitByte) : n = m := by
  have hdigits : digits b n = digits b m := by
    rw [← map_digitValue_digits hb hle n, h, map_digitValue_digits hb hle m]
  calc n = ofDigits b (digits b n) := (ofDigits_digits hb n).symm
    _ = ofDigits b (digits b m) := by rw [hdigits]
    _ = m := ofDigits_digits hb m

theorem hex_injective (h : hex n = hex m) : n = m :=
  map_digitByte_injective (b := 16) (by decide) (by decide) h

theorem hexMarked_injective (h : hexMarked n = hexMarked m) : n = m :=
  hex_injective (List.append_cancel_left h)

theorem isDigit_decimal (n : Nat) : ∀ c ∈ decimal n, Numeral.isDigit c = true := by
  intro c hc
  obtain ⟨d, hd, rfl⟩ := List.mem_map.mp hc
  exact isDigit_digitByte d (lt_of_mem_digits (by decide) n d hd)

private theorem isWord_decimal (n : Nat) : (decimal n).IsWord :=
  isWord_of_isDigit (isDigit_decimal n)

theorem length_decimal (n : Nat) : (decimal n).length = Nat.log 10 n + 1 := by
  rw [decimal, List.length_map, length_digits (by decide)]

theorem decimal_ne_nil (n : Nat) : decimal n ≠ [] := by
  apply List.ne_nil_of_length_pos
  rw [length_decimal]
  exact Nat.succ_pos _

end Bytes

/-! ### Values -/

namespace Numeral

theorem digitsValue_append (a c : Bytes) :
    digitsValue (a ++ c) = digitsValue a * Nat.pow 10 c.length + digitsValue c := by
  -- over what was read before
  have hfrom : ∀ acc, c.foldl (fun acc x => acc * 10 + (x.toNat - 0x30)) acc =
      acc * Nat.pow 10 c.length + digitsValue c := by
    unfold digitsValue
    induction c with
    | nil => simp
    | cons x c ih =>
      intro acc
      rw [List.foldl_cons, ih, List.foldl_cons, ih (0 * 10 + _), List.length_cons]
      simp only [Nat.pow_eq, Nat.pow_succ]
      ring
  unfold digitsValue
  rw [List.foldl_append, hfrom]
  rfl

theorem digitsValue_replicate_zero (k : Nat) : digitsValue (List.replicate k 0x30) = 0 := by
  induction k with
  | zero => rfl
  | succ k ih => exact ih

/-- Zeros in front make no difference. -/
theorem digitsValue_padLeft (width : Nat) (c : Bytes) :
    digitsValue (Bytes.padLeft 0x30 width c) = digitsValue c := by
  rw [Bytes.padLeft, digitsValue_append, digitsValue_replicate_zero, Nat.zero_mul, Nat.zero_add]

theorem digitsValue_decimal (n : Nat) : digitsValue (Bytes.decimal n) = n := by
  have hmap : ∀ (ds : List Nat) acc, (∀ d ∈ ds, d < 10) →
      (ds.map Bytes.digitByte).foldl (fun acc c => acc * 10 + (c.toNat - 0x30)) acc =
        ds.foldl (fun acc d => acc * 10 + d) acc := by
    intro ds
    induction ds with
    | nil => exact fun _ _ => rfl
    | cons d ds ih =>
      intro acc hds
      rw [List.map_cons, List.foldl_cons, List.foldl_cons,
        Bytes.toNat_digitByte d (hds d List.mem_cons_self)]
      exact ih _ fun d hd => hds d (List.mem_cons_of_mem _ hd)
  calc digitsValue (Bytes.decimal n)
      = Bytes.ofDigits 10 (Bytes.digits 10 n) := hmap _ 0 (Bytes.lt_of_mem_digits (by decide) n)
    _ = n := Bytes.ofDigits_digits (by decide) n

end Numeral

namespace Bytes

theorem decimal_injective {n m : Nat} (h : decimal n = decimal m) : n = m := by
  rw [← Numeral.digitsValue_decimal n, h, Numeral.digitsValue_decimal]

theorem isDigit_padLeft_decimal (w n : Nat) :
    ∀ c ∈ padLeft 0x30 w (decimal n), Numeral.isDigit c = true := by
  intro c hc
  rcases List.mem_append.mp hc with hc | hc
  · rw [List.eq_of_mem_replicate hc]
    rfl
  · exact isDigit_decimal n c hc

/-- A sign is no digit. -/
private theorem ne_minus_decimal (n : Nat) (r : Bytes) : decimal n ≠ ascii "-" ++ r := by
  intro h
  have hdigit := isDigit_decimal n 0x2d (by rw [h]; exact List.mem_cons_self)
  cases hdigit

theorem signed_injective {k l : Int} (h : signed k = signed l) : k = l := by
  cases k with
  | ofNat n =>
    cases l with
    | ofNat m => exact congrArg _ (decimal_injective h)
    | negSucc m => exact absurd h (ne_minus_decimal n _)
  | negSucc n =>
    cases l with
    | ofNat m => exact absurd h.symm (ne_minus_decimal m _)
    | negSucc m =>
      have hsucc := decimal_injective (List.append_cancel_left h)
      exact congrArg _ (Nat.succ.inj hsucc)

theorem isWord_signed (k : Int) : (signed k).IsWord := by
  cases k with
  | ofNat n => exact isWord_decimal n
  | negSucc n =>
    have hsign : (ascii "-").IsWord := by decide
    exact hsign.append (isWord_decimal (n + 1))

theorem signed_ne_nil (k : Int) : signed k ≠ [] := by
  cases k with
  | ofNat n => exact decimal_ne_nil n
  | negSucc n => exact List.append_ne_nil_of_right_ne_nil _ (decimal_ne_nil _)

theorem isWord_hexMarked (n : Nat) : (hexMarked n).IsWord := by
  have hmark : (ascii "0x").IsWord := by decide
  exact hmark.append (isWord_hex n)

end Bytes

end TraceIR
