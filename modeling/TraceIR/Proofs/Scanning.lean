import TraceIR.Proofs.Parsing

/-!
# What parsers pass

A parser that succeeds leaves a later cursor. What lies between the two is a piece of the text.

* `Outcome.bind_eq_done_iff` and its companions take a success apart into those of its parts.
* `Cursor.Passes` — between two cursors lies a given piece of text. One lemma for each scanner says
  that it stays inside the text, so what a word takes up is what is written there.
-/

namespace TraceIR.Script

/-! ### Successes -/

namespace Outcome

variable {α β : Type} {x : Outcome α} {next : Cursor}

theorem map_eq_done_iff {f : α → β} {b : β} :
    x.map f = .done b next ↔ ∃ a, x = .done a next ∧ f a = b := by
  cases x with
  | done a c =>
    constructor
    · intro h
      cases h
      exact ⟨a, rfl, rfl⟩
    · rintro ⟨a', h, rfl⟩
      cases h
      rfl
  | _ => simp [map]

theorem bind_eq_done_iff {f : α → Cursor → Outcome β} {b : β} :
    x.bind f = .done b next ↔ ∃ a c, x = .done a c ∧ f a c = .done b next := by
  cases x with
  | done a c => simp [bind, and_assoc]
  | _ => simp [bind]

theorem during_eq_done_iff {s : Step} {a : α} : x.during s = .done a next ↔ x = .done a next := by
  cases x <;> simp [during]

/-- A success has the property. -/
def Ensures (P : α → Cursor → Prop) : Outcome α → Prop
  | .done a next => P a next
  | _ => True

theorem Ensures.of_eq {P : α → Cursor → Prop} {a : α} (h : x.Ensures P) (hx : x = .done a next) :
    P a next := by
  rw [hx] at h
  exact h

theorem Ensures.map {f : α → β} {P : α → Cursor → Prop} {Q : β → Cursor → Prop} (h : x.Ensures P)
    (hf : ∀ {a c}, P a c → Q (f a) c) : (x.map f).Ensures Q := by
  cases x with
  | done a c => exact hf h
  | _ => exact True.intro

/-- A choice succeeds with one of its alternatives. -/
theorem exists_of_firstOf {start : Nat} {xs : List (ParserKind × Outcome α)} {a : α}
    (h : firstOf start xs = .done a next) : ∃ k, (k, .done a next) ∈ xs := by
  -- after failures only there is nothing but a failure
  have hfailure : ∀ kinds ys, firstFailure start kinds ys ≠ Outcome.done a next := by
    intro kinds ys
    have hwithin := within_firstFailure (n := 0) start kinds ys
    intro hdone
    rw [hdone] at hwithin
    exact Nat.not_lt_zero _ hwithin
  rw [firstOf] at h
  cases hfound : firstSuccess? xs with
  | none =>
    rw [hfound] at h
    exact absurd h (hfailure _ _)
  | some y =>
    rw [hfound] at h
    subst h
    clear hfailure
    induction xs with
    | nil => cases hfound
    | cons p xs ih =>
      obtain ⟨k, z⟩ := p
      cases z with
      | failed e o =>
        obtain ⟨k', hmem⟩ := ih hfound
        exact ⟨k', List.mem_cons_of_mem _ hmem⟩
      | done b c =>
        cases hfound
        exact ⟨k, List.mem_cons_self⟩
      | endless => cases hfound
      | outside => cases hfound

end Outcome

/-! ### Pieces of text -/

namespace Cursor

variable {c d e : Cursor} {b b' : Bytes}

/-- Between the cursors lies `b`. -/
structure Passes (c : Cursor) (b : Bytes) (d : Cursor) : Prop where
  pos : d.pos = c.pos + b.length
  rest : c.rest = b ++ d.rest

theorem Passes.refl (c : Cursor) : c.Passes [] c :=
  ⟨rfl, rfl⟩

theorem Passes.trans (h : c.Passes b d) (h' : d.Passes b' e) : c.Passes (b ++ b') e := by
  refine ⟨?_, ?_⟩
  · rw [h'.pos, h.pos, List.length_append, Nat.add_assoc]
  · rw [h.rest, h'.rest, List.append_assoc]

theorem passes_advance {n : Nat} (h : n ≤ c.rest.length) : c.Passes (c.rest.take n) (c.advance n) :=
  ⟨by rw [List.length_take_of_le h, advance], (List.take_append_drop n c.rest).symm⟩

end Cursor

/-! ### Scanners stay inside the text -/

theorem Spaces.commentLength_le (s : Spaces) (inside : Bool) (b : Bytes) :
    s.commentLength inside b ≤ b.length := by
  fun_induction commentLength s inside b <;> simp_all

theorem Spaces.passes_skip (s : Spaces) (c : Cursor) :
    c.Passes (c.rest.takeWhile s.has) (s.skip c) := by
  have hprefix := List.takeWhile_prefix s.has (l := c.rest)
  have hpasses := c.passes_advance hprefix.length_le
  rw [← List.prefix_iff_eq_take.mp hprefix] at hpasses
  exact hpasses

theorem Spaces.passes_skipComments (s : Spaces) (c : Cursor) :
    c.Passes (c.rest.take (s.commentLength false c.rest)) (s.skipComments c) :=
  c.passes_advance (s.commentLength_le ..)

namespace Token

theorem decimalLength_le (point exponent begun : Bool) (b : Bytes) :
    (decimalLength point exponent begun b).1 ≤ b.length := by
  fun_induction decimalLength point exponent begun b with
  | case1 => exact Nat.le_refl 0
  | case2 _ _ _ c r _ n f hn ih =>
    rw [hn] at ih
    exact Nat.succ_le_succ ih
  | case3 _ _ _ c r _ _ n f hn ih =>
    rw [hn] at ih
    exact Nat.succ_le_succ ih
  | case4 _ _ _ c _ _ _ s r _ n f hn ih =>
    -- the mark of an exponent takes its sign along
    rw [hn] at ih
    exact Nat.succ_le_succ (Nat.succ_le_succ ih)
  | case5 _ _ _ c _ _ _ s r _ n f hn ih =>
    rw [hn] at ih
    exact Nat.succ_le_succ ih
  | case6 => exact Nat.le_refl 1
  | case7 => exact Nat.zero_le _

theorem numberLength?_le {b : Bytes} {n : Nat} {fraction : Bool}
    (h : numberLength? b = some (n, fraction)) : n ≤ b.length := by
  have hsign : signLength b ≤ b.length := by
    fun_cases signLength b <;> simp
  unfold numberLength? at h
  dsimp only at h
  split at h
  · next hmark =>
    split at h
    · cases h
    · cases h
      have hdigits := List.takeWhile_prefix isHexDigit (l := (b.drop (signLength b)).drop 2)
      have hlength := hdigits.length_le
      simp only [List.length_drop] at hlength
      omega
  · split at h
    · cases h
    · cases h
      have hlength := decimalLength_le false false false (b.drop (signLength b))
      simp only [List.length_drop] at hlength
      omega

theorem identLength_le (b : Bytes) : (identLength b).1 ≤ b.length := by
  fun_induction identLength b with
  | case1 => exact Nat.le_refl _
  | case2 c r hword n bad hrest ih =>
    rw [hrest] at ih
    exact Nat.succ_le_succ ih
  | case3 c r hword hascii => exact Nat.zero_le _
  | case4 c r hword hascii hnone => exact Nat.zero_le _
  | case5 c r hword hascii rest hsome => exact Nat.zero_le _
  | case6 c r hword hascii code rest hsome hcode n bad hrest ih =>
    rw [hrest] at ih
    have hlength := Utf8.decode?_length hsome
    show n + ((c :: r).length - rest.length) ≤ (c :: r).length
    change n ≤ rest.length at ih
    omega

theorem StringEnd.shift_eq_closed_iff {x : StringEnd} {k n : Nat} :
    x.shift k = .closed n ↔ ∃ m, x = .closed m ∧ m + k = n := by
  cases x <;> simp [shift]

theorem stringEnd_le {b : Bytes} {n : Nat} (h : stringEnd b = .closed n) : n ≤ b.length := by
  fun_induction stringEnd b generalizing n with
  | case1 => cases h
  | case2 => cases h
  | case3 x r ih =>
    obtain ⟨m, hrest, rfl⟩ := StringEnd.shift_eq_closed_iff.mp h
    exact Nat.succ_le_succ (Nat.succ_le_succ (ih hrest))
  | case4 r => cases h
  | case5 r =>
    cases h
    exact Nat.succ_le_succ (Nat.zero_le _)
  | case6 x r _ _ _ _ ih =>
    obtain ⟨m, hrest, rfl⟩ := StringEnd.shift_eq_closed_iff.mp h
    exact Nat.succ_le_succ (ih hrest)

end Token

end TraceIR.Script
