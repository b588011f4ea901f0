import TraceIR.Proofs.Scanning

/-!
# Blanks, comments and line breaks

What stands between the statements of a script: spaces, tabs, line breaks, and comments from `//` to
the end of their line.

* `Margin` — blanks, breaks and comments that a line feed closes. `Ending` — the same up to the end
  of a text, where the last comment need not be closed.
* `Spaces.skipComments_margin` — a margin is passed as a whole.
* `Spaces.exists_passes_skipComments` — nothing but a margin is passed.
* `Spaces.skipComments_inline` — passing the rest of a line first makes no difference.
-/

namespace TraceIR.Script

/-- A space or a tab. -/
def IsBlank (c : UInt8) : Prop :=
  c = 0x20 ∨ c = 0x09

/-- A carriage return or a line feed. -/
def IsBreak (c : UInt8) : Prop :=
  c = 0x0d ∨ c = 0x0a

instance (c : UInt8) : Decidable (IsBlank c) :=
  inferInstanceAs (Decidable (_ ∨ _))

instance (c : UInt8) : Decidable (IsBreak c) :=
  inferInstanceAs (Decidable (_ ∨ _))

/-- Spaces and tabs. -/
def Blanks (b : Bytes) : Prop :=
  ∀ c ∈ b, IsBlank c

/-- A comment without the line feed after it. -/
def Comment (b : Bytes) : Prop :=
  ∃ body, b = 0x2f :: 0x2f :: body ∧ 0x0a ∉ body

/-- Blanks, breaks and comments. A line feed ends each comment. -/
inductive Margin : Bytes → Prop
  | nil : Margin []
  | space {c : UInt8} {b : Bytes} : IsBlank c ∨ IsBreak c → Margin b → Margin (c :: b)
  | comment {c b : Bytes} : Comment c → Margin b → Margin (c ++ 0x0a :: b)

/-- A margin up to the end of a text. The end of the text may end a comment too. -/
def Ending (b : Bytes) : Prop :=
  ∃ m c, b = m ++ c ∧ Margin m ∧ (c = [] ∨ Comment c)

theorem Margin.append {m m' : Bytes} (h : Margin m) (h' : Margin m') : Margin (m ++ m') := by
  induction h with
  | nil => exact h'
  | space hc _ ih => exact .space hc ih
  | comment hc _ ih =>
    rw [List.append_assoc, List.cons_append]
    exact .comment hc ih

theorem Blanks.margin {b : Bytes} (h : Blanks b) : Margin b := by
  induction b with
  | nil => exact .nil
  | cons c b ih =>
    obtain ⟨hc, hb⟩ := List.forall_mem_cons.mp h
    exact .space (.inl hc) (ih hb)

theorem Margin.ending {m : Bytes} (h : Margin m) : Ending m :=
  ⟨m, [], (List.append_nil m).symm, h, .inl rfl⟩

theorem Ending.append {m e : Bytes} (h : Margin m) (h' : Ending e) : Ending (m ++ e) := by
  obtain ⟨m', c, rfl, hm', hc⟩ := h'
  exact ⟨m ++ m', c, (List.append_assoc ..).symm, h.append hm', hc⟩

namespace Spaces

/-! ### Sets of blanks -/

/-- To look at all bytes, count them. -/
theorem forall_byte {P : UInt8 → Prop} (h : ∀ n < 256, P (UInt8.ofNat n)) (c : UInt8) : P c := by
  have hc := h c.toNat c.toNat_lt
  rwa [UInt8.ofNat_toNat] at hc

theorem has_inline_iff : ∀ c, inline.has c = true ↔ IsBlank c := by
  apply forall_byte
  decide +kernel

theorem has_all_iff : ∀ c, all.has c = true ↔ IsBlank c ∨ IsBreak c := by
  apply forall_byte
  decide +kernel

theorem blanks_takeWhile_inline (b : Bytes) : Blanks (b.takeWhile inline.has) :=
  fun c hc => (has_inline_iff c).mp (List.all_eq_true.mp List.all_takeWhile c hc)

/-! ### How far a scan for comments goes -/

variable {s : Spaces} {b r c : Bytes}

theorem commentLength_blanks (h : ∀ x ∈ b, s.has x = true) (r : Bytes) :
    s.commentLength false (b ++ r) = b.length + s.commentLength false r := by
  induction b with
  | nil => simp
  | cons x b ih =>
    obtain ⟨hx, hb⟩ := List.forall_mem_cons.mp h
    rw [List.cons_append, commentLength]
    simp [hx, ih hb, Nat.add_right_comm]

private theorem commentLength_inside (h : 0x0a ∉ b) (r : Bytes) :
    s.commentLength true (b ++ r) = b.length + s.commentLength true r := by
  induction b with
  | nil => simp
  | cons x b ih =>
    obtain ⟨hx, hb⟩ := not_or.mp (mt List.mem_cons.mpr h)
    rw [List.cons_append, commentLength]
    simp [Ne.symm hx, ih hb, Nat.add_right_comm]

/-- A comment is passed up to its end. -/
theorem commentLength_comment (hs : s.has 0x2f = false) (h : Comment c) (r : Bytes) :
    s.commentLength false (c ++ r) = c.length + s.commentLength true r := by
  obtain ⟨body, rfl, hbody⟩ := h
  -- the second slash already belongs to the comment
  have hinside := commentLength_inside (s := s) (b := 0x2f :: body) (r := r) (by simp [hbody])
  rw [List.cons_append, commentLength]
  simp only [Bool.false_and, Bool.false_eq_true, if_false, hs, List.cons_append, List.head?_cons,
    beq_self_eq_true, Bool.and_self, if_true]
  rw [← List.cons_append, hinside]
  simp only [List.length_cons]
  omega

/-- Whether a comment came before does not matter at its end. -/
theorem commentLength_break (inside : Bool) (r : Bytes) :
    s.commentLength inside (0x0a :: r) = s.commentLength false (0x0a :: r) := by
  cases inside <;> rfl

/-- A margin is passed as a whole. -/
private theorem commentLength_margin {m : Bytes} (h : Margin m) (r : Bytes) :
    all.commentLength false (m ++ r) = m.length + all.commentLength false r := by
  induction h with
  | nil => simp
  | @space x m hx _ ih =>
    have hblank := commentLength_blanks (s := all) (b := [x]) (r := m ++ r)
      (by simp [(has_all_iff x).mpr hx])
    rw [List.cons_append, ← List.singleton_append, hblank, ih]
    simp only [List.length_cons, List.length_nil]
    omega
  | @comment c m hc _ ih =>
    have hblank := commentLength_blanks (s := all) (b := [0x0a]) (r := m ++ r)
      (List.forall_mem_singleton.mpr ((has_all_iff _).mpr (.inr (.inr rfl))))
    rw [List.append_assoc, List.cons_append, commentLength_comment rfl hc, commentLength_break,
      ← List.singleton_append, hblank, ih]
    simp only [List.length_append, List.length_cons, List.length_nil]
    omega

/-- An ending is passed as a whole. -/
private theorem commentLength_ending {e : Bytes} (h : Ending e) :
    all.commentLength false e = e.length := by
  obtain ⟨m, c, rfl, hm, hc⟩ := h
  rw [commentLength_margin hm, List.length_append]
  rcases hc with rfl | hc
  · rfl
  · have hcomment := commentLength_comment (s := all) rfl hc []
    rw [List.append_nil] at hcomment
    rw [hcomment]
    rfl

theorem skipComments_margin {m : Bytes} (h : Margin m) (pos : Nat) (r : Bytes) :
    all.skipComments ⟨pos, m ++ r⟩ = all.skipComments ⟨pos + m.length, r⟩ := by
  simp only [skipComments, Cursor.advance, commentLength_margin h, List.drop_append,
    Nat.add_sub_cancel_left, Cursor.mk.injEq]
  refine ⟨(Nat.add_assoc ..).symm, ?_⟩
  rw [List.drop_eq_nil_of_le (Nat.le_add_right ..), List.nil_append]

theorem skipComments_ending {e : Bytes} (h : Ending e) (pos : Nat) :
    all.skipComments ⟨pos, e⟩ = ⟨pos + e.length, []⟩ := by
  simp only [skipComments, Cursor.advance, commentLength_ending h, List.drop_length]

/-! ### What a scan for comments passes -/

/-- Bytes up to the next line feed, and the rest from there. -/
private theorem exists_line (b : Bytes) :
    ∃ body r, b = body ++ r ∧ 0x0a ∉ body ∧ (r = [] ∨ ∃ r', r = 0x0a :: r') := by
  induction b with
  | nil => exact ⟨[], [], rfl, List.not_mem_nil, .inl rfl⟩
  | cons x b ih =>
    by_cases hx : x = 0x0a
    · exact ⟨[], x :: b, rfl, List.not_mem_nil, .inr ⟨b, by rw [hx]⟩⟩
    · obtain ⟨body, r, rfl, hbody, hr⟩ := ih
      refine ⟨x :: body, r, rfl, ?_, hr⟩
      exact fun hmem => (List.mem_cons.mp hmem).elim (fun h => hx h.symm) hbody

/-- Every text is a margin and then something else, or an ending. -/
private theorem exists_margin (b : Bytes) :
    (∃ m x r, b = m ++ x :: r ∧ Margin m ∧ ¬ (IsBlank x ∨ IsBreak x) ∧
      ¬ (x = 0x2f ∧ r.head? = some 0x2f)) ∨ Ending b := by
  induction hn : b.length using Nat.strongRecOn generalizing b with
  | ind n ih =>
    -- one blank or one comment in front, and the rest is shorter
    have hfront : ∀ {m r}, b = m ++ r → m ≠ [] → Margin m → (∃ m x r, b = m ++ x :: r ∧ Margin m ∧
        ¬ (IsBlank x ∨ IsBreak x) ∧ ¬ (x = 0x2f ∧ r.head? = some 0x2f)) ∨ Ending b := by
      rintro m r rfl hne hm
      have hpos := List.length_pos_iff.mpr hne
      rw [List.length_append] at hn
      rcases ih r.length (by omega) r rfl with ⟨m', x, r', rfl, hm', hx⟩ | he
      · exact .inl ⟨m ++ m', x, r', by simp, hm.append hm', hx⟩
      · exact .inr (he.append hm)
    cases b with
    | nil => exact .inr Margin.nil.ending
    | cons x r =>
      by_cases hx : IsBlank x ∨ IsBreak x
      · exact hfront (m := [x]) rfl (List.cons_ne_nil _ _) (.space hx .nil)
      · by_cases hslash : x = 0x2f ∧ r.head? = some 0x2f
        · obtain ⟨rfl, hhead⟩ := hslash
          obtain ⟨r', rfl⟩ := List.head?_eq_some_iff.mp hhead
          obtain ⟨body, rest, rfl, hbody, hrest⟩ := exists_line r'
          have hcomment : Comment (0x2f :: 0x2f :: body) := ⟨body, rfl, hbody⟩
          rcases hrest with rfl | ⟨rest, rfl⟩
          · refine .inr ⟨[], _, ?_, .nil, .inr hcomment⟩
            simp
          · refine hfront (m := (0x2f :: 0x2f :: body) ++ 0x0a :: []) (r := rest) ?_ (by simp)
              (.comment hcomment .nil)
            simp
        · exact .inl ⟨[], x, r, rfl, .nil, hx, hslash⟩

/-- **Only margins** are passed, and an ending if nothing else follows. -/
theorem exists_passes_skipComments (c : Cursor) :
    (∃ m x r, c.Passes m (all.skipComments c) ∧ Margin m ∧ (all.skipComments c).rest = x :: r ∧
      ¬ (IsBlank x ∨ IsBreak x)) ∨
    Ending c.rest ∧ all.skipComments c = ⟨c.pos + c.rest.length, []⟩ := by
  obtain ⟨pos, b⟩ := c
  rcases exists_margin b with ⟨m, x, r, rfl, hm, hx, hslash⟩ | he
  · left
    have hstop : all.commentLength false (x :: r) = 0 := by
      have hhas : all.has x = false := Bool.eq_false_iff.mpr (mt (has_all_iff x).mp hx)
      rw [commentLength]
      simp only [Bool.false_and, Bool.false_eq_true, if_false, hhas]
      rw [if_neg]
      simpa using hslash
    have hskip : all.skipComments ⟨pos, m ++ x :: r⟩ = ⟨pos + m.length, x :: r⟩ := by
      rw [skipComments_margin hm, skipComments, hstop]
      rfl
    rw [hskip]
    exact ⟨m, x, r, ⟨rfl, rfl⟩, hm, rfl, hx⟩
  · exact .inr ⟨he, skipComments_ending he pos⟩

/-- Passing blanks and a comment of the line first makes no difference. -/
private theorem commentLength_all_eq (inside : Bool) (b : Bytes) :
    all.commentLength inside b = inline.commentLength inside b +
      all.commentLength false (b.drop (inline.commentLength inside b)) := by
  fun_induction inline.commentLength inside b with
  | case1 => rfl
  | case2 inside c r hinside ih =>
    rw [commentLength, if_pos hinside, ih]
    simp only [List.drop_succ_cons]
    omega
  | case3 inside c r hinside hblank ih =>
    have hall : all.has c = true := (has_all_iff c).mpr (.inl ((has_inline_iff c).mp hblank))
    rw [commentLength, if_neg hinside, if_pos hall, ih]
    simp only [List.drop_succ_cons]
    omega
  | case4 inside c r hinside hblank hslash ih =>
    have hall : all.has c = false := by
      obtain rfl : c = 0x2f := by simp_all
      rfl
    rw [commentLength, if_neg hinside, if_neg (by rw [hall]; exact Bool.false_ne_true),
      if_pos hslash, ih]
    simp only [List.drop_succ_cons]
    omega
  -- the scan of the line ends here, and here the other one goes on
  | case5 inside c r hinside hblank hslash =>
    rw [Nat.zero_add, List.drop_zero, commentLength, commentLength, if_neg hinside]
    rfl

theorem skipComments_inline (c : Cursor) :
    all.skipComments (inline.skipComments c) = all.skipComments c := by
  simp only [skipComments, Cursor.advance, Cursor.mk.injEq, List.drop_drop]
  rw [commentLength_all_eq false c.rest]
  exact ⟨Nat.add_assoc .., rfl⟩

end Spaces

end TraceIR.Script
