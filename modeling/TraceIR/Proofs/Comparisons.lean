import TraceIR.Proofs.Canonicity
import TraceIR.Proofs.Refusals
import TraceIR.Proofs.Sharing

/-!
# Comparisons of constants

A folder decides a comparison of two constants if it can tell the outcome from their values. Which
comparisons these are depends on the kinds of both constants, on the opcode, and on whether the two
are the same reference.

* `Opcode.mirrored`, `Opcode.negated` and `Opcode.opposite` — the comparison with its operands
  exchanged, the one that fails when it holds of numbers, and the same for everything else. An
  ordering of numbers is negated by the unordered comparison in the other direction, because both an
  ordering and its reverse fail of a NaN.
* `Trace.Worth` — what the value of a live constant can be, by its opcode. No constant of a
  recording is without a value that it should have (`Reachable.worth`).
* `Trace.decision?` — what the folder finds. Mirroring keeps it and negating reverses it
  (`decision?_mirrored`, `decision?_negated`, `decision?_opposite`), and `decision?_isSome_iff` says
  when there is one.
* `Reachable.comparisons_coherent` — all this about what is emitted.
* `decisions_not_by_opcode_alone` — objects that are bare numbers are compared as numbers, and
  integers that were emitted as instructions are not.
-/

namespace TraceIR

/-! ### Comparisons that say the same or the contrary -/

private theorem Binary64.eq_comm (a b : Binary64) : a.eq b = b.eq a := by
  rw [Binary64.eq, Binary64.eq, ordered, ordered, Bool.and_comm (!a.isNaN), Bool.beq_comm]

namespace Opcode

/-- The comparison that says the same of exchanged operands. -/
def mirrored : Opcode → Opcode
  | .lt => .gt
  | .gt => .lt
  | .le => .ge
  | .ge => .le
  | .ult => .ugt
  | .ugt => .ult
  | .ule => .uge
  | .uge => .ule
  | op => op

/-- The comparison that holds of two numbers exactly if the given one fails. -/
def negated : Opcode → Opcode
  | .eq => .ne
  | .ne => .eq
  | .lt => .uge
  | .uge => .lt
  | .ge => .ult
  | .ult => .ge
  | .le => .ugt
  | .ugt => .le
  | .gt => .ule
  | .ule => .gt
  | op => op

/-- The comparison that holds of two texts, or of one constant and itself, exactly if the given one
fails. -/
def opposite : Opcode → Opcode
  | .eq => .ne
  | .ne => .eq
  | .lt => .ge
  | .ge => .lt
  | .le => .gt
  | .gt => .le
  | op => op

variable {op : Opcode}

private theorem isComparison_mirrored (h : op.isComparison = true) :
    op.mirrored.isComparison = true := by
  revert h
  cases op <;> decide

private theorem isComparison_negated (h : op.isComparison = true) :
    op.negated.isComparison = true := by
  revert h
  cases op <;> decide

private theorem isComparison_opposite (h : op.isComparison = true) :
    op.opposite.isComparison = true := by
  revert h
  cases op <;> decide

/-- Only the two equalities are comparisons that commute. -/
private theorem mirrored_of_commutative (h : op.isComparison = true)
    (hop : op.shape.commutative = true) :
    op.mirrored = op := by
  revert h hop
  cases op <;> decide

private theorem plain_of_comparison (h : op.isComparison = true) :
    op.isNormal = true ∧ op.isConst = false := by
  revert h
  cases op <;> decide

private theorem compareNumbers?_mirrored (op : Opcode) (a b : Binary64) :
    op.mirrored.compareNumbers? b a = op.compareNumbers? a b := by
  cases op <;> simp [mirrored, compareNumbers?, Binary64.eq_comm b a]

private theorem compareNumbers?_negated (op : Opcode) (a b : Binary64) :
    op.negated.compareNumbers? a b = (op.compareNumbers? a b).map (!·) := by
  cases op <;> simp [negated, compareNumbers?]

private theorem compareTexts?_mirrored (op : Opcode) (a b : Bytes) :
    op.mirrored.compareTexts? b a = op.compareTexts? a b := by
  cases op <;> rfl

private theorem compareTexts?_opposite (op : Opcode) (a b : Bytes) :
    op.opposite.compareTexts? a b = (op.compareTexts? a b).map (!·) := by
  cases op <;> simp [opposite, compareTexts?]

/-- The order of two texts, if both are there. -/
def orderTexts? (op : Opcode) : Option Bytes → Option Bytes → Option Bool
  | some a, some b => op.compareTexts? a b
  | _, _ => none

private theorem orderTexts?_mirrored (op : Opcode) (a b : Option Bytes) :
    op.mirrored.orderTexts? b a = op.orderTexts? a b := by
  cases a with
  | none => cases b <;> rfl
  | some s =>
    cases b with
    | none => rfl
    | some s' => exact compareTexts?_mirrored op s s'

private theorem orderTexts?_opposite (op : Opcode) (a b : Option Bytes) :
    op.opposite.orderTexts? a b = (op.orderTexts? a b).map (!·) := by
  cases a with
  | none => rfl
  | some s =>
    cases b with
    | none => rfl
    | some s' => exact compareTexts?_opposite op s s'

/-- Only four opcodes order texts. -/
private theorem orderTexts?_isSome_iff {a b : Option Bytes} :
    (op.orderTexts? a b).isSome = true ↔
      a.isSome = true ∧ b.isSome = true ∧ (op = .lt ∨ op = .ge ∨ op = .le ∨ op = .gt) := by
  cases a with
  | none => simp [orderTexts?]
  | some s =>
    cases b with
    | none => simp [orderTexts?]
    | some s' => cases op <;> simp [orderTexts?, compareTexts?]

end Opcode

/-! ### The fixed constants -/

/-- The view is well formed, and its fixed constants are what they were in the beginning. -/
structure View.KeepsFixed (v : View) : Prop where
  wellFormed : v.WellFormed
  fixed : ∀ {r x}, r.IsFixed → v.record r = some x → x.op = .kpri

/-- Records enter and leave on both sides of the fixed constants. -/
private theorem View.lasting_keepsFixed : View.Lasting View.KeepsFixed where
  ranged h := h.wellFormed.toRanged
  initial config pool folder := by
    refine ⟨View.wellFormed_initial .., fun {r x} hr hx => ?_⟩
    rcases initialRecord_eq_some hx with ⟨rfl, -⟩ | ⟨-, hop⟩
    · exact absurd hr (by decide)
    · exact hop
  of_eq h hnins hnk hheads hrecord :=
    ⟨h.wellFormed.of_eq hnins hnk hheads hrecord, fun hr hx => h.fixed hr (hrecord ▸ hx)⟩
  push h hlimit hop := by
    refine ⟨h.wellFormed.push hlimit hop, fun {r y} hr hy => ?_⟩
    rcases record_push_cases hy with ⟨rfl, -⟩ | hy
    · -- an instruction goes above the fixed constants
      have hbase := h.wellFormed.base_lt
      have hlt := (Ref.isFixed_iff.mp hr).2
      grind
    · exact h.fixed hr hy
  pushConstant h hone hop := by
    refine ⟨h.wellFormed.pushConstant hone hop, fun {r y} hr hy => ?_⟩
    rcases record_pushConstant_cases hy with ⟨rfl, -⟩ | hy
    · -- a constant goes below them
      have hnk := h.wellFormed.nk_le
      have hle := (Ref.isFixed_iff.mp hr).1
      grind
    · exact h.fixed hr hy
  popInstruction {v} h hfirst := by
    refine ⟨h.wellFormed.popInstruction hfirst, fun {r y} hr hy => ?_⟩
    rw [popInstruction_record] at hy
    split at hy
    · cases hy
    · exact h.fixed hr hy
  popConstant {v} h htrue := by
    refine ⟨h.wellFormed.popConstant htrue, fun {r y} hr hy => ?_⟩
    rw [popConstant_record] at hy
    split at hy
    · cases hy
    · exact h.fixed hr hy

namespace Trace

variable {t t' : Trace} {f : Folder} {op : Opcode} {ty : Ty} {a b r : Ref} {x : Record}

private theorem Reachable.keepsFixed (h : Reachable t) : t.view.KeepsFixed := by
  have hboth : t.Laid ∧ t.view.KeepsFixed := by
    induction h with
    | start h => exact View.lasting_keepsFixed.of_start h
    | step _ s ih => exact View.lasting_keepsFixed.step ih.1 ih.2 s
  exact hboth.2

end Trace

/-! ### What constants are worth -/

namespace Object

/-- An object is worth a number exactly if it is a bare one. -/
private theorem isSome_number?_value (o : Object) :
    o.value.number?.isSome = o.number.isSome := by
  rw [value]
  split
  · next h =>
    rw [h]
    rfl
  · next h =>
    rw [h]
    rfl
  · next h =>
    rw [h]
    rfl

private theorem text?_value (o : Object) : o.value.text? = o.text := by
  rw [value]
  split
  · next h => exact (o.bare _ h).2.1.symm
  · next h => exact (o.bare _ h).2.1.symm
  · rfl

end Object

namespace Record

/-- The record is an object that is a bare number. -/
def IsBareNumber (x : Record) : Prop :=
  x.op = .kgc ∧ x.payload.object?.any (·.number.isSome) = true

/-- The record is a numeric constant. -/
def IsNumber (x : Record) : Prop :=
  x.op = .kint ∨ x.op = .knum ∨ x.IsBareNumber

private theorem IsNumber.op_ne {x : Record} (h : x.IsNumber) : x.op ≠ .kslot := by
  rcases h with h | h | h
  · rw [h]
    decide
  · rw [h]
    decide
  · rw [h.1]
    decide

/-- The text of an object. -/
def text? (x : Record) : Option Bytes :=
  if x.op = .kgc then x.payload.object?.bind (·.text) else none

/-- The record is an object of string type that has a text. -/
def IsText (x : Record) : Prop :=
  x.ty.isStr = true ∧ x.text?.isSome = true

end Record

namespace Trace

variable {t t' : Trace} {f : Folder} {op : Opcode} {ty : Ty} {a b r : Ref} {x y : Record}
  {va vb : Value}

/-- What the constant with the record `x` is worth. Only a slot of a table has no value. -/
inductive Worth (t : Trace) (r : Ref) (x : Record) : Prop
  | valued {v : Value} (hslot : x.op ≠ .kslot) (hv : t.value r = .ok v)
      (hnumber : v.number?.isSome = true ↔ x.IsNumber) (htext : v.text? = x.text?) : Worth t r x
  | valueless {e : Refusal} (hslot : x.op = .kslot) (hv : t.value r = .error (.refused e)) :
      Worth t r x

/-- A constant is worth its value if that is a number and has a text as its opcode says. -/
private theorem worth_of_value {v : Value} {o : Opcode} (hconst : r.isConst = true)
    (hx : t.record? r = .ok x) (hv : t.recordValue x = .ok v) (hop : x.op = o) (hslot : o ≠ .kslot)
    (hnumber : v.number?.isSome = true ↔ o = .kint ∨ o = .knum ∨
      o = .kgc ∧ x.payload.object?.any (·.number.isSome) = true)
    (htext : v.text? = if o = .kgc then x.payload.object?.bind (·.text) else none) :
    t.Worth r x := by
  have hvalue : t.value r = .ok v := by rw [value, if_pos hconst, hx, ← hv]
  subst hop
  exact .valued hslot hvalue hnumber htext

/-- A fixed constant is no number and has no text. -/
private theorem worth_of_primitive (hconst : r.isConst = true) (hx : t.record? r = .ok x)
    (hop : x.op = .kpri) : t.Worth r x := by
  obtain ⟨v, hv, hnumber, htext⟩ :
      ∃ v, t.recordValue x = .ok v ∧ v.number? = none ∧ v.text? = none := by
    simp only [recordValue, hop]
    split
    · exact ⟨_, rfl, rfl, rfl⟩
    · split
      · exact ⟨_, rfl, rfl, rfl⟩
      · exact ⟨_, rfl, rfl, rfl⟩
  exact worth_of_value hconst hx hv hop (by decide) (by simp [hnumber]) htext

/-- An interned constant is worth what its key is. -/
private theorem worth_of_key {k : Key} (hconst : r.isConst = true) (hx : t.record? r = .ok x)
    (hk : x.IsFor k) (hheld : k.HeldIn t.pool) : t.Worth r x := by
  have hop := Record.op_of_key? hk.key
  have hkey := hk.key
  cases k with
  | int i =>
    have hop : x.op = .kint := hop
    exact worth_of_value hconst hx (hk.value rfl) hop (by decide) (by simp [Value.number?]) rfl
  | num s =>
    -- a number from the pool is there, and the masks need no pool
    obtain ⟨n, hn⟩ : ∃ n, s.value? t.pool = some n := by
      cases s with
      | pooled i =>
        obtain ⟨n, hn⟩ := hheld
        exact ⟨n, hn.get?⟩
      | absMask => exact ⟨_, rfl⟩
      | negMask => exact ⟨_, rfl⟩
    have hop : x.op = .knum := hop
    have hv : t.recordValue x = .ok (.num n) := hk.value (by rw [Key.value?, hn]; rfl)
    exact worth_of_value hconst hx hv hop (by decide) (by simp [Value.number?]) rfl
  | object o =>
    -- the payload is the object of the key, so numbers and texts are the same
    have hop : x.op = .kgc := hop
    simp only [Record.key?, hop, Option.map_eq_some_iff, Key.object.injEq, exists_eq_right] at hkey
    refine worth_of_value hconst hx (hk.value rfl) hop (by decide) ?_ ?_
    · rw [o.isSome_number?_value, hkey]
      simp
    · rw [if_pos rfl, hkey, o.text?_value]
      rfl
  | pointer q =>
    have hop : x.op = .kptr := hop
    exact worth_of_value hconst hx (hk.value rfl) hop (by decide) (by simp [Value.number?]) rfl
  | null tag =>
    have hop : x.op = .knull := hop
    exact worth_of_value hconst hx (hk.value rfl) hop (by decide) (by simp [Value.number?]) rfl
  | slot key index =>
    have hop : x.op = .kslot := hop
    have hv : t.recordValue x = .error (.refused (.noValue .kslot)) := by
      simp only [recordValue, hop]
    refine .valueless hop (e := .noValue .kslot) ?_
    rw [value, if_pos hconst, hx, ← hv]

/-- **Constants of a recording** are worth what their opcodes say. -/
theorem Reachable.worth (h : Reachable t) (hconst : r.isConst = true) (hx : t.record? r = .ok x) :
    t.Worth r x := by
  have hrecord := record?_eq_ok_iff.mp hx
  by_cases hfixed : r.IsFixed
  · exact worth_of_primitive hconst hx (h.keepsFixed.fixed hfixed hrecord)
  · obtain ⟨k, hk, hheld⟩ := h.canonical.canonical.interned hconst hfixed hrecord
    exact worth_of_key hconst hx hk hheld

/-! ### What the folder finds -/

/-- If one of them is no number, one reference is one value, and objects of string type are ordered
by their texts. -/
private theorem outcome?_of_no_number (h : va.number? = none ∨ vb.number? = none) :
    t.outcome? op a b va vb =
      if a = b ∧ (op = .eq ∨ op = .ne) then some (op == .eq)
      else op.orderTexts? (t.stringText? a va) (t.stringText? b vb) := by
  rw [outcome?]
  split
  · next n m hn hm =>
    rw [hn, hm] at h
    rcases h with h | h
    · cases h
    · cases h
  · rfl

private theorem outcome?_of_numbers {n m : Binary64} (hn : va.number? = some n)
    (hm : vb.number? = some m) :
    t.outcome? op a b va vb = op.compareNumbers? n m := by
  rw [outcome?, hn, hm]

/-- Two values are numbers, or one of them is none. -/
private theorem numbers_cases (va vb : Value) :
    (∃ n m, va.number? = some n ∧ vb.number? = some m) ∨
      va.number? = none ∨ vb.number? = none := by
  cases hn : va.number? with
  | none => exact .inr (.inl rfl)
  | some n =>
    cases hm : vb.number? with
    | none => exact .inr (.inr rfl)
    | some m => exact .inl ⟨n, m, rfl, rfl⟩

private theorem outcome?_mirrored (t : Trace) (op : Opcode) (a b : Ref) (va vb : Value) :
    t.outcome? op.mirrored b a vb va = t.outcome? op a b va vb := by
  rcases numbers_cases va vb with ⟨n, m, hn, hm⟩ | hnone
  · rw [outcome?_of_numbers hm hn, outcome?_of_numbers hn hm, Opcode.compareNumbers?_mirrored]
  · rw [outcome?_of_no_number hnone.symm, outcome?_of_no_number hnone]
    -- the equalities are their own mirrors
    have heq : op.mirrored = .eq ↔ op = .eq := by cases op <;> decide
    have hne : op.mirrored = .ne ↔ op = .ne := by cases op <;> decide
    by_cases hsame : a = b ∧ (op = .eq ∨ op = .ne)
    · rw [if_pos hsame, if_pos (by rw [heq, hne]; exact ⟨hsame.1.symm, hsame.2⟩)]
      rcases hsame.2 with rfl | rfl
      · rfl
      · rfl
    · rw [if_neg hsame, if_neg (by rw [heq, hne]; exact fun h => hsame ⟨h.1.symm, h.2⟩),
        Opcode.orderTexts?_mirrored]

private theorem outcome?_opposite (h : va.number? = none ∨ vb.number? = none) :
    t.outcome? op.opposite a b va vb = (t.outcome? op a b va vb).map (!·) := by
  rw [outcome?_of_no_number h, outcome?_of_no_number h]
  -- the equalities are each other's opposites
  have hequality : op.opposite = .eq ∨ op.opposite = .ne ↔ op = .eq ∨ op = .ne := by
    cases op <;> decide
  by_cases hsame : a = b ∧ (op = .eq ∨ op = .ne)
  · rw [if_pos hsame, if_pos (by rwa [hequality])]
    rcases hsame.2 with rfl | rfl
    · rfl
    · rfl
  · rw [if_neg hsame, if_neg (by rwa [hequality]), Opcode.orderTexts?_opposite]

/-- What the folder finds about a comparison of two constants. -/
def decision? (t : Trace) (op : Opcode) (a b : Ref) : Option Bool :=
  match t.value a, t.value b with
  | .ok va, .ok vb => t.outcome? op a b va vb
  | _, _ => none

private theorem decision?_of_values (ha : t.value a = .ok va) (hb : t.value b = .ok vb) :
    t.decision? op a b = t.outcome? op a b va vb := by
  rw [decision?, ha, hb]

/-- A constant without a value leaves the comparison open. -/
private theorem decision?_of_valueless {e : Fault}
    (h : t.value a = .error e ∨ t.value b = .error e) :
    t.decision? op a b = none := by
  rw [decision?]
  split
  · next va vb ha hb =>
    rw [ha, hb] at h
    rcases h with h | h
    · cases h
    · cases h
  · rfl

theorem decision?_mirrored (t : Trace) (op : Opcode) (a b : Ref) :
    t.decision? op.mirrored b a = t.decision? op a b := by
  rw [decision?, decision?]
  cases t.value a with
  | error e =>
    cases t.value b with
    | error e' => rfl
    | ok vb => rfl
  | ok va =>
    cases t.value b with
    | error e' => rfl
    | ok vb => exact outcome?_mirrored t op a b va vb

/-- The constant is a number. -/
def IsNumber (t : Trace) (r : Ref) : Prop :=
  ∃ x, t.record? r = .ok x ∧ x.IsNumber

/-- The folder can decide the comparison: of two numbers, of a constant with itself, or of the order
of two texts. -/
inductive Comparable (t : Trace) (op : Opcode) (a b : Ref) : Prop
  | numbers (ha : t.IsNumber a) (hb : t.IsNumber b) : Comparable t op a b
  | same {x : Record} (heq : a = b) (hop : op = .eq ∨ op = .ne) (hx : t.record? a = .ok x)
      (hnumber : ¬ x.IsNumber) (hslot : x.op ≠ .kslot) : Comparable t op a b
  | texts {x y : Record} (hx : t.record? a = .ok x) (hy : t.record? b = .ok y) (ha : x.IsText)
      (hb : y.IsText) (hop : op = .lt ∨ op = .ge ∨ op = .le ∨ op = .gt) : Comparable t op a b

private theorem isNumber_iff (hx : t.record? r = .ok x) : t.IsNumber r ↔ x.IsNumber := by
  constructor
  · rintro ⟨z, hz, hnumber⟩
    obtain rfl := Except.ok.inj (hx.symm.trans hz)
    exact hnumber
  · intro hnumber
    exact ⟨x, hx, hnumber⟩

private theorem stringText?_isSome_iff {v : Value} (hx : t.record? r = .ok x)
    (htext : v.text? = x.text?) :
    (t.stringText? r v).isSome = true ↔ x.IsText := by
  rw [stringText?, hx, Record.IsText, ← htext]
  dsimp only
  by_cases hstr : x.ty.isStr = true
  · rw [if_pos hstr]
    exact ⟨fun h => ⟨hstr, h⟩, fun h => h.2⟩
  · rw [if_neg hstr]
    exact iff_of_false (by decide) fun h => hstr h.1

/-- Of two constants that are worth something, the folder decides what is comparable. -/
private theorem outcome?_isSome_iff (hx : t.record? a = .ok x) (hy : t.record? b = .ok y)
    (hslot : x.op ≠ .kslot) (hna : va.number?.isSome = true ↔ x.IsNumber)
    (hnb : vb.number?.isSome = true ↔ y.IsNumber) (hta : va.text? = x.text?)
    (htb : vb.text? = y.text?) (hop : op.isComparison = true) :
    (t.outcome? op a b va vb).isSome = true ↔ t.Comparable op a b := by
  rcases numbers_cases va vb with ⟨n, m, hn, hm⟩ | hnone
  · rw [outcome?_of_numbers hn hm, op.compareNumbers?_isSome]
    refine iff_of_true hop (.numbers ⟨x, hx, hna.mp ?_⟩ ⟨y, hy, hnb.mp ?_⟩)
    · rw [hn]
      rfl
    · rw [hm]
      rfl
  -- one of the two is no number, and if they are the same neither is
  have hnot : ¬ (x.IsNumber ∧ y.IsNumber) := by
    rintro ⟨hxn, hyn⟩
    rcases hnone with h | h
    · have hsome := hna.mpr hxn
      rw [h] at hsome
      cases hsome
    · have hsome := hnb.mpr hyn
      rw [h] at hsome
      cases hsome
  rw [outcome?_of_no_number hnone]
  by_cases hsame : a = b ∧ (op = .eq ∨ op = .ne)
  · rw [if_pos hsame]
    obtain ⟨rfl, hequality⟩ := hsame
    obtain rfl := Except.ok.inj (hx.symm.trans hy)
    exact iff_of_true rfl (.same rfl hequality hx (fun hxn => hnot ⟨hxn, hxn⟩) hslot)
  rw [if_neg hsame, Opcode.orderTexts?_isSome_iff, stringText?_isSome_iff hx hta,
    stringText?_isSome_iff hy htb]
  constructor
  · rintro ⟨ha, hb, horder⟩
    exact .texts hx hy ha hb horder
  · intro hcomparable
    cases hcomparable with
    | numbers ha hb => exact absurd ⟨(isNumber_iff hx).mp ha, (isNumber_iff hy).mp hb⟩ hnot
    | same heq hequality _ _ _ => exact absurd ⟨heq, hequality⟩ hsame
    | texts hx' hy' ha hb horder =>
      obtain rfl := Except.ok.inj (hx.symm.trans hx')
      obtain rfl := Except.ok.inj (hy.symm.trans hy')
      exact ⟨ha, hb, horder⟩

/-- A slot of a table cannot be compared. -/
private theorem not_comparable_of_slot (hx : t.record? a = .ok x) (hy : t.record? b = .ok y)
    (h : x.op = .kslot ∨ y.op = .kslot) : ¬ t.Comparable op a b := by
  intro hcomparable
  cases hcomparable with
  | numbers ha hb =>
    rcases h with h | h
    · exact ((isNumber_iff hx).mp ha).op_ne h
    · exact ((isNumber_iff hy).mp hb).op_ne h
  | same heq _ hx' _ hslot =>
    subst heq
    obtain rfl := Except.ok.inj (hx.symm.trans hx')
    obtain rfl := Except.ok.inj (hx.symm.trans hy)
    exact hslot (or_self_iff.mp h)
  | texts hx' hy' ha hb _ =>
    obtain rfl := Except.ok.inj (hx.symm.trans hx')
    obtain rfl := Except.ok.inj (hy.symm.trans hy')
    simp only [Record.IsText, Record.text?] at ha hb
    rcases h with h | h
    · simp [h] at ha
    · simp [h] at hb

/-- **When the folder decides.** -/
theorem decision?_isSome_iff (hx : t.record? a = .ok x) (hy : t.record? b = .ok y)
    (ha : t.Worth a x) (hb : t.Worth b y) (hop : op.isComparison = true) :
    (t.decision? op a b).isSome = true ↔ t.Comparable op a b := by
  cases ha with
  | valueless hslot hv =>
    rw [decision?_of_valueless (.inl hv)]
    exact iff_of_false (by decide) (not_comparable_of_slot hx hy (.inl hslot))
  | valued hslot hva hna hta =>
    cases hb with
    | valueless hslot' hv =>
      rw [decision?_of_valueless (.inr hv)]
      exact iff_of_false (by decide) (not_comparable_of_slot hx hy (.inr hslot'))
    | valued hslot' hvb hnb htb =>
      rw [decision?_of_values hva hvb]
      exact outcome?_isSome_iff hx hy hslot hna hnb hta htb hop

/-- Of numbers the negated comparison has the opposite outcome. -/
theorem decision?_negated (op : Opcode) (ha : t.Worth a x) (hb : t.Worth b y)
    (hxn : x.IsNumber) (hyn : y.IsNumber) :
    t.decision? op.negated a b = (t.decision? op a b).map (!·) := by
  cases ha with
  | valueless hslot hv => exact absurd hslot hxn.op_ne
  | valued hslot hva hna hta =>
    cases hb with
    | valueless hslot' hv => exact absurd hslot' hyn.op_ne
    | valued hslot' hvb hnb htb =>
      obtain ⟨n, hn⟩ := Option.isSome_iff_exists.mp (hna.mpr hxn)
      obtain ⟨m, hm⟩ := Option.isSome_iff_exists.mp (hnb.mpr hyn)
      rw [decision?_of_values hva hvb, decision?_of_values hva hvb, outcome?_of_numbers hn hm,
        outcome?_of_numbers hn hm, Opcode.compareNumbers?_negated]

/-- If they are not both numbers, the opposite comparison has the opposite outcome. -/
theorem decision?_opposite (ha : t.Worth a x) (hb : t.Worth b y)
    (hnot : ¬ (x.IsNumber ∧ y.IsNumber)) :
    t.decision? op.opposite a b = (t.decision? op a b).map (!·) := by
  cases ha with
  | valueless hslot hv =>
    rw [decision?_of_valueless (.inl hv), decision?_of_valueless (.inl hv)]
    rfl
  | valued hslot hva hna hta =>
    cases hb with
    | valueless hslot' hv =>
      rw [decision?_of_valueless (.inr hv), decision?_of_valueless (.inr hv)]
      rfl
    | valued hslot' hvb hnb htb =>
      rw [decision?_of_values hva hvb, decision?_of_values hva hvb]
      rename_i va vb
      rcases numbers_cases va vb with ⟨n, m, hn, hm⟩ | hnone
      · exact absurd ⟨hna.mp (by rw [hn]; rfl), hnb.mp (by rw [hm]; rfl)⟩ hnot
      · exact outcome?_opposite hnone

/-! ### What is emitted -/

/-- How the emission of a comparison ends, given what the folder finds: it is answered with the
constant `true`, refused because the guard would fail, answered with an instruction, or refused
because the trace is full. -/
inductive Compared (t : Trace) (op : Opcode) :
    Option Bool → EStateM.Result Fault Trace TRef → Prop
  | holds : Compared t op (some true) (.ok (.of Ref.true Ty.true) t)
  | fails {va vb : Value} :
      Compared t op (some false) (.error (.refused (.guardFails op va vb)) t)
  | recorded {y : TRef} {t' : Trace} (hy : y.ref ≠ Ref.true) : Compared t op none (.ok y t')
  | full : Compared t op none (.error (.refused .traceOverflow) t)

/-- A comparison that goes to its place is answered with an instruction, or the trace is full. -/
private theorem Sound.compared_place (h : t.Sound) (hfolder : t.folder = some f)
    (hop : op.isComparison = true) (ty : Ty) (a b : Ref) :
    Compared t op none ((place f op ty a b).run t) := by
  obtain ⟨hnormal, hconst⟩ := Opcode.plain_of_comparison hop
  -- instructions lie above the fixed constants
  have habove : ∀ {r : Ref}, r.isConst = false → r ≤ Ref.limit → (TRef.of r ty).ref ≠ Ref.true := by
    intro r hr hle htrue
    rw [TRef.ref_of hle] at htrue
    subst htrue
    exact absurd hr (by decide)
  rcases h.run_place hfolder hnormal hconst ty a b with
    ⟨-, r, x, hx, hxop, hrun⟩ | ⟨-, hrun⟩
  · have hlive := (t.isLive_iff r).mp (isLive_of_record? hx)
    have hkind := h.wellFormed.kind (record?_eq_ok_iff.mp hx)
    rw [hxop, hconst] at hkind
    rw [hrun]
    refine .recorded (habove hkind.symm ?_)
    exact UInt32.le_trans (UInt32.le_of_lt hlive.2) h.laid.nins_le
  · rw [hrun]
    by_cases hfull : t.InstructionsFull
    · rw [run_emitRaw, if_pos hfull]
      exact .full
    · obtain ⟨t', hraw, -, -⟩ := h.laid.run_emitRaw hfull op ty a b
      rw [hraw]
      refine .recorded (habove ?_ h.laid.nins_le)
      have hbase := UInt32.lt_iff_toNat_lt.mp h.laid.base_lt
      rw [Ref.toNat_base] at hbase
      exact (Ref.isConst_eq_false_iff _).mpr (Nat.le_of_lt hbase)

private theorem Sound.compared_emitDecided (h : t.Sound) (hfolder : t.folder = some f)
    (hfold : f.fold = true) (ha : t.Worth a x) (hb : t.Worth b y) (haconst : a.isConst = true)
    (hbconst : b.isConst = true) (hop : op.isComparison = true) (ty : Ty) :
    Compared t op (t.decision? op a b) ((emitDecided f op ty a b).run t) := by
  have hdecide : (f.fold && op.isComparison && a.isConst && b.isConst) = true := by
    rw [hfold, hop, haconst, hbconst]
    rfl
  rw [emitDecided, if_pos hdecide, EStateM.run_bind, EStateM.run_get]
  dsimp only
  -- a comparison that is left open, for want of a value or of an outcome, goes to its place
  cases ha with
  | valueless _ hv =>
    rw [decision?_of_valueless (.inl hv), foldComparison, hv]
    exact h.compared_place hfolder hop ty a b
  | valued _ hva _ _ =>
    cases hb with
    | valueless _ hv =>
      rw [decision?_of_valueless (.inr hv), foldComparison, hva, hv]
      exact h.compared_place hfolder hop ty a b
    | valued _ hvb _ _ =>
      rw [decision?_of_values hva hvb, foldComparison, hva, hvb, fixedRef_true]
      dsimp only
      cases t.outcome? op a b _ _ with
      | none => exact h.compared_place hfolder hop ty a b
      | some v =>
        cases v with
        | true => exact .holds
        | false => exact .fails

/-- **Emission** of a comparison of two constants. The operands are exchanged only for the equalities,
which are their own mirrors. -/
theorem Sound.compared_emit (h : t.Sound) (hfolder : t.folder = some f) (hfold : f.fold = true)
    (ha : t.Worth a x) (hb : t.Worth b y) (haconst : a.isConst = true) (hbconst : b.isConst = true)
    (hop : op.isComparison = true) (ty : Ty) :
    Compared t op (t.decision? op a b) ((emit op ty a b).run t) := by
  rw [emit, EStateM.run_bind, EStateM.run_get]
  dsimp only
  rw [hfolder]
  dsimp only
  split
  · next hswap =>
    simp only [Bool.and_eq_true] at hswap
    have hmirror := Opcode.mirrored_of_commutative hop hswap.1.2
    have hdecision := t.decision?_mirrored op a b
    rw [hmirror] at hdecision
    rw [← hdecision]
    exact h.compared_emitDecided hfolder hfold hb ha hbconst haconst hop ty
  · exact h.compared_emitDecided hfolder hfold ha hb haconst hbconst hop ty

/-- The emission decides the comparison: it is answered with the constant `true`, or it is refused
because the guard would fail. -/
inductive Decides (t : Trace) (op : Opcode) (ty : Ty) (a b : Ref) : Bool → Prop
  | holds {y : TRef} {t' : Trace} (hrun : (emit op ty a b).run t = .ok y t')
      (hy : y.ref = Ref.true) : Decides t op ty a b true
  | fails {op' : Opcode} {va vb : Value} {t' : Trace}
      (hrun : (emit op ty a b).run t = .error (.refused (.guardFails op' va vb)) t') :
      Decides t op ty a b false

namespace Compared

variable {d : Option Bool} {z : EStateM.Result Fault Trace TRef} {v : Bool}

private theorem not_broken (h : Compared t op d z) (e : Breach) (t' : Trace) :
    z ≠ .error (.broken e) t' := by
  cases h with
  | holds | fails | recorded | full => exact fun hz => by cases hz

/-- What is decided is what the folder finds. -/
private theorem decides_iff (h : Compared t op d ((emit op ty a b).run t)) :
    t.Decides op ty a b v ↔ d = some v := by
  generalize hrun : (emit op ty a b).run t = z at h
  constructor
  · intro hdecides
    cases hdecides with
    | holds hholds hy =>
      rw [hrun] at hholds
      subst hholds
      -- an instruction does not have the reference of the constant
      cases h with
      | holds => rfl
      | recorded hne => exact absurd hy hne
    | fails hfails =>
      rw [hrun] at hfails
      subst hfails
      cases h with
      | fails => rfl
  · rintro rfl
    cases h with
    | holds => exact .holds hrun (TRef.ref_of (by decide) _)
    | fails => exact .fails hrun

/-- A decision changes nothing. -/
private theorem after_eq (h : Compared t op (some v) ((emit op ty a b).run t)) :
    t.after (emit op ty a b) = t := by
  generalize hrun : (emit op ty a b).run t = z at h
  cases h with
  | holds => exact after_of_ok hrun
  | fails => exact after_of_error hrun

end Compared

/-- **Comparisons of constants are coherent.** With a folder that decides comparisons, the emission
of a comparison of two constants breaks no rule. It is decided, which changes nothing, exactly if
the two are comparable: both are numbers, objects that are bare numbers included, or they are one
constant that is no number and no slot and the opcode is an equality, or both are texts and the
opcode orders them. What is decided is decided in the same way for exchanged operands and the
mirrored opcode, and in the opposite way for the negated opcode; of numbers that is the unordered
comparison in the other direction, NaNs included. -/
theorem Reachable.comparisons_coherent (h : Reachable t) (hfolder : t.folder = some f)
    (hfold : f.fold = true) (ha : t.isLive a = true) (hb : t.isLive b = true)
    (haconst : a.isConst = true) (hbconst : b.isConst = true) (hop : op.isComparison = true)
    (ty : Ty) :
    (∀ e t', (emit op ty a b).run t ≠ .error (.broken e) t') ∧
      (∀ v, t.Decides op ty a b v → t.after (emit op ty a b) = t) ∧
      ((∃ v, t.Decides op ty a b v) ↔ t.Comparable op a b) ∧
      ∀ v, t.Decides op ty a b v → ∀ ty',
        t.Decides op.mirrored ty' b a v ∧
        (t.IsNumber a → t.IsNumber b → t.Decides op.negated ty' a b (!v)) ∧
        (¬ (t.IsNumber a ∧ t.IsNumber b) → t.Decides op.opposite ty' a b (!v)) := by
  obtain ⟨x, hx⟩ := h.sound.exists_record ha
  obtain ⟨y, hy⟩ := h.sound.exists_record hb
  have hworth := h.worth haconst hx
  have hworth' := h.worth hbconst hy
  -- every comparison of the two is decided by what the folder finds; the rest is about `decision?`
  have hcompared : ∀ {op' : Opcode}, op'.isComparison = true → ∀ ty',
      Compared t op' (t.decision? op' a b) ((emit op' ty' a b).run t) := fun hop' ty' =>
    h.sound.compared_emit hfolder hfold hworth hworth' haconst hbconst hop' ty'
  have hemit := hcompared hop ty
  refine ⟨hemit.not_broken, fun v hv => ?_, ?_, fun v hv ty' => ⟨?_, fun hna hnb => ?_, fun hnot => ?_⟩⟩
  · rw [hemit.decides_iff] at hv
    rw [hv] at hemit
    exact hemit.after_eq
  · rw [← decision?_isSome_iff hx hy hworth hworth' hop, Option.isSome_iff_exists]
    exact exists_congr fun v => hemit.decides_iff
  · have hmirrored := h.sound.compared_emit hfolder hfold hworth' hworth hbconst haconst
      (Opcode.isComparison_mirrored hop) ty'
    rw [hmirrored.decides_iff, decision?_mirrored]
    exact hemit.decides_iff.mp hv
  · have hboth := decision?_negated op hworth hworth' ((isNumber_iff hx).mp hna)
      ((isNumber_iff hy).mp hnb)
    rw [(hcompared (Opcode.isComparison_negated hop) ty').decides_iff, hboth,
      hemit.decides_iff.mp hv]
    rfl
  · rw [isNumber_iff hx, isNumber_iff hy] at hnot
    rw [(hcompared (Opcode.isComparison_opposite hop) ty').decides_iff,
      decision?_opposite hworth hworth' hnot, hemit.decides_iff.mp hv]
    rfl

/-- A NaN, which is interned as a number. -/
def withNaN : List Step :=
  [.useFolder (some ⟨true, true⟩), .intern (.num ⟨0x7ff8000000000001⟩)]

/-- A NaN is not less than itself, so neither is it greater, and it is unordered to itself. -/
theorem comparisons_coherent_of_withNaN :
    ∃ t a, Reachable t ∧ t.isLive a = true ∧ t.Decides .lt Ty.num a a false ∧
      t.Decides .gt Ty.num a a false ∧ t.Decides .uge Ty.num a a true := by
  obtain ⟨t₀, ht₀⟩ : ∃ t, start {} {} = .ok t := ⟨_, rfl⟩
  have hreachable := (Reachable.start ht₀).steps withNaN
  generalize ht : t₀.steps withNaN = t at hreachable
  obtain ⟨hfolder, hlive, hnumber, hless⟩ : t.folder = some ⟨true, true⟩ ∧
      t.isLive (Ref.true - 1) = true ∧ t.IsNumber (Ref.true - 1) ∧
      t.Decides .lt Ty.num (Ref.true - 1) (Ref.true - 1) false := by
    subst ht
    cases ht₀
    exact ⟨rfl, rfl, ⟨_, rfl, .inr (.inl rfl)⟩, .fails rfl⟩
  have hconst : (Ref.true - 1).isConst = true := by decide
  have hop : Opcode.lt.isComparison = true := rfl
  obtain ⟨-, -, -, hcoherent⟩ := hreachable.comparisons_coherent hfolder rfl hlive hlive hconst hconst
    hop Ty.num
  obtain ⟨hgreater, hnegated, -⟩ := hcoherent false hless Ty.num
  exact ⟨t, _, hreachable, hlive, hless, hgreater, hnegated hnumber hnumber⟩

/-- Two bare numbers, which are interned as tables. -/
def withBareNumbers : List Step :=
  [.useFolder (some ⟨true, true⟩),
    .intern (.object (some { ty := Ty.nil, text := none, number := some (.int 1) }) Ty.tab),
    .intern (.object (some { ty := Ty.nil, text := none, number := some (.int 2) }) Ty.tab)]

/-- It is not the opcodes of two constants alone that tell whether their comparison is decided.
Objects that are bare numbers are compared as such. And if a zero was emitted as an instruction, a
request for zero is answered with it, but its comparison with one is recorded like any other. -/
theorem decisions_not_by_opcode_alone :
    (∃ t a b x y, Reachable t ∧ t.folder = some ⟨true, true⟩ ∧ t.record? a = .ok x ∧
      t.record? b = .ok y ∧ a.isConst = true ∧ b.isConst = true ∧ a ≠ b ∧ x.op = .kgc ∧
      y.op = .kgc ∧ x.ty = Ty.tab ∧ y.ty = Ty.tab ∧ t.Decides .lt Ty.int a b true) ∧
    ∃ t₀ t t', start {} {} = .ok t₀ ∧
      t = ((t₀.step (.useFolder (some ⟨true, true⟩))).after (emitRaw .kint Ty.int 0 0)).step
        (.intern (.int 1)) ∧
      (∃ x, t.record? Ref.first = .ok x ∧ x.op = .kint) ∧
      (kint 0).run t = .ok (.of Ref.first Ty.int) t ∧
      (kint 1).run t = .ok (.of (Ref.true - 1) Ty.int) t ∧
      (emit .lt Ty.int.guarded Ref.first (Ref.true - 1)).run t =
        .ok (.of t.nins Ty.int.guarded) t' ∧ t'.nins = t.nins + 1 := by
  obtain ⟨t₀, ht₀⟩ : ∃ t, start {} {} = .ok t := ⟨_, rfl⟩
  constructor
  · have hreachable := (Reachable.start ht₀).steps withBareNumbers
    generalize ht : t₀.steps withBareNumbers = t at hreachable
    obtain ⟨x, y, hfolder, hx, hy, hxop, hyop, hxty, hyty, hdecision⟩ :
        ∃ x y, t.folder = some ⟨true, true⟩ ∧ t.record? (Ref.true - 1) = .ok x ∧
          t.record? (Ref.true - 2) = .ok y ∧ x.op = .kgc ∧ y.op = .kgc ∧ x.ty = Ty.tab ∧
          y.ty = Ty.tab ∧ t.decision? .lt (Ref.true - 1) (Ref.true - 2) = some true := by
      subst ht
      cases ht₀
      exact ⟨_, _, rfl, rfl, rfl, rfl, rfl, rfl, rfl, by decide +kernel⟩
    have hconst : (Ref.true - 1).isConst = true := by decide
    have hconst' : (Ref.true - 2).isConst = true := by decide
    have hop : Opcode.lt.isComparison = true := rfl
    have hcompared := hreachable.sound.compared_emit hfolder rfl (hreachable.worth hconst hx)
      (hreachable.worth hconst' hy) hconst hconst' hop Ty.int
    exact ⟨t, _, _, x, y, hreachable, hfolder, hx, hy, hconst, hconst', by decide, hxop, hyop, hxty,
      hyty, hcompared.decides_iff.mpr hdecision⟩
  · cases ht₀
    exact ⟨_, _, _, rfl, rfl, ⟨_, rfl, rfl⟩, rfl, rfl, rfl, rfl⟩

end Trace

end TraceIR
