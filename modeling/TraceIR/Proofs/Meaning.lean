import Mathlib.Data.List.Induction
import TraceIR.Proofs.Chain

/-!
# What a trace computes

A trace is a straight line of instructions, so it computes one value after the other. A `Meaning`
says what constants and opcodes stand for. Instructions that read or write memory are events: their
order, opcodes, types and operands can be seen from outside, and the value of each may depend on
how many came before it, but on nothing else.

* `View.instructions` — the instructions in order, and how it changes as records enter.
* `Meaning.run` — the values of the instructions and the events.
* `Meaning.getElem?_values_run` — the value of a normal instruction, from the values of all
  instructions of the trace.
-/

namespace TraceIR

/-- An operand as an opcode sees it. -/
inductive Arg (V : Type) where
  | value (v : V)
  | literal (n : Ref)
  | absent

/-- An access to memory. -/
structure Event (V : Type) where
  op : Opcode
  ty : Ty
  left : Arg V
  right : Arg V

/-- What the parts of a trace stand for. -/
structure Meaning (V : Type) where
  /-- The value of a constant. -/
  const : Ref → V
  /-- The value of an instruction that depends on its operands alone. -/
  normal : Opcode → Ty → Arg V → Arg V → V
  /-- The value of an event, by the number of events before it. -/
  effect : Nat → V

/-- The values of the instructions so far, and the events. -/
structure Evaluation (V : Type) where
  values : List V := []
  events : List (Event V) := []

namespace Meaning

variable {V : Type} (M : Meaning V)

/-- The value at a reference, given the values of the instructions from `BASE` on. -/
def valueAt (values : List V) (r : Ref) : Option V :=
  if r.isConst then some (M.const r) else values[r.toNat - Ref.base.toNat]?

/-- An operand, given the values of the instructions from `BASE` on. -/
def arg (values : List V) (kind : OperandKind) (r : Ref) : Arg V :=
  match kind with
  | .ref => ((M.valueAt values r).map .value).getD .absent
  | .lit => .literal r
  | .const | .absent => .absent

/-- The operands of a record. -/
def args (values : List V) (x : Record) : Arg V × Arg V :=
  (M.arg values x.op.shape.left x.left, M.arg values x.op.shape.right x.right)

/-- The value that an instruction computes next. -/
def result (e : Evaluation V) (x : Record) : V :=
  if x.op.isNormal then M.normal x.op x.ty.tag (M.args e.values x).1 (M.args e.values x).2
  else M.effect e.events.length

/-- What can be seen of an instruction. -/
def seen (e : Evaluation V) (x : Record) : List (Event V) :=
  if x.op.isNormal then [] else [⟨x.op, x.ty, (M.args e.values x).1, (M.args e.values x).2⟩]

/-- Execute one instruction. -/
def step (e : Evaluation V) (x : Record) : Evaluation V where
  values := e.values ++ [M.result e x]
  events := e.events ++ M.seen e x

/-- Execute instructions in order. -/
def run (xs : List Record) : Evaluation V :=
  xs.foldl M.step {}

theorem result_of_normal {x : Record} (hx : x.op.isNormal = true) (e : Evaluation V) :
    M.result e x = M.normal x.op x.ty.tag (M.args e.values x).1 (M.args e.values x).2 :=
  if_pos hx

theorem seen_of_normal {x : Record} (hx : x.op.isNormal = true) (e : Evaluation V) :
    M.seen e x = [] :=
  if_pos hx

/-- Only the opcode, the type, the operands and the events so far matter. -/
theorem result_congr {e e' : Evaluation V} {x x' : Record}
    (hargs : M.args e'.values x' = M.args e.values x) (hevents : e'.events = e.events)
    (hop : x'.op = x.op) (hty : x'.ty = x.ty) :
    M.result e' x' = M.result e x ∧ M.seen e' x' = M.seen e x := by
  rw [result, result, seen, seen, hop, hty, hargs, hevents]
  exact ⟨rfl, rfl⟩

/-! ### Values stay -/

theorem run_concat (xs : List Record) (x : Record) :
    M.run (xs ++ [x]) = M.step (M.run xs) x := by
  rw [run, List.foldl_append]
  rfl

/-- Every instruction has one value. -/
theorem length_values_run (xs : List Record) : (M.run xs).values.length = xs.length := by
  induction xs using List.reverseRecOn with
  | nil => rfl
  | append_singleton xs x ih =>
    rw [run_concat, step, List.length_append, List.length_append, ih]
    rfl

/-- Later instructions leave the values of earlier ones alone. -/
private theorem values_prefix_run (xs ys : List Record) :
    (M.run xs).values <+: (M.run (xs ++ ys)).values := by
  induction ys using List.reverseRecOn with
  | nil => exact ⟨[], by rw [List.append_nil, List.append_nil]⟩
  | append_singleton ys y ih =>
    rw [← List.append_assoc, run_concat]
    exact ih.trans (List.prefix_append ..)

variable {values values' : List V} {r : Ref} {v : V}

theorem valueAt_of_const (hr : r.isConst = true) (values : List V) :
    M.valueAt values r = some (M.const r) :=
  if_pos hr

variable {M} in
/-- A value that is there stays. -/
theorem valueAt_of_prefix (h : values <+: values') (hv : M.valueAt values r = some v) :
    M.valueAt values' r = some v := by
  rw [valueAt] at hv ⊢
  by_cases hr : r.isConst = true
  · rw [if_pos hr] at hv ⊢
    exact hv
  · rw [if_neg hr] at hv ⊢
    obtain ⟨rest, rfl⟩ := h
    have hlt := (List.getElem?_eq_some_iff.mp hv).1
    rw [List.getElem?_append_left hlt]
    exact hv

/-- Operands older than the instructions so far are the same whatever comes after. -/
private theorem arg_of_prefix (h : values <+: values')
    (hr : r.toNat < Ref.base.toNat + values.length) (kind : OperandKind) :
    M.arg values' kind r = M.arg values kind r := by
  have hvalue : M.valueAt values' r = M.valueAt values r := by
    rw [valueAt, valueAt]
    by_cases hconst : r.isConst = true
    · rw [if_pos hconst, if_pos hconst]
    · have hbase := (Ref.isConst_eq_false_iff r).mp (Bool.not_eq_true _ ▸ hconst)
      rw [Ref.toNat_base] at hr ⊢
      obtain ⟨rest, rfl⟩ := h
      rw [if_neg hconst, if_neg hconst, List.getElem?_append_left (by omega)]
  cases kind with
  | ref => rw [arg.eq_def, arg.eq_def, hvalue]
  | lit => rfl
  | const => rfl
  | absent => rfl

/-- **The value of a normal instruction** whose operands are older. -/
theorem getElem?_values_run {xs : List Record} {i : Nat} {x : Record} (hx : xs[i]? = some x)
    (hop : x.op.isNormal = true) (hleft : x.left.toNat < Ref.base.toNat + i)
    (hright : x.right.toNat < Ref.base.toNat + i) :
    (M.run xs).values[i]? =
      some (M.normal x.op x.ty.tag (M.arg (M.run xs).values x.op.shape.left x.left)
        (M.arg (M.run xs).values x.op.shape.right x.right)) := by
  have hi := (List.getElem?_eq_some_iff.mp hx).1
  -- split at the instruction
  have hsplit : xs = xs.take i ++ [x] ++ xs.drop (i + 1) := by
    rw [List.append_assoc, List.singleton_append, ← (List.getElem?_eq_some_iff.mp hx).2,
      List.getElem_cons_drop, List.take_append_drop]
  have hlength : (M.run (xs.take i)).values.length = i := by
    rw [length_values_run, List.length_take]
    omega
  have hbefore : (M.run (xs.take i)).values <+: (M.run xs).values := by
    have hprefix := M.values_prefix_run (xs.take i) (xs.drop i)
    rw [List.take_append_drop] at hprefix
    exact hprefix
  have hat : (M.run (xs.take i ++ [x])).values <+: (M.run xs).values := by
    have hprefix := M.values_prefix_run (xs.take i ++ [x]) (xs.drop (i + 1))
    rw [← hsplit] at hprefix
    exact hprefix
  rw [run_concat, step, M.result_of_normal hop] at hat
  obtain ⟨rest, hrest⟩ := hat
  rw [M.arg_of_prefix hbefore (by rw [hlength]; exact hleft),
    M.arg_of_prefix hbefore (by rw [hlength]; exact hright), ← hrest]
  dsimp only
  rw [List.append_assoc, List.getElem?_append_right (by omega), hlength, Nat.sub_self]
  rfl

end Meaning

/-! ### The instructions of a trace -/

namespace View

/-- The first `n` instructions from `BASE` on. -/
def firstInstructions (v : View) : Nat → List Record
  | 0 => []
  | n + 1 => v.firstInstructions n ++ (v.record (Ref.base + .ofNat n)).toList

/-- The instructions from `BASE` on. -/
def instructions (v : View) : List Record :=
  v.firstInstructions (v.nins.toNat - Ref.base.toNat)

private theorem toNat_base_add {n : Nat} (hn : n < 0x8000) :
    (Ref.base + UInt32.ofNat n).toNat = Ref.base.toNat + n := by
  rw [UInt32.toNat_add, UInt32.toNat_ofNat', Ref.toNat_base]
  omega

private theorem base_add_toNat_sub {r : Ref} (hr : Ref.base ≤ r) :
    Ref.base + UInt32.ofNat (r.toNat - Ref.base.toNat) = r := by
  have hlt := r.toNat_lt
  rw [UInt32.le_iff_toNat_le] at hr
  rw [← UInt32.toNat_inj, UInt32.toNat_add, UInt32.toNat_ofNat']
  omega

variable {v v' : View}

private theorem firstInstructions_congr {n : Nat}
    (h : ∀ i, i < n → v'.record (Ref.base + .ofNat i) = v.record (Ref.base + .ofNat i)) :
    v'.firstInstructions n = v.firstInstructions n := by
  induction n with
  | zero => rfl
  | succ n ih =>
    rw [firstInstructions, firstInstructions, h n (Nat.lt_succ_self n),
      ih fun i hi => h i (Nat.lt_succ_of_lt hi)]

/-- The rest of the view does not matter. -/
theorem instructions_congr (hnins : v'.nins = v.nins) (hrecord : v'.record = v.record) :
    v'.instructions = v.instructions := by
  rw [instructions, instructions, hnins]
  exact firstInstructions_congr fun i _ => by rw [hrecord]

/-- If all of them are there, each has its place. -/
private theorem getElem?_firstInstructions {n : Nat}
    (h : ∀ i, i < n → ∃ x, v.record (Ref.base + .ofNat i) = some x) :
    (v.firstInstructions n).length = n ∧
      ∀ i, i < n → (v.firstInstructions n)[i]? = v.record (Ref.base + .ofNat i) := by
  induction n with
  | zero => exact ⟨rfl, fun i hi => absurd hi (Nat.not_lt_zero i)⟩
  | succ n ih =>
    obtain ⟨hlength, hget⟩ := ih fun i hi => h i (Nat.lt_succ_of_lt hi)
    obtain ⟨x, hx⟩ := h n (Nat.lt_succ_self n)
    have hlast : v.firstInstructions (n + 1) = v.firstInstructions n ++ [x] := by
      rw [firstInstructions, hx]
      rfl
    refine ⟨by rw [hlast, List.length_append, hlength]; rfl, fun i hi => ?_⟩
    rw [hlast]
    by_cases hin : i = n
    · rw [hin, hx, List.getElem?_append_right (by omega), hlength, Nat.sub_self]
      rfl
    · rw [List.getElem?_append_left (by omega)]
      exact hget i (by omega)

namespace WellFormed

variable (h : v.WellFormed)
include h

theorem nins_bounds : 0x8000 < v.nins.toNat ∧ v.nins.toNat ≤ 0xffff :=
  ⟨UInt32.lt_iff_toNat_lt.mp h.base_lt, UInt32.le_iff_toNat_le.mp h.nins_le⟩

/-- Every instruction from `BASE` on is there. -/
private theorem exists_instruction {i : Nat} (hi : i < v.nins.toNat - Ref.base.toNat) :
    ∃ x, v.record (Ref.base + .ofNat i) = some x := by
  obtain ⟨hbase, hlimit⟩ := h.nins_bounds
  rw [Ref.toNat_base] at hi
  have hr : (Ref.base + UInt32.ofNat i).toNat = Ref.base.toNat + i := toNat_base_add (by omega)
  have hnk := UInt32.le_iff_toNat_le.mp h.nk_le
  rw [Ref.toNat_true] at hnk
  rw [h.live_iff, UInt32.le_iff_toNat_le, UInt32.lt_iff_toNat_lt, hr, Ref.toNat_base]
  omega

theorem length_instructions : v.instructions.length = v.nins.toNat - Ref.base.toNat :=
  (getElem?_firstInstructions fun _ hi => h.exists_instruction hi).1

/-- The place of an instruction. -/
theorem getElem?_instructions {r : Ref} (hr : Ref.base ≤ r) (hlt : r < v.nins) :
    v.instructions[r.toNat - Ref.base.toNat]? = v.record r := by
  have hle := UInt32.le_iff_toNat_le.mp hr
  rw [UInt32.lt_iff_toNat_lt] at hlt
  have hget := (getElem?_firstInstructions fun _ hi => h.exists_instruction hi).2
    (r.toNat - Ref.base.toNat) (by omega)
  rw [base_add_toNat_sub hr] at hget
  exact hget

/-- An instruction that enters comes last. -/
theorem instructions_push (hlimit : v.nins < Ref.limit) (x : Record) :
    (v.push x).instructions = v.instructions ++ [{ x with prev := v.heads.get x.op }] := by
  obtain ⟨hbase, hle⟩ := h.nins_bounds
  have hcount : (v.push x).nins.toNat - Ref.base.toNat = v.nins.toNat - Ref.base.toNat + 1 := by
    show (v.nins + 1).toNat - _ = _
    rw [Ref.toNat_succ hlimit, Ref.toNat_base]
    omega
  have hlast : Ref.base + UInt32.ofNat (v.nins.toNat - Ref.base.toNat) = v.nins :=
    base_add_toNat_sub (UInt32.le_of_lt h.base_lt)
  -- the older ones lie below the new reference
  have holder : (v.push x).firstInstructions (v.nins.toNat - Ref.base.toNat) =
      v.firstInstructions (v.nins.toNat - Ref.base.toNat) := by
    refine firstInstructions_congr fun i hi => push_record_of_ne _ _ fun heq => ?_
    rw [Ref.toNat_base] at hi
    have htoNat := congrArg UInt32.toNat heq
    rw [toNat_base_add (by omega), Ref.toNat_base] at htoNat
    omega
  rw [instructions, hcount, firstInstructions, hlast, push_record_self, holder]
  rfl

/-- A constant that enters is no instruction. -/
theorem instructions_pushConstant (x : Record) :
    (v.pushConstant x).instructions = v.instructions := by
  obtain ⟨hbase, hle⟩ := h.nins_bounds
  refine firstInstructions_congr fun i hi => pushConstant_record_of_ne _ _ fun heq => ?_
  change i < v.nins.toNat - Ref.base.toNat at hi
  rw [Ref.toNat_base] at hi
  have htoNat := congrArg UInt32.toNat heq
  have hnk := UInt32.le_iff_toNat_le.mp h.nk_le
  rw [toNat_base_add (by omega), Ref.toNat_pred h.nk_pos, Ref.toNat_base] at htoNat
  rw [Ref.toNat_true] at hnk
  omega

end WellFormed

end View

end TraceIR
