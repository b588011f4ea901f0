import TraceIR.Proofs.Agreement

/-!
# Optimised emission computes what raw emission computes

The same requests go to two traces: one takes instructions as they are, the other orders operands,
decides comparisons and shares equal instructions. The references of the two drift apart at the
first instruction that one trace has and the other has not, but the values behind them do not.

* `Meaning.Respects` — what a meaning has to grant the optimisations.
* `Sound.emit_computes` — whatever way an instruction takes into a trace, its result has the value,
  and the events are those, that the instruction would have at the end of the trace.
* `Simulates` — two traces agree after some requests. `Simulates.step` says that one more request
  keeps this, `Simulates.performAll` that all of a program does.
* `emission_through_folder_refines_raw` — so whatever is emitted, the two traces compute the same.
-/

namespace TraceIR

/-! ### Comparisons stay decided -/

namespace Trace

variable {t t' : Trace} {r : Ref} {x : Value}

/-- Everything `t` shows is there in `t'`, and so is every number of its pool. -/
structure Includes (t' t : Trace) : Prop where
  shows : t.view.Extends t'.view
  pool : ∀ {s n}, t.pool.get? s = some n → t'.pool.get? s = some n

private theorem Sound.includes (h : t.Sound) (hgrows : t.Grows t') : t'.Includes t := by
  obtain ⟨-, hgrowths⟩ := hgrows h.laid
  exact ⟨(View.Extends.refl _).growths h.wellFormed hgrowths, get?_of_growths hgrowths⟩

namespace Includes

private theorem record? (h : t'.Includes t) {y : Record} (hy : t.record? r = .ok y) :
    t'.record? r = .ok y := by
  rw [record?_eq_ok_iff] at hy ⊢
  exact h.shows.record hy

private theorem numValue (h : t'.Includes t) {n : NumSlot} {y : Binary64}
    (hy : n.value? t.pool = some y) : n.value? t'.pool = some y := by
  cases n with
  | pooled s => exact h.pool hy
  | absMask => exact hy
  | negMask => exact hy

private theorem recordValue (h : t'.Includes t) {y : Record} (hy : t.recordValue y = .ok x) :
    t'.recordValue y = .ok x := by
  rw [Trace.recordValue] at hy ⊢
  cases hop : y.op
  case knum =>
    -- the only constant that is read through the pool
    rw [hop] at hy
    dsimp only at hy ⊢
    cases hnum : y.payload.num?.bind (·.value? t.pool) with
    | none =>
      rw [hnum] at hy
      cases hy
    | some n =>
      obtain ⟨slot, hslot, hn⟩ := Option.bind_eq_some_iff.mp hnum
      rw [hnum] at hy
      rw [hslot, Option.bind_some, h.numValue hn]
      exact hy
  all_goals (rw [hop] at hy; exact hy)

/-- A constant that has a value keeps it. -/
private theorem value (h : t'.Includes t) (hr : t.value r = .ok x) :
    t'.value r = .ok x ∧ ∀ w, t'.stringText? r w = t.stringText? r w := by
  rw [Trace.value] at hr ⊢
  by_cases hconst : r.isConst = true
  · rw [if_pos hconst] at hr ⊢
    cases hy : t.record? r with
    | error e =>
      rw [hy] at hr
      cases hr
    | ok y =>
      rw [hy] at hr
      rw [h.record? hy]
      refine ⟨h.recordValue hr, fun w => ?_⟩
      rw [stringText?, stringText?, hy, h.record? hy]
  · rw [if_neg hconst] at hr
    cases hr

/-- A comparison that is decided once stays decided. -/
private theorem findsTrue (h : t'.Includes t) {op : Opcode} {a b : Ref} (hab : t.FindsTrue op a b) :
    t'.FindsTrue op a b := by
  obtain ⟨f, hfolder, hfold⟩ := hab.folds
  have hfolder' : t'.folder = t.folder := h.shows.folder
  refine ⟨⟨f, hfolder'.trans hfolder, hfold⟩, hab.comparison, hab.left, hab.right, ?_⟩
  obtain ⟨-, va, vb, ha, hb, hout⟩ := foldComparison_eq_some_iff.mp hab.holds
  obtain ⟨ha', htexta⟩ := h.value ha
  obtain ⟨hb', htextb⟩ := h.value hb
  refine foldComparison_eq_some_iff.mpr ⟨rfl, va, vb, ha', hb', ?_⟩
  rw [outcome?, htexta, htextb]
  exact hout

end Includes

end Trace

/-! ### Values and events of a trace -/

namespace Meaning

variable {V : Type} (M : Meaning V) (t : Trace)

/-- What the instructions of a trace compute. -/
def evaluation : Evaluation V :=
  M.run t.view.instructions

/-- The value behind a reference. -/
def valueOf (r : Ref) : Option V :=
  M.valueAt (M.evaluation t).values r

/-- What a meaning has to grant the optimisations: commutative opcodes commute, and a comparison
that the folder answers itself has the value of the constant `true`. -/
structure Respects : Prop where
  symmetric : ∀ {op}, op.shape.commutative = true → ∀ ty a b,
    M.normal op ty a b = M.normal op ty b a
  decided : ∀ {op a b}, t.FindsTrue op a b → ∀ ty,
    M.normal op ty (.value (M.const a)) (.value (M.const b)) = M.const Ref.true

/-- The emission of `x` gave `y` the value and the trace the events that `x` would have at the end
of the trace, and left the values that were there. -/
structure Computes (t : Trace) (x : Record) (y : TRef) (t' : Trace) : Prop where
  value : M.valueOf t' y.ref = some (M.result (M.evaluation t) x)
  events : (M.evaluation t').events = (M.evaluation t).events ++ M.seen (M.evaluation t) x
  kept : (M.evaluation t).values <+: (M.evaluation t').values

variable {M t} {t' : Trace}

/-- What a meaning grants a trace it grants what the trace came from. -/
private theorem Respects.of_includes (h : M.Respects t') (hincludes : t'.Includes t) :
    M.Respects t :=
  ⟨h.symmetric, fun hab => h.decided (hincludes.findsTrue hab)⟩

private theorem valueOf_of_instruction {r : Ref} (hr : r.isConst = false) :
    M.valueOf t r = (M.evaluation t).values[r.toNat - Ref.base.toNat]? := by
  rw [valueOf, valueAt, hr]
  rfl

variable (M) in
private theorem length_values (h : t.view.WellFormed) :
    (M.evaluation t).values.length = t.nins.toNat - Ref.base.toNat := by
  rw [evaluation, length_values_run]
  exact h.length_instructions

end Meaning

/-! ### One instruction -/

private theorem Opcode.isNormal_of_comparison {op : Opcode} (h : op.isComparison = true) :
    op.isNormal = true ∧ op.shape.left = .ref ∧ op.shape.right = .ref := by
  cases op <;> first | exact ⟨rfl, rfl, rfl⟩ | cases h

private theorem Opcode.isNormal_of_commutative {op : Opcode} (h : op.shape.commutative = true) :
    op.isNormal = true ∧ op.shape.left = .ref ∧ op.shape.right = .ref := by
  cases op <;> first | exact ⟨rfl, rfl, rfl⟩ | cases h

namespace Trace

variable {V : Type} {M : Meaning V} {t t' : Trace} {op : Opcode} {ty : Ty} {a b : Ref} {y : TRef}

/-- An operand that is a constant has the constant's value. -/
private theorem arg_of_const (M : Meaning V) (values : List V) (ha : a.isConst = true) :
    M.arg values .ref a = .value (M.const a) := by
  rw [Meaning.arg, M.valueAt_of_const ha]
  rfl

/-- A normal instruction that adds nothing to the trace computes if its result has the value. -/
private theorem computes_of_normal (hop : op.isNormal = true)
    (hvalue : M.valueOf t y.ref =
      some (M.normal op ty.tag (M.arg (M.evaluation t).values op.shape.left a)
        (M.arg (M.evaluation t).values op.shape.right b))) :
    M.Computes t { op, ty, left := a, right := b } y t := by
  refine ⟨?_, ?_, List.prefix_rfl⟩
  · rw [hvalue, M.result_of_normal hop]
    rfl
  · rw [M.seen_of_normal hop, List.append_nil]

private theorem FindsTrue.computes (h : t.FindsTrue op a b) (hM : M.Respects t) (ty : Ty) :
    M.Computes t { op, ty, left := a, right := b } (.of Ref.true Ty.true) t := by
  obtain ⟨hop, hleft, hright⟩ := Opcode.isNormal_of_comparison h.comparison
  refine computes_of_normal hop ?_
  rw [hleft, hright, arg_of_const M _ h.left, arg_of_const M _ h.right, hM.decided h,
    TRef.ref_of (by decide), Meaning.valueOf]
  exact M.valueAt_of_const rfl _

/-- An equal instruction that is newer than the operands has the same value. -/
private theorem Sound.shared_computes (ht : t.Sound) (hconst : op.isConst = false)
    (hop : op.isNormal = true) {r : Ref} {x : Record} (hx : t.view.record r = some x)
    (hxop : x.op = op) (hty : x.ty.tag = ty.tag) (hleft : x.left < r) (hright : x.right < r) :
    M.Computes t { op, ty, left := x.left, right := x.right } (.of r ty) t := by
  subst hxop
  -- the record is an instruction, so it has a place in the evaluation
  have hlive := ((ht.wellFormed.live_iff r).mp ⟨x, hx⟩).2
  have hr : r.isConst = false := by rw [← ht.wellFormed.kind hx, hconst]
  have hbase : 0x8000 ≤ r.toNat := (Ref.isConst_eq_false_iff r).mp hr
  have hplace : t.view.instructions[r.toNat - Ref.base.toNat]? = some x := by
    rw [ht.wellFormed.getElem?_instructions (UInt32.le_iff_toNat_le.mpr hbase) hlive, hx]
  -- its operands are older, so they had their present values when it was evaluated
  rw [UInt32.lt_iff_toNat_lt] at hleft hright
  have hvalue := M.getElem?_values_run hplace hop (by rw [Ref.toNat_base]; omega)
    (by rw [Ref.toNat_base]; omega)
  refine computes_of_normal hop ?_
  have hlimit : r ≤ Ref.limit := UInt32.le_of_lt (UInt32.lt_of_lt_of_le hlive ht.wellFormed.nins_le)
  rw [TRef.ref_of hlimit, Meaning.valueOf_of_instruction hr, Meaning.evaluation, hvalue, hty]

/-- An instruction at the end of the trace is what it says. -/
private theorem Sound.push_computes (ht : t.Sound) (hlimit : t.nins < Ref.limit)
    (hview : t'.view = t.view.push { op, ty, left := a, right := b }) :
    M.Computes t { op, ty, left := a, right := b } (.of t.nins ty) t' := by
  have hstep : M.evaluation t' =
      M.step (M.evaluation t) { op, ty, left := a, right := b } := by
    rw [Meaning.evaluation, hview, ht.wellFormed.instructions_push hlimit, M.run_concat]
    rfl
  refine ⟨?_, ?_, ?_⟩
  · have hbase : 0x8000 < t.nins.toNat := ht.wellFormed.nins_bounds.1
    have hconst : t.nins.isConst = false := (Ref.isConst_eq_false_iff _).mpr (by omega)
    rw [TRef.ref_of (UInt32.le_of_lt hlimit), Meaning.valueOf_of_instruction hconst, hstep,
      ← M.length_values ht.wellFormed, Meaning.step, List.getElem?_concat_length]
  · rw [hstep, Meaning.step]
  · rw [hstep, Meaning.step]
    exact List.prefix_append ..

/-- However an instruction was placed, it computes. -/
private theorem Placed.computes (h : Placed t op ty a b y t') (ht : t.Sound) (hM : M.Respects t)
    (hconst : op.isConst = false) : M.Computes t { op, ty, left := a, right := b } y t' := by
  cases h with
  | decided h => exact h.computes hM ty
  | shared hop hx hxop ha hb hleft hright hty =>
    subst hleft hright
    exact ht.shared_computes hconst hop hx hxop hty ha hb
  | appended hlimit _ hview => exact ht.push_computes hlimit hview

private theorem Placed.keepsConstants (h : Placed t op ty a b y t') (ht : t.Sound) :
    t.view.KeepsConstants t'.view := by
  cases h with
  | decided _ => exact .refl _
  | shared => exact .refl _
  | appended _ _ hview =>
    rw [hview]
    exact ht.wellFormed.keepsConstants_push _

/-- Operands of a commutative opcode can be swapped. -/
private theorem computes_swap (hM : M.Respects t) (hop : op.shape.commutative = true)
    (h : M.Computes t { op, ty, left := b, right := a } y t') :
    M.Computes t { op, ty, left := a, right := b } y t' := by
  obtain ⟨hnormal, hleft, hright⟩ := Opcode.isNormal_of_commutative hop
  refine ⟨?_, ?_, h.kept⟩
  · rw [h.value, M.result_of_normal hnormal, M.result_of_normal hnormal, Meaning.args, Meaning.args]
    dsimp only
    rw [hleft, hright, hM.symmetric hop]
  · rw [h.events, M.seen_of_normal hnormal, M.seen_of_normal hnormal]

/-- **Emission.** Whatever way an instruction takes into a trace, its result has the value that it
would have at the end of the trace, and the events are the same. -/
theorem Sound.emit_computes (ht : t.Sound) (hM : M.Respects t) (hconst : op.isConst = false)
    (hrun : (emit op ty a b).run t = .ok y t') :
    M.Computes t { op, ty, left := a, right := b } y t' ∧ t.view.KeepsConstants t'.view := by
  rcases ht.placed_emit hrun with hplaced | ⟨hop, hplaced⟩
  · exact ⟨hplaced.computes ht hM hconst, hplaced.keepsConstants ht⟩
  · exact ⟨computes_swap hM hop (hplaced.computes ht hM hconst), hplaced.keepsConstants ht⟩

end Trace

/-! ### Programs -/

/-- An operand of a request: a number, or the result of an earlier request. -/
inductive Operand where
  | given (r : Ref)
  | result (i : Nat)

namespace Operand

/-- The operand as it goes into a trace, after the requests with the given results. -/
def ref (results : List TRef) : Operand → Ref
  | given r => r
  | result i => (results.getD i .none).ref

/-- References are to constants or to one of `n` earlier results, and literals are numbers. Where
the opcode has no operand anything can stand. -/
def Fits (n : Nat) : OperandKind → Operand → Prop
  | .ref, given r => r.isConst = true
  | .ref, result i => i < n
  | .lit, given _ => True
  | .lit, result _ => False
  | .const, _ => True
  | .absent, _ => True

end Operand

/-- A request to a trace: for a constant, or for an instruction. -/
inductive Request where
  | constant (k : Trace.Constant)
  | emit (op : Opcode) (ty : Ty) (left right : Operand)

namespace Request

/-- The opcode is not one of a constant, and the operands fit it. -/
def Fits (n : Nat) : Request → Prop
  | constant _ => True
  | emit op _ left right =>
    op.isConst = false ∧ left.Fits n op.shape.left ∧ right.Fits n op.shape.right

/-- Carry out a request, after the requests with the given results. -/
def perform (results : List TRef) : Request → Action TRef
  | constant k => k.intern
  | emit op ty left right => Trace.emit op ty (left.ref results) (right.ref results)

/-- Every request of a program fits, after `n` others. -/
def FitAll : Nat → List Request → Prop
  | _, [] => True
  | n, q :: qs => q.Fits n ∧ FitAll (n + 1) qs

/-- Carry out the requests of a program one by one, and add their results to the given ones. -/
def performAll : List Request → List TRef → Action (List TRef)
  | [], results => pure results
  | q :: qs, results => do
    let y ← q.perform results
    performAll qs (results ++ [y])

private theorem grows_perform (t : Trace) {q : Request} {n : Nat} (hq : q.Fits n)
    (results : List TRef) :
    t.Grows (t.after (q.perform results)) := by
  cases q with
  | constant k => exact t.grows_constant k
  | emit op ty left right => exact t.grows_emit hq.1 ty _ _

private theorem grows_performAll (qs : List Request) : ∀ (t : Trace) {n : Nat}, FitAll n qs →
    ∀ results, t.Grows (t.after (performAll qs results)) := by
  induction qs with
  | nil => exact fun t _ _ _ => .refl t
  | cons q qs ih =>
    intro t n hqs results
    exact .bind (grows_perform t hqs.1 results) fun y t' _ => ih t' hqs.2 _

end Request

/-! ### Simulation -/

namespace Meaning

variable {V : Type} (M : Meaning V)

/-- The results have the values. -/
def Denotes (t : Trace) (results : List TRef) (values : List V) : Prop :=
  List.Forall₂ (fun y v => M.valueOf t y.ref = some v) results values

variable {M} {t u t' : Trace} {rs ss : List TRef} {values : List V}

/-- Results keep their values while the trace grows. -/
private theorem Denotes.mono (h : M.Denotes t rs values)
    (hkept : (M.evaluation t).values <+: (M.evaluation t').values) : M.Denotes t' rs values :=
  List.Forall₂.imp (fun _ _ hv => valueAt_of_prefix hkept hv) h

private theorem Denotes.concat (h : M.Denotes t rs values) {y : TRef} {v : V}
    (hv : M.valueOf t y.ref = some v) : M.Denotes t (rs ++ [y]) (values ++ [v]) :=
  List.rel_append h (.cons hv .nil)

private theorem Denotes.valueOf_result (h : M.Denotes t rs values) {i : Nat}
    (hi : i < values.length) :
    M.valueOf t ((Operand.result i).ref rs) = values[i]? := by
  have hi' : i < rs.length := by
    rw [List.Forall₂.length_eq h]
    exact hi
  have hget := List.Forall₂.get h hi' hi
  rw [Operand.ref, List.getD_eq_getElem?_getD, List.getElem?_eq_getElem hi',
    List.getElem?_eq_getElem hi]
  exact hget

/-- An operand that fits is the same in two traces whose results have the same values. -/
private theorem Denotes.arg_eq (h : M.Denotes t rs values) (h' : M.Denotes u ss values)
    {o : Operand} {kind : OperandKind} (ho : o.Fits values.length kind) :
    M.arg (M.evaluation u).values kind (o.ref ss) =
      M.arg (M.evaluation t).values kind (o.ref rs) := by
  cases kind with
  | ref =>
    cases o with
    | given r => rw [Operand.ref, Operand.ref, Trace.arg_of_const M _ ho, Trace.arg_of_const M _ ho]
    | result i =>
      have hvalue := (h'.valueOf_result ho).trans (h.valueOf_result ho).symm
      rw [valueOf, valueOf] at hvalue
      rw [arg, arg, hvalue]
  | lit =>
    cases o with
    | given r => rw [Operand.ref, Operand.ref, arg, arg]
    | result i => exact ho.elim
  | const => rw [arg, arg]
  | absent => rw [arg, arg]

end Meaning

/-- Two traces agree after the same requests: in their constants, in their events, and in the
values of the results. -/
structure Simulates {V : Type} (M : Meaning V) (t u : Trace) (rs ss : List TRef)
    (values : List V) : Prop where
  sound_left : t.Sound
  sound_right : u.Sound
  constants : t.view.SameConstants u.view
  events : (M.evaluation u).events = (M.evaluation t).events
  left : M.Denotes t rs values
  right : M.Denotes u ss values

namespace Simulates

variable {V : Type} {M : Meaning V} {t u t' u' : Trace} {rs ss : List TRef} {values : List V}
  {y z : TRef}

/-- A constant enters on both sides. -/
private theorem constant (h : Simulates M t u rs ss values) {k : Trace.Constant}
    (hrun : k.intern.run t = .ok y t') (hrun' : k.intern.run u = .ok z u') :
    Simulates M t' u' (rs ++ [y]) (ss ++ [z]) (values ++ [M.const y.ref]) := by
  have halike := h.sound_left.constant_alike h.sound_right h.constants hrun hrun'
  have heval : M.evaluation t' = M.evaluation t := congrArg M.run halike.left
  have heval' : M.evaluation u' = M.evaluation u := congrArg M.run halike.right
  obtain rfl := halike.answer
  refine
    { sound_left := h.sound_left.grows (Trace.after_of_ok hrun ▸ t.grows_constant k)
      sound_right := h.sound_right.grows (Trace.after_of_ok hrun' ▸ u.grows_constant k)
      constants := halike.constants
      events := by rw [heval, heval', h.events]
      left := ?_
      right := ?_ }
  · have hkept : (M.evaluation t).values <+: (M.evaluation t').values :=
      ⟨[], by rw [List.append_nil, heval]⟩
    exact (h.left.mono hkept).concat (M.valueAt_of_const halike.isConst _)
  · have hkept : (M.evaluation u).values <+: (M.evaluation u').values :=
      ⟨[], by rw [List.append_nil, heval']⟩
    exact (h.right.mono hkept).concat (M.valueAt_of_const halike.isConst _)

/-- An instruction goes to both sides, and each takes it in its own way. -/
private theorem emit (h : Simulates M t u rs ss values) (hM : M.Respects t) (hM' : M.Respects u)
    {op : Opcode} {ty : Ty} {a b : Operand} (hconst : op.isConst = false)
    (ha : a.Fits values.length op.shape.left) (hb : b.Fits values.length op.shape.right)
    (hrun : (Trace.emit op ty (a.ref rs) (b.ref rs)).run t = .ok y t')
    (hrun' : (Trace.emit op ty (a.ref ss) (b.ref ss)).run u = .ok z u') :
    ∃ v, Simulates M t' u' (rs ++ [y]) (ss ++ [z]) (values ++ [v]) := by
  obtain ⟨hcomputes, hkeeps⟩ := h.sound_left.emit_computes hM hconst hrun
  obtain ⟨hcomputes', hkeeps'⟩ := h.sound_right.emit_computes hM' hconst hrun'
  -- the references differ, but what the opcode sees of them is the same
  have hargs : M.args (M.evaluation u).values { op, ty, left := a.ref ss, right := b.ref ss } =
      M.args (M.evaluation t).values { op, ty, left := a.ref rs, right := b.ref rs } :=
    Prod.ext (h.left.arg_eq h.right ha) (h.left.arg_eq h.right hb)
  obtain ⟨hresult, hseen⟩ := M.result_congr hargs h.events rfl rfl
  refine ⟨_,
    { sound_left := h.sound_left.grows (Trace.after_of_ok hrun ▸ t.grows_emit hconst ty _ _)
      sound_right := h.sound_right.grows (Trace.after_of_ok hrun' ▸ u.grows_emit hconst ty _ _)
      constants := h.constants.congr hkeeps hkeeps'
      events := ?_
      left := (h.left.mono hcomputes.kept).concat hcomputes.value
      right := ?_ }⟩
  · rw [hcomputes.events, hcomputes'.events, h.events, hseen]
  · rw [← hresult]
    exact (h.right.mono hcomputes'.kept).concat hcomputes'.value

/-- **One request** keeps two traces in agreement. -/
theorem step (h : Simulates M t u rs ss values) (hM : M.Respects t) (hM' : M.Respects u)
    {q : Request} (hq : q.Fits values.length) (hrun : (q.perform rs).run t = .ok y t')
    (hrun' : (q.perform ss).run u = .ok z u') :
    ∃ v, Simulates M t' u' (rs ++ [y]) (ss ++ [z]) (values ++ [v]) := by
  cases q with
  | constant k => exact ⟨_, h.constant hrun hrun'⟩
  | emit op ty a b => exact h.emit hM hM' hq.1 hq.2.1 hq.2.2 hrun hrun'

/-- **A program** keeps two traces in agreement. -/
theorem performAll (qs : List Request) :
    ∀ {t u : Trace} {rs ss rs' ss' : List TRef} {values : List V},
      Simulates M t u rs ss values → Request.FitAll values.length qs →
      (Request.performAll qs rs).run t = .ok rs' t' →
      (Request.performAll qs ss).run u = .ok ss' u' → M.Respects t' → M.Respects u' →
      ∃ values', values'.length = values.length + qs.length ∧
        Simulates M t' u' rs' ss' values' := by
  induction qs with
  | nil =>
    intro t u rs ss rs' ss' values h _ hrun hrun' _ _
    cases hrun
    cases hrun'
    exact ⟨values, rfl, h⟩
  | cons q qs ih =>
    intro t u rs ss rs' ss' values h hqs hrun hrun' hM hM'
    -- what the final traces respect the present ones respect
    have hincludes := h.sound_left.includes
      (Trace.after_of_ok hrun ▸ Request.grows_performAll (q :: qs) t hqs rs)
    have hincludes' := h.sound_right.includes
      (Trace.after_of_ok hrun' ▸ Request.grows_performAll (q :: qs) u hqs ss)
    obtain ⟨y, t₁, hfirst, hrest⟩ := Trace.exists_of_run_bind hrun
    obtain ⟨z, u₁, hfirst', hrest'⟩ := Trace.exists_of_run_bind hrun'
    obtain ⟨v, hstep⟩ := h.step (hM.of_includes hincludes) (hM'.of_includes hincludes') hqs.1
      hfirst hfirst'
    have hlength : (values ++ [v]).length = values.length + 1 := List.length_append
    obtain ⟨values', hlength', hall⟩ := ih hstep (hlength ▸ hqs.2) hrest hrest' hM hM'
    refine ⟨values', ?_, hall⟩
    rw [hlength', hlength, List.length_cons]
    omega

end Simulates

/-! ### Refinement -/

/-- New traces agree. -/
private theorem simulates_start {V : Type} (M : Meaning V) {config config' : Config}
    {pool pool' : Pool} {t u : Trace} (ht : Trace.start config pool = .ok t)
    (hu : Trace.start config' pool' = .ok u) (f : Folder) :
    Simulates M t { u with folder := some f } [] [] [] := by
  obtain ⟨-, hview⟩ := Trace.start_eq_ok ht
  obtain ⟨-, hview'⟩ := Trace.start_eq_ok hu
  have hview'' : Trace.view { u with folder := some f } =
      View.initial config'.normalize pool' (some f) :=
    congrArg (fun v : View => { v with folder := some f }) hview'
  refine
    { sound_left := (Trace.Reachable.start ht).sound
      sound_right := ((Trace.Reachable.start hu).step (.useFolder (some f))).sound
      constants := ?_
      events := ?_
      left := .nil
      right := .nil }
  · rw [hview, hview'']
    exact View.sameConstants_initial ..
  · have hsame : (View.initial config'.normalize pool' (some f)).instructions =
        (View.initial config.normalize pool none).instructions := View.instructions_congr rfl rfl
    rw [Meaning.evaluation, Meaning.evaluation, hview, hview'', hsame]

/-- Without a folder a meaning has to grant symmetry only. -/
private theorem Meaning.Respects.of_no_folder {V : Type} {M : Meaning V} {t u : Trace}
    (h : M.Respects u) (hfolder : t.folder = none) : M.Respects t := by
  refine ⟨h.symmetric, fun hab => ?_⟩
  obtain ⟨f, hf, -⟩ := hab.folds
  rw [hfolder] at hf
  cases hf

/-- **Optimised emission refines raw emission.** A program that two new traces carry out, one
without a folder and one with, has results of the same values in both, and the accesses to memory
are the same in the same order, with the same opcodes, types and operands. The constants of the two
traces, which give the meaning its values, agree. -/
theorem emission_through_folder_refines_raw {V : Type} (M : Meaning V) {config config' : Config}
    {pool pool' : Pool} {t u t' u' : Trace} (ht : Trace.start config pool = .ok t)
    (hu : Trace.start config' pool' = .ok u) (f : Folder) {program : List Request}
    (hfits : Request.FitAll 0 program) {rs ss : List TRef}
    (hraw : (Request.performAll program []).run t = .ok rs t')
    (hfolded : (Request.performAll program []).run { u with folder := some f } = .ok ss u')
    (hM : M.Respects u') :
    (∃ values : List V, values.length = program.length ∧ M.Denotes t' rs values ∧
      M.Denotes u' ss values) ∧
      (M.evaluation u').events = (M.evaluation t').events ∧
      t'.view.SameConstants u'.view := by
  have hstart := simulates_start M ht hu f
  -- nothing that a program does sets a folder
  have hfolder : t'.folder = none := by
    have hincludes := hstart.sound_left.includes
      (Trace.after_of_ok hraw ▸ Request.grows_performAll program t hfits [])
    have hview := (Trace.start_eq_ok ht).2
    exact hincludes.shows.folder.trans (congrArg View.folder hview)
  obtain ⟨values, hlength, h⟩ :=
    Simulates.performAll program hstart hfits hraw hfolded (hM.of_no_folder hfolder) hM
  rw [List.length_nil, Nat.zero_add] at hlength
  exact ⟨⟨values, hlength, h.left, h.right⟩, h.events, h.constants⟩

/-- The number that stands for an operand. -/
def Arg.number : Arg Nat → Nat
  | .value n => n
  | .literal r => r.toNat
  | .absent => 0

/-- Instructions add their operands, and comparisons hold. -/
def Meaning.adding : Meaning Nat where
  const r := r.toNat
  normal op _ a b := if op.isComparison then Ref.true.toNat else a.number + b.number
  effect k := 1000 + k

/-- A load, the same sum twice with its operands swapped, a comparison that holds, and a store. -/
def sumTwice : List Request :=
  [.constant (.int 7), .constant (.int 3),
    .emit .sload Ty.int.guarded (.given 1) (.given 0),
    .emit .add Ty.int (.result 2) (.result 0), .emit .add Ty.int (.result 0) (.result 2),
    .emit .lt Ty.int.guarded (.result 1) (.result 0),
    .emit .ustore Ty.int (.result 3) (.result 4)]

/-- The reference after the last instruction, if a program succeeds. -/
def Request.endOf (program : List Request) (t : Trace) : Option Ref :=
  match (performAll program []).run t with
  | .ok _ t' => some t'.nins
  | .error _ _ => none

private theorem Request.exists_of_endOf {program : List Request} {t : Trace} {r : Ref}
    (h : endOf program t = some r) :
    ∃ rs t', (performAll program []).run t = .ok rs t' ∧ t'.nins = r := by
  rw [endOf] at h
  split at h
  · next rs t' hrun => exact ⟨rs, t', hrun, Option.some.inj h⟩
  · cases h

/-- The folded trace has two instructions less. -/
theorem emission_through_folder_refines_raw_of_sumTwice :
    ∃ t t' u' rs ss, Trace.start {} {} = .ok t ∧
      (Request.performAll sumTwice []).run t = .ok rs t' ∧
      (Request.performAll sumTwice []).run { t with folder := some ⟨true, true⟩ } = .ok ss u' ∧
      t'.nins = Ref.first + 5 ∧ u'.nins = Ref.first + 3 ∧
      (∃ values, values.length = 7 ∧ Meaning.adding.Denotes t' rs values ∧
        Meaning.adding.Denotes u' ss values) ∧
      (Meaning.adding.evaluation u').events = (Meaning.adding.evaluation t').events := by
  obtain ⟨t, ht⟩ : ∃ t, Trace.start {} {} = .ok t := ⟨_, rfl⟩
  have hend : (Trace.start {} {}).toOption.bind (Request.endOf sumTwice) =
      some (Ref.first + 5) := by decide +kernel
  have hend' : ((Trace.start {} {}).toOption.bind fun t =>
      Request.endOf sumTwice { t with folder := some ⟨true, true⟩ }) =
      some (Ref.first + 3) := by decide +kernel
  rw [ht] at hend hend'
  obtain ⟨rs, t', hraw, hnins⟩ := Request.exists_of_endOf hend
  obtain ⟨ss, u', hfolded, hnins'⟩ := Request.exists_of_endOf hend'
  have hfits : Request.FitAll 0 sumTwice := by
    simp [sumTwice, Request.FitAll, Request.Fits, Operand.Fits, Opcode.isConst, Opcode.shape,
      Shape.checkedLoad, Shape.commuting, Shape.check, Shape.store]
  have hM : Meaning.adding.Respects u' := by
    refine ⟨fun {op} _ ty a b => ?_, fun {op a b} h ty => if_pos h.comparison⟩
    show (if op.isComparison then _ else _) = if op.isComparison then _ else _
    rw [Nat.add_comm]
  have h := emission_through_folder_refines_raw Meaning.adding ht ht ⟨true, true⟩ hfits hraw
    hfolded hM
  exact ⟨t, t', u', rs, ss, ht, hraw, hfolded, hnins, hnins', h.1, h.2.1⟩

end TraceIR
