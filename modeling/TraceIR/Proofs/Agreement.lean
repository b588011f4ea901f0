import TraceIR.Proofs.Emission
import TraceIR.Proofs.Meaning
import TraceIR.Proofs.Pool

/-!
# Traces with the same constants

Two traces in which the same constants were asked for in the same order hold the same constants at
the same references, whatever instructions lie between the requests. Their pools may differ: then a
number lies in different slots, but it is the same number.

* `View.SameConstants` — the constants of two traces agree.
* `Sound.constant_alike` — a request for a constant has the same answer in both, and leaves traces
  whose constants agree.
-/

namespace TraceIR

/-! ### Constants that agree -/

/-- The payloads are the same, but a number may lie in a slot of another pool. -/
inductive Payload.Agree (p q : Pool) : Payload → Payload → Prop
  | same {a : Payload} (h : ∀ s, a.num? ≠ some (.pooled s)) : Agree p q a a
  | pooled {x : Binary64} {s s' : Nat} (hs : p.Holds x s) (hs' : q.Holds x s') :
      Agree p q (.num (.pooled s)) (.num (.pooled s'))

/-- The constants are the same, but a number may lie in a slot of another pool. -/
structure Record.Agree (p q : Pool) (x y : Record) : Prop where
  op : y.op = x.op
  ty : y.ty = x.ty
  left : y.left = x.left
  right : y.right = x.right
  payload : x.payload.Agree p q y.payload

/-- The constants of two views agree. -/
structure View.SameConstants (v w : View) : Prop where
  nk : w.nk = v.nk
  record : ∀ r, r.isConst = true →
    Option.Rel (Record.Agree v.pool w.pool) (v.record r) (w.record r)

/-- The constants of a view stay as they are. -/
structure View.KeepsConstants (v v' : View) : Prop where
  nk : v'.nk = v.nk
  pool : v'.pool = v.pool
  record : ∀ r, r.isConst = true → v'.record r = v.record r

section Agree

variable {p q : Pool} {a b : Payload}

namespace Payload.Agree

theorem asInt_eq (h : a.Agree p q b) : b.asInt = a.asInt := by
  cases h with
  | same h => rfl
  | pooled hs hs' => rfl

theorem asPointer_eq (h : a.Agree p q b) : b.asPointer = a.asPointer := by
  cases h with
  | same h => rfl
  | pooled hs hs' => rfl

theorem object?_eq (h : a.Agree p q b) : b.object? = a.object? := by
  cases h with
  | same h => rfl
  | pooled hs hs' => rfl

/-- A fixed slot is the same in all pools. -/
private theorem num?_beq_fixed (h : a.Agree p q b) {n : NumSlot} (hn : ∀ s, n ≠ .pooled s) :
    (b.num? == some n) = (a.num? == some n) := by
  cases h with
  | same h => rfl
  | @pooled x s s' hs hs' =>
    have hne : ∀ s, ((some (.pooled s) : Option NumSlot) == some n) = false := fun s =>
      beq_eq_false_iff_ne.mpr fun heq => hn s (Option.some.inj heq).symm
    exact (hne s').trans (hne s).symm

/-- Slots of one number correspond, and those of different numbers differ in both pools. -/
theorem num?_beq_pooled (h : a.Agree p q b) {x : Binary64} {s s' : Nat} (hs : p.Holds x s)
    (hs' : q.Holds x s') : (b.num? == some (.pooled s')) = (a.num? == some (.pooled s)) := by
  cases h with
  | same h => exact (beq_eq_false_iff_ne.mpr (h s')).trans (beq_eq_false_iff_ne.mpr (h s)).symm
  | @pooled y r r' hr hr' =>
    rw [Bool.eq_iff_iff, beq_iff_eq, beq_iff_eq]
    constructor
    · intro heq
      cases heq
      obtain rfl := hr'.value_eq hs'
      rw [hr.slot_eq hs]
      rfl
    · intro heq
      cases heq
      obtain rfl := hr.value_eq hs
      rw [hr'.slot_eq hs']
      rfl

/-- Numbers that are put into the pools later do not matter. -/
theorem find (h : a.Agree p q b) (x y : Binary64) : a.Agree (p.find x).2 (q.find y).2 b := by
  cases h with
  | same h => exact .same h
  | pooled hs hs' => exact .pooled (hs.find x) (hs'.find y)

end Payload.Agree

/-- A constant without a number from the pool agrees with itself. -/
theorem Record.agree_self {x : Record} (h : ∀ s, x.payload.num? ≠ some (.pooled s)) :
    x.Agree p q x :=
  ⟨rfl, rfl, rfl, rfl, .same h⟩

theorem Record.agree_of_no_number {x : Record} (h : x.payload.num? = none) : x.Agree p q x := by
  refine Record.agree_self fun s hs => ?_
  rw [h] at hs
  cases hs

end Agree

namespace View

variable {v w v' w' : View}

theorem KeepsConstants.refl (v : View) : v.KeepsConstants v :=
  ⟨rfl, rfl, fun _ _ => rfl⟩

/-- Instructions are no constants. -/
theorem WellFormed.keepsConstants_push (h : v.WellFormed) (x : Record) :
    v.KeepsConstants (v.push x) := by
  refine ⟨rfl, rfl, fun r hr => push_record_of_ne _ _ ?_⟩
  rintro rfl
  have hlt := (Ref.isConst_iff _).mp hr
  have hbase := h.nins_bounds.1
  omega

/-- The records that every trace begins with have no numbers. -/
theorem agree_initialRecord {r : Ref} {x : Record} (hx : initialRecord r = some x) (p q : Pool) :
    x.Agree p q x := by
  refine Record.agree_of_no_number ?_
  rw [initialRecord] at hx
  grind [Payload.num?]

/-- New traces have the same constants. -/
theorem sameConstants_initial (c c' : Config) (p p' : Pool) (f f' : Option Folder) :
    (initial c p f).SameConstants (initial c' p' f') := by
  refine ⟨rfl, fun r _ => ?_⟩
  show Option.Rel (Record.Agree p p') (initialRecord r) (initialRecord r)
  cases hx : initialRecord r with
  | none => exact .none
  | some x => exact .some (agree_initialRecord hx p p')

namespace SameConstants

/-- Whatever leaves the constants leaves their agreement. -/
theorem congr (h : v.SameConstants w) (hv : v.KeepsConstants v') (hw : w.KeepsConstants w') :
    v'.SameConstants w' := by
  refine ⟨by rw [hv.nk, hw.nk, h.nk], fun r hr => ?_⟩
  rw [hv.pool, hw.pool, hv.record r hr, hw.record r hr]
  exact h.record r hr

/-- Numbers enter the pools. -/
private theorem find (h : v.SameConstants w) (x y : Binary64) :
    View.SameConstants { v with pool := (v.pool.find x).2 }
      { w with pool := (w.pool.find y).2 } := by
  refine ⟨h.nk, fun r hr => ?_⟩
  have hrel := h.record r hr
  show Option.Rel (Record.Agree (v.pool.find x).2 (w.pool.find y).2) (v.record r) (w.record r)
  generalize v.record r = o, w.record r = o' at hrel ⊢
  cases hrel with
  | none => exact .none
  | some hagree =>
    exact .some ⟨hagree.op, hagree.ty, hagree.left, hagree.right, hagree.payload.find x y⟩

/-- The same constant enters on both sides. -/
private theorem pushConstant (h : v.SameConstants w) {x y : Record}
    (hxy : x.Agree v.pool w.pool y) :
    (v.pushConstant x).SameConstants (w.pushConstant y) := by
  refine ⟨congrArg (· - 1) h.nk, fun r hr => ?_⟩
  by_cases hnew : r = v.nk - 1
  · have hnew' : r = w.nk - 1 := by rw [h.nk, hnew]
    rw [hnew, pushConstant_record_self, ← hnew, hnew', pushConstant_record_self]
    exact .some ⟨hxy.op, hxy.ty, hxy.left, hxy.right, hxy.payload⟩
  · have hnew' : r ≠ w.nk - 1 := by rw [h.nk]; exact hnew
    rw [pushConstant_record_of_ne _ _ hnew, pushConstant_record_of_ne _ _ hnew']
    exact h.record r hr

/-- A constant has the same opcode on both sides. -/
private theorem exists_op_iff (h : v.SameConstants w) {r : Ref} (hr : r.isConst = true)
    (op : Opcode) :
    (∃ x, v.record r = some x ∧ x.op = op) ↔ ∃ y, w.record r = some y ∧ y.op = op := by
  have hrel := h.record r hr
  generalize v.record r = o, w.record r = o' at hrel ⊢
  cases hrel with
  | none => exact Iff.rfl
  | @some x y hagree =>
    constructor
    · rintro ⟨x, hx, rfl⟩
      cases hx
      exact ⟨y, rfl, hagree.op⟩
    · rintro ⟨y, hy, rfl⟩
      cases hy
      exact ⟨x, rfl, hagree.op.symm⟩

/-- The chains of a constant's opcode are the same. -/
private theorem chain_eq (h : v.SameConstants w) (hv : v.WellFormed) (hw : w.WellFormed)
    {op : Opcode} (hop : op.isConst = true) {refs refs' : List Ref} (hrefs : v.IsChain op refs)
    (hrefs' : w.IsChain op refs') : refs = refs' := by
  refine hrefs.newer.eq_of_mem_iff hrefs'.newer fun r => ?_
  rw [hrefs.mem_iff, hrefs'.mem_iff]
  by_cases hr : r.isConst = true
  · rw [h.exists_op_iff hr]
  · -- instructions have other opcodes
    refine and_congr_right fun _ => ⟨?_, ?_⟩
    · rintro ⟨x, hx, rfl⟩
      exact absurd ((hv.kind hx).symm.trans hop) hr
    · rintro ⟨y, hy, rfl⟩
      exact absurd ((hw.kind hy).symm.trans hop) hr

/-- Conditions that treat agreeing constants alike find the same constant. -/
theorem findIn_eq (h : v.SameConstants w) {same same' : Record → Bool}
    (hsame : ∀ {x y}, x.Agree v.pool w.pool y → same' y = same x) {refs : List Ref}
    (hrefs : ∀ r ∈ refs, r.isConst = true) : w.findIn same' refs = v.findIn same refs := by
  rw [findIn, findIn]
  induction refs with
  | nil => rfl
  | cons r refs ih =>
    rw [List.forall_mem_cons] at hrefs
    rw [List.findSome?_cons, List.findSome?_cons, ih hrefs.2]
    have hrel := h.record r hrefs.1
    generalize v.record r = o, w.record r = o' at hrel ⊢
    cases hrel with
    | none => rfl
    | some hagree => rw [Option.bind_some, Option.bind_some, hsame hagree]

end SameConstants

theorem mem_of_findIn {same : Record → Bool} {refs : List Ref} {r : Ref}
    (h : v.findIn same refs = some r) : r ∈ refs := by
  obtain ⟨q, hq, hprobe⟩ := List.exists_of_findSome?_eq_some h
  obtain ⟨x, -, hx⟩ := Option.bind_eq_some_iff.mp hprobe
  by_cases hsame : same x = true
  · rw [if_pos hsame] at hx
    rwa [← Option.some.inj hx]
  · rw [if_neg hsame] at hx
    cases hx

/-- A chain of constants consists of constants. -/
private theorem IsChain.isConst (hv : v.WellFormed) {op : Opcode} (hop : op.isConst = true)
    {refs : List Ref} (h : v.IsChain op refs) : ∀ r ∈ refs, r.isConst = true := by
  intro r hr
  obtain ⟨-, x, hx, rfl⟩ := (h.mem_iff r).mp hr
  exact (hv.kind hx).symm.trans hop

end View

/-! ### Interning alike -/

namespace Trace

/-- What lies in the pool stays there while a recording grows. -/
theorem get?_of_growths {v v' : View} (h : Relation.ReflTransGen View.Growth v v') {s : Nat}
    {n : Binary64} (hn : v.pool.get? s = some n) : v'.pool.get? s = some n := by
  induction h with
  | refl => exact hn
  | tail _ hstep ih =>
    cases hstep with
    | pool y => exact Pool.get?_find ih y
    | resetGuard => exact ih
    | snapshot refs => exact ih
    | push y _ _ => exact ih
    | pushConstant y _ _ => exact ih

variable {t u t' u' : Trace} {y z : TRef}

/-- Two requests for a constant have the same answer and leave traces whose constants agree. The
instructions stay as they are. -/
structure Alike (t u : Trace) (y z : TRef) (t' u' : Trace) : Prop where
  answer : z = y
  isConst : y.ref.isConst = true
  constants : t'.view.SameConstants u'.view
  left : t'.view.instructions = t.view.instructions
  right : u'.view.instructions = u.view.instructions

private theorem ref_isConst_of {r : Ref} (hr : r.isConst = true) (ty : Ty) :
    (TRef.of r ty).ref.isConst = true := by
  have hlt := (Ref.isConst_iff r).mp hr
  rw [TRef.ref_of (UInt32.le_iff_toNat_le.mpr (by rw [Ref.toNat_limit]; omega))]
  exact hr

/-- Interning agreeing constants. -/
private theorem Sound.intern_alike (ht : t.Sound) (hu : u.Sound) (h : t.view.SameConstants u.view)
    {same same' : Record → Bool} {ty : Ty} {a b : Record}
    (hrun : (intern same ty a).run t = .ok y t') (hrun' : (intern same' ty b).run u = .ok z u')
    (hop : a.op.isConst = true) (hab : a.Agree t.pool u.pool b)
    (hsame : ∀ {x y : Record}, x.Agree t.pool u.pool y → same' y = same x) :
    Alike t u y z t' u' := by
  -- both sides search the same references in the same order
  obtain ⟨refs, hrefs⟩ := ht.wellFormed.chains a.op
  obtain ⟨refs', hrefs'⟩ := hu.wellFormed.chains b.op
  rw [hab.op] at hrefs'
  obtain rfl := h.chain_eq ht.wellFormed hu.wellFormed hop hrefs hrefs'
  have hconst := hrefs.isConst ht.wellFormed hop
  have hfind := h.findIn_eq hsame hconst
  rcases ht.run_intern hrefs hrun with ⟨r, hr, rfl, rfl⟩ | ⟨hr, hone, rfl, hlaid, hview⟩
  · -- both find it
    rcases hu.run_intern (hab.op ▸ hrefs') hrun' with ⟨r', hr', rfl, rfl⟩ | ⟨hr', -⟩
    · obtain rfl := Option.some.inj (hr.symm.trans (hfind.symm.trans hr'))
      exact ⟨rfl, ref_isConst_of (hconst r (View.mem_of_findIn hr)) ty, h, rfl, rfl⟩
    · rw [hfind, hr] at hr'
      cases hr'
  · -- both add it
    rcases hu.run_intern (hab.op ▸ hrefs') hrun' with ⟨r', hr', -⟩ | ⟨-, -, rfl, hlaid', hview'⟩
    · rw [hfind, hr] at hr'
      cases hr'
    · have hnk : u.nk = t.nk := h.nk
      have hle := ht.wellFormed.nk_le
      have hlow : (t.nk - 1).isConst = true :=
        decide_eq_true (show t.nk - 1 < Ref.bias by change t.nk ≤ Ref.true at hle; grind)
      refine ⟨by rw [hnk, hab.ty], ref_isConst_of hlow _, ?_, ?_, ?_⟩
      · rw [hview, hview']
        exact h.pushConstant hab
      · rw [hview]
        exact ht.wellFormed.instructions_pushConstant a
      · rw [hview']
        exact hu.wellFormed.instructions_pushConstant b

/-- A number gets a slot in each pool first. -/
private theorem Sound.knum_alike (ht : t.Sound) (hu : u.Sound) (h : t.view.SameConstants u.view)
    {x : Binary64} (hrun : (knum x).run t = .ok y t') (hrun' : (knum x).run u = .ok z u') :
    Alike t u y z t' u' := by
  have ht' : Sound { t with pool := (t.pool.find x).2 } :=
    ⟨ht.laid.of_view rfl rfl rfl rfl, ht.wellFormed.of_eq rfl rfl rfl rfl⟩
  have hu' : Sound { u with pool := (u.pool.find x).2 } :=
    ⟨hu.laid.of_view rfl rfl rfl rfl, hu.wellFormed.of_eq rfl rfl rfl rfl⟩
  have hs := t.pool.holds_find x
  have hs' := u.pool.holds_find x
  change (knumSlot (.pooled (t.pool.find x).1)).run { t with pool := (t.pool.find x).2 } = _ at hrun
  change (knumSlot (.pooled (u.pool.find x).1)).run { u with pool := (u.pool.find x).2 } = _
    at hrun'
  have halike := ht'.intern_alike hu' (h.find x x) hrun hrun' rfl
    ⟨rfl, rfl, rfl, rfl, .pooled hs hs'⟩ fun hxy => hxy.payload.num?_beq_pooled hs hs'
  exact ⟨halike.answer, halike.isConst, halike.constants,
    halike.left.trans (View.instructions_congr rfl rfl),
    halike.right.trans (View.instructions_congr rfl rfl)⟩

/-- What a request for a constant comes down to. -/
inductive Constant.Asks (k : Constant) : Prop
  /-- It makes no sense. -/
  | absurd (b : Breach) (h : ∀ t, k.intern.run t = .error (.broken b) t)
  /-- It interns a constant, and looks for it in the same way in all pools. -/
  | known {same : Record → Bool} {ty : Ty} {x : Record} (h : k.intern = Trace.intern same ty x)
      (hop : x.op.isConst = true) (hx : ∀ s, x.payload.num? ≠ some (.pooled s))
      (hsame : ∀ {p q : Pool} {x y : Record}, x.Agree p q y → same y = same x)
  /-- It puts a number into the pool first. -/
  | number {n : Binary64} (h : k.intern = knum n)

theorem Constant.asks (k : Constant) : k.Asks := by
  have hint : ∀ i : Int32, ∃ same ty x, kint i = Trace.intern same ty x ∧ x.op.isConst = true ∧
      (∀ s, x.payload.num? ≠ some (.pooled s)) ∧
      ∀ {p q : Pool} {x y : Record}, x.Agree p q y → same y = same x := by
    refine fun i => ⟨_, _, _, rfl, rfl, fun s hs => ?_, fun hxy => ?_⟩
    · cases hs
    · rw [hxy.payload.asInt_eq]
  cases k with
  | int i =>
    obtain ⟨same, ty, x, h, hop, hx, hsame⟩ := hint i
    exact .known h hop hx hsame
  | num n => exact .number rfl
  | numInt n =>
    cases hn : n.int32? with
    | some i =>
      obtain ⟨same, ty, x, h, hop, hx, hsame⟩ := hint i
      refine .known (Eq.trans ?_ h) hop hx hsame
      rw [Constant.intern, knumInt, hn]
    | none =>
      refine .number (n := n) ?_
      rw [Constant.intern, knumInt, hn]
  | numToBit => exact .number rfl
  | numAbs =>
    exact .known rfl rfl (fun s hs => by cases hs) fun hxy => hxy.payload.num?_beq_fixed (by simp)
  | numNeg =>
    exact .known rfl rfl (fun s hs => by cases hs) fun hxy => hxy.payload.num?_beq_fixed (by simp)
  | object o ty =>
    cases o with
    | none => exact .absurd .missingObject fun t => rfl
    | some o =>
      refine .known rfl rfl (fun s hs => by cases hs) fun hxy => ?_
      rw [hxy.payload.object?_eq]
  | pointer a =>
    refine .known rfl rfl (fun s hs => by cases hs) fun hxy => ?_
    rw [hxy.payload.asPointer_eq]
  | null ty =>
    refine .known rfl rfl (fun s hs => by cases hs) fun hxy => ?_
    rw [hxy.ty]
  | slot key n =>
    by_cases hkey : !key.isConst ∨ Ref.limit < n
    · refine .absurd (.badSlotKey key.ref n) fun t => ?_
      rw [Constant.intern, kslot, if_pos hkey]
      rfl
    · refine .known (if_neg hkey) rfl (fun s hs => by cases hs) fun hxy => ?_
      rw [hxy.left, hxy.right]

/-- **A request for a constant** is answered alike by traces whose constants agree. -/
theorem Sound.constant_alike (ht : t.Sound) (hu : u.Sound) (h : t.view.SameConstants u.view)
    {k : Constant} (hrun : k.intern.run t = .ok y t') (hrun' : k.intern.run u = .ok z u') :
    Alike t u y z t' u' := by
  cases k.asks with
  | absurd b hbroken =>
    rw [hbroken] at hrun
    cases hrun
  | known hintern hop hx hsame =>
    rw [hintern] at hrun hrun'
    exact ht.intern_alike hu h hrun hrun' hop (Record.agree_self hx) hsame
  | number hintern =>
    rw [hintern] at hrun hrun'
    exact ht.knum_alike hu h hrun hrun'

end Trace

end TraceIR
