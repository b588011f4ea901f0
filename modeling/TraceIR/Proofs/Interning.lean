import TraceIR.Proofs.Agreement
import TraceIR.Proofs.Lockstep

/-!
# Interned constants and their keys

A constant is told from the others of its opcode by its key: an integer by its value, a
floating-point number by its slot, and so on. A request is a request for a key.

* `Record.key?` and `Trace.Constant.key?` — the key of a constant, and the one that is asked for.
* `View.Canonical` — every interned constant has a key, no two have the same one, and a number that
  lies in the pool is there.
* `Trace.Interned` — the four ways in which a request can end. `Canonical.interned` says that there
  are no others.
* `Reachable.canonical` — whatever a recording has done, its constants are canonical.
-/

namespace TraceIR

/-! ### Keys -/

/-- What tells a constant from the others of its opcode. -/
inductive Key where
  | int (k : Int32)
  | num (s : NumSlot)
  | object (o : Object)
  | pointer (p : UInt64)
  | null (tag : Ty)
  | slot (key index : Ref)
  deriving DecidableEq

namespace Key

/-- The opcode of the constants that have such a key. -/
def op : Key → Opcode
  | int _ => .kint
  | num _ => .knum
  | object _ => .kgc
  | pointer _ => .kptr
  | null _ => .knull
  | slot .. => .kslot

theorem isConst_op (k : Key) : k.op.isConst = true := by
  cases k <;> rfl

/-- The value of the constants that have the key. A slot of a table has none. -/
def value? (p : Pool) : Key → Option Value
  | int k => some (.int k)
  | num s => (s.value? p).map .num
  | object o => some o.value
  | pointer q => some (.pointer q)
  | null _ => some (.pointer 0)
  | slot .. => none

/-- If the key is a slot of the pool, there is a number in it. -/
def HeldIn (p : Pool) : Key → Prop
  | num (.pooled s) => ∃ x, p.Holds x s
  | _ => True

private theorem HeldIn.find {p : Pool} {k : Key} (h : k.HeldIn p) (y : Binary64) :
    k.HeldIn (p.find y).2 := by
  cases k with
  | num s =>
    cases s with
    | pooled i =>
      obtain ⟨x, hx⟩ := h
      exact ⟨x, hx.find y⟩
    | absMask => exact h
    | negMask => exact h
  | int k => exact h
  | object o => exact h
  | pointer q => exact h
  | null tag => exact h
  | slot key index => exact h

/-- A value that can be read stays the same as long as no number leaves the pool. -/
theorem value?_mono {p q : Pool} {k : Key} {v : Value}
    (hpool : ∀ s x, p.get? s = some x → q.get? s = some x) (h : k.value? p = some v) :
    k.value? q = some v := by
  cases k with
  | num s =>
    obtain ⟨x, hx, rfl⟩ := Option.map_eq_some_iff.mp h
    refine Option.map_eq_some_iff.mpr ⟨x, ?_, rfl⟩
    cases s with
    | pooled i => exact hpool i x hx
    | absMask => exact hx
    | negMask => exact hx
  | int k => exact h
  | object o => exact h
  | pointer q => exact h
  | null tag => exact h
  | slot key index => exact h

end Key

/-- The key of a constant. Instructions and the fixed constants have none. -/
def Record.key? (x : Record) : Option Key :=
  match x.op with
  | .kint => some (.int x.payload.asInt)
  | .knum => x.payload.num?.map .num
  | .kgc => x.payload.object?.map .object
  | .kptr => some (.pointer x.payload.asPointer)
  | .knull => some (.null x.ty.tag)
  | .kslot => some (.slot x.left x.right)
  | _ => none

namespace Record

variable {x : Record} {k : Key}

theorem op_of_key? (h : x.key? = some k) : x.op = k.op := by
  rw [key?] at h
  split at h
  · next hop =>
    cases h
    exact hop
  · next hop =>
    obtain ⟨s, -, rfl⟩ := Option.map_eq_some_iff.mp h
    exact hop
  · next hop =>
    obtain ⟨o, -, rfl⟩ := Option.map_eq_some_iff.mp h
    exact hop
  · next hop =>
    cases h
    exact hop
  · next hop =>
    cases h
    exact hop
  · next hop =>
    cases h
    exact hop
  · cases h

theorem key?_eq_none (h : x.op.isConst = false) : x.key? = none := by
  cases hk : x.key? with
  | none => rfl
  | some k =>
    rw [op_of_key? hk, k.isConst_op] at h
    cases h

/-- The record stands for the key. A null has no payload. -/
structure IsFor (x : Record) (k : Key) : Prop where
  key : x.key? = some k
  null : x.op = .knull → x.payload = .empty

/-- The key determines the value of a constant. -/
theorem IsFor.value (h : x.IsFor k) {t : Trace} {v : Value} (hv : k.value? t.pool = some v) :
    t.recordValue x = .ok v := by
  have hop := op_of_key? h.key
  have hkey := h.key
  cases k with
  | int k =>
    have hop : x.op = .kint := hop
    simp only [key?, hop, Option.some.injEq, Key.int.injEq] at hkey
    simp only [Trace.recordValue, hop, hkey]
    exact congrArg Except.ok (Option.some.inj hv)
  | num s =>
    have hop : x.op = .knum := hop
    simp only [key?, hop, Option.map_eq_some_iff, Key.num.injEq, exists_eq_right] at hkey
    obtain ⟨n, hn, rfl⟩ := Option.map_eq_some_iff.mp hv
    simp only [Trace.recordValue, hop, hkey, Option.bind_some, hn]
  | object o =>
    have hop : x.op = .kgc := hop
    simp only [key?, hop, Option.map_eq_some_iff, Key.object.injEq, exists_eq_right] at hkey
    simp only [Trace.recordValue, hop, hkey]
    exact congrArg Except.ok (Option.some.inj hv)
  | pointer q =>
    have hop : x.op = .kptr := hop
    simp only [key?, hop, Option.some.injEq, Key.pointer.injEq] at hkey
    simp only [Trace.recordValue, hop, hkey]
    exact congrArg Except.ok (Option.some.inj hv)
  | null tag =>
    have hop : x.op = .knull := hop
    simp only [Trace.recordValue, hop, h.null hop]
    exact congrArg Except.ok (Option.some.inj hv)
  | slot key index => cases hv

end Record

/-! ### Requests -/

theorem Ty.tag_tag (ty : Ty) : ty.tag.tag = ty.tag := by
  simp [Ty.tag, UInt8.and_assoc]

private theorem TRef.of_tag {a b : Ty} (h : a.tag = b.tag) (r : Ref) :
    TRef.of r a = TRef.of r b := by
  rw [TRef.of, TRef.of, h]

namespace Trace

namespace Constant

/-- What a request asks for: a key, a number that is put into the pool and has its slot as key, or
nothing that makes sense. -/
inductive Demand where
  | key (k : Key)
  | number (x : Binary64)
  | absurd

/-- What is asked for. Objects must be there, the key of a slot must be a constant, and the number
of a slot must not be too large. -/
def demand : Constant → Demand
  | int k => .key (.int k)
  | num x => .number x
  | numInt x =>
    match x.int32? with
    | some k => .key (.int k)
    | none => .number x
  | numToBit => .number bitBias
  | numAbs => .key (.num .absMask)
  | numNeg => .key (.num .negMask)
  | object o _ =>
    match o with
    | some o => .key (.object o)
    | none => .absurd
  | pointer q => .key (.pointer q)
  | null ty => .key (.null ty.tag)
  | slot key n => if !key.isConst ∨ Ref.limit < n then .absurd else .key (.slot key.ref n)

/-- The key that is asked for. -/
def key? (c : Constant) (p : Pool) : Option Key :=
  match c.demand with
  | .key k => some k
  | .number x => some (.num (.pooled (p.find x).1))
  | .absurd => none

/-- The pool after the request. -/
def poolAfter (c : Constant) (p : Pool) : Pool :=
  match c.demand with
  | .number x => (p.find x).2
  | _ => p

/-- The type of the answer. -/
def ty : Constant → Ty
  | int _ => Ty.int
  | num _ => Ty.num
  | numInt x => if x.int32?.isSome then Ty.int else Ty.num
  | numToBit => Ty.num
  | numAbs => Ty.num
  | numNeg => Ty.num
  | object _ ty => ty
  | pointer _ => Ty.ptr
  | null ty => ty
  | slot .. => Ty.ptr

/-- The value that is interned. A slot of a table has none. -/
def value? : Constant → Option Value
  | int k => some (.int k)
  | num x => some (.num x)
  | numInt x =>
    match x.int32? with
    | some k => some (.int k)
    | none => some (.num x)
  | numToBit => some (.num bitBias)
  | numAbs => some (.num ⟨0x7fffffffffffffff⟩)
  | numNeg => some (.num ⟨0x8000000000000000⟩)
  | object o _ => o.map Object.value
  | pointer q => some (.pointer q)
  | null _ => some (.pointer 0)
  | slot .. => none

end Constant

/-- Among the constants of its opcode, the condition holds of those with the key. -/
def Selects (same : Record → Bool) (k : Key) : Prop :=
  ∀ y : Record, y.op = k.op → (same y = true ↔ y.key? = some k)

/-- The action looks for the constant with the key and adds it if it is not there. -/
inductive Seeks (k : Key) (ty : Ty) : Action TRef → Prop
  | intern {same : Record → Bool} {ty' : Ty} {x : Record} (hsame : Selects same k)
      (hx : x.IsFor k) (hty : ty'.tag = ty.tag) (hty' : x.ty.tag = ty.tag) :
      Seeks k ty (intern same ty' x)

/-- Only the tag of the type matters. -/
private theorem Seeks.of_tag {k : Key} {ty ty' : Ty} {a : Action TRef} (h : Seeks k ty a)
    (hty : ty.tag = ty'.tag) : Seeks k ty' a := by
  cases h with
  | intern hsame hx h₁ h₂ => exact .intern hsame hx (h₁.trans hty) (h₂.trans hty)

private theorem seeks_kint (k : Int32) : Seeks (.int k) Ty.int (kint k) := by
  refine .intern (fun y hy => ?_) ⟨rfl, fun hop => by cases hop⟩ rfl rfl
  have hy : y.op = .kint := hy
  simp only [Record.key?, hy, beq_iff_eq, Option.some.injEq, Key.int.injEq]

private theorem seeks_knumSlot (s : NumSlot) : Seeks (.num s) Ty.num (knumSlot s) := by
  refine .intern (fun y hy => ?_) ⟨rfl, fun hop => by cases hop⟩ rfl rfl
  have hy : y.op = .knum := hy
  simp only [Record.key?, hy, beq_iff_eq, Option.map_eq_some_iff, Key.num.injEq, exists_eq_right]

private theorem seeks_kgc (o : Object) (ty : Ty) : Seeks (.object o) ty (kgc (some o) ty) := by
  refine .intern (fun y hy => ?_) ⟨rfl, fun hop => by cases hop⟩ ty.tag_tag ty.tag_tag
  have hy : y.op = .kgc := hy
  simp only [Record.key?, hy, beq_iff_eq, Option.map_eq_some_iff, Key.object.injEq,
    exists_eq_right]

private theorem seeks_kptr (p : UInt64) : Seeks (.pointer p) Ty.ptr (kptr p) := by
  refine .intern (fun y hy => ?_) ⟨rfl, fun hop => by cases hop⟩ rfl rfl
  have hy : y.op = .kptr := hy
  simp only [Record.key?, hy, beq_iff_eq, Option.some.injEq, Key.pointer.injEq]

private theorem seeks_knull (ty : Ty) : Seeks (.null ty.tag) ty (knull ty) := by
  refine .intern (fun y hy => ?_) ⟨?_, fun _ => rfl⟩ rfl ty.tag_tag
  · have hy : y.op = .knull := hy
    simp only [Record.key?, hy, beq_iff_eq, Option.some.injEq, Key.null.injEq]
  · simp only [Record.key?, ty.tag_tag]

private theorem seeks_kslot {key : TRef} {n : Ref} (h : ¬ ((!key.isConst) = true ∨ Ref.limit < n)) :
    Seeks (.slot key.ref n) Ty.ptr (kslot key n) := by
  rw [kslot, if_neg h]
  refine .intern (fun y hy => ?_) ⟨rfl, fun hop => by cases hop⟩ rfl rfl
  have hy : y.op = .kslot := hy
  simp only [Record.key?, hy, Bool.and_eq_true, beq_iff_eq, Option.some.injEq, Key.slot.injEq]

namespace Constant

variable {c : Constant} {k : Key} {x : Binary64} {p : Pool}

/-- A request for a key looks for it. -/
private theorem seeks_of_key (h : c.demand = .key k) : Seeks k c.ty c.intern := by
  cases c with
  | int i =>
    cases h
    exact seeks_kint i
  | numAbs =>
    cases h
    exact seeks_knumSlot _
  | numNeg =>
    cases h
    exact seeks_knumSlot _
  | pointer q =>
    cases h
    exact seeks_kptr q
  | null ty =>
    cases h
    exact seeks_knull ty
  | numInt y =>
    rw [demand] at h
    rw [Constant.intern, knumInt, Constant.ty]
    cases hy : y.int32? with
    | some i =>
      rw [hy] at h
      cases h
      exact seeks_kint i
    | none =>
      rw [hy] at h
      cases h
  | object o ty =>
    cases o with
    | none => cases h
    | some o =>
      cases h
      exact seeks_kgc o ty
  | slot key n =>
    by_cases hkey : (!key.isConst) = true ∨ Ref.limit < n
    · rw [demand, if_pos hkey] at h
      cases h
    · rw [demand, if_neg hkey] at h
      cases h
      exact seeks_kslot hkey
  | _ => cases h

/-- A request for a number puts it into the pool and looks for its slot. -/
private theorem intern_of_number (h : c.demand = .number x) :
    c.intern = knum x ∧ c.ty.tag = Ty.num.tag := by
  cases c with
  | num y =>
    cases h
    exact ⟨rfl, rfl⟩
  | numToBit =>
    cases h
    exact ⟨rfl, rfl⟩
  | numInt y =>
    rw [demand] at h
    rw [Constant.intern, knumInt, Constant.ty]
    cases hy : y.int32? with
    | some i =>
      rw [hy] at h
      cases h
    | none =>
      rw [hy] at h
      cases h
      exact ⟨rfl, rfl⟩
  | object o ty =>
    cases o with
    | none => cases h
    | some o => cases h
  | slot key n =>
    rw [demand] at h
    split at h
    · cases h
    · cases h
  | _ => cases h

/-- A request that makes no sense breaks a rule and changes nothing. -/
private theorem run_intern_of_absurd (h : c.demand = .absurd) (t : Trace) :
    ∃ b, c.intern.run t = .error (.broken b) t := by
  cases c with
  | object o ty =>
    cases o with
    | none => exact ⟨_, rfl⟩
    | some o => cases h
  | slot key n =>
    by_cases hkey : (!key.isConst) = true ∨ Ref.limit < n
    · refine ⟨.badSlotKey key.ref n, ?_⟩
      rw [Constant.intern, kslot, if_pos hkey]
      rfl
    · rw [demand, if_neg hkey] at h
      cases h
  | numInt y =>
    rw [demand] at h
    split at h
    · cases h
    · cases h
  | _ => cases h

/-- A request for a key first puts a number into the pool, and then looks for the key. -/
theorem exists_seeks {t : Trace} (hk : c.key? t.pool = some k) :
    ∃ a, Seeks k c.ty a ∧ c.intern.run t = a.run { t with pool := c.poolAfter t.pool } := by
  rw [key?] at hk
  rw [poolAfter]
  cases hc : c.demand with
  | key k' =>
    rw [hc] at hk
    cases hk
    exact ⟨_, seeks_of_key hc, rfl⟩
  | number x =>
    rw [hc] at hk
    cases hk
    obtain ⟨hintern, hty⟩ := intern_of_number hc
    exact ⟨_, (seeks_knumSlot (.pooled (t.pool.find x).1)).of_tag hty.symm, by rw [hintern]; rfl⟩
  | absurd =>
    rw [hc] at hk
    cases hk

theorem run_intern_of_no_key {t : Trace} (hk : c.key? t.pool = none) :
    ∃ b, c.intern.run t = .error (.broken b) t := by
  rw [key?] at hk
  cases hc : c.demand with
  | key k' =>
    rw [hc] at hk
    cases hk
  | number x =>
    rw [hc] at hk
    cases hk
  | absurd => exact run_intern_of_absurd hc t

/-! Values of requests. -/

/-- A key that is known beforehand needs nothing from the pool. -/
private theorem value?_of_key (h : c.demand = .key k) : k.HeldIn p ∧ k.value? p = c.value? := by
  cases c with
  | numInt y =>
    rw [demand] at h
    rw [value?]
    cases hy : y.int32? with
    | some i =>
      rw [hy] at h
      cases h
      exact ⟨trivial, rfl⟩
    | none =>
      rw [hy] at h
      cases h
  | object o ty =>
    cases o with
    | none => cases h
    | some o =>
      cases h
      exact ⟨trivial, rfl⟩
  | slot key n =>
    rw [demand] at h
    split at h
    · cases h
    · cases h
      exact ⟨trivial, rfl⟩
  | num y => cases h
  | numToBit => cases h
  | _ =>
    cases h
    exact ⟨trivial, rfl⟩

private theorem value?_of_number (h : c.demand = .number x) : c.value? = some (.num x) := by
  cases c with
  | num y =>
    cases h
    rfl
  | numToBit =>
    cases h
    rfl
  | numInt y =>
    rw [demand] at h
    rw [value?]
    cases hy : y.int32? with
    | some i =>
      rw [hy] at h
      cases h
    | none =>
      rw [hy] at h
      cases h
      rfl
  | object o ty =>
    cases o with
    | none => cases h
    | some o => cases h
  | slot key n =>
    rw [demand] at h
    split at h
    · cases h
    · cases h
  | _ => cases h

/-- After the request the key is good, and its value is the one that is interned. -/
theorem heldIn_poolAfter (hk : c.key? p = some k) :
    k.HeldIn (c.poolAfter p) ∧ k.value? (c.poolAfter p) = c.value? := by
  rw [key?] at hk
  rw [poolAfter]
  cases hc : c.demand with
  | key k' =>
    rw [hc] at hk
    cases hk
    exact value?_of_key hc
  | number x =>
    rw [hc] at hk
    cases hk
    have hholds := p.holds_find x
    refine ⟨⟨x, hholds⟩, ?_⟩
    rw [value?_of_number hc, Key.value?, NumSlot.value?, hholds.get?]
    rfl
  | absurd =>
    rw [hc] at hk
    cases hk

/-- If the key is good already, the pool stays as it is. -/
theorem poolAfter_of_heldIn (hk : c.key? p = some k) (hheld : k.HeldIn p) : c.poolAfter p = p := by
  rw [key?] at hk
  rw [poolAfter]
  cases hc : c.demand with
  | key k' => rfl
  | number x =>
    rw [hc] at hk
    cases hk
    -- the slot holds the number that is asked for, so nothing is added
    obtain ⟨y, hy⟩ := hheld
    obtain rfl := (hy.find x).value_eq (p.holds_find x)
    show (p.find y).2 = p
    rw [hy.find_self]
  | absurd => rfl

/-- The request leaves the pool as it is, or puts one number into it. -/
private theorem poolAfter_cases (c : Constant) (p : Pool) :
    c.poolAfter p = p ∨ ∃ x, c.poolAfter p = (p.find x).2 := by
  rw [poolAfter]
  cases c.demand with
  | key k => exact .inl rfl
  | number x => exact .inr ⟨x, rfl⟩
  | absurd => exact .inl rfl

end Constant

end Trace

/-! ### Canonical constants -/

/-- Every interned constant has a key, and no two have the same one. -/
structure View.Canonical (v : View) : Prop where
  fixed : ∀ {r x}, r.IsFixed → v.record r = some x → x.key? = none
  interned : ∀ {r x}, r.isConst = true → ¬ r.IsFixed → v.record r = some x →
    ∃ k, x.IsFor k ∧ k.HeldIn v.pool
  unique : ∀ {r q x y k}, v.record r = some x → v.record q = some y → x.key? = some k →
    y.key? = some k → r = q

namespace View

variable {v v' : View} {r : Ref} {x : Record} {k : Key} {same : Record → Bool} {refs : List Ref}

/-- No constant has the key. -/
def Lacks (v : View) (k : Key) : Prop :=
  ∀ r x, v.record r = some x → x.key? ≠ some k

/-- What a search for a key finds has the key. -/
private theorem exists_of_findIn (hchain : v.IsChain k.op refs) (hsame : Trace.Selects same k)
    (hfound : v.findIn same refs = some r) : ∃ x, v.record r = some x ∧ x.key? = some k := by
  obtain ⟨q, hq, hprobe⟩ := List.exists_of_findSome?_eq_some hfound
  obtain ⟨-, x, hx, hop⟩ := (hchain.mem_iff q).mp hq
  rw [hx, Option.bind_some] at hprobe
  by_cases hsel : same x = true
  · rw [if_pos hsel] at hprobe
    cases hprobe
    exact ⟨x, hx, (hsame x hop).mp hsel⟩
  · rw [if_neg hsel] at hprobe
    cases hprobe

/-- A search that finds nothing has seen all constants that could have the key. -/
private theorem Canonical.lacks_of_findIn (h : v.Canonical) (hchain : v.IsChain k.op refs)
    (hsame : Trace.Selects same k) (hfound : v.findIn same refs = none) : v.Lacks k := by
  intro r x hx hk
  have hop := Record.op_of_key? hk
  have hfixed : ¬ r.IsFixed := by
    intro hfixed
    rw [h.fixed hfixed hx] at hk
    cases hk
  have hmem := (hchain.mem_iff r).mpr ⟨hfixed, x, hx, hop⟩
  have hnone := List.findSome?_eq_none_iff.mp hfound r hmem
  rw [hx, Option.bind_some, if_pos ((hsame x hop).mpr hk)] at hnone
  cases hnone

theorem key?_initialRecord (hx : initialRecord r = some x) : x.key? = none := by
  rcases initialRecord_eq_some hx with ⟨-, rfl⟩ | ⟨-, hop⟩
  · rfl
  · rw [Record.key?, hop]

namespace Canonical

private theorem initial (config : Config) (pool : Pool) (folder : Option Folder) :
    (View.initial config pool folder).Canonical := by
  refine ⟨fun _ hx => key?_initialRecord hx, fun {r x} hconst hfixed hx => ?_,
    fun hx _ hk _ => ?_⟩
  · rcases initialRecord_eq_some hx with ⟨rfl, -⟩ | ⟨hfixed', -⟩
    · exact absurd hconst (by decide)
    · exact absurd hfixed' hfixed
  · rw [key?_initialRecord hx] at hk
    cases hk

/-- Only the records and the pool matter. -/
private theorem of_eq (h : v.Canonical) (hpool : v'.pool = v.pool)
    (hrecord : v'.record = v.record) :
    v'.Canonical where
  fixed hr hx := h.fixed hr (hrecord ▸ hx)
  interned hr hfixed hx := by
    rw [hpool]
    exact h.interned hr hfixed (hrecord ▸ hx)
  unique hx hy := h.unique (hrecord ▸ hx) (hrecord ▸ hy)

/-- A number enters the pool. -/
private theorem find (h : v.Canonical) (n : Binary64) :
    View.Canonical { v with pool := (v.pool.find n).2 } where
  fixed := h.fixed
  interned hr hfixed hx := by
    obtain ⟨k, hk, hheld⟩ := h.interned hr hfixed hx
    exact ⟨k, hk, hheld.find n⟩
  unique := h.unique

/-- An instruction enters, which has no key. -/
theorem push (h : v.Canonical) (hv : v.WellFormed) (hop : x.op.isConst = false) :
    (v.push x).Canonical := by
  have hnew : ({ x with prev := v.heads.get x.op } : Record).key? = none :=
    Record.key?_eq_none hop
  have hbase := hv.base_lt
  refine ⟨fun {r y} hr hy => ?_, fun {r y} hr hfixed hy => ?_, fun {r q y z k} hy hz hk hk' => ?_⟩
  · rcases record_push_cases hy with ⟨-, rfl⟩ | hy
    · exact hnew
    · exact h.fixed hr hy
  · rcases record_push_cases hy with ⟨rfl, -⟩ | hy
    · have hlt : v.nins < Ref.bias := of_decide_eq_true hr
      exact absurd hlt (by grind)
    · exact h.interned hr hfixed hy
  · rcases record_push_cases hy with ⟨-, rfl⟩ | hy
    · rw [hnew] at hk
      cases hk
    rcases record_push_cases hz with ⟨-, rfl⟩ | hz
    · rw [hnew] at hk'
      cases hk'
    exact h.unique hy hz hk hk'

/-- A constant enters whose key no other has. -/
private theorem pushConstant (h : v.Canonical) (hv : v.WellFormed) (hone : 1 < v.nk)
    (hx : x.IsFor k) (hheld : k.HeldIn v.pool) (hnew : v.Lacks k) :
    (v.pushConstant x).Canonical := by
  have hnk := hv.nk_le
  have hkey : ({ x with prev := v.heads.get x.op } : Record).key? = some k := hx.key
  refine ⟨fun {r y} hr hy => ?_, fun {r y} hr hfixed hy => ?_, fun {r q y z k'} hy hz hk hk' => ?_⟩
  · rcases record_pushConstant_cases hy with ⟨rfl, -⟩ | hy
    · rw [Ref.isFixed_iff] at hr
      exact absurd hr.1 (by grind)
    · exact h.fixed hr hy
  · rcases record_pushConstant_cases hy with ⟨-, rfl⟩ | hy
    · exact ⟨k, ⟨hkey, hx.null⟩, hheld⟩
    · exact h.interned hr hfixed hy
  · -- two constants with one key are both new or both old
    rcases record_pushConstant_cases hy with ⟨rfl, rfl⟩ | hy
    · obtain rfl := Option.some.inj (hkey.symm.trans hk)
      rcases record_pushConstant_cases hz with ⟨rfl, -⟩ | hz
      · rfl
      · exact absurd hk' (hnew q z hz)
    · rcases record_pushConstant_cases hz with ⟨rfl, rfl⟩ | hz
      · obtain rfl := Option.some.inj (hkey.symm.trans hk')
        exact absurd hk (hnew r y hy)
      · exact h.unique hy hz hk hk'

/-- What is left of canonical constants is canonical. -/
private theorem cut {low high : Ref} (h : v.Canonical) (hcut : v.Cut v' low high) :
    v'.Canonical := by
  have hrecord : ∀ {r x}, v'.record r = some x → v.record r = some x := by
    intro r x hx
    have hlive := (hcut.wellFormed.live_iff r).mp ⟨x, hx⟩
    rw [hcut.nk, hcut.nins] at hlive
    rwa [hcut.record r hlive.1 hlive.2] at hx
  refine ⟨fun hr hx => h.fixed hr (hrecord hx), fun hr hfixed hx => ?_,
    fun hx hy => h.unique (hrecord hx) (hrecord hy)⟩
  rw [hcut.pool]
  exact h.interned hr hfixed (hrecord hx)

end Canonical

end View

/-! ### How a request ends -/

namespace Trace

variable {t t' : Trace} {c : Constant} {k : Key}

/-- How a request for a key ends: the constant is there, the limit on constants is reached, the
buffer has no room below and cannot make any, or the constant is added. -/
inductive Interned (t : Trace) (c : Constant) (k : Key) :
    EStateM.Result Fault Trace TRef → Prop
  | found {r : Ref} {x : Record} (hx : t.view.record r = some x) (hk : x.key? = some k) :
      Interned t c k (.ok (.of r c.ty) t)
  | full (hnew : t.view.Lacks k) (hfull : t.ConstantsFull) :
      Interned t c k
        (.error (.refused .constOverflow) { t with pool := c.poolAfter t.pool })
  | stuck {e : Breach} (hnew : t.view.Lacks k) (hroom : ¬ t.ConstantsFull)
      (hstuck : t.roomBelow = .error e) :
      Interned t c k (.error (.broken e) { t with pool := c.poolAfter t.pool })
  | added {buffer : Buffer} {x : Record} {t' : Trace} (hnew : t.view.Lacks k)
      (hroom : ¬ t.ConstantsFull) (hbuffer : t.roomBelow = .ok buffer) (hx : x.IsFor k)
      (hrun : (addConstant x).run { t with pool := c.poolAfter t.pool } =
        .ok (.of (t.nk - 1) c.ty) t')
      (hlaid : t'.Laid)
      (hview : t'.view = { t.view with pool := c.poolAfter t.pool : View }.pushConstant x) :
      Interned t c k (.ok (.of (t.nk - 1) c.ty) t')

/-- A sound trace whose constants are canonical. -/
structure Canonical (t : Trace) : Prop where
  sound : t.Sound
  canonical : t.view.Canonical

/-- A live constant with a key is good. -/
theorem Canonical.heldIn (h : t.Canonical) {r : Ref} {x : Record} (hx : t.view.record r = some x)
    (hk : x.key? = some k) : x.IsFor k ∧ k.HeldIn t.pool := by
  have hconst : r.isConst = true := by
    rw [← h.sound.wellFormed.kind hx, Record.op_of_key? hk, k.isConst_op]
  have hfixed : ¬ r.IsFixed := by
    intro hfixed
    rw [h.canonical.fixed hfixed hx] at hk
    cases hk
  obtain ⟨k', hk', hheld⟩ := h.canonical.interned hconst hfixed hx
  obtain rfl := Option.some.inj (hk.symm.trans hk'.key)
  exact ⟨hk', hheld⟩

/-- **A request for a key** ends in one of the four ways. -/
theorem Canonical.interned (h : t.Canonical) (hk : c.key? t.pool = some k) :
    Interned t c k (c.intern.run t) := by
  obtain ⟨a, ha, hrun⟩ := Constant.exists_seeks hk
  rw [hrun]
  cases ha with
  | @intern same ty' x hsame hx hty hty' =>
    have hlaid : { t with pool := c.poolAfter t.pool : Trace }.Laid :=
      h.sound.laid.of_view rfl rfl rfl rfl
    obtain ⟨refs, hchain⟩ := h.sound.wellFormed.chains k.op
    have hop := Record.op_of_key? hx.key
    have hchain' : { t with pool := c.poolAfter t.pool : Trace }.view.IsChain x.op refs := by
      rw [hop]
      exact ⟨hchain.linked, hchain.mem_iff, hchain.newer⟩
    have hfind : { t with pool := c.poolAfter t.pool : Trace }.view.findIn same refs =
        t.view.findIn same refs := rfl
    rw [hlaid.run_intern_eq hchain', hfind]
    cases hfound : t.view.findIn same refs with
    | some r =>
      obtain ⟨y, hy, hyk⟩ := View.exists_of_findIn hchain hsame hfound
      dsimp only
      rw [Constant.poolAfter_of_heldIn hk (h.heldIn hy hyk).2, TRef.of_tag hty]
      exact .found hy hyk
    | none =>
      have hnew := h.canonical.lacks_of_findIn hchain hsame hfound
      dsimp only
      by_cases hfull : t.ConstantsFull
      · rw [run_addConstant, if_pos (by exact hfull)]
        exact .full hnew hfull
      cases hbuffer : t.roomBelow with
      | error e =>
        have hstuck : { t with pool := c.poolAfter t.pool : Trace }.roomBelow = .error e := hbuffer
        rw [run_addConstant, if_neg (by exact hfull), hstuck]
        exact .stuck hnew hfull hbuffer
      | ok buffer =>
        obtain ⟨t', hadd, hlaid', hview⟩ := hlaid.run_addConstant (by exact hfull)
          (show _ = Except.ok buffer from hbuffer) x
        rw [TRef.of_tag hty'] at hadd
        rw [hadd]
        exact .added hnew hfull hbuffer hx hadd hlaid' hview

/-! ### What a request does -/

/-- The live constant at the reference has the key. -/
def HasKey (t : Trace) (r : Ref) (k : Key) : Prop :=
  ∃ x, t.record? r = .ok x ∧ x.key? = some k

theorem lacks_iff : t.view.Lacks k ↔ ∀ r, ¬ t.HasKey r k := by
  constructor
  · rintro h r ⟨x, hx, hk⟩
    exact h r x (record?_eq_ok_iff.mp hx) hk
  · intro h r x hx hk
    exact h r ⟨x, record?_eq_ok_iff.mpr hx, hk⟩

/-- `t'` is `t` with one constant more, and that one has the key. The pool may have got the number
for it. -/
structure Gains (t : Trace) (k : Key) (t' : Trace) : Prop where
  hasKey : t'.HasKey (t.nk - 1) k
  nk : t'.nk = t.nk - 1
  nins : t'.nins = t.nins
  record : ∀ r x, t.record? r = .ok x → t'.record? r = .ok x
  number : ∀ s x, t.pool.get? s = some x → t'.pool.get? s = some x
  config : t'.config = t.config
  folder : t'.folder = t.folder
  guardEmitted : t'.guardEmitted = t.guardEmitted
  snapshots : t'.snapshots = t.snapshots

theorem Constant.get?_poolAfter (c : Constant) {p : Pool} {s : Nat} {x : Binary64}
    (h : p.get? s = some x) : (c.poolAfter p).get? s = some x := by
  rcases c.poolAfter_cases p with hpool | ⟨y, hpool⟩
  · rw [hpool]
    exact h
  · rw [hpool]
    exact Pool.get?_find h y

/-- The trace with the new constant. -/
theorem Canonical.gains (h : t.Canonical) {x : Record} (hx : x.IsFor k)
    (hview : t'.view = { t.view with pool := c.poolAfter t.pool : View }.pushConstant x) :
    t.Gains k t' := by
  have hnew : t'.view.record (t.nk - 1) =
      some ({ x with prev := t.heads.get x.op } : Record) := by
    rw [hview]
    exact View.pushConstant_record_self _ x
  have hpool : t'.pool = c.poolAfter t.pool := congrArg View.pool hview
  exact
    { hasKey := ⟨_, record?_eq_ok_iff.mpr hnew, hx.key⟩
      nk := congrArg View.nk hview
      nins := congrArg View.nins hview
      record := by
        intro r y hy
        rw [record?_eq_ok_iff] at hy ⊢
        -- the new reference lies below all that are in use
        have hlive := ((h.sound.wellFormed.live_iff r).mp ⟨y, hy⟩).1
        have hne : r ≠ t.nk - 1 := by
          intro heq
          have hle : t.nk ≤ t.nk - 1 := heq ▸ hlive
          have hpos := h.sound.laid.nk_pos
          rw [UInt32.le_iff_toNat_le, Ref.toNat_pred hpos] at hle
          omega
        rw [hview]
        exact (View.pushConstant_record_of_ne _ x hne).trans hy
      number := fun s y hy => hpool ▸ c.get?_poolAfter hy
      config := congrArg View.config hview
      folder := congrArg View.folder hview
      guardEmitted := congrArg View.guardEmitted hview
      snapshots := congrArg View.snapshots hview }

/-- The new constant is the only one that has got a key. -/
theorem Gains.hasKey_iff (h : t.Gains k t') (ht : t.Sound) {r : Ref} {k' : Key} :
    t'.HasKey r k' ↔ r = t.nk - 1 ∧ k' = k ∨ t.HasKey r k' := by
  constructor
  · rintro ⟨x, hx, hk⟩
    by_cases hr : r = t.nk - 1
    · subst hr
      obtain ⟨y, hy, hk'⟩ := h.hasKey
      obtain rfl := Except.ok.inj (hx.symm.trans hy)
      exact .inl ⟨rfl, Option.some.inj (hk.symm.trans hk')⟩
    · -- any other live reference was live before
      have hlive := (t'.isLive_iff r).mp (isLive_of_record? hx)
      rw [h.nk, h.nins] at hlive
      have hpos := ht.laid.nk_pos
      have hle : t.nk ≤ r := by
        have hpred := Ref.toNat_pred hpos
        have hle := UInt32.le_iff_toNat_le.mp hlive.1
        have hne : (t.nk - 1).toNat ≠ r.toNat := fun heq => hr (UInt32.toNat_inj.mp heq).symm
        rw [UInt32.le_iff_toNat_le]
        omega
      obtain ⟨y, hy⟩ := ht.exists_record ((t.isLive_iff r).mpr ⟨hle, hlive.2⟩)
      obtain rfl := Except.ok.inj ((h.record r y hy).symm.trans hx)
      exact .inr ⟨y, hy, hk⟩
  · rintro (⟨rfl, rfl⟩ | ⟨x, hx, hk⟩)
    · exact h.hasKey
    · exact ⟨x, h.record r x hx, hk⟩

/-- In a new trace nothing has a key. -/
theorem not_hasKey_of_start {config : Config} {pool : Pool} (h : start config pool = .ok t) (r : Ref)
    (k : Key) : ¬ t.HasKey r k := by
  rintro ⟨x, hx, hk⟩
  rw [record?_eq_ok_iff, (start_eq_ok h).2] at hx
  rw [View.key?_initialRecord hx] at hk
  cases hk

/-! ### Recordings -/

/-- Putting a number into the pool keeps a trace canonical. -/
theorem Canonical.poolAfter (h : t.Canonical) (c : Constant) :
    Canonical { t with pool := c.poolAfter t.pool } := by
  refine ⟨⟨h.sound.laid.of_view rfl rfl rfl rfl, h.sound.wellFormed.of_eq rfl rfl rfl rfl⟩, ?_⟩
  rcases c.poolAfter_cases t.pool with hpool | ⟨x, hpool⟩
  · exact h.canonical.of_eq hpool rfl
  · exact (h.canonical.find x).of_eq hpool rfl

/-- Growing keeps a trace sound, so only the view is left. -/
private theorem Canonical.of_grows (h : t.Canonical) (hgrows : t.Grows t')
    (hview : t'.view.Canonical) :
    t'.Canonical :=
  ⟨h.sound.grows hgrows, hview⟩

theorem Canonical.constant (h : t.Canonical) (c : Constant) :
    (t.after c.intern).Canonical := by
  cases hk : c.key? t.pool with
  | none =>
    obtain ⟨b, hrun⟩ := Constant.run_intern_of_no_key hk
    rw [after_of_error hrun]
    exact h
  | some k =>
    have hgrows := grows_constant t c
    have hinterned := h.interned hk
    rw [after] at hgrows ⊢
    generalize c.intern.run t = z at hinterned hgrows ⊢
    cases hinterned with
    | found hx hk => exact h
    | full hnew hfull => exact h.poolAfter c
    | stuck hnew hroom hstuck => exact h.poolAfter c
    | added hnew hroom hbuffer hx _ hlaid hview =>
      refine h.of_grows hgrows ?_
      have hpool := h.poolAfter c
      rw [hview]
      exact hpool.canonical.pushConstant hpool.sound.wellFormed (Laid.one_lt_of_not_full hroom) hx
        (Constant.heldIn_poolAfter hk).1 hnew

theorem Canonical.emitRaw (h : t.Canonical) {op : Opcode} (hop : op.isConst = false) (ty : Ty)
    (a b : Ref) : (t.after (emitRaw op ty a b)).Canonical := by
  refine h.of_grows (grows_emitRaw t hop ty a b) ?_
  by_cases hfull : t.InstructionsFull
  · rw [after_of_error (by rw [run_emitRaw, if_pos hfull])]
    exact h.canonical
  · obtain ⟨t', hrun, -, hview⟩ := h.sound.laid.run_emitRaw hfull op ty a b
    rw [after_of_ok hrun, hview]
    exact h.canonical.push h.sound.wellFormed hop

/-- Every step of a recording keeps constants canonical. -/
theorem stepInvariant_canonical : StepInvariant Canonical where
  folder h f := ⟨h.sound.step (.useFolder f), h.canonical.of_eq rfl rfl⟩
  snapshot h refs := ⟨h.sound.step (.addSnapshot refs), h.canonical.of_eq rfl rfl⟩
  guard h := ⟨h.sound.step .resetGuardEmitted, h.canonical.of_eq rfl rfl⟩
  emitRaw h _ hop ty a b := h.emitRaw hop ty a b
  constant h c := h.constant c
  rollback {t} h cp := by
    refine ⟨h.sound.step (.rollback cp), ?_⟩
    rcases h.sound.laid.step_rollback cp with hsame | ⟨hcp, -, hview⟩
    · change (t.step (.rollback cp)).view.Canonical
      rw [hsame]
      exact h.canonical
    · change (t.step (.rollback cp)).view.Canonical
      rw [hview]
      have hstart : View.Canonical
          { t.view with snapshots := t.view.snapshots.take cp.snapshots.toNat } :=
        h.canonical.of_eq rfl rfl
      exact hstart.cut (h.sound.wellFormed.cut_rollback hcp)
  setup {t} h := by
    refine ⟨h.sound.step .setup, ?_⟩
    obtain ⟨t', hrun, -, hview⟩ := h.sound.laid.run_setup
    rw [after_of_ok hrun, hview]
    exact .initial ..

/-- Every trace that a recording reaches is canonical. -/
theorem Reachable.canonical (h : Reachable t) : t.Canonical := by
  refine stepInvariant_canonical.of_reachable (fun hstart => ?_) h
  refine ⟨(Reachable.start hstart).sound, ?_⟩
  rw [(start_eq_ok hstart).2]
  exact .initial ..

end Trace

end TraceIR
