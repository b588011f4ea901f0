import Mathlib.Data.List.Sort
import TraceIR.Proofs.View

/-!
# Chains that fit the records

The newest records and the links between records are kept by hand at every change of a trace. This
file says what they are meant to be and shows that entering and leaving records keep it so.

* `Linked get r refs stop` — following links from `r` passes `refs` and arrives at `stop`.
* `View.IsChain v op refs` — from the newest record of `op` the links pass `refs`, newest first,
  and these are all live records of `op` but the fixed constants.
* `View.Ranged` — the live range is sound, and constants lie below the border and instructions
  above it. Under it a record that enters or leaves changes the chain of one opcode, and this chain
  fits afterwards if it did before (`Ranged.exists_isChain_push` and its companions).
* `View.WellFormed` — besides, every opcode has its chain.
* `WellFormed.push`, `WellFormed.pushConstant`, `WellFormed.popInstruction`,
  `WellFormed.popConstant` and `wellFormed_initial` — what keeps a view well formed.

A chain is determined by the records alone (`IsChain.unique`), and so is the newest record
(`WellFormed.heads_get_eq`). `Laid.chain_eq` says that a walk along the chain of a trace lists it,
and `Laid.search_eq` that a search asks its records in turn.
-/

namespace TraceIR

namespace Ref

/-- The reference is one of the three constants that every trace has. -/
def IsFixed (r : Ref) : Prop :=
  r = nil ∨ r = false ∨ r = true

instance (r : Ref) : Decidable r.IsFixed :=
  inferInstanceAs (Decidable (_ ∨ _))

theorem isFixed_iff {r : Ref} : r.IsFixed ↔ true ≤ r ∧ r < base := by
  unfold IsFixed
  grind

end Ref

/-- `a` entered the trace after `b`, both of opcode `op`: constants grow down, instructions up. -/
def Opcode.Newer (op : Opcode) (a b : Ref) : Prop :=
  if op.isConst then a < b else b < a

namespace Opcode

variable {op : Opcode} {a b : Ref}

theorem newer_of_const (h : op.isConst = true) : op.Newer a b ↔ a < b := by
  rw [Newer, if_pos h]

theorem newer_of_not_const (h : op.isConst = false) : op.Newer a b ↔ b < a := by
  rw [Newer, if_neg (by simp [h])]

theorem Newer.asymm (h : op.Newer a b) : ¬ op.Newer b a := by
  cases hop : op.isConst with
  | true =>
    rw [newer_of_const hop] at h ⊢
    exact UInt32.lt_asymm h
  | false =>
    rw [newer_of_not_const hop] at h ⊢
    exact UInt32.lt_asymm h

instance (op : Opcode) : Std.Irrefl op.Newer :=
  ⟨fun _ h => h.asymm h⟩

instance (op : Opcode) : Std.Antisymm op.Newer :=
  ⟨fun _ _ h h' => absurd h' h.asymm⟩

end Opcode

/-! ### Links -/

/-- Following the links of `get` from `r` passes `refs` and then arrives at `stop`. -/
inductive Linked (get : Ref → Option Record) : Ref → List Ref → Ref → Prop
  | done (r : Ref) : Linked get r [] r
  | step {r stop : Ref} {x : Record} {refs : List Ref} (hr : get r = some x)
      (hrest : Linked get x.prev refs stop) : Linked get r (r :: refs) stop

namespace Linked

variable {get get' : Ref → Option Record} {r q stop : Ref} {refs : List Ref}

/-- Only the links that are followed matter. -/
theorem congr (h : Linked get r refs stop) (hget : ∀ q ∈ refs, get' q = get q) :
    Linked get' r refs stop := by
  induction h with
  | done r => exact .done r
  | step hr _ ih =>
    refine .step ?_ (ih fun q hq => hget q (List.mem_cons_of_mem _ hq))
    rw [hget _ List.mem_cons_self, hr]

theorem eq_headD (h : Linked get r refs stop) : r = refs.headD stop := by
  cases h with
  | done => rfl
  | step => rfl

theorem uncons (h : Linked get r (q :: refs) stop) :
    r = q ∧ ∃ x, get q = some x ∧ Linked get x.prev refs stop := by
  cases h with
  | step hr hrest => exact ⟨rfl, _, hr, hrest⟩

theorem append {mid : Ref} {refs' : List Ref} (h : Linked get r refs mid)
    (h' : Linked get mid refs' stop) : Linked get r (refs ++ refs') stop := by
  induction h with
  | done r => exact h'
  | step hr _ ih => exact .step hr (ih h')

theorem exists_of_mem (h : Linked get r refs stop) (hq : q ∈ refs) : ∃ x, get q = some x := by
  induction h with
  | done r => cases hq
  | step hr _ ih =>
    rcases List.mem_cons.mp hq with rfl | hq
    · exact ⟨_, hr⟩
    · exact ih hq

end Linked

namespace View

/-! ### Chains -/

/-- `refs` is the chain of an opcode: it follows the links from the newest record to the end, holds
every live record of the opcode but the fixed constants, and is sorted by age. -/
structure IsChain (v : View) (op : Opcode) (refs : List Ref) : Prop where
  linked : Linked v.record (v.heads.get op) refs Ref.none
  mem_iff : ∀ r, r ∈ refs ↔ ¬ r.IsFixed ∧ ∃ x, v.record r = some x ∧ x.op = op
  newer : refs.Pairwise op.Newer

/-- The records determine the chain. -/
theorem IsChain.unique {v v' : View} {op : Opcode} {refs refs' : List Ref}
    (h : v.IsChain op refs) (h' : v'.IsChain op refs') (hrecord : v.record = v'.record) :
    refs = refs' := by
  refine h.newer.eq_of_mem_iff h'.newer fun r => ?_
  rw [h.mem_iff, h'.mem_iff, hrecord]

/-- A change at one reference leaves the chain of an opcode that stands there neither before nor
after. -/
private theorem IsChain.of_change {v v' : View} {op : Opcode} {refs : List Ref} {r : Ref}
    (h : v.IsChain op refs) (hhead : v'.heads.get op = v.heads.get op)
    (hother : ∀ q, q ≠ r → v'.record q = v.record q)
    (hbefore : ∀ y, v.record r = some y → y.op ≠ op)
    (hafter : ∀ y, v'.record r = some y → y.op ≠ op) : v'.IsChain op refs := by
  have hmem : ∀ q ∈ refs, q ≠ r := by
    rintro q hq rfl
    obtain ⟨-, y, hy, hyop⟩ := (h.mem_iff q).mp hq
    exact hbefore y hy hyop
  refine ⟨?_, fun q => ?_, h.newer⟩
  · rw [hhead]
    exact h.linked.congr fun q hq => hother q (hmem q hq)
  · by_cases hq : q = r
    · subst hq
      exact ⟨fun hq => absurd rfl (hmem q hq), fun ⟨_, y, hy, hyop⟩ => absurd hyop (hafter y hy)⟩
    · rw [hother q hq, h.mem_iff]

/-- The newest record of an opcode stands in front of its chain. -/
private theorem IsChain.exists_eq_cons {v : View} {r : Ref} {x : Record} {refs : List Ref}
    (h : v.IsChain x.op refs) (hx : v.record r = some x) (hr : ¬ r.IsFixed)
    (hnewer : ∀ q y, v.record q = some y → y.op = x.op → ¬ q.IsFixed → q ≠ r → x.op.Newer r q) :
    ∃ rest, refs = r :: rest := by
  have hmem : r ∈ refs := (h.mem_iff r).mpr ⟨hr, x, hx, rfl⟩
  obtain ⟨q, rest, rfl⟩ := List.exists_cons_of_ne_nil (List.ne_nil_of_mem hmem)
  have hfront := (List.pairwise_cons.mp h.newer).1
  by_cases hq : q = r
  · exact ⟨rest, by rw [hq]⟩
  · obtain ⟨hfixed, y, hy, hyop⟩ := (h.mem_iff q).mp List.mem_cons_self
    have hin : r ∈ rest := (List.mem_cons.mp hmem).resolve_left (Ne.symm hq)
    exact absurd (hfront r hin) (hnewer q y hy hyop hfixed hq).asymm

/-- A record that is newer than all others of its opcode is put in front of its chain. -/
private theorem exists_isChain_insert {v v' : View} {r : Ref} {x : Record} {op : Opcode}
    (h : ∃ refs, v.IsChain op refs) (hfree : v.record r = none) (hr : ¬ r.IsFixed)
    (hnewer : ∀ q y, v.record q = some y → y.op = x.op → ¬ q.IsFixed → x.op.Newer r q)
    (hheads : v'.heads = v.heads.set x.op r)
    (hrecord : v'.record = Function.update v.record r (some { x with prev := v.heads.get x.op })) :
    ∃ refs, v'.IsChain op refs := by
  obtain ⟨refs, hchain⟩ := h
  have hself : v'.record r = some { x with prev := v.heads.get x.op } := by
    rw [hrecord, Function.update_self]
  have hother : ∀ q, q ≠ r → v'.record q = v.record q := by
    intro q hq
    rw [hrecord, Function.update_of_ne hq]
  by_cases hop : x.op = op
  · subst hop
    have hmem : ∀ q ∈ refs, q ≠ r := by
      rintro q hq rfl
      obtain ⟨-, y, hy, -⟩ := (hchain.mem_iff q).mp hq
      rw [hfree] at hy
      cases hy
    refine ⟨r :: refs, ?_, fun q => ?_, ?_⟩
    · rw [hheads, Heads.get_set_self]
      exact .step hself (hchain.linked.congr fun q hq => hother q (hmem q hq))
    · rw [List.mem_cons]
      by_cases hq : q = r
      · subst hq
        exact ⟨fun _ => ⟨hr, _, hself, rfl⟩, fun _ => .inl rfl⟩
      · rw [hother q hq, hchain.mem_iff]
        exact ⟨fun hmem => hmem.resolve_left hq, .inr⟩
    · refine List.pairwise_cons.mpr ⟨fun q hq => ?_, hchain.newer⟩
      obtain ⟨hfixed, y, hy, hyop⟩ := (hchain.mem_iff q).mp hq
      exact hnewer q y hy hyop hfixed
  · refine ⟨refs, hchain.of_change ?_ hother (fun y hy => ?_) fun y hy => ?_⟩
    · rw [hheads, Heads.get_set_of_ne _ _ hop]
    · rw [hfree] at hy
      cases hy
    · rw [hself] at hy
      obtain rfl := Option.some.inj hy
      exact hop

/-- The newest record of an opcode is taken off the front of its chain. -/
private theorem exists_isChain_remove {v v' : View} {r : Ref} {x : Record} {op : Opcode}
    (h : ∃ refs, v.IsChain op refs) (hx : v.record r = some x) (hr : ¬ r.IsFixed)
    (hnewer : ∀ q y, v.record q = some y → y.op = x.op → ¬ q.IsFixed → q ≠ r → x.op.Newer r q)
    (hheads : v'.heads = v.heads.set x.op x.prev)
    (hrecord : v'.record = Function.update v.record r none) : ∃ refs, v'.IsChain op refs := by
  obtain ⟨refs, hchain⟩ := h
  have hself : v'.record r = none := by
    rw [hrecord, Function.update_self]
  have hother : ∀ q, q ≠ r → v'.record q = v.record q := by
    intro q hq
    rw [hrecord, Function.update_of_ne hq]
  by_cases hop : x.op = op
  · subst hop
    obtain ⟨rest, rfl⟩ := hchain.exists_eq_cons hx hr hnewer
    obtain ⟨hfront, hrestNewer⟩ := List.pairwise_cons.mp hchain.newer
    have hrest : ∀ q ∈ rest, q ≠ r := by
      rintro q hq rfl
      exact (hfront q hq).asymm (hfront q hq)
    obtain ⟨-, y, hy, hlinked⟩ := hchain.linked.uncons
    obtain rfl : y = x := Option.some.inj (hy.symm.trans hx)
    refine ⟨rest, ?_, fun q => ?_, hrestNewer⟩
    · rw [hheads, Heads.get_set_self]
      exact hlinked.congr fun q hq => hother q (hrest q hq)
    · by_cases hq : q = r
      · subst hq
        rw [hself]
        exact ⟨fun hq => absurd rfl (hrest q hq), fun ⟨_, y, hy, _⟩ => (by cases hy)⟩
      · rw [hother q hq, ← hchain.mem_iff, List.mem_cons]
        exact ⟨.inr, fun hmem => hmem.resolve_left hq⟩
  · refine ⟨refs, hchain.of_change ?_ hother (fun y hy => ?_) fun y hy => ?_⟩
    · rw [hheads, Heads.get_set_of_ne _ _ hop]
    · obtain rfl : y = x := Option.some.inj (hy.symm.trans hx)
      exact hop
    · rw [hself] at hy
      cases hy

/-! ### The live range -/

/-- The live range is sound, it is where the records are, and constants lie below the border and
instructions above it. -/
structure Ranged (v : View) : Prop where
  nk_pos : 0 < v.nk.toNat
  nk_le : v.nk ≤ Ref.true
  base_lt : Ref.base < v.nins
  nins_le : v.nins ≤ Ref.limit
  live_iff : ∀ r, (∃ x, v.record r = some x) ↔ v.nk ≤ r ∧ r < v.nins
  kind : ∀ {r x}, v.record r = some x → x.op.isConst = r.isConst

private theorem record_of_update_none {record : Ref → Option Record} {a r : Ref} {x : Record}
    (h : Function.update record a none r = some x) : record r = some x := by
  by_cases hr : r = a
  · rw [hr, Function.update_self] at h
    cases h
  · rw [Function.update_of_ne hr] at h
    exact h

namespace Ranged

variable {v : View} {x : Record} {op : Opcode}

theorem record_eq_none (h : v.Ranged) {r : Ref} (hr : ¬ (v.nk ≤ r ∧ r < v.nins)) :
    v.record r = none := by
  rw [← h.live_iff, ← Option.isSome_iff_exists, Option.not_isSome_iff_eq_none] at hr
  exact hr

/-- Only the live range and the records matter. -/
theorem of_eq {v' : View} (h : v.Ranged) (hnins : v'.nins = v.nins) (hnk : v'.nk = v.nk)
    (hrecord : v'.record = v.record) : v'.Ranged where
  nk_pos := hnk ▸ h.nk_pos
  nk_le := hnk ▸ h.nk_le
  base_lt := hnins ▸ h.base_lt
  nins_le := hnins ▸ h.nins_le
  live_iff r := by rw [hrecord, hnk, hnins]; exact h.live_iff r
  kind {r x} hx := h.kind (hrecord ▸ hx)

/-! An instruction enters. -/

theorem push (h : v.Ranged) (hlimit : v.nins < Ref.limit) (hop : x.op.isConst = false) :
    (v.push x).Ranged := by
  have hbase := h.base_lt
  have hnk := h.nk_le
  refine
    { nk_pos := h.nk_pos
      nk_le := h.nk_le
      base_lt := show Ref.base < v.nins + 1 by grind
      nins_le := show v.nins + 1 ≤ Ref.limit by grind
      live_iff := fun r => ?_
      kind := fun {r y} hy => ?_ }
  · show _ ↔ v.nk ≤ r ∧ r < v.nins + 1
    by_cases hr : r = v.nins
    · subst hr
      rw [push_record_self]
      exact ⟨fun _ => by grind, fun _ => ⟨_, rfl⟩⟩
    · rw [push_record_of_ne _ _ hr, h.live_iff]
      grind
  · rcases record_push_cases hy with ⟨rfl, rfl⟩ | hy
    · rw [hop, eq_comm, Ref.isConst_eq_false_iff]
      exact Nat.le_of_lt (UInt32.lt_iff_toNat_lt.mp hbase)
    · exact h.kind hy

theorem exists_isChain_push (h : v.Ranged) (hop : x.op.isConst = false)
    (hchain : ∃ refs, v.IsChain op refs) : ∃ refs, (v.push x).IsChain op refs := by
  have hbase := h.base_lt
  have hnk := h.nk_le
  have hfree : v.record v.nins = none := h.record_eq_none (by grind)
  refine exists_isChain_insert hchain hfree ?_ (fun q y hy _ _ => ?_) rfl rfl
  · rw [Ref.isFixed_iff]
    grind
  · rw [Opcode.newer_of_not_const hop]
    exact ((h.live_iff q).mp ⟨y, hy⟩).2

/-! A constant enters. -/

theorem pushConstant (h : v.Ranged) (hone : 1 < v.nk) (hop : x.op.isConst = true) :
    (v.pushConstant x).Ranged := by
  have hbase := h.base_lt
  have hnk := h.nk_le
  refine
    { nk_pos := UInt32.lt_iff_toNat_lt.mp (show 0 < v.nk - 1 by grind)
      nk_le := show v.nk - 1 ≤ Ref.true by grind
      base_lt := h.base_lt
      nins_le := h.nins_le
      live_iff := fun r => ?_
      kind := fun {r y} hy => ?_ }
  · show _ ↔ v.nk - 1 ≤ r ∧ r < v.nins
    by_cases hr : r = v.nk - 1
    · subst hr
      rw [pushConstant_record_self]
      exact ⟨fun _ => by grind, fun _ => ⟨_, rfl⟩⟩
    · rw [pushConstant_record_of_ne _ _ hr, h.live_iff]
      grind
  · rcases record_pushConstant_cases hy with ⟨rfl, rfl⟩ | hy
    · rw [hop, eq_comm, Ref.isConst_iff]
      exact UInt32.lt_iff_toNat_lt.mp (show v.nk - 1 < Ref.bias by grind)
    · exact h.kind hy

theorem exists_isChain_pushConstant (h : v.Ranged) (hone : 1 < v.nk) (hop : x.op.isConst = true)
    (hchain : ∃ refs, v.IsChain op refs) : ∃ refs, (v.pushConstant x).IsChain op refs := by
  have hnk := h.nk_le
  have hfree : v.record (v.nk - 1) = none := h.record_eq_none (by grind)
  refine exists_isChain_insert hchain hfree ?_ (fun q y hy _ _ => ?_) rfl rfl
  · rw [Ref.isFixed_iff]
    grind
  · rw [Opcode.newer_of_const hop]
    have hlive := ((h.live_iff q).mp ⟨y, hy⟩).1
    grind

/-! The newest instruction leaves. -/

theorem exists_newest (h : v.Ranged) (hfirst : Ref.first < v.nins) :
    ∃ x, v.record (v.nins - 1) = some x ∧ x.op.isConst = false := by
  have hle := h.nins_le
  have hnk := h.nk_le
  obtain ⟨x, hx⟩ := (h.live_iff (v.nins - 1)).mpr (by grind)
  refine ⟨x, hx, ?_⟩
  rw [h.kind hx, Ref.isConst_eq_false_iff]
  exact UInt32.le_iff_toNat_le.mp (show Ref.bias ≤ v.nins - 1 by grind)

theorem popInstruction (h : v.Ranged) (hfirst : Ref.first < v.nins) : v.popInstruction.Ranged := by
  have hle := h.nins_le
  have hnk := h.nk_le
  obtain ⟨x, hx, -⟩ := h.exists_newest hfirst
  rw [popInstruction_eq hx]
  refine
    { nk_pos := h.nk_pos
      nk_le := h.nk_le
      base_lt := show Ref.base < v.nins - 1 by grind
      nins_le := show v.nins - 1 ≤ Ref.limit by grind
      live_iff := fun r => ?_
      kind := fun {r y} hy => h.kind (record_of_update_none hy) }
  show (∃ y, Function.update v.record (v.nins - 1) none r = some y) ↔ v.nk ≤ r ∧ r < v.nins - 1
  by_cases hr : r = v.nins - 1
  · rw [hr, Function.update_self]
    exact ⟨fun ⟨y, hy⟩ => (by cases hy), fun hlive => absurd hlive.2 (UInt32.lt_irrefl _)⟩
  · rw [Function.update_of_ne hr, h.live_iff]
    grind

theorem exists_isChain_popInstruction (h : v.Ranged) (hfirst : Ref.first < v.nins)
    (hchain : ∃ refs, v.IsChain op refs) : ∃ refs, v.popInstruction.IsChain op refs := by
  have hle := h.nins_le
  obtain ⟨x, hx, hop⟩ := h.exists_newest hfirst
  rw [popInstruction_eq hx]
  refine exists_isChain_remove hchain hx ?_ (fun q y hy _ _ hq => ?_) rfl rfl
  · rw [Ref.isFixed_iff]
    grind
  · rw [Opcode.newer_of_not_const hop]
    have hlive := ((h.live_iff q).mp ⟨y, hy⟩).2
    grind

/-! The newest constant leaves. -/

theorem exists_lowest (h : v.Ranged) : ∃ x, v.record v.nk = some x ∧ x.op.isConst = true := by
  have hbase := h.base_lt
  have hnk := h.nk_le
  obtain ⟨x, hx⟩ := (h.live_iff v.nk).mpr (by grind)
  refine ⟨x, hx, ?_⟩
  rw [h.kind hx, Ref.isConst_iff]
  exact UInt32.lt_iff_toNat_lt.mp (show v.nk < Ref.bias by grind)

theorem popConstant (h : v.Ranged) (htrue : v.nk < Ref.true) : v.popConstant.Ranged := by
  have hbase := h.base_lt
  obtain ⟨x, hx, -⟩ := h.exists_lowest
  rw [popConstant_eq hx]
  refine
    { nk_pos := UInt32.lt_iff_toNat_lt.mp (show 0 < v.nk + 1 by grind)
      nk_le := show v.nk + 1 ≤ Ref.true by grind
      base_lt := h.base_lt
      nins_le := h.nins_le
      live_iff := fun r => ?_
      kind := fun {r y} hy => h.kind (record_of_update_none hy) }
  show (∃ y, Function.update v.record v.nk none r = some y) ↔ v.nk + 1 ≤ r ∧ r < v.nins
  by_cases hr : r = v.nk
  · rw [hr, Function.update_self]
    exact ⟨fun ⟨y, hy⟩ => (by cases hy), fun hlive => by grind⟩
  · rw [Function.update_of_ne hr, h.live_iff]
    refine and_congr_left fun _ => ⟨fun hle => ?_, fun hle => by grind⟩
    have hlt : v.nk < r := UInt32.lt_of_le_of_ne hle (Ne.symm hr)
    grind

theorem exists_isChain_popConstant (h : v.Ranged) (htrue : v.nk < Ref.true)
    (hchain : ∃ refs, v.IsChain op refs) : ∃ refs, v.popConstant.IsChain op refs := by
  obtain ⟨x, hx, hop⟩ := h.exists_lowest
  rw [popConstant_eq hx]
  refine exists_isChain_remove hchain hx ?_ (fun q y hy _ _ hq => ?_) rfl rfl
  · rw [Ref.isFixed_iff]
    grind
  · rw [Opcode.newer_of_const hop]
    have hlive := ((h.live_iff q).mp ⟨y, hy⟩).1
    grind

end Ranged

/-! ### Well-formed views -/

/-- A view that recording can produce. -/
structure WellFormed (v : View) : Prop extends v.Ranged where
  chains : ∀ op, ∃ refs, v.IsChain op refs

theorem initialRecord_eq_some {r : Ref} {x : Record} (h : initialRecord r = some x) :
    r = Ref.base ∧ x = { op := .base, ty := Ty.ptr } ∨ r.IsFixed ∧ x.op = .kpri := by
  rw [initialRecord] at h
  split at h
  · next hr => exact .inl ⟨hr, (Option.some.inj h).symm⟩
  split at h
  · next hr => exact .inr ⟨.inl hr, by rw [← Option.some.inj h]⟩
  split at h
  · next hr => exact .inr ⟨.inr (.inl hr), by rw [← Option.some.inj h]⟩
  split at h
  · next hr => exact .inr ⟨.inr (.inr hr), by rw [← Option.some.inj h]⟩
  cases h

/-- The view of a new trace is well formed. -/
theorem wellFormed_initial (config : Config) (pool : Pool) (folder : Option Folder) :
    (initial config pool folder).WellFormed where
  nk_pos := show 0 < Ref.true.toNat by decide
  nk_le := UInt32.le_rfl
  base_lt := show Ref.base < Ref.first by decide
  nins_le := show Ref.first ≤ Ref.limit by decide
  live_iff r := by
    show (∃ x, initialRecord r = some x) ↔ Ref.true ≤ r ∧ r < Ref.first
    constructor
    · rintro ⟨x, hx⟩
      rcases initialRecord_eq_some hx with ⟨rfl, -⟩ | ⟨hfixed, -⟩
      · decide
      · rw [Ref.isFixed_iff] at hfixed
        grind
    · intro hr
      have hcases : r = Ref.base ∨ r = Ref.nil ∨ r = Ref.false ∨ r = Ref.true := by grind
      rcases hcases with rfl | rfl | rfl | rfl
      · exact ⟨_, rfl⟩
      · exact ⟨_, rfl⟩
      · exact ⟨_, rfl⟩
      · exact ⟨_, rfl⟩
  kind {r x} hx := by
    rcases initialRecord_eq_some hx with ⟨rfl, rfl⟩ | ⟨hfixed, hop⟩
    · rfl
    · rw [hop]
      rcases hfixed with rfl | rfl | rfl
      · rfl
      · rfl
      · rfl
  chains op := by
    show ∃ refs, IsChain _ op refs
    by_cases hop : Opcode.base = op
    · subst hop
      refine ⟨[Ref.base], .step (x := { op := .base, ty := Ty.ptr }) rfl (.done _), fun r => ?_,
        List.pairwise_singleton ..⟩
      rw [List.mem_singleton]
      constructor
      · rintro rfl
        exact ⟨by decide, _, rfl, rfl⟩
      · rintro ⟨hfixed, x, hx, -⟩
        rcases initialRecord_eq_some hx with ⟨rfl, -⟩ | ⟨hfixed', -⟩
        · rfl
        · exact absurd hfixed' hfixed
    · refine ⟨[], ?_, fun r => ?_, .nil⟩
      · have hhead : (initial config pool folder).heads.get op = Ref.none := by
          rw [initial, Heads.get_set_of_ne _ _ hop, Heads.get_empty]
        rw [hhead]
        exact .done _
      · refine ⟨fun hr => absurd hr List.not_mem_nil, fun ⟨hfixed, x, hx, hxop⟩ => ?_⟩
        rcases initialRecord_eq_some hx with ⟨-, rfl⟩ | ⟨hfixed', -⟩
        · exact absurd hxop hop
        · exact absurd hfixed' hfixed

namespace WellFormed

variable {v : View} {x : Record}

/-- Only the live range, the records and the newest records matter. -/
theorem of_eq {v' : View} (h : v.WellFormed) (hnins : v'.nins = v.nins) (hnk : v'.nk = v.nk)
    (hheads : v'.heads = v.heads) (hrecord : v'.record = v.record) : v'.WellFormed := by
  refine ⟨h.toRanged.of_eq hnins hnk hrecord, fun op => ?_⟩
  obtain ⟨refs, hlinked, hmem, hnewer⟩ := h.chains op
  refine ⟨refs, ?_, ?_, hnewer⟩
  · rw [hheads, hrecord]
    exact hlinked
  · rw [hrecord]
    exact hmem

/-- An instruction enters. -/
theorem push (h : v.WellFormed) (hlimit : v.nins < Ref.limit) (hop : x.op.isConst = false) :
    (v.push x).WellFormed :=
  ⟨h.toRanged.push hlimit hop, fun op => h.exists_isChain_push hop (h.chains op)⟩

/-- A constant enters. -/
theorem pushConstant (h : v.WellFormed) (hone : 1 < v.nk) (hop : x.op.isConst = true) :
    (v.pushConstant x).WellFormed :=
  ⟨h.toRanged.pushConstant hone hop,
    fun op => h.exists_isChain_pushConstant hone hop (h.chains op)⟩

/-- The newest instruction leaves. -/
theorem popInstruction (h : v.WellFormed) (hfirst : Ref.first < v.nins) :
    v.popInstruction.WellFormed :=
  ⟨h.toRanged.popInstruction hfirst,
    fun op => h.exists_isChain_popInstruction hfirst (h.chains op)⟩

/-- The newest constant leaves. -/
theorem popConstant (h : v.WellFormed) (htrue : v.nk < Ref.true) : v.popConstant.WellFormed :=
  ⟨h.toRanged.popConstant htrue, fun op => h.exists_isChain_popConstant htrue (h.chains op)⟩

/-- The records of well-formed views determine the newest one of every opcode. -/
theorem heads_get_eq {v' : View} (h : v.WellFormed) (h' : v'.WellFormed)
    (hrecord : v.record = v'.record) (op : Opcode) : v.heads.get op = v'.heads.get op := by
  obtain ⟨refs, hchain⟩ := h.chains op
  obtain ⟨refs', hchain'⟩ := h'.chains op
  rw [hchain.linked.eq_headD, hchain'.linked.eq_headD, hchain.unique hchain' hrecord]

end WellFormed

end View

namespace Trace

/-! ### Walks -/

variable {t : Trace}

private theorem slot?_of_view {r : Ref} {x : Record} (h : t.view.record r = some x) :
    t.slot? r = .ok x := by
  by_cases hlive : t.nk ≤ r ∧ r < t.nins
  · rw [view_record_of_live hlive] at h
    rw [slot?, h]
  · rw [view_record_of_dead hlive] at h
    cases h

/-- The end of a chain is no live reference. -/
theorem Laid.ne_none (h : t.Laid) {r : Ref} {x : Record} (hx : t.view.record r = some x) :
    r ≠ Ref.none := by
  rintro rfl
  have hlive := ((h.record_isSome_iff Ref.none).mp (by rw [hx]; rfl)).1
  exact absurd (UInt32.le_iff_toNat_le.mp hlive) (Nat.not_le.mpr h.nk_pos)

private theorem Laid.refsFrom_eq (h : t.Laid) {r : Ref} {refs : List Ref} {n : Nat}
    (hlinked : Linked t.view.record r refs Ref.none) (hn : refs.length ≤ n) :
    t.refsFrom n r = .ok refs := by
  generalize hstop : Ref.none = stop at hlinked
  induction hlinked generalizing n with
  | done r =>
    cases n with
    | zero => rfl
    | succ n => rw [refsFrom, if_pos hstop.symm]
  | step hr _ ih =>
    cases n with
    | zero => cases hn
    | succ n =>
      rw [refsFrom, if_neg (h.ne_none hr), slot?_of_view hr]
      show (do let rest ← t.refsFrom n _; pure (_ :: rest) : Except Breach _) = _
      rw [ih (Nat.le_of_succ_le_succ hn) hstop]
      rfl

/-- A way that passes no record twice has no more records than there are slots. -/
private theorem Laid.length_le_capacity (h : t.Laid) {r stop : Ref} {refs : List Ref}
    (hlinked : Linked t.view.record r refs stop) (hnodup : refs.Nodup) :
    refs.length ≤ t.capacity := by
  have hlive : ∀ r ∈ refs, t.nk ≤ r ∧ r < t.nins := by
    intro r hr
    obtain ⟨x, hx⟩ := hlinked.exists_of_mem hr
    exact (h.record_isSome_iff r).mp (by rw [hx]; rfl)
  have hsub : refs.map UInt32.toNat ⊆ List.range' t.nk.toNat (t.nins.toNat - t.nk.toNat) := by
    intro n hn
    obtain ⟨r, hr, rfl⟩ := List.mem_map.mp hn
    obtain ⟨hlow, hhigh⟩ := hlive r hr
    rw [UInt32.le_iff_toNat_le] at hlow
    rw [UInt32.lt_iff_toNat_lt] at hhigh
    rw [List.mem_range'_1]
    omega
  have hnodup : (refs.map UInt32.toNat).Nodup := hnodup.map fun _ _ => UInt32.toNat_inj.mp
  calc refs.length
      = (refs.map UInt32.toNat).length := (List.length_map _).symm
    _ ≤ (List.range' t.nk.toNat (t.nins.toNat - t.nk.toNat)).length :=
        (List.subperm_of_subset hnodup hsub).length_le
    _ = t.nins.toNat - t.nk.toNat := List.length_range'
    _ ≤ t.capacity := h.covers.length_le h.nins_le

/-- A walk from the newest record lists what it passes, if it ends. -/
theorem Laid.chain_of_linked (h : t.Laid) {op : Opcode} {refs : List Ref}
    (hlinked : Linked t.view.record (t.heads.get op) refs Ref.none) (hnodup : refs.Nodup) :
    t.chain op = .ok refs := by
  have hle := h.length_le_capacity hlinked hnodup
  have hrefs := h.refsFrom_eq (n := t.capacity + 1) hlinked (by omega)
  rw [chain, hrefs]
  exact if_neg (by omega)

/-- A walk along a chain lists it and ends. -/
theorem Laid.chain_eq (h : t.Laid) {op : Opcode} {refs : List Ref}
    (hchain : t.view.IsChain op refs) : t.chain op = .ok refs :=
  h.chain_of_linked hchain.linked hchain.newer.nodup

private theorem Laid.searchFrom_eq {α : Type} (h : t.Laid) (probe : Ref → Record → Option α)
    {r : Ref} {refs : List Ref} {n : Nat} (hlinked : Linked t.view.record r refs Ref.none)
    (hn : refs.length ≤ n) :
    t.searchFrom probe n r = .ok (refs.findSome? fun q => (t.view.record q).bind (probe q)) := by
  generalize hstop : Ref.none = stop at hlinked
  induction hlinked generalizing n with
  | done r =>
    subst hstop
    cases n with
    | zero => rfl
    | succ n => rfl
  | @step r stop x refs hr _ ih =>
    cases n with
    | zero => cases hn
    | succ n =>
      rw [searchFrom, if_neg (h.ne_none hr), List.findSome?_cons, hr, Option.bind_some,
        slot?_of_view hr]
      dsimp only [bind, Except.bind]
      cases probe r x with
      | some a => rfl
      | none => exact ih (Nat.le_of_succ_le_succ hn) hstop

/-- A search from the newest record asks in turn what it passes. -/
theorem Laid.search_of_linked {α : Type} (h : t.Laid) {op : Opcode} {refs : List Ref}
    (hlinked : Linked t.view.record (t.heads.get op) refs Ref.none) (hnodup : refs.Nodup)
    (probe : Ref → Record → Option α) :
    t.search op probe = .ok (refs.findSome? fun q => (t.view.record q).bind (probe q)) :=
  h.searchFrom_eq probe hlinked (h.length_le_capacity hlinked hnodup)

/-- A search along a chain asks its records in turn and ends. -/
theorem Laid.search_eq {α : Type} (h : t.Laid) {op : Opcode} {refs : List Ref}
    (hchain : t.view.IsChain op refs) (probe : Ref → Record → Option α) :
    t.search op probe = .ok (refs.findSome? fun q => (t.view.record q).bind (probe q)) :=
  h.search_of_linked hchain.linked hchain.newer.nodup probe

end Trace

end TraceIR
