import TraceIR.Proofs.Agreement
import TraceIR.Proofs.Liveness

/-!
# Growth by live references

A recording may put any word into an operand. One that only hands back references it was given
grows a trace by changes that name live records alone, and then much more is true of the trace.

* `View.CleanGrowth` — a change of `View.Growth` whose operands, keys and snapshots are live.
* `View.Tidy` — instructions use older ones, and every floating-point constant has its number.
  Clean changes keep it, and so does going back, to whatever point.
* `View.Closed` — every reference that the trace holds names a record it can rely on: an operand
  names a constant or an older instruction, a key an older constant, a snapshot anything live.
  Clean changes keep it, but going back keeps it only if it leads to a point the trace has passed.
-/

namespace TraceIR

/-- The number of a floating-point constant, if it lies where the record says. -/
def Record.number? (x : Record) (p : Pool) : Option Binary64 :=
  x.payload.num?.bind (·.value? p)

/-- A number that can be read stays the same as long as none leaves the pool. -/
theorem Record.number?_mono {x : Record} {p q : Pool} {n : Binary64}
    (hpool : ∀ i m, p.get? i = some m → q.get? i = some m) (h : x.number? p = some n) :
    x.number? q = some n := by
  obtain ⟨s, hs, hn⟩ := Option.bind_eq_some_iff.mp h
  refine Option.bind_eq_some_iff.mpr ⟨s, hs, ?_⟩
  cases s with
  | pooled i => exact hpool i n hn
  | absMask => exact hn
  | negMask => exact hn

private theorem Record.number?_find {x : Record} {p : Pool} {n : Binary64}
    (h : x.number? p = some n) (y : Binary64) : x.number? (p.find y).2 = some n :=
  number?_mono (fun _ _ hm => Pool.get?_find hm y) h

namespace View

/-- There is a record at the reference. -/
def IsLive (v : View) (r : Ref) : Prop :=
  v.nk ≤ r ∧ r < v.nins

/-- One change that recording makes if it is given live references. -/
inductive CleanGrowth (v : View) : View → Prop
  | pool (x : Binary64) : CleanGrowth v { v with pool := (v.pool.find x).2 }
  | snapshot (refs : List Ref) (hrefs : ∀ r ∈ refs, v.IsLive r) :
      CleanGrowth v { v with snapshots := v.snapshots.push refs }
  | push (x : Record) (hop : x.op.isConst = false) (hlimit : v.nins < Ref.limit)
      (hoperands : ∀ r, x.RefersTo r → v.IsLive r) : CleanGrowth v (v.push x)
  | pushConstant (x : Record) (hop : x.op.isConst = true) (hone : 1 < v.nk)
      (hkey : x.op = .kslot → v.IsLive x.left ∧ x.left.isConst = true)
      (hnumber : x.op = .knum → ∃ n, x.number? v.pool = some n) : CleanGrowth v (v.pushConstant x)

variable {v v' v'' : View}

private theorem CleanGrowth.growth (h : v.CleanGrowth v') : v.Growth v' := by
  cases h with
  | pool x => exact .pool x
  | snapshot refs _ => exact .snapshot refs
  | push x hop hlimit _ => exact .push x hop hlimit
  | pushConstant x hop hone _ _ => exact .pushConstant x hop hone

/-- Any number of clean changes. -/
abbrev CleanGrowths : View → View → Prop :=
  Relation.ReflTransGen CleanGrowth

theorem CleanGrowths.growths (h : CleanGrowths v v') : Relation.ReflTransGen Growth v v' := by
  induction h with
  | refl => exact .refl
  | tail _ hstep ih => exact ih.tail hstep.growth

theorem CleanGrowths.extends (h : CleanGrowths v v') (hv : v.WellFormed) : v.Extends v' :=
  (Extends.refl v).growths hv h.growths

private theorem IsLive.extends {r : Ref} (h : v.IsLive r) (hext : v.Extends v') : v'.IsLive r :=
  ⟨UInt32.le_trans hext.nk_le h.1, UInt32.lt_of_lt_of_le h.2 hext.nins_le⟩

theorem IsLive.growths {r : Ref} (h : v.IsLive r) (hv : v.WellFormed) (hg : CleanGrowths v v') :
    v'.IsLive r :=
  h.extends (hg.extends hv)

theorem WellFormed.isLive_iff (h : v.WellFormed) {r : Ref} :
    v.IsLive r ↔ ∃ x, v.record r = some x :=
  (h.live_iff r).symm

/-- The fixed constants are always live. -/
theorem WellFormed.isLive_of_isFixed (h : v.WellFormed) {r : Ref} (hr : r.IsFixed) :
    v.IsLive r := by
  have hnk := h.nk_le
  have hbase := h.base_lt
  rw [Ref.isFixed_iff] at hr
  exact ⟨UInt32.le_trans hnk hr.1, UInt32.lt_trans hr.2 hbase⟩

/-- A new instruction is live. -/
theorem WellFormed.isLive_push (h : v.WellFormed) (hlimit : v.nins < Ref.limit) (x : Record) :
    (v.push x).IsLive v.nins := by
  have hnk := h.nk_le
  have hbase := h.base_lt
  exact ⟨show v.nk ≤ v.nins by grind, Ref.lt_succ hlimit⟩

/-- A new constant is live. -/
theorem WellFormed.isLive_pushConstant (h : v.WellFormed) (x : Record) :
    (v.pushConstant x).IsLive (v.nk - 1) := by
  refine ⟨UInt32.le_rfl, ?_⟩
  have hnk := UInt32.le_iff_toNat_le.mp h.nk_le
  have hbase := UInt32.lt_iff_toNat_lt.mp h.base_lt
  rw [Ref.toNat_true] at hnk
  rw [Ref.toNat_base] at hbase
  show v.nk - 1 < v.nins
  rw [UInt32.lt_iff_toNat_lt, Ref.toNat_pred h.nk_pos]
  omega

/-! ### Tidy views -/

/-- Instructions use older ones, and floating-point constants have their numbers. -/
structure Tidy (v : View) : Prop where
  older : ∀ {u x r}, Ref.base ≤ u → v.record u = some x → x.HasOperand r → r < u
  number : ∀ {r x}, v.record r = some x → x.op = .knum → ∃ n, x.number? v.pool = some n

namespace Tidy

theorem initial (config : Config) (pool : Pool) (folder : Option Folder) :
    (View.initial config pool folder).Tidy where
  older {u x r} _ hx hop := by
    rcases initialRecord_eq_some hx with ⟨-, rfl⟩ | ⟨-, hkpri⟩
    · rcases hop.2 with ⟨hkind, -⟩ | ⟨hkind, -⟩
      · cases hkind
      · cases hkind
    · rcases hop.2 with ⟨hkind, -⟩ | ⟨hkind, -⟩
      · rw [hkpri] at hkind
        cases hkind
      · rw [hkpri] at hkind
        cases hkind
  number {r x} hx hop := by
    rcases initialRecord_eq_some hx with ⟨-, rfl⟩ | ⟨-, hkpri⟩
    · cases hop
    · rw [hop] at hkpri
      cases hkpri

/-- A clean change keeps a view tidy. -/
private theorem cleanGrowth (h : v.Tidy) (hv : v.WellFormed) (hg : v.CleanGrowth v') : v'.Tidy := by
  cases hg with
  | pool y =>
    refine ⟨h.older, fun {r x} hx hop => ?_⟩
    obtain ⟨n, hn⟩ := h.number hx hop
    exact ⟨n, Record.number?_find hn y⟩
  | snapshot refs hrefs => exact ⟨h.older, h.number⟩
  | push x hop hlimit hoperands =>
    refine ⟨fun {u y r} hu hy hr => ?_, fun {r y} hy hnum => ?_⟩
    · rcases record_push_cases hy with ⟨rfl, rfl⟩ | hy
      · exact (hoperands r hr.2).2
      · exact h.older hu hy hr
    · rcases record_push_cases hy with ⟨rfl, rfl⟩ | hy
      · change x.op = .knum at hnum
        rw [hnum] at hop
        cases hop
      · exact h.number hy hnum
  | pushConstant x hop hone hkey hnumber =>
    refine ⟨fun {u y r} hu hy hr => ?_, fun {r y} hy hnum => ?_⟩
    · rcases record_pushConstant_cases hy with ⟨rfl, rfl⟩ | hy
      · -- a constant lies below the border
        have hnk := hv.nk_le
        exact absurd hu (by grind)
      · exact h.older hu hy hr
    · rcases record_pushConstant_cases hy with ⟨rfl, rfl⟩ | hy
      · exact hnumber hnum
      · exact h.number hy hnum

theorem cleanGrowths (h : v.Tidy) (hv : v.WellFormed) (hg : CleanGrowths v v') : v'.Tidy := by
  induction hg with
  | refl => exact h
  | tail hgs hstep ih => exact ih.cleanGrowth (hv.growths (CleanGrowths.growths hgs)) hstep

/-- What is left of a tidy view is tidy. -/
theorem cut {low high : Ref} (h : v.Tidy) (hcut : v.Cut v' low high) : v'.Tidy := by
  have hrecord : ∀ {r x}, v'.record r = some x → v.record r = some x := by
    intro r x hx
    have hlive := (hcut.wellFormed.live_iff r).mp ⟨x, hx⟩
    rw [hcut.nk, hcut.nins] at hlive
    rwa [hcut.record r hlive.1 hlive.2] at hx
  refine ⟨fun hu hx hr => h.older hu (hrecord hx) hr, fun hx hop => ?_⟩
  rw [hcut.pool]
  exact h.number (hrecord hx) hop

end Tidy

/-! ### Closed views -/

/-- Operands name constants or older instructions, keys name older constants, and snapshots name
what is there. -/
structure Closed (v : View) : Prop where
  operand : ∀ {u x r}, Ref.first ≤ u → v.record u = some x → x.RefersTo r →
    v.nk ≤ r ∧ r < Ref.bias ∨ Ref.base ≤ r ∧ r < u
  key : ∀ {r x}, v.record r = some x → x.op = .kslot → r < x.left ∧ x.left < Ref.bias
  snapshot : ∀ refs ∈ v.snapshots, ∀ r ∈ refs, v.IsLive r

namespace Closed

theorem initial (config : Config) (pool : Pool) (folder : Option Folder) :
    (View.initial config pool folder).Closed where
  operand {u x r} hu hx _ := by
    have hlt := (((wellFormed_initial config pool folder).live_iff u).mp ⟨x, hx⟩).2
    exact absurd hu (UInt32.not_le.mpr hlt)
  key {r x} hx hop := by
    rcases initialRecord_eq_some hx with ⟨-, rfl⟩ | ⟨-, hkpri⟩
    · cases hop
    · rw [hop] at hkpri
      cases hkpri
  snapshot refs hrefs := absurd hrefs (Array.not_mem_empty refs)

/-- Only the records, their bounds and the snapshots matter. -/
theorem of_eq (h : v.Closed) (hnk : v'.nk = v.nk) (hnins : v'.nins = v.nins)
    (hrecord : v'.record = v.record) (hsnapshots : v'.snapshots = v.snapshots) : v'.Closed where
  operand hu hx hr := by
    rw [hnk]
    exact h.operand hu (hrecord ▸ hx) hr
  key hx := h.key (hrecord ▸ hx)
  snapshot refs hrefs r hr := by
    rw [IsLive, hnk, hnins]
    exact h.snapshot refs (hsnapshots ▸ hrefs) r hr

/-- A clean change keeps a view closed. -/
private theorem cleanGrowth (h : v.Closed) (hv : v.WellFormed) (hg : v.CleanGrowth v') :
    v'.Closed := by
  have hext : v.Extends v' := (Extends.refl v).growth hv hg.growth
  cases hg with
  | pool y => exact ⟨h.operand, h.key, h.snapshot⟩
  | snapshot refs hrefs =>
    refine ⟨h.operand, h.key, fun refs' hrefs' => ?_⟩
    rcases Array.mem_push.mp hrefs' with hold | rfl
    · exact h.snapshot refs' hold
    · exact hrefs
  | push x hop hlimit hoperands =>
    refine ⟨fun {u y r} hu hy hr => ?_, fun {r y} hy hslot => ?_, fun refs hrefs r hr => ?_⟩
    · rcases record_push_cases hy with ⟨rfl, rfl⟩ | hy
      · -- what is live lies on one side of the border or the other
        have hlive := hoperands r hr
        by_cases hconst : r < Ref.bias
        · exact .inl ⟨hlive.1, hconst⟩
        · exact .inr ⟨UInt32.not_lt.mp hconst, hlive.2⟩
      · exact h.operand hu hy hr
    · rcases record_push_cases hy with ⟨rfl, rfl⟩ | hy
      · change x.op = .kslot at hslot
        rw [hslot] at hop
        cases hop
      · exact h.key hy hslot
    · exact (h.snapshot refs hrefs r hr).extends hext
  | pushConstant x hop hone hkey hnumber =>
    have hnk : v.nk - 1 < v.nk := by grind
    refine ⟨fun {u y r} hu hy hr => ?_, fun {r y} hy hslot => ?_, fun refs hrefs r hr => ?_⟩
    · rcases record_pushConstant_cases hy with ⟨rfl, rfl⟩ | hy
      · -- a constant lies below the first instruction
        have hle := hv.nk_le
        exact absurd hu (by grind)
      · refine (h.operand hu hy hr).imp_left fun hr => ⟨?_, hr.2⟩
        exact UInt32.le_trans (UInt32.le_of_lt hnk) hr.1
    · rcases record_pushConstant_cases hy with ⟨rfl, rfl⟩ | hy
      · -- the slot lies below all constants, its key among them
        obtain ⟨hlive, hconst⟩ := hkey hslot
        exact ⟨UInt32.lt_of_lt_of_le hnk hlive.1, of_decide_eq_true hconst⟩
      · exact h.key hy hslot
    · exact (h.snapshot refs hrefs r hr).extends hext

theorem cleanGrowths (h : v.Closed) (hv : v.WellFormed) (hg : CleanGrowths v v') :
    v'.Closed := by
  induction hg with
  | refl => exact h
  | tail hgs hstep ih => exact ih.cleanGrowth (hv.growths (CleanGrowths.growths hgs)) hstep

end Closed

end View

end TraceIR
