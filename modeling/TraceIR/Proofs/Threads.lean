import TraceIR.Proofs.Recording
import TraceIR.Proofs.Relink

/-!
# Chains of `NOP`s that may end early

A pass that eliminates dead code threads the chain of `NOP`s anew, but it leaves the links of `NOP`s
that it keeps as they are. A dropped instruction above a kept `NOP` then gets no link, and the chain
ends there. So for `NOP`s something weaker holds than for other opcodes: a link leads to the next
older `NOP` or nowhere.

* `View.Leads` — a link at some place leads to the newest `NOP` below that place, or nowhere.
  `View.Full` — it leads nowhere only if there is no `NOP` below.
* `View.Threaded` — all chains but that of `NOP`s fit the records, and every link of that one leads
  where it should or nowhere. Recording keeps this (`lasting_threaded`), and so do retiring a record
  (`Threaded.retire`) and closing the chain (`Threaded.close`), whatever `NOP`s there are.
* `Threaded.exists_linked` — the chain of `NOP`s of such a view ends and lists some of them, in
  order. It lists all of them if and only if every link is full (`Threaded.isChain_nop_iff`).
-/

namespace TraceIR.View

/-! ### Links between `NOP`s -/

/-- There is a `NOP` at `q`, which lies below `b`. -/
def NopBelow (v : View) (b q : Ref) : Prop :=
  q < b ∧ ∃ x, v.record q = some x ∧ x.op = .nop

/-- `p` is the newest `NOP` below `b`, or no reference. -/
def Leads (v : View) (b p : Ref) : Prop :=
  p = Ref.none ∨ v.NopBelow b p ∧ ∀ q, v.NopBelow b q → q ≤ p

/-- If `p` is no reference, there is no `NOP` below `b`. -/
def Full (v : View) (b p : Ref) : Prop :=
  p = Ref.none → ∀ q, ¬ v.NopBelow b q

variable {v v' : View} {b b' p q r : Ref} {x y : Record} {op : Opcode}

/-- Only the `NOP`s below matter. -/
private theorem Leads.congr (h : v.Leads b p) (hbelow : ∀ q, v'.NopBelow b' q ↔ v.NopBelow b q) :
    v'.Leads b' p := by
  rcases h with hnone | ⟨hp, hnewest⟩
  · exact .inl hnone
  · exact .inr ⟨(hbelow p).mpr hp, fun q hq => hnewest q ((hbelow q).mp hq)⟩

/-- A link that leads somewhere leads to the newest `NOP`. -/
theorem Leads.newest (h : v.Leads b p) (hp : p ≠ Ref.none) :
    v.NopBelow b p ∧ ∀ q, v.NopBelow b q → q ≤ p :=
  h.resolve_left hp

private theorem Full.congr (h : v.Full b p) (hbelow : ∀ q, v'.NopBelow b' q ↔ v.NopBelow b q) :
    v'.Full b' p :=
  fun hnone q hq => h hnone q ((hbelow q).mp hq)

private theorem full_of_ne (h : p ≠ Ref.none) : v.Full b p :=
  fun hnone => absurd hnone h

/-- A full link above a `NOP` leads somewhere. -/
theorem Full.ne_none (h : v.Full b p) (hq : v.NopBelow b q) : p ≠ Ref.none :=
  fun hnone => h hnone q hq

private theorem nopBelow_congr (hrecord : ∀ q, q < b → v'.record q = v.record q) (q : Ref) :
    v'.NopBelow b q ↔ v.NopBelow b q := by
  rw [NopBelow, NopBelow]
  refine and_congr_right fun hq => ?_
  rw [hrecord q hq]

/-- Records that are the same up to their links are the same `NOP`s. -/
private theorem nopBelow_of_unlinked (b : Ref)
    (h : (v'.record q).map Record.unlinked = (v.record q).map Record.unlinked) :
    v'.NopBelow b q ↔ v.NopBelow b q := by
  rw [NopBelow, NopBelow, exists_op_iff h]

private theorem le_of_lt_succ (hb : b < Ref.limit) (hq : q < b + 1) : q ≤ b := by
  rw [← UInt32.not_lt]
  exact fun hlt => absurd hq (UInt32.not_lt.mpr ((Ref.succ_le_iff hb).mpr hlt))

/-- If there is no `NOP` at `b`, the `NOP`s below `b + 1` are those below `b`. -/
private theorem nopBelow_succ (hb : b < Ref.limit) (hself : ∀ x, v.record b = some x → x.op ≠ .nop)
    (q : Ref) : v.NopBelow (b + 1) q ↔ v.NopBelow b q := by
  constructor
  · rintro ⟨hlt, x, hx, hop⟩
    refine ⟨UInt32.lt_of_le_of_ne (le_of_lt_succ hb hlt) ?_, x, hx, hop⟩
    rintro rfl
    exact hself x hx hop
  · rintro ⟨hlt, hnop⟩
    exact ⟨UInt32.lt_trans hlt (Ref.lt_succ hb), hnop⟩

/-! ### Threaded views -/

/-- All chains but that of `NOP`s fit the records. The links of `NOP`s lead to the next one or
nowhere. -/
structure Threaded (v : View) : Prop extends v.Ranged where
  base_ne : ∀ {x}, v.record Ref.base = some x → x.op ≠ .nop
  chains : ∀ op, op ≠ .nop → ∃ refs, v.IsChain op refs
  head : v.Leads v.nins (v.heads.get .nop)
  link : ∀ {q x}, v.record q = some x → x.op = .nop → v.Leads q x.prev

/-- A `NOP` comes after `BASE`. -/
theorem Threaded.first_le (h : v.Threaded) (hx : v.record q = some x) (hop : x.op = .nop) :
    Ref.first ≤ q := by
  have hins : q.isConst = false := by
    rw [← h.kind hx, hop]
    rfl
  have hne : q ≠ Ref.base := by
    rintro rfl
    exact h.base_ne hx hop
  rw [Ref.isConst_eq_false_iff] at hins
  rw [Ne, ← UInt32.toNat_inj, Ref.toNat_base] at hne
  rw [UInt32.le_iff_toNat_le, Ref.toNat_first]
  omega

/-! What the links make up. -/

/-- Following links that lead to older `NOP`s ends. It passes all `NOP`s below if the links are
full. -/
private theorem exists_linked_of_leads
    (hlink : ∀ {q x}, v.record q = some x → x.op = .nop → v.Leads q x.prev) (n : Nat) :
    ∀ {b p : Ref}, b.toNat = n → v.Leads b p →
      ∃ refs, Linked v.record p refs Ref.none ∧ refs.Pairwise (· > ·) ∧
        (∀ r ∈ refs, v.NopBelow b r) ∧
        (v.Full b p → (∀ {q x}, v.record q = some x → x.op = .nop → v.Full q x.prev) →
          ∀ r, v.NopBelow b r → r ∈ refs) := by
  -- the induction is on where the link stands: it leads further down
  induction n using Nat.strong_induction_on with
  | _ n ih =>
    intro b p hn hleads
    rcases hleads with rfl | ⟨⟨hlt, x, hx, hop⟩, hnewest⟩
    · exact ⟨[], .done _, .nil, fun r hr => absurd hr List.not_mem_nil,
        fun hfull _ r hr => absurd hr (hfull rfl r)⟩
    · obtain ⟨refs, hlinked, hsorted, hmem, hall⟩ :=
        ih p.toNat (hn ▸ UInt32.lt_iff_toNat_lt.mp hlt) rfl (hlink hx hop)
      refine ⟨p :: refs, .step hx hlinked,
        List.pairwise_cons.mpr ⟨fun r hr => (hmem r hr).1, hsorted⟩, ?_, ?_⟩
      · intro r hr
        rcases List.mem_cons.mp hr with rfl | hr
        · exact ⟨hlt, x, hx, hop⟩
        · exact ⟨UInt32.lt_trans (hmem r hr).1 hlt, (hmem r hr).2⟩
      · intro _ hfull r hr
        by_cases hrp : r = p
        · exact hrp ▸ List.mem_cons_self
        · refine List.mem_cons_of_mem _ (hall (hfull hx hop) hfull r ⟨?_, hr.2⟩)
          exact UInt32.lt_of_le_of_ne (hnewest r hr) hrp

/-- **The chain of `NOP`s** ends, and it lists some of them in order. -/
theorem Threaded.exists_linked (h : v.Threaded) :
    ∃ refs, Linked v.record (v.heads.get .nop) refs Ref.none ∧ refs.Pairwise (· > ·) ∧
      ∀ r ∈ refs, v.NopBelow v.nins r := by
  obtain ⟨refs, hlinked, hsorted, hmem, -⟩ := exists_linked_of_leads h.link _ rfl h.head
  exact ⟨refs, hlinked, hsorted, hmem⟩

/-- The chain of any opcode ends, and it lists records of that opcode. -/
theorem Threaded.exists_walk (h : v.Threaded) (op : Opcode) :
    ∃ refs, Linked v.record (v.heads.get op) refs Ref.none ∧ refs.Nodup ∧
      ∀ r ∈ refs, ∃ x, v.record r = some x ∧ x.op = op := by
  by_cases hop : op = .nop
  · subst hop
    obtain ⟨refs, hlinked, hsorted, hmem⟩ := h.exists_linked
    exact ⟨refs, hlinked, hsorted.imp fun hlt => (UInt32.ne_of_lt hlt).symm,
      fun r hr => (hmem r hr).2⟩
  · obtain ⟨refs, hchain⟩ := h.chains op hop
    exact ⟨refs, hchain.linked, hchain.newer.nodup, fun r hr => ((hchain.mem_iff r).mp hr).2⟩

private theorem Ranged.eq_nil_of_linked_none (h : v.Ranged) {refs : List Ref}
    (hlinked : Linked v.record Ref.none refs Ref.none) : refs = [] := by
  cases refs with
  | nil => rfl
  | cons q refs =>
    obtain ⟨rfl, x, hx, -⟩ := hlinked.uncons
    rw [h.record_none] at hx
    cases hx

/-- A `NOP` is none of the fixed constants, so it belongs to the chain. -/
private theorem Threaded.not_fixed (h : v.Threaded) (hx : v.record q = some x) (hop : x.op = .nop) :
    ¬ q.IsFixed := by
  intro hfixed
  have hle := h.first_le hx hop
  rw [Ref.isFixed_iff] at hfixed
  exact absurd (UInt32.lt_of_le_of_lt hle hfixed.2) (by decide)

/-- If the chain lists all `NOP`s, the last link is the only one that leads nowhere. -/
private theorem Threaded.full_of_isChain (h : v.Threaded) {refs : List Ref}
    (hchain : v.IsChain .nop refs) :
    v.Full v.nins (v.heads.get .nop) ∧
      ∀ {q x}, v.record q = some x → x.op = .nop → v.Full q x.prev := by
  have hmem : ∀ {b q}, v.NopBelow b q → q ∈ refs := fun ⟨_, x, hx, hop⟩ =>
    (hchain.mem_iff _).mpr ⟨h.not_fixed hx hop, x, hx, hop⟩
  refine ⟨fun hnone q hq => ?_, fun {q x} hx hop hnone p hp => ?_⟩
  · have hlinked := hchain.linked
    rw [hnone] at hlinked
    rw [h.eq_nil_of_linked_none hlinked] at hmem
    cases hmem hq
  · -- what comes after `q` in the chain is reached from its link, so nothing does
    obtain ⟨before, after, rfl⟩ :=
      List.append_of_mem ((hchain.mem_iff q).mpr ⟨h.not_fixed hx hop, x, hx, hop⟩)
    obtain ⟨mid, -, hfrom⟩ := hchain.linked.split
    obtain ⟨rfl, y, hy, hlinked⟩ := hfrom.uncons
    obtain rfl := Option.some.inj (hy.symm.trans hx)
    rw [hnone] at hlinked
    obtain rfl := h.eq_nil_of_linked_none hlinked
    -- and what comes before it is newer
    rcases List.mem_append.mp (hmem hp) with hbefore | hself
    · have hnewer := (List.pairwise_append.mp hchain.newer).2.2 p hbefore mid List.mem_cons_self
      rw [Opcode.newer_of_not_const rfl] at hnewer
      exact UInt32.lt_asymm hnewer hp.1
    · rw [List.mem_singleton.mp hself] at hp
      exact UInt32.lt_irrefl _ hp.1

/-- **The chain of `NOP`s lists all of them** if and only if every link of it is full. -/
theorem Threaded.isChain_nop_iff (h : v.Threaded) :
    (∃ refs, v.IsChain .nop refs) ↔
      v.Full v.nins (v.heads.get .nop) ∧
        ∀ {q x}, v.record q = some x → x.op = .nop → v.Full q x.prev := by
  constructor
  · rintro ⟨refs, hchain⟩
    exact h.full_of_isChain hchain
  · rintro ⟨hhead, hlink⟩
    obtain ⟨refs, hlinked, hsorted, hmem, hall⟩ := exists_linked_of_leads h.link _ rfl h.head
    refine ⟨refs, hlinked, fun q => ⟨fun hq => ?_, fun ⟨_, x, hx, hop⟩ => ?_⟩, ?_⟩
    · obtain ⟨-, x, hx, hop⟩ := hmem q hq
      exact ⟨h.not_fixed hx hop, x, hx, hop⟩
    · exact hall hhead hlink q ⟨((h.live_iff q).mp ⟨x, hx⟩).2, x, hx, hop⟩
    · exact hsorted.imp (Opcode.newer_of_not_const rfl).mpr

/-- With a chain of `NOP`s that fits, all chains fit. -/
theorem Threaded.wellFormed (h : v.Threaded) (hnop : ∃ refs, v.IsChain .nop refs) :
    v.WellFormed := by
  refine ⟨h.toRanged, fun op => ?_⟩
  by_cases hop : op = .nop
  · exact hop ▸ hnop
  · exact h.chains op hop

/-! ### Recording -/

theorem threaded_initial (config : Config) (pool : Pool) (folder : Option Folder) :
    (initial config pool folder).Threaded := by
  have hwell := wellFormed_initial config pool folder
  have hnop : ∀ {q x}, (initial config pool folder).record q = some x → x.op ≠ .nop := by
    intro q x hx hop
    rcases initialRecord_eq_some hx with ⟨-, rfl⟩ | ⟨-, hop'⟩
    · cases hop
    · rw [hop] at hop'
      cases hop'
  refine ⟨hwell.toRanged, fun hx => hnop hx, fun op _ => hwell.chains op, .inl ?_,
    fun hx hop => absurd hop (hnop hx)⟩
  rw [initial, Heads.get_set_of_ne _ _ (by decide), Heads.get_empty]

namespace Threaded

/-- Only the live range, the records and the newest records matter. -/
theorem of_eq (h : v.Threaded) (hnins : v'.nins = v.nins) (hnk : v'.nk = v.nk)
    (hheads : v'.heads = v.heads) (hrecord : v'.record = v.record) : v'.Threaded := by
  have hbelow : ∀ b q, v'.NopBelow b q ↔ v.NopBelow b q := fun b =>
    nopBelow_congr fun q _ => by rw [hrecord]
  refine ⟨h.toRanged.of_eq hnins hnk hrecord, fun hx => h.base_ne (hrecord ▸ hx), fun op hop => ?_,
    ?_, fun hx hop => (h.link (hrecord ▸ hx) hop).congr (hbelow _)⟩
  · obtain ⟨refs, hlinked, hmem, hnewer⟩ := h.chains op hop
    refine ⟨refs, ?_, ?_, hnewer⟩
    · rw [hheads, hrecord]
      exact hlinked
    · rw [hrecord]
      exact hmem
  · rw [hheads, hnins]
    exact h.head.congr (hbelow _)

/-- An instruction enters. -/
private theorem push (h : v.Threaded) (hlimit : v.nins < Ref.limit) (hop : x.op.isConst = false) :
    (v.push x).Threaded := by
  have hbase := h.base_lt
  -- below the old end of the live range nothing changes
  have hbelow : ∀ {b}, b ≤ v.nins → ∀ q, (v.push x).NopBelow b q ↔ v.NopBelow b q := by
    intro b hb
    refine nopBelow_congr fun q hq => push_record_of_ne v x ?_
    exact UInt32.ne_of_lt (UInt32.lt_of_lt_of_le hq hb)
  refine ⟨h.toRanged.push hlimit hop, fun {y} hy => ?_,
    fun op hne => h.exists_isChain_push hop (h.chains op hne), ?_, fun {q y} hy hyop => ?_⟩
  · rcases record_push_cases hy with ⟨heq, -⟩ | hy
    · exact absurd heq (UInt32.ne_of_lt hbase)
    · exact h.base_ne hy
  · by_cases hnop : x.op = .nop
    · -- the new `NOP` is the newest
      have hhead : (v.push x).heads.get .nop = v.nins := hnop ▸ Heads.get_set_self ..
      rw [hhead]
      refine .inr ⟨⟨Ref.lt_succ hlimit, _, push_record_self v x, hnop⟩, fun q hq => ?_⟩
      exact le_of_lt_succ hlimit hq.1
    · have hhead : (v.push x).heads.get .nop = v.heads.get .nop := Heads.get_set_of_ne _ _ hnop
      rw [hhead]
      refine h.head.congr fun q => ?_
      refine (nopBelow_succ hlimit (fun y hy => ?_) q).trans (hbelow UInt32.le_rfl q)
      rw [push_record_self] at hy
      obtain rfl := Option.some.inj hy
      exact hnop
  · rcases record_push_cases hy with ⟨rfl, rfl⟩ | hy
    · -- the new `NOP` is linked to the one that was the newest before
      have hnop : x.op = .nop := hyop
      show (v.push x).Leads v.nins (v.heads.get x.op)
      rw [hnop]
      exact h.head.congr (hbelow UInt32.le_rfl)
    · have hlive := ((h.live_iff q).mp ⟨y, hy⟩).2
      exact (h.link hy hyop).congr (hbelow (UInt32.le_of_lt hlive))

theorem ne_nop_of_const (hop : op.isConst = true) : op ≠ .nop := by
  rintro rfl
  cases hop

/-- A constant enters. -/
private theorem pushConstant (h : v.Threaded) (hone : 1 < v.nk) (hop : x.op.isConst = true) :
    (v.pushConstant x).Threaded := by
  have hbase := h.base_lt
  have hnk := h.nk_le
  have hfree : v.record (v.nk - 1) = none := h.record_eq_none (by grind)
  have hbelow : ∀ b q, (v.pushConstant x).NopBelow b q ↔ v.NopBelow b q := by
    intro b q
    by_cases hq : q = v.nk - 1
    · subst hq
      rw [NopBelow, NopBelow, pushConstant_record_self, hfree]
      refine and_congr_right fun _ => ⟨?_, fun ⟨y, hy, _⟩ => (by cases hy)⟩
      rintro ⟨y, hy, hyop⟩
      obtain rfl := Option.some.inj hy
      exact absurd hyop (ne_nop_of_const hop)
    · rw [NopBelow, NopBelow, pushConstant_record_of_ne _ _ hq]
  refine ⟨h.toRanged.pushConstant hone hop, fun {y} hy => ?_,
    fun op hne => h.exists_isChain_pushConstant hone hop (h.chains op hne), ?_,
    fun {q y} hy hyop => ?_⟩
  · rcases record_pushConstant_cases hy with ⟨heq, -⟩ | hy
    · exact absurd heq (by grind)
    · exact h.base_ne hy
  · have hhead : (v.pushConstant x).heads.get .nop = v.heads.get .nop :=
      Heads.get_set_of_ne _ _ (ne_nop_of_const hop)
    rw [hhead]
    exact h.head.congr (hbelow _)
  · rcases record_pushConstant_cases hy with ⟨-, rfl⟩ | hy
    · exact absurd hyop (ne_nop_of_const hop)
    · exact (h.link hy hyop).congr (hbelow _)

/-- The newest instruction leaves. -/
private theorem popInstruction (h : v.Threaded) (hfirst : Ref.first < v.nins) :
    v.popInstruction.Threaded := by
  have hle := h.nins_le
  have hsucc : v.nins - 1 + 1 = v.nins := UInt32.sub_add_cancel v.nins 1
  have hlimit : v.nins - 1 < Ref.limit := by grind
  obtain ⟨x, hx, -⟩ := h.exists_newest hfirst
  have hpop := popInstruction_eq hx
  have hrecord : ∀ {q y}, v.popInstruction.record q = some y → q < v.nins - 1 ∧
      v.record q = some y := by
    intro q y hy
    rw [popInstruction_record] at hy
    split at hy
    · cases hy
    · next hne =>
      have hlive := ((h.live_iff q).mp ⟨y, hy⟩).2
      rw [← hsucc] at hlive
      exact ⟨UInt32.lt_of_le_of_ne (le_of_lt_succ hlimit hlive) hne, hy⟩
  have hbelow : ∀ {b}, b ≤ v.nins - 1 → ∀ q,
      v.popInstruction.NopBelow b q ↔ v.NopBelow b q := by
    intro b hb
    refine nopBelow_congr fun q hq => ?_
    rw [popInstruction_record, if_neg (UInt32.ne_of_lt (UInt32.lt_of_lt_of_le hq hb))]
  refine ⟨h.toRanged.popInstruction hfirst, fun {y} hy => h.base_ne (hrecord hy).2,
    fun op hne => h.exists_isChain_popInstruction hfirst (h.chains op hne), ?_,
    fun {q y} hy hyop => ?_⟩
  · have hnins : v.popInstruction.nins = v.nins - 1 := congrArg View.nins hpop
    have hheads : v.popInstruction.heads = v.heads.set x.op x.prev := congrArg View.heads hpop
    rw [hnins, hheads]
    by_cases hnop : x.op = .nop
    · -- the chain begins again where the `NOP` that leaves was linked to
      rw [hnop, Heads.get_set_self]
      exact (h.link hx hnop).congr (hbelow UInt32.le_rfl)
    · rw [Heads.get_set_of_ne _ _ hnop]
      refine h.head.congr fun q => (hbelow UInt32.le_rfl q).trans ?_
      rw [← nopBelow_succ hlimit (fun y hy => ?_), hsucc]
      rw [hx] at hy
      obtain rfl := Option.some.inj hy
      exact hnop
  · obtain ⟨hlt, hy⟩ := hrecord hy
    exact (h.link hy hyop).congr (hbelow (UInt32.le_of_lt hlt))

/-- The newest constant leaves. -/
private theorem popConstant (h : v.Threaded) (htrue : v.nk < Ref.true) :
    v.popConstant.Threaded := by
  obtain ⟨x, hx, hop⟩ := h.exists_lowest
  have hpop := popConstant_eq hx
  have hrecord : ∀ {q y}, v.popConstant.record q = some y → v.record q = some y := by
    intro q y hy
    rw [popConstant_record] at hy
    split at hy
    · cases hy
    · exact hy
  have hbelow : ∀ b q, v.popConstant.NopBelow b q ↔ v.NopBelow b q := by
    intro b q
    refine and_congr_right fun _ => ⟨fun ⟨y, hy, hyop⟩ => ⟨y, hrecord hy, hyop⟩, ?_⟩
    rintro ⟨y, hy, hyop⟩
    refine ⟨y, ?_, hyop⟩
    rw [popConstant_record, if_neg]
    · exact hy
    · rintro rfl
      rw [hx] at hy
      obtain rfl := Option.some.inj hy
      exact absurd hyop (ne_nop_of_const hop)
  refine ⟨h.toRanged.popConstant htrue, fun {y} hy => h.base_ne (hrecord hy),
    fun op hne => h.exists_isChain_popConstant htrue (h.chains op hne), ?_,
    fun {q y} hy hyop => (h.link (hrecord hy) hyop).congr (hbelow _)⟩
  have hnins : v.popConstant.nins = v.nins := by rw [hpop]
  have hheads : v.popConstant.heads = v.heads.set x.op x.prev := congrArg View.heads hpop
  rw [hnins, hheads, Heads.get_set_of_ne _ _ (ne_nop_of_const hop)]
  exact h.head.congr (hbelow _)

end Threaded

/-- **Recording** keeps a view threaded. -/
theorem lasting_threaded : Lasting Threaded where
  ranged h := h.toRanged
  initial := threaded_initial
  of_eq h := h.of_eq
  push h := h.push
  pushConstant h := h.pushConstant
  popInstruction h := h.popInstruction
  popConstant h := h.popConstant

/-! ### Retiring records -/

section Retire

variable {links : Heads}

/-- Retiring a record makes it a `NOP` and no other. -/
private theorem nopBelow_retire (b q : Ref) :
    (v.retire links r x).NopBelow b q ↔ q = r ∧ r < b ∨ v.NopBelow b q := by
  by_cases hq : q = r
  · subst hq
    rw [NopBelow, retire_record_self]
    refine ⟨fun hself => .inl ⟨rfl, hself.1⟩, ?_⟩
    rintro (⟨-, hlt⟩ | ⟨hlt, -⟩)
    · exact ⟨hlt, _, rfl, rfl⟩
    · exact ⟨hlt, _, rfl, rfl⟩
  · rw [nopBelow_of_unlinked b (retire_record_unlinked hq)]
    exact ⟨.inr, fun hnop => hnop.resolve_left fun hself => hq hself.1⟩

/-- If no `NOP` was passed, the record becomes the newest one. -/
theorem retire_head_nop (hlink : links.get .nop = Ref.none) :
    (v.retire links r x).heads.get .nop = r := by
  show ((v.relink _ _ _).relink (links.get .nop) .nop r).heads.get .nop = r
  rw [hlink, relink_none, Heads.get_set_self]

/-- Otherwise the newest one stays. -/
theorem retire_head_nop_of_ne (hlink : links.get .nop ≠ Ref.none) :
    (v.retire links r x).heads.get .nop = v.heads.get .nop := by
  show ((v.relink _ _ _).relink (links.get .nop) .nop r).heads.get .nop = _
  rw [relink_heads_of_ne_none _ hlink]
  by_cases hop : x.op = .nop
  · rw [hop, relink_heads_of_ne_none _ hlink]
  · rw [relink_heads_of_ne _ hop]

namespace Retirable

variable (h : v.Retirable links r x)
include h

/-- The oldest `NOP` passed gets the record as its link. No other `NOP` changes. -/
theorem nop_of_retire (hq : q ≠ r) (hy : (v.retire links r x).record q = some y)
    (hyop : y.op = .nop) :
    q = links.get .nop ∧ y.prev = r ∨ q ≠ links.get .nop ∧ v.record q = some y := by
  obtain ⟨z, hz, hzop⟩ := (exists_op_iff (retire_record_unlinked hq) .nop).mp ⟨y, hy, hyop⟩
  rw [retire_record_of_ne hq] at hy
  by_cases hlink : q = links.get .nop
  · refine .inl ⟨hlink, ?_⟩
    have hnone : links.get .nop ≠ Ref.none := by
      rw [← hlink]
      rintro rfl
      rw [h.ranged.record_none] at hz
      cases hz
    obtain ⟨z', hz', -⟩ :=
      (exists_op_relink_iff (links.get x.op) x.prev q x.op .nop).mpr ⟨z, hz, hzop⟩
    rw [hlink] at hy hz'
    rw [relink_of_record hnone hz'] at hy
    dsimp only [setRecord] at hy
    rw [Function.update_self] at hy
    obtain rfl := Option.some.inj hy
    rfl
  · refine .inr ⟨hlink, ?_⟩
    rw [relink_record_of_ne _ hlink] at hy
    -- what the record was linked from is of its own opcode
    have hown : q ≠ links.get x.op := by
      intro hown
      rcases h.oldest with ⟨hnone, -⟩ | ⟨-, ⟨w, hw, hwop⟩, -⟩
      · rw [hown, hnone, h.ranged.record_none] at hz
        cases hz
      · rw [← hown, hz] at hw
        obtain rfl := Option.some.inj hw
        rw [← hwop, hzop] at hown
        exact hlink hown
    rwa [relink_record_of_ne _ hown] at hy

private theorem lt_nins : r < v.nins :=
  ((h.ranged.live_iff r).mp ⟨x, h.record⟩).2

theorem ne_none_self : r ≠ Ref.none := by
  rintro rfl
  have hx := h.record
  rw [h.ranged.record_none] at hx
  cases hx

/-- The oldest `NOP` passed lies between the record and any other that was passed. -/
theorem lt_oldest (hlink : links.get .nop ≠ Ref.none) :
    r < links.get .nop ∧ (∃ y, v.record (links.get .nop) = some y ∧ y.op = .nop) ∧
      ∀ q y, r < q → v.record q = some y → y.op = .nop → links.get .nop ≤ q := by
  rcases h.oldest_nop with ⟨hnone, -⟩ | ⟨hle, hnop, hleast⟩
  · exact absurd hnone hlink
  · refine ⟨(Ref.succ_le_iff h.lt_limit).mp hle, hnop, fun q y hq hy hyop => ?_⟩
    exact hleast q y ((Ref.succ_le_iff h.lt_limit).mpr hq) hy hyop

/-- If a `NOP` was passed, there is an oldest one. -/
private theorem oldest_ne_none (hq : r < q) (hy : v.record q = some y) (hyop : y.op = .nop) :
    links.get .nop ≠ Ref.none := by
  intro hnone
  rcases h.oldest_nop with ⟨-, hall⟩ | ⟨hle, ⟨z, hz, -⟩, -⟩
  · exact hall q y ((Ref.succ_le_iff h.lt_limit).mpr hq) hy hyop
  · rw [hnone, h.ranged.record_none] at hz
    cases hz

/-- Other `NOP`s that were passed stand above the oldest. -/
private theorem nopBelow_oldest (hq : r < q) (hne : q ≠ links.get .nop) (hy : v.record q = some y)
    (hyop : y.op = .nop) : v.NopBelow q (links.get .nop) := by
  obtain ⟨-, hnop, hleast⟩ := h.lt_oldest (h.oldest_ne_none hq hy hyop)
  exact ⟨UInt32.lt_of_le_of_ne (hleast q y hq hy hyop) hne.symm, hnop⟩

end Retirable

/-- A link that leads past the record leads where it should afterwards too. -/
theorem Leads.retire (h : v.Leads b p) (hpast : r < b → p ≠ Ref.none → r ≤ p) :
    (v.retire links r x).Leads b p := by
  by_cases hnone : p = Ref.none
  · exact .inl hnone
  obtain ⟨hp, hnewest⟩ := h.newest hnone
  refine .inr ⟨(nopBelow_retire b p).mpr (.inr hp), fun q hq => ?_⟩
  rcases (nopBelow_retire b q).mp hq with ⟨rfl, hlt⟩ | hq
  · exact hpast hlt hnone
  · exact hnewest q hq

/-- The links that come to lead to the record itself. -/
private theorem Retirable.leads_self (h : v.Retirable links r x) (hr : r < b)
    (hpassed : ∀ q y, r < q → q < b → v.record q = some y → y.op ≠ .nop) :
    (v.retire links r x).Leads b r := by
  refine .inr ⟨(nopBelow_retire b r).mpr (.inl ⟨rfl, hr⟩), fun q hq => ?_⟩
  rcases (nopBelow_retire b q).mp hq with ⟨rfl, -⟩ | ⟨hlt, y, hy, hyop⟩
  · exact UInt32.le_rfl
  · rw [← UInt32.not_lt]
    exact fun hrq => hpassed q y hrq hlt hy hyop

/-- **Retiring** a record keeps a view threaded. -/
theorem Threaded.retire (h : v.Threaded) (hr : v.Retirable links r x) :
    (v.retire links r x).Threaded := by
  refine ⟨hr.ranged_retire, fun {y} hy hyop => ?_,
    fun op hop => hr.exists_isChain_retire hop (h.chains op hop), ?_, fun {q y} hy hyop => ?_⟩
  · have hne : Ref.base ≠ r := by
      rintro rfl
      exact absurd hr.first_le (by decide)
    obtain ⟨z, hz, hzop⟩ := (exists_op_iff (retire_record_unlinked hne) .nop).mp ⟨y, hy, hyop⟩
    exact h.base_ne hz hzop
  · have hnins : (v.retire links r x).nins = v.nins := sameOutline_retire.nins
    rw [hnins]
    by_cases hlink : links.get .nop = Ref.none
    · rw [retire_head_nop hlink]
      exact hr.leads_self hr.lt_nins fun q y hq _ hy hyop => hr.oldest_ne_none hq hy hyop hlink
    · rw [retire_head_nop_of_ne hlink]
      obtain ⟨hlt, hnop, -⟩ := hr.lt_oldest hlink
      refine h.head.retire fun _ hp => ?_
      have hlive := ((h.live_iff _).mp (hnop.imp fun _ hy => hy.1)).2
      have hle := (h.head.newest hp).2 _ ⟨hlive, hnop⟩
      exact UInt32.le_of_lt (UInt32.lt_of_lt_of_le hlt hle)
  · by_cases hq : q = r
    · subst hq
      rw [retire_record_self] at hy
      obtain rfl := Option.some.inj hy
      exact .inl rfl
    · rcases hr.nop_of_retire hq hy hyop with ⟨rfl, hprev⟩ | ⟨hne, hy⟩
      · rw [hprev]
        have hlink : links.get .nop ≠ Ref.none := by
          intro hnone
          rw [hnone, hr.ranged_retire.record_none] at hy
          cases hy
        obtain ⟨hlt, -, hleast⟩ := hr.lt_oldest hlink
        refine hr.leads_self hlt fun p z hp hlt' hz hzop => ?_
        exact absurd hlt' (UInt32.not_lt.mpr (hleast p z hp hz hzop))
      · refine (h.link hy hyop).retire fun hlt hp => ?_
        -- the oldest `NOP` passed is below `q`, so the link leads to it or stays above it
        have hbelow := hr.nopBelow_oldest hlt hne hy hyop
        obtain ⟨hlt', -⟩ := hr.lt_oldest (hr.oldest_ne_none hlt hy hyop)
        have hle := ((h.link hy hyop).newest hp).2 _ hbelow
        exact UInt32.le_of_lt (UInt32.lt_of_lt_of_le hlt' hle)

/-! Links that are full but for the oldest `NOP` passed. -/

/-- Every link of the chain of `NOP`s is full, with one exception at most. -/
structure FullBut (v : View) (oldest : Ref) : Prop where
  head : v.Full v.nins (v.heads.get .nop)
  link : ∀ {q x}, v.record q = some x → x.op = .nop → q ≠ oldest → v.Full q x.prev

/-- A record that is retired becomes the exception. -/
theorem FullBut.retire (h : v.FullBut (links.get .nop)) (hr : v.Retirable links r x) :
    (v.retire links r x).FullBut r := by
  constructor
  · by_cases hlink : links.get .nop = Ref.none
    · rw [retire_head_nop hlink]
      exact full_of_ne hr.ne_none_self
    · rw [retire_head_nop_of_ne hlink]
      obtain ⟨-, hnop, -⟩ := hr.lt_oldest hlink
      have hlive := ((hr.ranged.live_iff _).mp (hnop.imp fun _ hy => hy.1)).2
      exact full_of_ne (h.head.ne_none ⟨hlive, hnop⟩)
  · intro q y hy hyop hq
    rcases hr.nop_of_retire hq hy hyop with ⟨-, hprev⟩ | ⟨hne, hold⟩
    · rw [hprev]
      exact full_of_ne hr.ne_none_self
    · intro hnone p hp
      have hfull := h.link hold hyop hne
      rcases (nopBelow_retire q p).mp hp with ⟨rfl, hlt⟩ | hp
      · -- the oldest `NOP` passed is below too
        exact hfull hnone _ (hr.nopBelow_oldest hlt hne hold hyop)
      · exact hfull hnone p hp

end Retire

/-! ### Closing the chain -/

section Close

variable {oldest : Ref}

private theorem nopBelow_relink (b q : Ref) :
    (v.relink p op r).NopBelow b q ↔ v.NopBelow b q :=
  nopBelow_of_unlinked b (v.relink_record_unlinked q)

/-- The oldest `NOP` gets no link. No other `NOP` changes. -/
theorem nop_of_close (hv : v.Ranged) (hy : (v.relink oldest .nop Ref.none).record q = some y) :
    q = oldest ∧ y.prev = Ref.none ∨ q ≠ oldest ∧ v.record q = some y := by
  by_cases hq : q = oldest
  · subst hq
    refine .inl ⟨rfl, ?_⟩
    have hlive : ((v.record q).map Record.unlinked).isSome := by
      rw [← v.relink_record_unlinked, hy]
      rfl
    rw [Option.isSome_map, Option.isSome_iff_exists] at hlive
    obtain ⟨z, hz⟩ := hlive
    have hnone : q ≠ Ref.none := by
      rintro rfl
      rw [hv.record_none] at hz
      cases hz
    rw [relink_of_record hnone hz] at hy
    dsimp only [setRecord] at hy
    rw [Function.update_self] at hy
    obtain rfl := Option.some.inj hy
    rfl
  · rw [relink_record_of_ne v hq] at hy
    exact .inr ⟨hq, hy⟩

/-- **Closing** the chain keeps a view threaded. -/
theorem Threaded.close (h : v.Threaded) (holdest : v.IsOldest .nop Ref.first oldest) :
    (v.relink oldest .nop Ref.none).Threaded := by
  have houtline : v.SameOutline (v.relink oldest .nop Ref.none) := v.sameOutline_relink
  refine ⟨h.toRanged.relink, fun {y} hy hyop => ?_, fun op hne => ?_, ?_, fun {q y} hy hyop => ?_⟩
  · obtain ⟨z, hz, hzop⟩ := (exists_op_relink_iff ..).mp ⟨y, hy, hyop⟩
    exact h.base_ne hz hzop
  · obtain ⟨refs, hchain⟩ := h.chains op hne
    refine ⟨refs, ?_, fun q => ?_, hchain.newer⟩
    · rw [relink_heads_of_ne v hne.symm]
      exact linked_relink_of_not_mem hchain.linked (holdest.not_mem h.toRanged hne.symm hchain)
    · rw [exists_op_relink_iff, hchain.mem_iff]
  · rw [houtline.nins]
    by_cases hnone : oldest = Ref.none
    · rw [hnone, relink_none, Heads.get_set_self]
      exact .inl rfl
    · rw [relink_heads_of_ne_none v hnone]
      exact h.head.congr fun q => nopBelow_relink _ q
  · rcases nop_of_close h.toRanged hy with ⟨-, hprev⟩ | ⟨-, hy⟩
    · exact .inl hprev
    · exact (h.link hy hyop).congr fun q => nopBelow_relink _ q

/-- Closing the chain removes the exception. -/
theorem FullBut.close (h : v.FullBut oldest) (hv : v.Threaded)
    (holdest : v.IsOldest .nop Ref.first oldest) :
    ∃ refs, (v.relink oldest .nop Ref.none).IsChain .nop refs := by
  -- below the oldest `NOP` there is none
  have hbelow : ∀ b, (oldest = Ref.none ∨ b = oldest) → ∀ q, ¬ v.NopBelow b q := by
    rintro b hb q ⟨hlt, x, hx, hop⟩
    have hfirst := hv.first_le hx hop
    rcases holdest with ⟨-, hall⟩ | ⟨-, ⟨y, hy, -⟩, hleast⟩
    · exact hall q x hfirst hx hop
    · rcases hb with rfl | rfl
      · rw [hv.record_none] at hy
        cases hy
      · exact absurd hlt (UInt32.not_lt.mpr (hleast q x hfirst hx hop))
  refine (hv.close holdest).isChain_nop_iff.mpr ⟨?_, fun {q y} hy hyop => ?_⟩
  · have hnins : (v.relink oldest .nop Ref.none).nins = v.nins := v.sameOutline_relink.nins
    rw [hnins]
    by_cases hnone : oldest = Ref.none
    · exact fun _ q hq => hbelow v.nins (.inl hnone) q ((nopBelow_relink _ q).mp hq)
    · rw [relink_heads_of_ne_none v hnone]
      exact h.head.congr fun q => nopBelow_relink _ q
  · rcases nop_of_close hv.toRanged hy with ⟨rfl, -⟩ | ⟨hne, hy⟩
    · exact fun _ p hp => hbelow q (.inr rfl) p ((nopBelow_relink _ p).mp hp)
    · exact (h.link hy hyop hne).congr fun p => nopBelow_relink _ p

end Close

end TraceIR.View
