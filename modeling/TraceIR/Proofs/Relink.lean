import TraceIR.Proofs.Chain
import TraceIR.Trace.DeadCode

/-!
# Moving a record to another chain

Dead code elimination turns a record in the middle of a chain into a `NOP`. The record before it in
the chain is linked to the one after it, and the chain of `NOP`s gets the record as its last one.
Which record stands before it is not searched for: the walk remembers for each opcode the oldest
record that it has passed (`View.IsOldest`).

* `View.relink` — write a reference through the link that feeds a chain.
* `View.retire` — take a record out of its chain and put it at the end of the chain of `NOP`s.
  The other chains fit afterwards if they did before (`Retirable.exists_isChain_retire`).
* `View.Retirable.wellFormed_retire` — if all `NOP`s were passed, a well-formed view stays so.
* `Trace.Laid.run_relink` — relinking a trace relinks its view.
-/

namespace TraceIR

/-- A record without its link. -/
def Record.unlinked (x : Record) : Record :=
  { x with prev := Ref.none }

theorem Heads.set_get (h : Heads) (op : Opcode) : h.set op (h.get op) = h := by
  have htable : h.table.set op.index (h.table[op.index.val]) = h.table := Vector.set_getElem_self _
  exact congrArg Heads.mk htable

/-! ### Following links after a change -/

namespace Linked

variable {get : Ref → Option Record} {r stop : Ref}

theorem split {refs refs' : List Ref} (h : Linked get r (refs ++ refs') stop) :
    ∃ mid, Linked get r refs mid ∧ Linked get mid refs' stop := by
  induction refs generalizing r with
  | nil => exact ⟨r, .done r, h⟩
  | cons q refs ih =>
    obtain ⟨rfl, x, hx, hrest⟩ := h.uncons
    obtain ⟨mid, h₁, h₂⟩ := ih hrest
    exact ⟨mid, .step hx h₁, h₂⟩

/-- If the last record on the way gets another link, the way ends elsewhere. -/
private theorem redirect {refs : List Ref} {last stop' : Ref} {x : Record}
    (h : Linked get r (refs ++ [last]) stop) (hx : get last = some x) (hlast : last ∉ refs) :
    Linked (Function.update get last (some { x with prev := stop' })) r (refs ++ [last]) stop' := by
  obtain ⟨mid, h₁, h₂⟩ := h.split
  obtain ⟨rfl, -⟩ := h₂.uncons
  have hrefs : Linked (Function.update get mid (some { x with prev := stop' })) r refs mid := by
    refine h₁.congr fun q hq => Function.update_of_ne ?_ ..
    rintro rfl
    exact hlast hq
  exact hrefs.append (.step (Function.update_self ..) (.done _))

end Linked

namespace View

/-- Write a live record. -/
def setRecord (v : View) (r : Ref) (x : Record) : View :=
  { v with record := Function.update v.record r (some x) }

/-- Write a reference through a link: the head of the opcode, or the link of a record. -/
def relink (v : View) (link : Ref) (op : Opcode) (r : Ref) : View :=
  if link = Ref.none then { v with heads := v.heads.set op r }
  else
    match v.record link with
    | some x => v.setRecord link { x with prev := r }
    | none => v

/-- The views agree in everything but records and newest records. -/
structure SameOutline (v v' : View) : Prop where
  config : v'.config = v.config
  pool : v'.pool = v.pool
  folder : v'.folder = v.folder
  nins : v'.nins = v.nins
  nk : v'.nk = v.nk
  guardEmitted : v'.guardEmitted = v.guardEmitted
  snapshots : v'.snapshots = v.snapshots

namespace SameOutline

theorem refl (v : View) : v.SameOutline v :=
  ⟨rfl, rfl, rfl, rfl, rfl, rfl, rfl⟩

theorem trans {v v' v'' : View} (h : v.SameOutline v') (h' : v'.SameOutline v'') :
    v.SameOutline v'' :=
  ⟨h'.config.trans h.config, h'.pool.trans h.pool, h'.folder.trans h.folder,
    h'.nins.trans h.nins, h'.nk.trans h.nk, h'.guardEmitted.trans h.guardEmitted,
    h'.snapshots.trans h.snapshots⟩

end SameOutline

section Relink

variable (v : View) {link : Ref} {op : Opcode} {r : Ref}

theorem relink_none (op : Opcode) (r : Ref) :
    v.relink Ref.none op r = { v with heads := v.heads.set op r } :=
  if_pos rfl

variable {v} in
theorem relink_of_record {x : Record} (hlink : link ≠ Ref.none) (hx : v.record link = some x) :
    v.relink link op r = v.setRecord link { x with prev := r } := by
  rw [relink, if_neg hlink, hx]

theorem sameOutline_relink : v.SameOutline (v.relink link op r) := by
  rw [relink]
  by_cases hlink : link = Ref.none
  · rw [if_pos hlink]
    exact ⟨rfl, rfl, rfl, rfl, rfl, rfl, rfl⟩
  · rw [if_neg hlink]
    cases v.record link with
    | none => exact .refl v
    | some x => exact ⟨rfl, rfl, rfl, rfl, rfl, rfl, rfl⟩

theorem relink_record_of_ne {q : Ref} (hq : q ≠ link) :
    (v.relink link op r).record q = v.record q := by
  rw [relink]
  by_cases hlink : link = Ref.none
  · rw [if_pos hlink]
  · rw [if_neg hlink]
    cases v.record link with
    | none => rfl
    | some x => exact Function.update_of_ne hq ..

/-- Relinking changes links and nothing else. -/
theorem relink_record_unlinked (q : Ref) :
    ((v.relink link op r).record q).map Record.unlinked = (v.record q).map Record.unlinked := by
  by_cases hq : q = link
  · subst hq
    rw [relink]
    by_cases hlink : q = Ref.none
    · rw [if_pos hlink]
    · rw [if_neg hlink]
      cases hx : v.record q with
      | none =>
        dsimp only
        rw [hx]
      | some x =>
        dsimp only [setRecord]
        rw [Function.update_self]
        rfl
  · rw [relink_record_of_ne v hq]

theorem relink_heads_of_ne {op' : Opcode} (hop : op ≠ op') :
    (v.relink link op r).heads.get op' = v.heads.get op' := by
  rw [relink]
  by_cases hlink : link = Ref.none
  · rw [if_pos hlink]
    exact Heads.get_set_of_ne _ _ hop
  · rw [if_neg hlink]
    cases v.record link with
    | none => rfl
    | some x => rfl

theorem relink_heads_of_ne_none (hlink : link ≠ Ref.none) :
    (v.relink link op r).heads = v.heads := by
  rw [relink, if_neg hlink]
  cases v.record link with
  | none => rfl
  | some x => rfl

variable {v}

/-- A way that does not pass the link stays as it is. -/
theorem linked_relink_of_not_mem {start stop : Ref} {refs : List Ref}
    (h : Linked v.record start refs stop) (hlink : link ∉ refs) :
    Linked (v.relink link op r).record start refs stop := by
  refine h.congr fun q hq => relink_record_of_ne v ?_
  rintro rfl
  exact hlink hq

/-- Relinking through the last record that feeds the end of a way, or through the head if the way
is empty, makes the way end at the new reference. -/
private theorem linked_relink {stop : Ref} {refs : List Ref}
    (h : Linked v.record (v.heads.get op) refs stop) (hnodup : refs.Nodup)
    (hlive : ∀ q ∈ refs, q ≠ Ref.none) (hlink : link = refs.getLastD Ref.none) :
    Linked (v.relink link op r).record ((v.relink link op r).heads.get op) refs r := by
  rcases List.eq_nil_or_concat refs with rfl | ⟨front, last, rfl⟩
  · obtain rfl : link = Ref.none := hlink
    rw [relink_none, Heads.get_set_self]
    exact .done r
  · rw [List.concat_eq_append] at *
    rw [List.getLastD_concat] at hlink
    subst hlink
    have hmem : link ∈ front ++ [link] := List.mem_append_right _ List.mem_cons_self
    obtain ⟨x, hx⟩ := h.exists_of_mem hmem
    rw [relink_of_record (hlive link hmem) hx]
    refine h.redirect hx fun hfront => ?_
    exact (List.nodup_append.mp hnodup).2.2 link hfront link List.mem_cons_self rfl

/-- Writing through a link what it holds already changes nothing. -/
theorem relink_eq_self {stop : Ref} {refs : List Ref}
    (h : Linked v.record (v.heads.get op) refs stop) (hlive : ∀ q ∈ refs, q ≠ Ref.none)
    (hlink : link = refs.getLastD Ref.none) : v.relink link op stop = v := by
  rcases List.eq_nil_or_concat refs with rfl | ⟨front, last, rfl⟩
  · obtain rfl : link = Ref.none := hlink
    have hstop : v.heads.get op = stop := h.eq_headD
    rw [relink_none, ← hstop, Heads.set_get]
  · rw [List.concat_eq_append] at *
    rw [List.getLastD_concat] at hlink
    subst hlink
    obtain ⟨mid, -, hlast⟩ := h.split
    obtain ⟨rfl, x, hx, hrest⟩ := hlast.uncons
    obtain rfl : x.prev = stop := hrest.eq_headD
    have hne : mid ≠ Ref.none := hlive mid (List.mem_append_right _ List.mem_cons_self)
    rw [relink_of_record hne hx, setRecord, ← hx, Function.update_eq_self]

end Relink

/-! ### The oldest record passed -/

/-- `oldest` is the oldest instruction of the opcode from `r` on, or no reference if there is
none. -/
def IsOldest (v : View) (op : Opcode) (r oldest : Ref) : Prop :=
  (oldest = Ref.none ∧ ∀ q x, r ≤ q → v.record q = some x → x.op ≠ op) ∨
    r ≤ oldest ∧ (∃ x, v.record oldest = some x ∧ x.op = op) ∧
      ∀ q x, r ≤ q → v.record q = some x → x.op = op → oldest ≤ q

variable {v : View} {op : Opcode} {r oldest : Ref}

theorem Ranged.record_none (h : v.Ranged) : v.record Ref.none = none := by
  refine h.record_eq_none fun hlive => ?_
  exact absurd (UInt32.le_iff_toNat_le.mp hlive.1) (Nat.not_le.mpr h.nk_pos)

/-- Records with the same bodies have the same opcodes. -/
theorem exists_op_iff {a b : Option Record} (h : a.map Record.unlinked = b.map Record.unlinked)
    (op : Opcode) : (∃ x, a = some x ∧ x.op = op) ↔ ∃ x, b = some x ∧ x.op = op := by
  cases a with
  | none =>
    cases b with
    | none => exact Iff.rfl
    | some y => cases h
  | some x =>
    cases b with
    | none => cases h
    | some y =>
      rw [Option.map_some, Option.map_some] at h
      have hop : x.unlinked.op = y.unlinked.op := congrArg Record.op (Option.some.inj h)
      change x.op = y.op at hop
      simp [hop]

/-- Relinking changes no opcode. -/
theorem exists_op_relink_iff (link r q : Ref) (op op' : Opcode) :
    (∃ x, (v.relink link op r).record q = some x ∧ x.op = op') ↔
      ∃ x, v.record q = some x ∧ x.op = op' :=
  exists_op_iff (v.relink_record_unlinked q) op'

/-- Relinking leaves the live range as it is. -/
theorem Ranged.relink (h : v.Ranged) {link p : Ref} : (v.relink link op p).Ranged := by
  have houtline : v.SameOutline (v.relink link op p) := v.sameOutline_relink
  refine
    { nk_pos := houtline.nk ▸ h.nk_pos
      nk_le := houtline.nk ▸ h.nk_le
      base_lt := houtline.nins ▸ h.base_lt
      nins_le := houtline.nins ▸ h.nins_le
      live_iff := fun q => ?_
      kind := fun {q y} hy => ?_ }
  · rw [houtline.nk, houtline.nins, ← h.live_iff, ← Option.isSome_iff_exists,
      ← Option.isSome_iff_exists, ← Option.isSome_map (f := Record.unlinked),
      relink_record_unlinked, Option.isSome_map]
  · obtain ⟨z, hz, hzop⟩ := (exists_op_relink_iff _ _ q _ y.op).mp ⟨y, hy, rfl⟩
    rw [← hzop]
    exact h.kind hz

/-- The oldest record passed stands at the end of the part of the chain that was passed. -/
theorem IsOldest.eq_getLastD (h : v.IsOldest op r oldest) (hop : op.isConst = false)
    (hr : Ref.base ≤ r) {passed rest : List Ref} (hchain : v.IsChain op (passed ++ rest))
    (hpassed : ∀ q ∈ passed, r ≤ q) (hrest : ∀ q ∈ rest, q < r) :
    oldest = passed.getLastD Ref.none := by
  -- what the chain holds from `r` on was passed
  have hmem : ∀ {q x}, r ≤ q → v.record q = some x → x.op = op → q ∈ passed := by
    intro q x hq hx hxop
    have hfixed : ¬ q.IsFixed := by
      rw [Ref.isFixed_iff]
      exact fun hfixed => absurd hfixed.2 (UInt32.not_lt.mpr (UInt32.le_trans hr hq))
    rcases List.mem_append.mp ((hchain.mem_iff q).mpr ⟨hfixed, x, hx, hxop⟩) with hq' | hq'
    · exact hq'
    · exact absurd (hrest q hq') (UInt32.not_lt.mpr hq)
  rcases List.eq_nil_or_concat passed with rfl | ⟨front, last, rfl⟩
  · rcases h with ⟨rfl, -⟩ | ⟨hle, ⟨x, hx, hxop⟩, -⟩
    · rfl
    · cases hmem hle hx hxop
  · rw [List.concat_eq_append] at *
    rw [List.getLastD_concat]
    have hlast : last ∈ front ++ [last] := List.mem_append_right _ List.mem_cons_self
    obtain ⟨-, x, hx, hxop⟩ := (hchain.mem_iff last).mp (List.mem_append_left _ hlast)
    rcases h with ⟨-, hnone⟩ | ⟨hle, ⟨y, hy, hyop⟩, hleast⟩
    · exact absurd hxop (hnone last x (hpassed last hlast) hx)
    · rcases List.mem_append.mp (hmem hle hy hyop) with hfront | hsame
      · -- everything before the last one is newer
        have hnewer := (List.pairwise_append.mp (List.pairwise_append.mp hchain.newer).1).2.2
          oldest hfront last List.mem_cons_self
        rw [Opcode.newer_of_not_const hop] at hnewer
        exact absurd hnewer (UInt32.not_lt.mpr (hleast last x (hpassed last hlast) hx hxop))
      · exact List.mem_singleton.mp hsame

/-- The oldest record passed of one opcode is in no chain of another. -/
theorem IsOldest.not_mem (h : v.IsOldest op r oldest) (hv : v.Ranged) {op' : Opcode}
    (hop : op ≠ op') {refs : List Ref} (hchain : v.IsChain op' refs) : oldest ∉ refs := by
  intro hmem
  obtain ⟨-, y, hy, hyop⟩ := (hchain.mem_iff oldest).mp hmem
  rcases h with ⟨rfl, -⟩ | ⟨-, ⟨x, hx, hxop⟩, -⟩
  · rw [hv.record_none] at hy
    cases hy
  · rw [hx] at hy
    obtain rfl := Option.some.inj hy
    exact hop (hxop.symm.trans hyop)

theorem isOldest_self {x : Record} (hx : v.record r = some x) : v.IsOldest x.op r r :=
  .inr ⟨UInt32.le_rfl, ⟨x, hx, rfl⟩, fun _ _ hq _ _ => hq⟩

theorem IsOldest.eq_none_or_exists (h : v.IsOldest op r oldest) :
    oldest = Ref.none ∨ ∃ x, v.record oldest = some x := by
  rcases h with ⟨hnone, -⟩ | ⟨-, ⟨x, hx, -⟩, -⟩
  · exact .inl hnone
  · exact .inr ⟨x, hx⟩

/-- Relinking through the oldest record passed leaves the records ahead alone. -/
theorem IsOldest.relink_record (h : v.IsOldest op r oldest) (v' : View) {q : Ref} (hq : q < r)
    (op' : Opcode) (r' : Ref) : (v'.relink oldest op' r').record q = v'.record q := by
  rcases h with ⟨rfl, -⟩ | ⟨hle, -⟩
  · rw [relink_none]
  · exact relink_record_of_ne v' (UInt32.ne_of_lt (UInt32.lt_of_lt_of_le hq hle))

/-- Passing a record of another opcode leaves the oldest one as it is, also if links change. -/
theorem IsOldest.pass {v' : View} (h : v.IsOldest op (r + 1) oldest) (hr : r < Ref.limit)
    (hrecord : ∀ q, r < q → (v'.record q).map Record.unlinked = (v.record q).map Record.unlinked)
    (hself : ∀ x, v'.record r = some x → x.op ≠ op) : v'.IsOldest op r oldest := by
  -- what the new view holds from `r` on, the old one held after `r`
  have hlater : ∀ {q x}, r ≤ q → v'.record q = some x → x.op = op →
      r + 1 ≤ q ∧ ∃ y, v.record q = some y ∧ y.op = op := by
    intro q x hq hx hxop
    have hlt : r < q := by
      refine UInt32.lt_of_le_of_ne hq ?_
      rintro rfl
      exact hself x hx hxop
    exact ⟨(Ref.succ_le_iff hr).mpr hlt, (exists_op_iff (hrecord q hlt) op).mp ⟨x, hx, hxop⟩⟩
  rcases h with ⟨hnone, hall⟩ | ⟨hle, holdest, hleast⟩
  · refine .inl ⟨hnone, fun q x hq hx hxop => ?_⟩
    obtain ⟨hq', y, hy, hyop⟩ := hlater hq hx hxop
    exact hall q y hq' hy hyop
  · have hlt : r < oldest := (Ref.succ_le_iff hr).mp hle
    refine .inr ⟨UInt32.le_of_lt hlt, (exists_op_iff (hrecord oldest hlt) op).mpr holdest, ?_⟩
    intro q x hq hx hxop
    obtain ⟨hq', y, hy, hyop⟩ := hlater hq hx hxop
    exact hleast q y hq' hy hyop

/-! ### Retiring a record -/

/-- Take a record out of its chain and make it the last `NOP`. -/
def retire (v : View) (links : Heads) (r : Ref) (x : Record) : View :=
  ((v.relink (links.get x.op) x.op x.prev).relink (links.get .nop) .nop r).setRecord r .blank

/-- The record at `r` can be retired: the instructions after it were passed. -/
structure Retirable (v : View) (links : Heads) (r : Ref) (x : Record) : Prop where
  ranged : v.Ranged
  first_le : Ref.first ≤ r
  record : v.record r = some x
  oldest : v.IsOldest x.op (r + 1) (links.get x.op)
  oldest_nop : v.IsOldest .nop (r + 1) (links.get .nop)

section Retire

variable {v : View} {links : Heads} {r : Ref} {x : Record} {refs : List Ref} {op : Opcode}

theorem sameOutline_retire : v.SameOutline (v.retire links r x) := by
  have hown : v.SameOutline (v.relink (links.get x.op) x.op x.prev) := sameOutline_relink v
  exact (hown.trans (sameOutline_relink _)).trans ⟨rfl, rfl, rfl, rfl, rfl, rfl, rfl⟩

@[simp] theorem retire_record_self : (v.retire links r x).record r = some .blank :=
  Function.update_self ..

theorem retire_record_of_ne {q : Ref} (hq : q ≠ r) :
    (v.retire links r x).record q =
      ((v.relink (links.get x.op) x.op x.prev).relink (links.get .nop) .nop r).record q :=
  Function.update_of_ne hq ..

/-- Apart from links, no other record changes. -/
theorem retire_record_unlinked {q : Ref} (hq : q ≠ r) :
    ((v.retire links r x).record q).map Record.unlinked = (v.record q).map Record.unlinked := by
  rw [retire_record_of_ne hq, relink_record_unlinked, relink_record_unlinked]

/-- After the record is taken out of its own chain, a way that avoids the `NOP`s and the record
itself stays as it is. -/
private theorem linked_retire {start stop : Ref}
    (hlinked : Linked (v.relink (links.get x.op) x.op x.prev).record start refs stop)
    (hnop : links.get .nop ∉ refs) (hr : r ∉ refs) :
    Linked (v.retire links r x).record start refs stop := by
  refine hlinked.congr fun q hq => ?_
  have hne : q ≠ r := ne_of_mem_of_not_mem hq hr
  have hne' : q ≠ links.get .nop := ne_of_mem_of_not_mem hq hnop
  rw [retire_record_of_ne hne, relink_record_of_ne _ hne']

private theorem retire_heads_of_ne (hop : Opcode.nop ≠ op) :
    (v.retire links r x).heads.get op =
      (v.relink (links.get x.op) x.op x.prev).heads.get op :=
  relink_heads_of_ne _ hop

namespace Retirable

variable (h : v.Retirable links r x)
include h

theorem lt_limit : r < Ref.limit :=
  UInt32.lt_of_lt_of_le ((h.ranged.live_iff r).mp ⟨x, h.record⟩).2 h.ranged.nins_le

private theorem op_not_const : x.op.isConst = false := by
  rw [h.ranged.kind h.record, Ref.isConst_eq_false_iff]
  have hle := UInt32.le_iff_toNat_le.mp h.first_le
  rw [Ref.toNat_first] at hle
  omega

private theorem ne_none {q : Ref} (hchain : v.IsChain op refs) (hq : q ∈ refs) : q ≠ Ref.none := by
  rintro rfl
  obtain ⟨-, y, hy, -⟩ := (hchain.mem_iff Ref.none).mp hq
  rw [h.ranged.record_none] at hy
  cases hy

private theorem base_le : Ref.base ≤ r + 1 := by
  have hle := h.first_le
  have hlt := (Ref.lt_succ h.lt_limit)
  grind

private theorem not_fixed : ¬ r.IsFixed := by
  rw [Ref.isFixed_iff]
  have hle := h.first_le
  grind

/-- What follows the record in its chain is older. -/
private theorem lt_succ_of_mem {before after : List Ref}
    (hchain : v.IsChain x.op (before ++ r :: after)) {q : Ref} (hq : q ∈ r :: after) :
    q < r + 1 := by
  have hrest := (List.pairwise_append.mp hchain.newer).2.1
  rcases List.mem_cons.mp hq with rfl | hq
  · exact Ref.lt_succ h.lt_limit
  · have hnewer := (List.pairwise_cons.mp hrest).1 q hq
    exact UInt32.lt_trans ((Opcode.newer_of_not_const h.op_not_const).mp hnewer)
      (Ref.lt_succ h.lt_limit)

/-- The walk has passed what stands in front of the record, and remembers the last of it. -/
private theorem links_get_eq {before after : List Ref}
    (hchain : v.IsChain x.op (before ++ r :: after)) :
    links.get x.op = before.getLastD Ref.none := by
  have hacross := (List.pairwise_append.mp hchain.newer).2.2
  refine h.oldest.eq_getLastD h.op_not_const h.base_le hchain (fun q hq => ?_)
    fun q hq => h.lt_succ_of_mem hchain hq
  have hnewer := hacross q hq r List.mem_cons_self
  exact (Ref.succ_le_iff h.lt_limit).mpr ((Opcode.newer_of_not_const h.op_not_const).mp hnewer)

/-- The record leaves its own chain. -/
private theorem isChain_self (hop : x.op ≠ .nop) {before after : List Ref}
    (hchain : v.IsChain x.op (before ++ r :: after)) :
    (v.retire links r x).IsChain x.op (before ++ after) := by
  obtain ⟨hbefore, hrest, hacross⟩ := List.pairwise_append.mp hchain.newer
  have hr := (List.pairwise_cons.mp hrest).1
  have hlink := h.links_get_eq hchain
  obtain ⟨mid, hto, hfrom⟩ := hchain.linked.split
  obtain ⟨rfl, y, hy, hlinked⟩ := hfrom.uncons
  obtain rfl : y = x := Option.some.inj (hy.symm.trans h.record)
  have hrefs : (before ++ after).Sublist (before ++ mid :: after) :=
    (List.Sublist.refl before).append (List.sublist_cons_self mid after)
  have hmid : mid ∉ before ++ after := by
    intro hmem
    rcases List.mem_append.mp hmem with hmem | hmem
    · have hself := hacross mid hmem mid List.mem_cons_self
      exact hself.asymm hself
    · exact (hr mid hmem).asymm (hr mid hmem)
  have hnop : links.get .nop ∉ before ++ after := fun hmem =>
    h.oldest_nop.not_mem h.ranged (Ne.symm hop) hchain (hrefs.mem hmem)
  refine ⟨?_, fun q => ?_, hchain.newer.sublist hrefs⟩
  · rw [retire_heads_of_ne (Ne.symm hop)]
    have hto' := linked_relink (r := y.prev) hto hbefore.nodup
      (fun q hq => h.ne_none hchain (List.mem_append_left _ hq)) hlink
    have hfrom' : Linked (v.relink (links.get y.op) y.op y.prev).record y.prev after Ref.none := by
      refine linked_relink_of_not_mem hlinked fun hmem => ?_
      rcases h.oldest with ⟨hnone, -⟩ | ⟨hle, -⟩
      · exact h.ne_none hchain (List.mem_append_right _ (List.mem_cons_of_mem _ hmem)) hnone
      · have hlt := h.lt_succ_of_mem hchain (List.mem_cons_of_mem _ hmem)
        exact absurd hle (UInt32.not_le.mpr hlt)
    exact linked_retire (hto'.append hfrom') hnop hmid
  · by_cases hq : q = mid
    · subst hq
      rw [retire_record_self]
      refine ⟨fun hmem => absurd hmem hmid, fun ⟨_, z, hz, hzop⟩ => ?_⟩
      obtain rfl := Option.some.inj hz
      exact absurd hzop.symm hop
    · rw [exists_op_iff (retire_record_unlinked hq), ← hchain.mem_iff, List.mem_append,
        List.mem_append, List.mem_cons]
      exact ⟨Or.imp_right .inr, Or.imp_right (·.resolve_left hq)⟩

/-- The record becomes the last `NOP`, if all `NOP`s were passed. -/
theorem isChain_nop (hop : x.op ≠ .nop)
    (hpassed : ∀ {q y}, v.record q = some y → y.op = .nop → r < q) (hchain : v.IsChain .nop refs) :
    (v.retire links r x).IsChain .nop (refs ++ [r]) := by
  have hlater : ∀ q ∈ refs, r < q := by
    intro q hq
    obtain ⟨-, y, hy, hyop⟩ := (hchain.mem_iff q).mp hq
    exact hpassed hy hyop
  have hr : r ∉ refs := fun hmem => absurd (hlater r hmem) (UInt32.lt_irrefl r)
  have hown : links.get x.op ∉ refs := h.oldest.not_mem h.ranged hop hchain
  -- nothing of the chain lies ahead
  have hwhole : v.IsChain .nop (refs ++ []) := (List.append_nil refs).symm ▸ hchain
  have hlink : links.get .nop = refs.getLastD Ref.none :=
    h.oldest_nop.eq_getLastD rfl h.base_le hwhole
      (fun q hq => (Ref.succ_le_iff h.lt_limit).mpr (hlater q hq))
      fun q hq => absurd hq List.not_mem_nil
  refine ⟨?_, fun q => ?_, ?_⟩
  · have hlinked : Linked (v.relink (links.get x.op) x.op x.prev).record
        ((v.relink (links.get x.op) x.op x.prev).heads.get .nop) refs Ref.none := by
      rw [relink_heads_of_ne v hop]
      exact linked_relink_of_not_mem hchain.linked hown
    have hto := linked_relink (r := r) hlinked hchain.newer.nodup
      (fun q hq => h.ne_none hchain hq) hlink
    have hto' : Linked (v.retire links r x).record
        ((v.retire links r x).heads.get .nop) refs r :=
      hto.congr fun q hq => retire_record_of_ne (ne_of_mem_of_not_mem hq hr)
    exact hto'.append (.step retire_record_self (.done _))
  · rw [List.mem_append, List.mem_singleton]
    by_cases hq : q = r
    · subst hq
      rw [retire_record_self]
      exact ⟨fun _ => ⟨h.not_fixed, _, rfl, rfl⟩, fun _ => .inr rfl⟩
    · rw [exists_op_iff (retire_record_unlinked hq), ← hchain.mem_iff]
      exact ⟨(·.resolve_right hq), .inl⟩
  · refine List.pairwise_append.mpr ⟨hchain.newer, List.pairwise_singleton .., fun q hq p hp => ?_⟩
    rw [List.mem_singleton.mp hp, Opcode.newer_of_not_const rfl]
    exact hlater q hq

/-- Every other chain stays as it is. -/
private theorem isChain_of_ne (hop : x.op ≠ op) (hnop : Opcode.nop ≠ op)
    (hchain : v.IsChain op refs) :
    (v.retire links r x).IsChain op refs := by
  have hr : r ∉ refs := by
    intro hmem
    obtain ⟨-, y, hy, hyop⟩ := (hchain.mem_iff r).mp hmem
    rw [h.record] at hy
    obtain rfl := Option.some.inj hy
    exact hop hyop
  refine ⟨?_, fun q => ?_, hchain.newer⟩
  · rw [retire_heads_of_ne hnop, relink_heads_of_ne v hop]
    refine linked_retire (linked_relink_of_not_mem hchain.linked ?_) ?_ hr
    · exact h.oldest.not_mem h.ranged hop hchain
    · exact h.oldest_nop.not_mem h.ranged hnop hchain
  · by_cases hq : q = r
    · subst hq
      rw [retire_record_self]
      refine ⟨fun hmem => absurd hmem hr, fun ⟨_, y, hy, hyop⟩ => ?_⟩
      obtain rfl := Option.some.inj hy
      exact absurd hyop hnop
    · rw [exists_op_iff (retire_record_unlinked hq), hchain.mem_iff]

/-- Chains of other opcodes than `NOP` fit after the record has left. -/
theorem exists_isChain_retire (hop : op ≠ .nop) (hchain : ∃ refs, v.IsChain op refs) :
    ∃ refs, (v.retire links r x).IsChain op refs := by
  obtain ⟨refs, hchain⟩ := hchain
  by_cases hself : x.op = op
  · subst hself
    obtain ⟨before, after, rfl⟩ :=
      List.append_of_mem ((hchain.mem_iff r).mpr ⟨h.not_fixed, x, h.record, rfl⟩)
    exact ⟨_, h.isChain_self hop hchain⟩
  · exact ⟨refs, h.isChain_of_ne hself hop.symm hchain⟩

/-- The live range stays sound. -/
theorem ranged_retire : (v.retire links r x).Ranged := by
  have houtline : v.SameOutline (v.retire links r x) := sameOutline_retire
  refine
    { nk_pos := houtline.nk ▸ h.ranged.nk_pos
      nk_le := houtline.nk ▸ h.ranged.nk_le
      base_lt := houtline.nins ▸ h.ranged.base_lt
      nins_le := houtline.nins ▸ h.ranged.nins_le
      live_iff := fun q => ?_
      kind := fun {q y} hy => ?_ }
  · rw [houtline.nk, houtline.nins, ← h.ranged.live_iff]
    by_cases hq : q = r
    · subst hq
      rw [retire_record_self]
      exact ⟨fun _ => ⟨x, h.record⟩, fun _ => ⟨_, rfl⟩⟩
    · rw [← Option.isSome_iff_exists, ← Option.isSome_iff_exists,
        ← Option.isSome_map (f := Record.unlinked), retire_record_unlinked hq, Option.isSome_map]
  · by_cases hq : q = r
    · subst hq
      rw [retire_record_self] at hy
      obtain rfl := Option.some.inj hy
      rw [← h.ranged.kind h.record, h.op_not_const]
      rfl
    · obtain ⟨z, hz, hzop⟩ := (exists_op_iff (retire_record_unlinked hq) y.op).mp ⟨y, hy, rfl⟩
      rw [← hzop]
      exact h.ranged.kind hz

/-- **Retiring** a record keeps a view well formed, if all `NOP`s were passed. -/
theorem wellFormed_retire (hv : v.WellFormed) (hop : x.op ≠ .nop)
    (hpassed : ∀ {q y}, v.record q = some y → y.op = .nop → r < q) :
    (v.retire links r x).WellFormed := by
  refine ⟨h.ranged_retire, fun op => ?_⟩
  by_cases hnop : op = .nop
  · subst hnop
    obtain ⟨refs, hchain⟩ := hv.chains .nop
    exact ⟨_, h.isChain_nop hop hpassed hchain⟩
  · exact h.exists_isChain_retire hnop (hv.chains op)

end Retirable

end Retire

end View

namespace Trace.Laid

variable {t : Trace}

/-! ### Relinking a trace -/

/-- Writing a slot writes the record in the view, if it is live. -/
theorem run_write_slot (h : t.Laid) {r : Ref} (hslot : t.buffer.has r = true) (x : Record) :
    ∃ t', (write r x).run t = .ok () t' ∧ t'.Laid ∧
      t'.view = if t.nk ≤ r ∧ r < t.nins then t.view.setRecord r x else t.view := by
  refine ⟨_, by rw [Trace.run_write, if_pos hslot], ?_, ?_⟩
  · exact
      { nk_pos := h.nk_pos
        nk_le := h.nk_le
        base_lt := h.base_lt
        nins_le := h.nins_le
        base_lt_limit := h.base_lt_limit
        covers := h.covers.set _ _ }
  -- other slots are as they were
  have hother : ∀ q, q ≠ r →
      { t with buffer := t.buffer.set r x : Trace }.view.record q = t.view.record q := by
    intro q hq
    by_cases hlive : t.nk ≤ q ∧ q < t.nins
    · rw [view_record_of_live hlive, view_record_of_live (by exact hlive),
        Buffer.get?_set_of_ne _ _ (Ne.symm hq)]
    · rw [view_record_of_dead hlive, view_record_of_dead (by exact hlive)]
  by_cases hr : t.nk ≤ r ∧ r < t.nins
  · rw [if_pos hr]
    refine view_eq rfl rfl rfl rfl rfl rfl rfl rfl fun q => ?_
    show _ = Function.update t.view.record r (some x) q
    by_cases hq : q = r
    · subst hq
      rw [Function.update_self, view_record_of_live (by exact hr), Buffer.get?_set_self _ _ hslot]
    · rw [Function.update_of_ne hq, hother q hq]
  · rw [if_neg hr]
    refine view_eq rfl rfl rfl rfl rfl rfl rfl rfl fun q => ?_
    by_cases hq : q = r
    · subst hq
      rw [view_record_of_dead hr, view_record_of_dead (by exact hr)]
    · exact hother q hq

/-- Writing a live record writes it in the view. -/
theorem run_write (h : t.Laid) {r : Ref} (hr : t.nk ≤ r ∧ r < t.nins) (x : Record) :
    ∃ t', (write r x).run t = .ok () t' ∧ t'.Laid ∧ t'.view = t.view.setRecord r x := by
  obtain ⟨t', hrun, hlaid, hview⟩ := h.run_write_slot (h.covers.has h.nins_le hr.1 hr.2) x
  rw [if_pos hr] at hview
  exact ⟨t', hrun, hlaid, hview⟩

/-- Relinking through the head or through a live record relinks the view. -/
theorem run_relink (h : t.Laid) {links : Heads} {op : Opcode}
    (hlink : links.get op = Ref.none ∨ ∃ x, t.view.record (links.get op) = some x) (r : Ref) :
    ∃ t', (relink links op r).run t = .ok () t' ∧ t'.Laid ∧
      t'.view = t.view.relink (links.get op) op r := by
  rw [relink]
  by_cases hnone : links.get op = Ref.none
  · rw [if_pos hnone, hnone, View.relink_none]
    exact ⟨_, run_setHead .., h.of_view rfl rfl rfl rfl, rfl⟩
  · obtain ⟨x, hx⟩ := hlink.resolve_left hnone
    have hlive := (h.record_isSome_iff _).mp (Option.isSome_iff_exists.mpr ⟨x, hx⟩)
    rw [if_neg hnone, View.relink_of_record hnone hx]
    obtain ⟨t', hrun, hlaid, hview⟩ := h.run_write hlive { x with prev := r }
    refine ⟨t', ?_, hlaid, hview⟩
    rw [run_bind_of_ok (x := x) (by rw [record, run_ask, record?_eq_ok_iff.mpr hx])]
    exact hrun

end Trace.Laid

end TraceIR
