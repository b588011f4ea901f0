import TraceIR.Proofs.Guards
import TraceIR.Proofs.Lockstep

/-!
# Equal instructions

An instruction that depends on its operands alone is looked for before it is appended. The search
goes back to the newer operand, since nothing older can be equal. A literal takes part in this as if
it were a reference, so a large one ends the search too early.

* `Record.Does` and `Record.Repeats` — two instructions are equal: opcode, operands and tag agree.
* `Sound.run_emitShared` — the search finds what is equal and newer than both operands, and nothing
  else.
* `View.Frugal` — of two equal instructions the older one has an operand that is not older than
  itself. Every step of a script keeps that (`thrifty_carryOut`).
* `repeated_only_behind_literals` — so scripts repeat instructions only if a literal is in the way.
-/

namespace TraceIR

open Script

/-! ### Equal records -/

namespace Record

/-- The record does what an instruction with these parts does. Links and guards do not count. -/
structure Does (x : Record) (op : Opcode) (ty : Ty) (a b : Ref) : Prop where
  op : x.op = op
  left : x.left = a
  right : x.right = b
  tag : x.ty.tag = ty.tag

/-- The records do the same. -/
def Repeats (y x : Record) : Prop :=
  y.Does x.op x.ty x.left x.right

/-- A literal operand of the record satisfies the condition. -/
def HasLiteral (x : Record) (p : Ref → Prop) : Prop :=
  x.op.shape.left = .lit ∧ p x.left ∨ x.op.shape.right = .lit ∧ p x.right

end Record

/-- One of the operands is a literal. -/
def Opcode.TakesLiteral (op : Opcode) : Prop :=
  op.shape.left = .lit ∨ op.shape.right = .lit

/-- Operands are neither ordered nor compared if one is a literal. -/
private theorem Opcode.TakesLiteral.plain {op : Opcode} (h : op.TakesLiteral) :
    op.shape.commutative = false ∧ op.isComparison = false := by
  revert h
  unfold TakesLiteral
  cases op <;> decide

/-- Nothing that is newer than both operands does the same. -/
def View.Misses (v : View) (op : Opcode) (ty : Ty) (a b : Ref) : Prop :=
  ∀ {r x}, v.record r = some x → x.Does op ty a b → ¬ (a < r ∧ b < r)

/-! ### The search -/

namespace Trace

variable {t t' : Trace} {op : Opcode} {ty : Ty} {a b : Ref} {y : TRef} {f : Folder}

private theorem not_le_max_of_lt {r : Ref} (ha : a < r) (hb : b < r) : ¬ r ≤ max a b := by
  show ¬ r ≤ if a ≤ b then b else a
  split
  · exact UInt32.not_le.mpr hb
  · exact UInt32.not_le.mpr ha

/-- What the search asks of a record. -/
private theorem probe_eq_none_iff {r : Ref} {x : Record} :
    (if r ≤ max a b then some none
      else if x.left == a && x.right == b && x.ty.tag == ty.tag then some (some r)
      else none : Option (Option Ref)) = none ↔
      (a < r ∧ b < r) ∧ ¬ (x.left = a ∧ x.right = b ∧ x.ty.tag = ty.tag) := by
  by_cases hle : r ≤ max a b
  · rw [if_pos hle]
    refine iff_of_false (fun h => by cases h) fun h => not_le_max_of_lt h.1.1 h.1.2 hle
  · rw [if_neg hle]
    have hlt := lt_of_not_le_max hle
    by_cases hsame : x.left = a ∧ x.right = b ∧ x.ty.tag = ty.tag
    · rw [if_pos (by simp [hsame])]
      exact iff_of_false (fun h => by cases h) fun h => h.2 hsame
    · rw [if_neg (by simpa [and_assoc] using hsame)]
      exact iff_of_true rfl ⟨hlt, hsame⟩

/-- **The search** for an equal instruction answers with one that is newer than both operands, or
there is none and the instruction is appended. -/
theorem Sound.run_emitShared (h : t.Sound) (hop : op.isConst = false) (ty : Ty) (a b : Ref) :
    (∃ r x, t.view.record r = some x ∧ x.Does op ty a b ∧ a < r ∧ b < r ∧
        (emitShared op ty a b).run t = .ok (.of r ty) t) ∨
      t.view.Misses op ty a b ∧ (emitShared op ty a b).run t = (emitRaw op ty a b).run t := by
  obtain ⟨refs, hchain⟩ := h.wellFormed.chains op
  rw [emitShared, run_bind_of_ok (by rw [run_ask, h.laid.search_eq hchain])]
  -- every record of the opcode is in the chain
  have hmem : ∀ {r x}, t.view.record r = some x → x.op = op → r ∈ refs := by
    intro r x hx hxop
    refine (hchain.mem_iff r).mpr ⟨fun hfixed => ?_, x, hx, hxop⟩
    have hkind := h.wellFormed.kind hx
    rw [hxop, hop, Eq.comm, Ref.isConst_eq_false_iff] at hkind
    have hlt := (Ref.isFixed_iff.mp hfixed).2
    rw [UInt32.lt_iff_toNat_lt, Ref.toNat_base] at hlt
    omega
  generalize hfound : refs.findSome? _ = found
  cases found with
  | none =>
    -- the whole chain was asked in vain
    refine .inr ⟨fun {r x} hx hdoes hlt => ?_, rfl⟩
    have hprobe := List.findSome?_eq_none_iff.mp hfound r (hmem hx hdoes.op)
    rw [hx] at hprobe
    exact (probe_eq_none_iff.mp hprobe).2 ⟨hdoes.left, hdoes.right, hdoes.tag⟩
  | some answer =>
    obtain ⟨newer, q, older, hrefs, hq, hnewer⟩ := List.findSome?_eq_some_iff.mp hfound
    obtain ⟨x, hx, hprobe⟩ := Option.bind_eq_some_iff.mp hq
    obtain ⟨-, x', hx', hxop⟩ := (hchain.mem_iff q).mp (by rw [hrefs]; simp)
    obtain rfl := Option.some.inj (hx.symm.trans hx')
    by_cases hold : q ≤ max a b
    · rw [if_pos hold] at hprobe
      cases hprobe
      refine .inr ⟨fun {r z} hz hdoes hlt => ?_, rfl⟩
      -- the search has given up at `q`, and the chain descends from there
      have hr := hmem hz hdoes.op
      have hsorted := hchain.newer
      rw [hrefs] at hr hsorted
      rcases List.mem_append.mp hr with hr | hr
      · have hasked := hnewer r hr
        rw [hz] at hasked
        exact (probe_eq_none_iff.mp hasked).2 ⟨hdoes.left, hdoes.right, hdoes.tag⟩
      · have hle : r ≤ q := by
          rcases List.mem_cons.mp hr with rfl | hr
          · exact UInt32.le_rfl
          · have hnewest := (List.pairwise_append.mp hsorted).2.1
            exact UInt32.le_of_lt
              ((Opcode.newer_of_not_const hop).mp ((List.pairwise_cons.mp hnewest).1 r hr))
        exact not_le_max_of_lt hlt.1 hlt.2 (UInt32.le_trans hle hold)
    · rw [if_neg hold] at hprobe
      split at hprobe
      · next hsame =>
        cases hprobe
        simp only [Bool.and_eq_true, beq_iff_eq] at hsame
        obtain ⟨ha, hb⟩ := lt_of_not_le_max hold
        exact .inl ⟨q, x, hx, ⟨hxop, hsame.1.1, hsame.1.2, hsame.2⟩, ha, hb, rfl⟩
      · cases hprobe

/-! ### Emission with sharing -/

/-- The instruction is appended, and if it can be shared then there was nothing to share it with. -/
structure Appends (t : Trace) (op : Opcode) (ty : Ty) (a b : Ref) (t' : Trace) : Prop where
  view : t'.view = t.view.push { op, ty, left := a, right := b }
  misses : op.isNormal = true → t.view.Misses op ty a b

private theorem Laid.run_emitRaw_of_ok (h : t.Laid) (hrun : (emitRaw op ty a b).run t = .ok y t') :
    y.ref = t.nins ∧ t'.view = t.view.push { op, ty, left := a, right := b } := by
  by_cases hfull : t.InstructionsFull
  · rw [Trace.run_emitRaw, if_pos hfull] at hrun
    cases hrun
  · obtain ⟨t₁, hrun₁, -, hview⟩ := h.run_emitRaw hfull op ty a b
    rw [hrun₁] at hrun
    cases hrun
    exact ⟨TRef.ref_of (UInt32.le_of_lt (Laid.lt_limit_of_not_full hfull)) ty, hview⟩

private theorem Sound.appends_place (h : t.Sound) (hcse : f.cse = true) (hop : op.isConst = false)
    (hrun : (place f op ty a b).run t = .ok y t') : t' = t ∨ t.Appends op ty a b t' := by
  rw [place] at hrun
  by_cases hnormal : op.isNormal = true
  · rw [if_pos (by rw [hcse, hnormal]; rfl)] at hrun
    rcases h.run_emitShared hop ty a b with ⟨r, x, -, -, -, -, hfound⟩ | ⟨hmisses, hraw⟩
    · rw [hfound] at hrun
      cases hrun
      exact .inl rfl
    · rw [hraw] at hrun
      exact .inr ⟨(h.laid.run_emitRaw_of_ok hrun).2, fun _ => hmisses⟩
  · rw [if_neg fun hboth => hnormal (Bool.and_eq_true_iff.mp hboth).2] at hrun
    exact .inr ⟨(h.laid.run_emitRaw_of_ok hrun).2, fun hyes => absurd hyes hnormal⟩

private theorem Sound.appends_emitDecided (h : t.Sound) (hcse : f.cse = true)
    (hop : op.isConst = false) (hrun : (emitDecided f op ty a b).run t = .ok y t') :
    t' = t ∨ t.Appends op ty a b t' := by
  rw [emitDecided] at hrun
  split at hrun
  · rw [EStateM.run_bind, EStateM.run_get] at hrun
    dsimp only at hrun
    split at hrun
    · cases hrun
      exact .inl rfl
    · exact h.appends_place hcse hop hrun
    · cases hrun
  · exact h.appends_place hcse hop hrun

/-- **Emission with sharing** leaves the trace as it is, or appends what was missing. Operands may be
swapped first. -/
theorem Sound.appends_emit (h : t.Sound) (hfolder : t.folder = some f) (hcse : f.cse = true)
    (hop : op.isConst = false) (hrun : (emit op ty a b).run t = .ok y t') :
    t' = t ∨ t.Appends op ty a b t' ∨ op.shape.commutative = true ∧ t.Appends op ty b a t' := by
  rw [emit, EStateM.run_bind, EStateM.run_get] at hrun
  dsimp only at hrun
  rw [hfolder] at hrun
  dsimp only at hrun
  split at hrun
  · next hswap =>
    simp only [Bool.and_eq_true] at hswap
    rcases h.appends_emitDecided hcse hop hrun with hsame | happends
    · exact .inl hsame
    · exact .inr (.inr ⟨hswap.1.2, happends⟩)
  · rcases h.appends_emitDecided hcse hop hrun with hsame | happends
    · exact .inl hsame
    · exact .inr (.inl happends)

/-- An equal instruction is there, newer than both operands, and the folder shares it. -/
structure CanShare (t : Trace) (op : Opcode) (ty : Ty) (a b : Ref) : Prop where
  shares : ∃ f, t.folder = some f ∧ f.cse = true
  equal : ∃ r x, t.record? r = .ok x ∧ x.Does op ty a b ∧ a < r ∧ b < r

/-- An instruction that depends on its operands alone is shared if it can be, and otherwise
appended. -/
theorem Sound.run_place (h : t.Sound) (hfolder : t.folder = some f) (hnormal : op.isNormal = true)
    (hop : op.isConst = false) (ty : Ty) (a b : Ref) :
    t.CanShare op ty a b ∧ (∃ r x, t.record? r = .ok x ∧ x.op = op ∧
        (place f op ty a b).run t = .ok (.of r ty) t) ∨
      ¬ t.CanShare op ty a b ∧ (place f op ty a b).run t = (emitRaw op ty a b).run t := by
  rw [place]
  by_cases hcse : f.cse = true
  · rw [if_pos (by rw [hcse, hnormal]; rfl)]
    rcases h.run_emitShared hop ty a b with ⟨r, x, hx, hdoes, ha, hb, hrun⟩ | ⟨hmisses, hrun⟩
    · have hx' := record?_eq_ok_iff.mpr hx
      exact .inl ⟨⟨⟨f, hfolder, hcse⟩, r, x, hx', hdoes, ha, hb⟩, r, x, hx', hdoes.op, hrun⟩
    · refine .inr ⟨?_, hrun⟩
      rintro ⟨-, r, x, hx, hdoes, hlt⟩
      exact hmisses (record?_eq_ok_iff.mp hx) hdoes hlt
  · rw [if_neg fun hboth => hcse (Bool.and_eq_true_iff.mp hboth).1]
    refine .inr ⟨?_, rfl⟩
    rintro ⟨⟨f', hfolder', hcse'⟩, -⟩
    obtain rfl := Option.some.inj (hfolder.symm.trans hfolder')
    exact hcse hcse'

/-- Where there is nothing to order and to decide, an instruction goes straight to its place. -/
theorem run_emit_of_plain (hfolder : t.folder = some f) (hcommutes : op.shape.commutative = false)
    (hcompares : op.isComparison = false) :
    (emit op ty a b).run t = (place f op ty a b).run t := by
  rw [emit, EStateM.run_bind, EStateM.run_get]
  dsimp only
  rw [hfolder]
  dsimp only
  rw [hcommutes, Bool.and_false, Bool.false_and, if_neg Bool.false_ne_true, emitDecided, hcompares,
    Bool.and_false, Bool.false_and, Bool.false_and, if_neg Bool.false_ne_true]

/-- With a literal there is only the search. -/
private theorem run_emit_of_literal (hfolder : t.folder = some f) (hcse : f.cse = true)
    (hnormal : op.isNormal = true) (hliteral : op.TakesLiteral) :
    (emit op ty a b).run t = (emitShared op ty a b).run t := by
  obtain ⟨hcommutes, hcompares⟩ := hliteral.plain
  rw [run_emit_of_plain hfolder hcommutes hcompares, place, hcse, hnormal, Bool.and_true, if_pos rfl]

end Trace

/-! ### Frugal views -/

/-- Of two equal instructions that could be shared the older one has an operand that is not older
than itself, and operands that are not there are none. -/
structure View.Frugal (v : View) : Prop where
  repeated : ∀ {r s x y}, Ref.base ≤ r → r < s → v.record r = some x → v.record s = some y →
    x.op.isNormal = true → y.Repeats x → ¬ (x.left < r ∧ x.right < r)
  omits : ∀ {r x}, Ref.base ≤ r → v.record r = some x → x.op.Omits x.left x.right

namespace View.Frugal

variable {v v' : View} {x : Record}

private theorem initial (config : Config) (pool : Pool) (folder : Option Folder) :
    (View.initial config pool folder).Frugal where
  repeated {r s x y} hbase hlt hx hy _ _ := by
    -- there is one instruction only
    have hone : ∀ {q z}, Ref.base ≤ q → initialRecord q = some z → q = Ref.base := by
      intro q z hq hz
      rcases initialRecord_eq_some hz with ⟨rfl, -⟩ | ⟨hfixed, -⟩
      · rfl
      · exact absurd (Ref.isFixed_iff.mp hfixed).2 (UInt32.not_lt.mpr hq)
    have hr := hone hbase hx
    have hs := hone (UInt32.le_trans hbase (UInt32.le_of_lt hlt)) hy
    rw [hr, hs] at hlt
    exact absurd hlt (UInt32.lt_irrefl _)
  omits {r x} hbase hx := by
    rcases initialRecord_eq_some hx with ⟨-, rfl⟩ | ⟨hfixed, -⟩
    · exact ⟨fun _ => rfl, fun _ => rfl⟩
    · exact absurd (Ref.isFixed_iff.mp hfixed).2 (UInt32.not_lt.mpr hbase)

/-- Only instructions count, and none of them is new. -/
private theorem of_instructions (h : v.Frugal)
    (hrecord : ∀ {r x}, Ref.base ≤ r → v'.record r = some x → v.record r = some x) :
    v'.Frugal where
  repeated hbase hlt hx hy :=
    h.repeated hbase hlt (hrecord hbase hx)
      (hrecord (UInt32.le_trans hbase (UInt32.le_of_lt hlt)) hy)
  omits hbase hx := h.omits hbase (hrecord hbase hx)

/-- What was missing enters. -/
private theorem push (h : v.Frugal) (hv : v.WellFormed) (homits : x.op.Omits x.left x.right)
    (hmisses : x.op.isNormal = true → v.Misses x.op x.ty x.left x.right) : (v.push x).Frugal where
  repeated {r s z w} hbase hlt hz hw hnormal hrepeats := by
    have hlive : ∀ {q u}, v.record q = some u → q < v.nins := fun hu =>
      ((hv.live_iff _).mp ⟨_, hu⟩).2
    rcases record_push_cases hz with ⟨rfl, -⟩ | hz
    · -- nothing is newer than the new instruction
      rcases record_push_cases hw with ⟨rfl, -⟩ | hw
      · exact absurd hlt (UInt32.lt_irrefl _)
      · exact absurd (UInt32.lt_trans hlt (hlive hw)) (UInt32.lt_irrefl _)
    · rcases record_push_cases hw with ⟨-, rfl⟩ | hw
      · -- the older one was there when the new one was looked for
        obtain ⟨hop, hleft, hright, htag⟩ := hrepeats
        change x.op = z.op at hop
        change x.left = z.left at hleft
        change x.right = z.right at hright
        change x.ty.tag = z.ty.tag at htag
        rw [← hleft, ← hright]
        exact hmisses (hop ▸ hnormal) hz ⟨hop.symm, hleft.symm, hright.symm, htag.symm⟩
      · exact h.repeated hbase hlt hz hw hnormal hrepeats
  omits hbase hz := by
    rcases record_push_cases hz with ⟨-, rfl⟩ | hz
    · exact homits
    · exact h.omits hbase hz

end View.Frugal

/-! ### Steps keep a trace frugal -/

namespace Trace

/-- Equal instructions are shared, and the trace is frugal. -/
structure Thrifty (t : Trace) : Prop where
  sound : t.Sound
  shares : ∃ f, t.folder = some f ∧ f.cse = true
  frugal : t.view.Frugal

variable {t t' : Trace} {y : TRef}

/-- Two runs that are the same, as long as they succeed. -/
private theorem lockstep_thrifty_iff {α : Type} {a : Action α} :
    Lockstep (fun t u => u = t ∧ t.Thrifty) (fun _ => True) a ↔
      ∀ {t x t'}, t.Thrifty → a.run t = .ok x t' → t'.Thrifty := by
  constructor
  · intro h t x t' ht hrun
    have hmatch := h t t ⟨rfl, ht⟩
    rw [hrun] at hmatch
    cases hmatch with
    | ok h' => exact h'.2
  · rintro h t u ⟨rfl, ht⟩
    cases hrun : a.run u with
    | ok x t' => exact .ok ⟨rfl, h ht hrun⟩
    | error e t' => exact .left True.intro

namespace Thrifty

private theorem emit (h : t.Thrifty) {op : Opcode} {ty : Ty} {a b : Ref} (hop : op.isConst = false)
    (homits : op.Omits a b) (hrun : (emit op ty a b).run t = .ok y t') : t'.Thrifty := by
  obtain ⟨f, hfolder, hcse⟩ := h.shares
  have hsound : t'.Sound := after_of_ok hrun ▸ h.sound.grows (grows_emit t hop ty a b)
  -- whichever way round, the instruction was missing
  have hpush : ∀ {a b : Ref}, op.Omits a b → t.Appends op ty a b t' → t'.Thrifty := by
    intro a b homits happends
    refine ⟨hsound, ⟨f, ?_, hcse⟩, ?_⟩
    · exact (congrArg View.folder happends.view).trans hfolder
    · rw [happends.view]
      exact h.frugal.push h.sound.wellFormed homits happends.misses
  rcases h.sound.appends_emit hfolder hcse hop hrun with rfl | happends | ⟨hcommutes, happends⟩
  · exact h
  · exact hpush homits happends
  · obtain ⟨hleft, hright⟩ := Opcode.shape_of_commutative hcommutes
    refine hpush (.pair ?_ ?_ b a) happends
    · rw [hleft]
      decide
    · rw [hright]
      decide

/-- A constant that enters stands below all instructions. -/
private theorem intern (h : t.Thrifty) {same : Record → Bool} {ty : Ty} {x : Record}
    (hop : x.op.isConst = true) (hrun : (intern same ty x).run t = .ok y t') : t'.Thrifty := by
  have hsound : t'.Sound := after_of_ok hrun ▸ h.sound.grows (grows_intern t same ty hop)
  obtain ⟨refs, hchain⟩ := h.sound.wellFormed.chains x.op
  rcases h.sound.run_intern hchain hrun with ⟨r, -, -, rfl⟩ | ⟨-, hone, -, -, hview⟩
  · exact h
  · refine ⟨hsound, ?_, h.frugal.of_instructions fun {r z} hbase hz => ?_⟩
    · have hfolder : t'.folder = t.folder := congrArg View.folder hview
      rw [hfolder]
      exact h.shares
    · rw [hview] at hz
      rcases View.record_pushConstant_cases hz with ⟨rfl, -⟩ | hz
      · have hnk := h.sound.laid.nk_le
        change Ref.base ≤ t.nk - 1 at hbase
        grind
      · exact hz

private theorem constant (h : t.Thrifty) (k : Constant) (hrun : k.intern.run t = .ok y t') :
    t'.Thrifty := by
  cases k.asks with
  | absurd b hbroken =>
    rw [hbroken] at hrun
    cases hrun
  | known hintern hop _ _ =>
    rw [hintern] at hrun
    exact h.intern hop hrun
  | @number n hintern =>
    rw [hintern] at hrun
    -- the number gets its slot first
    have h' : Thrifty { t with pool := (t.pool.find n).2 } :=
      ⟨⟨h.sound.laid.of_view rfl rfl rfl rfl, h.sound.wellFormed.of_eq rfl rfl rfl rfl⟩, h.shares,
        h.frugal.of_instructions fun _ hz => hz⟩
    exact h'.intern rfl hrun

private theorem coerce (h : t.Thrifty) (c : Coercion) (x : TRef)
    (hrun : (coerce c x).run t = .ok y t') :
    t'.Thrifty := by
  refine lockstep_thrifty_iff.mp (.coerce (fun hop homits => ?_) (fun k => ?_) c x) h hrun
  · exact lockstep_thrifty_iff.mpr fun ht hrun => ht.emit hop homits hrun
  · exact lockstep_thrifty_iff.mpr fun ht hrun => ht.constant k hrun

/-- Going back takes instructions away and leaves the rest. -/
private theorem rollback (h : t.Thrifty) {cp : Checkpoint}
    (hrun : (rollback cp).run t = .ok () t') :
    t'.Thrifty := by
  have hsound : t'.Sound := after_of_ok hrun ▸ h.sound.step (.rollback cp)
  obtain ⟨hcp, -, hview⟩ := h.sound.laid.of_run_rollback hrun
  have hcut := h.sound.wellFormed.cut_rollback (accepts_iff.mp hcp.1).1
  rw [← hview] at hcut
  refine ⟨hsound, ?_, h.frugal.of_instructions fun {r x} _ hx => ?_⟩
  · have hfolder : t'.folder = t.folder := hcut.folder
    rw [hfolder]
    exact h.shares
  · obtain ⟨hlow, hhigh⟩ := (hsound.wellFormed.live_iff r).mp ⟨x, hx⟩
    rw [hcut.nk] at hlow
    rw [hcut.nins] at hhigh
    rw [hcut.record r hlow hhigh] at hx
    exact hx

private theorem setup (h : t.Thrifty) (hrun : setup.run t = .ok () t') : t'.Thrifty := by
  have hsound : t'.Sound := after_of_ok hrun ▸ h.sound.step .setup
  obtain ⟨t₁, hrun₁, -, hview⟩ := h.sound.laid.run_setup
  rw [hrun] at hrun₁
  cases hrun₁
  refine ⟨hsound, ?_, hview ▸ View.Frugal.initial ..⟩
  have hfolder : t'.folder = t.folder := congrArg View.folder hview
  rw [hfolder]
  exact h.shares

end Thrifty

end Trace

/-! ### Scripts -/

namespace Script.Builder

variable {b b' : Builder} {s : Statement} {o : Order} {y : TRef}

private theorem none_of_operand {op : Opcode} {i : Nat} {kind : OperandKind} {args args' : Operands}
    {r : Ref} (hr : b.operand op i kind args = .ok (r, args')) (hkind : kind = .absent) :
    r = Ref.none := by
  subst hkind
  rw [operand] at hr
  cases hr
  rfl

private theorem omits_instruction {op : Opcode} {ty : Ty} {left right : Ref}
    (h : b.instruction op s = .ok (ty, left, right)) : op.Omits left right := by
  rw [instruction] at h
  split at h
  · cases h
  · obtain ⟨⟨left, args⟩, hleft, h⟩ := exists_of_bind h
    obtain ⟨⟨right, args'⟩, hright, h⟩ := exists_of_bind h
    dsimp only at h
    split at h
    · cases h
    · obtain ⟨ty, -, h⟩ := exists_of_bind h
      cases h
      exact ⟨none_of_operand hleft, none_of_operand hright⟩

/-- Instructions are ordered by statements that name an opcode, and by no others. -/
private theorem instruction_of_order {op : Opcode} {ty : Ty} {left right : Ref}
    (h : b.order s = .ok (.emit op ty left right)) :
    b.instruction op s = .ok (ty, left, right) := by
  rcases order_cases h with ⟨w, -, hreads⟩ | ⟨-, op', ty', left', right', -, hi, ho⟩
  · cases hreads
  · cases ho
    exact hi

/-- **Carrying out an order** keeps the trace thrifty. -/
theorem thrifty_carryOut (h : b.trace.Thrifty) (hb : b.Healthy) (ho : b.order s = .ok o)
    (hrun : (carryOut o).run b = .ok y b') : b'.trace.Thrifty := by
  replace hrun := (run_carryOut_eq_ok hrun).1
  cases o with
  | constant k => exact h.constant k hrun
  | fixed ty =>
    have hsame := Trace.after_of_ok hrun
    rw [Order.action, Trace.after_ask] at hsame
    exact hsame ▸ h
  | emit op ty left right =>
    have hop := (hb.isFit_order ho).1.1
    exact h.emit hop (omits_instruction (instruction_of_order ho)) hrun
  | coerce c x => exact h.coerce c x hrun
  | checkpoint n =>
    injection hrun with _ htrace
    exact htrace ▸ h
  | rollback cp =>
    obtain ⟨u, t, hback, hrun⟩ := Trace.exists_of_run_bind hrun
    injection hrun with _ htrace
    exact htrace ▸ h.rollback hback
  | snapshot refs =>
    obtain ⟨u, t, hsnapshot, hrun⟩ := Trace.exists_of_run_bind hrun
    injection hrun with _ htrace
    have hsound := h.sound.step (.addSnapshot refs)
    rw [Trace.step, Trace.after_of_ok hsnapshot, htrace] at hsound
    injection hsnapshot with _ hsnapshots
    rw [← htrace, ← hsnapshots] at hsound ⊢
    exact ⟨hsound, h.shares, h.frugal.of_instructions fun _ hx => hx⟩
  | reset =>
    obtain ⟨u, t, hreset, hrun⟩ := Trace.exists_of_run_bind hrun
    injection hrun with _ htrace
    exact htrace ▸ h.setup hreset

private theorem thrifty_startTrace {t : Trace} (h : startTrace {} = .ok t) : t.Thrifty := by
  have hhealthy := (Healthy.of_startTrace h).trace
  rw [startTrace] at h
  split at h
  · next t₀ hstart =>
    cases h
    obtain ⟨-, hview⟩ := Trace.start_eq_ok hstart
    have hconfig : t₀.config = ({} : Config).normalize := congrArg View.config hview
    have hfrugal : t₀.view.Frugal := hview ▸ .initial ..
    refine ⟨hhealthy.sound, ⟨_, rfl, ?_⟩, hfrugal.of_instructions fun _ hx => hx⟩
    rw [hconfig]
    rfl
  · cases h

/-- **Every state that a script reaches** is thrifty. -/
theorem ReachedBy.thrifty {script : List Statement} (h : b.ReachedBy script) :
    b.trace.Thrifty := by
  -- from the end, since the state is that after the last statement
  induction script using List.reverseRecOn generalizing b with
  | nil =>
    obtain ⟨t, ht, hrun⟩ := h
    cases hrun
    exact thrifty_startTrace ht
  | append_singleton ss s ih =>
    obtain ⟨b₀, hb₀, hstep⟩ := reachedBy_concat.mp h
    obtain ⟨-, -, o, y, b₁, ho, hcarry, htrace⟩ := (hb₀.healthy.step s).post hstep
    rw [htrace]
    exact thrifty_carryOut (ih hb₀) hb₀.healthy ho hcarry

end Script.Builder

/-- Instructions keep no values beside their operands. -/
private theorem Opcode.shape_of_not_const {op : Opcode} (h : op.isConst = false) :
    op.shape.left ≠ .const ∧ op.shape.right ≠ .const := by
  revert h
  cases op <;> decide

/-- Only a literal can be as high as the instruction that has it. -/
private theorem Trace.Healthy.older_iff {t : Trace} (h : t.Healthy) (hfrugal : t.view.Frugal)
    {r : Ref} {x : Record} (hbase : Ref.base ≤ r) (hx : t.view.record r = some x) :
    x.left < r ∧ x.right < r ↔ ¬ x.HasLiteral (r ≤ ·) := by
  have hpos : Ref.none < r := UInt32.lt_of_lt_of_le (by decide) hbase
  have hop : x.op.isConst = false := by
    rw [h.sound.wellFormed.kind hx]
    exact isConst_eq_false_of_le hbase
  obtain ⟨hleft, hright⟩ := Opcode.shape_of_not_const hop
  have homits := hfrugal.omits hbase hx
  -- a reference names a constant or something older
  have hrefers : ∀ {q}, x.RefersTo q → q < r := by
    intro q hq
    by_cases hconst : q.isConst = true
    · exact UInt32.lt_of_lt_of_le (of_decide_eq_true hconst) hbase
    · exact h.tidy.older hbase hx ⟨Bool.eq_false_iff.mpr hconst, hq⟩
  constructor
  · rintro ⟨hl, hr⟩ (⟨-, hle⟩ | ⟨-, hle⟩)
    · exact UInt32.not_lt.mpr hle hl
    · exact UInt32.not_lt.mpr hle hr
  · intro hnone
    constructor
    · cases hkind : x.op.shape.left with
      | ref => exact hrefers (.inl ⟨hkind, rfl⟩)
      | lit => exact UInt32.not_le.mp fun hle => hnone (.inl ⟨hkind, hle⟩)
      | const => exact absurd hkind hleft
      | absent => exact (homits.left hkind).symm ▸ hpos
    · cases hkind : x.op.shape.right with
      | ref => exact hrefers (.inr ⟨hkind, rfl⟩)
      | lit => exact UInt32.not_le.mp fun hle => hnone (.inr ⟨hkind, hle⟩)
      | const => exact absurd hkind hright
      | absent => exact (homits.right hkind).symm ▸ hpos

namespace Script.Builder

/-- At `b` a statement of the script asks for the instruction. -/
def AsksFor (b : Builder) (script : List Statement) (op : Opcode) (ty : Ty) (left right : Ref) :
    Prop :=
  ∃ pre s post, script = pre ++ s :: post ∧ b.ReachedBy pre ∧
    b.order s = .ok (.emit op ty left right)

variable {b b' : Builder} {script : List Statement} {op : Opcode} {ty : Ty} {left right : Ref}

/-- A script that goes on past the statement has had its instruction emitted. -/
private theorem AsksFor.exists_emit (h : b.AsksFor script op ty left right)
    (hb' : b'.ReachedBy script) :
    ∃ y t', (Trace.emit op ty left right).run b.trace = .ok y t' ∧ b.trace.Healthy ∧
      b.trace.Thrifty ∧ op.isConst = false := by
  obtain ⟨pre, s, post, rfl, hb, ho⟩ := h
  obtain ⟨b₀, hb₀, hrun⟩ := reachedBy_append.mp hb'
  obtain rfl := hb₀.unique hb
  obtain ⟨b₁, hstep, -⟩ := run_cons_eq_ok.mp hrun
  obtain ⟨-, -, o, y, b₂, ho', hcarry, -⟩ := (hb.healthy.step s).post hstep
  rw [ho] at ho'
  cases ho'
  exact ⟨y, b₂.trace, (run_record_eq_ok hcarry).1, hb.healthy.trace, hb.thrifty,
    (hb.healthy.isFit_order ho).1.1⟩

/-- The instruction that the last statement of a source asks for. -/
def lastAsked? (text : Bytes) : Option (Opcode × Ty × Ref × Ref) := do
  let p ← (parseFile [] text).tree?
  let s ← p.statements.getLast?
  let b ← reach? p.statements.dropLast
  match b.order s with
  | .ok (.emit op ty left right) => some (op, ty, left, right)
  | _ => none

private theorem exists_of_lastAsked? {text : Bytes}
    (h : lastAsked? text = some (op, ty, left, right)) :
    ∃ p b, parseFile [] text = .tree p ∧ AsksFor b p.statements op ty left right := by
  obtain ⟨p, hp, h⟩ := Option.bind_eq_some_iff.mp h
  obtain ⟨s, hs, h⟩ := Option.bind_eq_some_iff.mp h
  obtain ⟨b, hb, h⟩ := Option.bind_eq_some_iff.mp h
  refine ⟨p, b, Parsed.of_tree? hp, _, s, [], (List.dropLast_append_getLast? s hs).symm,
    reach?_eq_some_iff.mp hb, ?_⟩
  split at h
  · next ho =>
    cases h
    exact ho
  · cases h

end Script.Builder

/-- A record of the trace that is built from a source. -/
def builtRecord? (text : Bytes) (r : Ref) : Option Record := do
  let t ← (build {} [] text).toOption
  (t.record? r).toOption

private theorem exists_of_builtRecord? {text : Bytes} {r : Ref} {x : Record}
    (h : builtRecord? text r = some x) :
    ∃ t, build {} [] text = .ok t ∧ t.record? r = .ok x := by
  obtain ⟨t, ht, h⟩ := Option.bind_eq_some_iff.mp h
  exact ⟨t, toOption_eq_some_iff.mp ht, toOption_eq_some_iff.mp h⟩

namespace Trace

variable {t t' : Trace} {op : Opcode} {ty : Ty} {a b : Ref} {y : TRef}

/-- **An instruction with a literal** is appended exactly if all equal ones stand at or below their
literal. -/
theorem Thrifty.ref_eq_nins_iff (h : t.Thrifty) (ht : t.Healthy) (hop : op.isConst = false)
    (hnormal : op.isNormal = true) (hliteral : op.TakesLiteral)
    (hrun : (Trace.emit op ty a b).run t = .ok y t') :
    y.ref = t.nins ↔
      ∀ r x, t.record? r = .ok x → x.Does op ty a b → x.HasLiteral (r ≤ ·) := by
  obtain ⟨f, hfolder, hcse⟩ := h.shares
  have hbase : ∀ {r x}, t.view.record r = some x → x.op = op → Ref.base ≤ r := by
    intro r x hx hxop
    have hkind := h.sound.wellFormed.kind hx
    rw [hxop, hop] at hkind
    exact base_le_of_not_const hkind.symm
  rw [run_emit_of_literal hfolder hcse hnormal hliteral] at hrun
  rcases h.sound.run_emitShared hop ty a b with ⟨r, x, hx, hdoes, ha, hb, hfound⟩ | ⟨hmisses, hraw⟩
  · -- something equal is found, above its literal
    rw [hfound] at hrun
    cases hrun
    have hlive := (h.sound.wellFormed.live_iff r).mp ⟨x, hx⟩
    rw [ht.ref_of hlive]
    refine iff_of_false (fun heq => ?_) fun hall => ?_
    · exact absurd (heq ▸ hlive.2) (UInt32.lt_irrefl _)
    · have holder := (ht.older_iff h.frugal (hbase hx hdoes.op) hx).mp
        (by rw [hdoes.left, hdoes.right]; exact ⟨ha, hb⟩)
      exact holder (hall r x (record?_eq_ok_iff.mpr hx) hdoes)
  · -- nothing is found, so the search passed by all that is equal
    rw [hraw] at hrun
    refine iff_of_true (h.sound.laid.run_emitRaw_of_ok hrun).1 fun r x hx hdoes => ?_
    rw [record?_eq_ok_iff] at hx
    by_contra hnone
    have holder := (ht.older_iff h.frugal (hbase hx hdoes.op) hx).mpr hnone
    rw [hdoes.left, hdoes.right] at holder
    exact hmisses hx hdoes holder

end Trace

/-- **Equal instructions.** Where a built trace holds two equal instructions that could be shared, a
literal of theirs is as high as the older one, or higher. An instruction with a literal that a
script asks for is appended exactly if all equal ones stand at or below their literal. -/
theorem repeated_only_behind_literals {name text : Bytes} {t : Trace}
    (hbuild : build {} name text = .ok t) :
    (∀ r s x y, Ref.base ≤ r → r < s → t.record? r = .ok x → t.record? s = .ok y →
      x.op.isNormal = true → y.Repeats x → x.HasLiteral (r ≤ ·)) ∧
    ∀ p (b : Builder) op ty left right, parseFile name text = .tree p →
      b.AsksFor p.statements op ty left right → op.isNormal = true → op.TakesLiteral →
      ∃ y t', (Trace.emit op ty left right).run b.trace = .ok y t' ∧
        (y.ref = b.trace.nins ↔ ∀ r x, b.trace.record? r = .ok x → x.Does op ty left right →
          x.HasLiteral (r ≤ ·)) := by
  obtain ⟨p, b', hparse, hb', rfl⟩ := Builder.build_eq_ok_iff.mp hbuild
  have hfrugal := hb'.thrifty.frugal
  refine ⟨fun r s x y hbase hlt hx hy hnormal hrepeats => ?_,
    fun p' b op ty left right hparse' hasks hnormal hliteral => ?_⟩
  · rw [Trace.record?_eq_ok_iff] at hx hy
    by_contra hnone
    -- without such a literal the older one is newer than its operands, and it would have been found
    have holder := (hb'.healthy.trace.older_iff hfrugal hbase hx).mpr hnone
    exact hfrugal.repeated hbase hlt hx hy hnormal hrepeats holder
  · rw [hparse] at hparse'
    cases hparse'
    obtain ⟨y, t', hrun, hhealthy, hthrifty, hop⟩ := hasks.exists_emit hb'
    exact ⟨y, t', hrun, hthrifty.ref_eq_nins_iff hhealthy hop hnormal hliteral hrun⟩

/-- A number that is rounded twice in the same way. The literal is above all references. -/
def roundedTwice : Bytes :=
  Bytes.ascii "x = SLOAD.num! #1 #0\na = FPMATH x #40000\nb = FPMATH x #40000\n"

/-- What both roundings are, up to links. -/
def rounding (prev : Ref) : Record :=
  { op := .fpmath, ty := .num, left := Ref.first, right := 40000, prev }

private theorem exists_build_roundedTwice :
    ∃ t, build {} [] roundedTwice = .ok t ∧ t.record? 0x8002 = .ok (rounding Ref.none) ∧
      t.record? 0x8003 = .ok (rounding 0x8002) := by
  have hfirst : builtRecord? roundedTwice 0x8002 = some (rounding Ref.none) := by decide +kernel
  have hsecond : builtRecord? roundedTwice 0x8003 = some (rounding 0x8002) := by decide +kernel
  obtain ⟨t, hbuild, hx⟩ := exists_of_builtRecord? hfirst
  obtain ⟨t', hbuild', hy⟩ := exists_of_builtRecord? hsecond
  rw [hbuild] at hbuild'
  cases hbuild'
  exact ⟨t, hbuild, hx, hy⟩

theorem repeated_behind_literal_of_roundedTwice :
    ∃ t p b, build {} [] roundedTwice = .ok t ∧ parseFile [] roundedTwice = .tree p ∧
      Builder.AsksFor b p.statements .fpmath .num Ref.first 40000 ∧
      (∃ x y, t.record? 0x8002 = .ok x ∧ t.record? 0x8003 = .ok y ∧ x.op.isNormal = true ∧
        y.Repeats x ∧ x.HasLiteral (0x8002 ≤ ·)) ∧
      ∃ z t', (Trace.emit .fpmath .num Ref.first 40000).run b.trace = .ok z t' ∧
        (z.ref = b.trace.nins ↔ ∀ r x, b.trace.record? r = .ok x →
          x.Does .fpmath .num Ref.first 40000 → x.HasLiteral (r ≤ ·)) := by
  obtain ⟨t, hbuild, hx, hy⟩ := exists_build_roundedTwice
  have hlast : Builder.lastAsked? roundedTwice = some (.fpmath, .num, Ref.first, 40000) := by
    decide +kernel
  obtain ⟨p, b, hparse, hasks⟩ := Builder.exists_of_lastAsked? hlast
  obtain ⟨hrepeated, happended⟩ := repeated_only_behind_literals hbuild
  have hrepeats : (rounding 0x8002).Repeats (rounding Ref.none) := ⟨rfl, rfl, rfl, rfl⟩
  have hliteral := hrepeated 0x8002 0x8003 _ _ (by decide) (by decide) hx hy rfl hrepeats
  exact ⟨t, p, b, hbuild, hparse, hasks, ⟨_, _, hx, hy, rfl, hrepeats, hliteral⟩,
    happended p b _ _ _ _ hparse hasks rfl (.inr rfl)⟩

/-- The trace of two equal roundings holds both. -/
theorem roundedTwice_holds_equal_instructions :
    ∃ t r s x y, build {} [] roundedTwice = .ok t ∧ Ref.base ≤ r ∧ r < s ∧
      t.record? r = .ok x ∧ t.record? s = .ok y ∧ x.op.isNormal = true ∧ y.op = x.op ∧
      y.left = x.left ∧ y.right = x.right ∧ y.ty.tag = x.ty.tag := by
  obtain ⟨t, hbuild, hx, hy⟩ := exists_build_roundedTwice
  exact ⟨t, 0x8002, 0x8003, _, _, hbuild, by decide, by decide, hx, hy, rfl, rfl, rfl, rfl, rfl⟩

end TraceIR
