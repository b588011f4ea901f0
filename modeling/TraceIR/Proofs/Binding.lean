import TraceIR.Proofs.History

/-!
# What a rollback forgets

A statement that has a result binds its name to it. A rollback looks at nothing but the references
behind the names: it forgets those that lie outside the range the trace had at the checkpoint. A
name that was bound since then to something older is not forgotten.

* `Names.Distinct` — a table has one entry for each name, so what is retained can be told name by
  name (`Names.Distinct.get?_retain`).
* `Statement.boundName?` — the name that a statement binds, as it can be told from its words.
  `Healthy.names_of_step` says what a statement does to the names, and that there is nothing else.
* `BoundBy` — a statement of a script is the last that binds a name.
* `Excursion.names_iff` — the names after a return are those before it that stand for something
  which was there at the checkpoint.
* `Excursion.forgets_iff_not_live` — what a rollback forgets of the names bound since its
  checkpoint, and that what it forgets stays unknown until it is bound again.
-/

namespace TraceIR.Script

/-! ### Tables -/

namespace Names

variable {α : Type} {t : Names α} {name : Bytes} {a : α}

/-- Every name has one entry. -/
def Distinct (t : Names α) : Prop :=
  (t.entries.map Prod.fst).Nodup

private theorem distinct_empty : (empty : Names α).Distinct :=
  List.nodup_nil

private theorem Distinct.retain (h : t.Distinct) (keep : α → Bool) : (t.retain keep).Distinct :=
  h.sublist (List.filter_sublist.map Prod.fst)

private theorem Distinct.insert (h : t.Distinct) (name : Bytes) (a : α) :
    (t.insert name a).Distinct := by
  unfold Distinct Names.insert
  rw [List.map_cons, List.nodup_cons]
  refine ⟨?_, h.sublist (List.filter_sublist.map Prod.fst)⟩
  -- the old entry of the name is taken out first
  intro hmem
  obtain ⟨e, he, heq⟩ := List.mem_map.mp hmem
  have hne := (List.mem_filter.mp he).2
  rw [heq, bne_self_eq_false] at hne
  cases hne

private theorem Distinct.get?_eq_some_iff (h : t.Distinct) :
    t.get? name = some a ↔ (name, a) ∈ t.entries := by
  constructor
  · intro hget
    obtain ⟨l₁, l₂, hentries, -⟩ := List.lookup_eq_some_iff.mp hget
    rw [hentries]
    exact List.mem_append_right _ List.mem_cons_self
  · intro hmem
    obtain ⟨entries⟩ := t
    change entries.lookup name = some a
    induction entries with
    | nil => exact absurd hmem List.not_mem_nil
    | cons e es ih =>
      obtain ⟨hkey, hes⟩ := List.nodup_cons.mp h
      rcases List.mem_cons.mp hmem with rfl | hmem
      · exact List.lookup_cons_self
      · -- the first entry is of another name
        have hne : (name == e.1) = false := by
          refine beq_false_of_ne ?_
          rintro rfl
          exact hkey (List.mem_map.mpr ⟨_, hmem, rfl⟩)
        rw [List.lookup_cons, hne]
        exact ih hes hmem

/-- **What is retained** of a table is told name by name. -/
theorem Distinct.get?_retain (h : t.Distinct) (keep : α → Bool) (name : Bytes) :
    (t.retain keep).get? name = (t.get? name).filter keep := by
  -- what a table holds under a name is a matter of its entries, and so is what is retained
  ext a
  rw [(h.retain keep).get?_eq_some_iff, Option.filter_eq_some_iff, h.get?_eq_some_iff]
  exact List.mem_filter

end Names

/-! ### Statements that bind -/

/-- Has a statement of this kind no result? -/
def Verb.isSilent : Verb → Bool
  | .checkpoint | .rollback | .snap | .reset => true
  | _ => false

private theorem Verb.isSilent_of_isSpelled {w : Verb} (h : w.isSpelled = true) :
    w.isSilent = false := by
  cases w <;> first | rfl | cases h

/-- The name that the statement binds. -/
def Statement.boundName? (s : Statement) : Option Bytes :=
  if (Verb.ofName? s.op.text).any Verb.isSilent then none else s.name.map (·.text)

/-- `s` is the last statement of the script that binds the name. -/
structure BoundBy (script : List Statement) (name : Bytes) (pre : List Statement) (s : Statement)
    (post : List Statement) : Prop where
  split : script = pre ++ s :: post
  binds : s.boundName? = some name
  last : ∀ s' ∈ post, s'.boundName? ≠ some name

/-- The arguments that a statement reads as values which is no instruction. -/
def Verb.valueArgs (v : Verb) (args : List Arg) : List Arg :=
  match v with
  | .coerce _ | .snap => args
  | .kslot => args.take 1
  | _ => []

private theorem Verb.valueArgs_of_isSpelled {w : Verb} (h : w.isSpelled = true) (args : List Arg) :
    w.valueArgs args = [] := by
  cases w <;> first | rfl | cases h

/-- The arguments that operands of the given kinds read as values. -/
def operandValues : List OperandKind → List Arg → List Arg
  | .ref :: kinds, a :: args => a :: operandValues kinds args
  | .lit :: kinds, _ :: args => operandValues kinds args
  | .const :: kinds, args | .absent :: kinds, args => operandValues kinds args
  | _, _ => []

/-- The arguments that a statement reads as values. -/
def Statement.valueArgs (s : Statement) : List Arg :=
  match Verb.ofName? s.op.text with
  | some v => v.valueArgs s.args
  | none =>
    match Opcode.ofName? s.op.text with
    | some op => operandValues [op.shape.left, op.shape.right] s.args
    | none => []

/-- The statement uses what the name stands for. -/
def Statement.Uses (s : Statement) (name : Bytes) : Prop :=
  ∃ l, l.text = name ∧ Arg.ident l ∈ s.valueArgs

namespace Builder

variable {b b' b₁ b₂ b₃ : Builder} {s : Statement} {o : Order} {ss : List Statement} {v : Bytes}
  {x y : TRef}

/-- Has the order no result? -/
def Order.isSilent : Order → Bool
  | .checkpoint _ | .rollback _ | .snapshot _ | .reset => true
  | _ => false

private theorem Reads.isSilent_eq {w : Verb} (h : b.Reads s w o) : o.isSilent = w.isSilent := by
  cases h with
  | @spelled w k hw hk => exact (Verb.isSilent_of_isSpelled hw).symm
  | _ => rfl

/-- Whether there is a result is told by the words of the statement. -/
theorem boundName?_of_order (ho : b.order s = .ok o) :
    s.boundName? = if o.isSilent then none else s.name.map (·.text) := by
  unfold Statement.boundName?
  rcases order_cases ho with ⟨w, hverb, hreads⟩ | ⟨hverb, op, ty, left, right, -, -, rfl⟩
  · rw [hverb, Option.any_some, hreads.isSilent_eq]
  · rw [hverb]
    rfl

/-! ### What a statement does to the names -/

private theorem result_of_isSilent (hsilent : o.isSilent = true)
    (hrun : (carryOut o).run b = .ok y b') : y = .none := by
  replace hrun := (run_carryOut_eq_ok hrun).1
  cases o with
  | checkpoint n =>
    injection hrun with hy
    exact hy.symm
  | rollback cp | snapshot refs | reset =>
    obtain ⟨u, t, -, hrun⟩ := Trace.exists_of_run_bind hrun
    injection hrun with hy
    exact hy.symm
  | constant k | fixed ty | emit op ty left right | coerce c z => cases hsilent

namespace Healthy

/-- An order that is not silent has a result. -/
private theorem isLive_result (h : b.Healthy) (ho : b.order s = .ok o)
    (hsilent : o.isSilent = false) (hrun : (Builder.carryOut o).run b = .ok y b') :
    b'.trace.view.IsLive y.ref := by
  obtain ⟨hfit, -⟩ := h.isFit_order ho
  replace hrun := (run_carryOut_eq_ok hrun).1
  cases o with
  | constant k => exact ((h.trace.constant hfit).post hrun).live
  | fixed ty => exact ((h.trace.kpri hfit).post hrun).live
  | emit op ty left right => exact ((h.trace.emit hfit.1 ty hfit.2).post hrun).live
  | coerce c z => exact ((h.trace.coerce c hfit).post hrun).live
  | checkpoint n | rollback cp | snapshot refs | reset => cases hsilent

private theorem ne_none_of_isLive (h : b.Healthy) (hy : b.trace.view.IsLive y.ref) : y ≠ .none := by
  rintro rfl
  obtain ⟨z, hz⟩ := h.trace.sound.laid.exists_record hy
  exact h.trace.sound.laid.ne_none hz rfl

/-- **A statement** takes away the names that its order takes away. Then it binds its name to its
result, and that is something the trace holds. -/
theorem names_of_step (h : b.Healthy) (hs : (Builder.step s).run b = .ok () b') :
    ∃ o y b₁, b.order s = .ok o ∧ (Builder.carryOut o).run b = .ok y b₁ ∧ b'.trace = b₁.trace ∧
      b'.names = s.boundName?.elim (o.leaves b.names) ((o.leaves b.names).insert · y) := by
  obtain ⟨o, y, b₁, ho, hrun, rfl⟩ := run_step_eq_ok.mp hs
  obtain ⟨hfit, hturn⟩ := h.isFit_order ho
  have hhealthy := ((h.carryOut hfit hturn).post hrun).healthy
  have hleaves := (run_carryOut_eq_ok hrun).2
  refine ⟨o, y, b₁, ho, hrun, ?_⟩
  rw [boundName?_of_order ho, ← hleaves]
  cases hname : s.name with
  | none =>
    refine ⟨rfl, ?_⟩
    rw [Option.map_none, ite_self]
    rfl
  | some l =>
    unfold named
    dsimp only
    cases hsilent : o.isSilent with
    | true =>
      -- there is no result to bind the name to
      rw [if_neg (not_not.mpr (result_of_isSilent hsilent hrun))]
      exact ⟨rfl, rfl⟩
    | false =>
      -- the result is live, and what is live is a reference
      rw [if_pos (hhealthy.ne_none_of_isLive (h.isLive_result ho hsilent hrun))]
      exact ⟨rfl, rfl⟩

private theorem distinct_step (h : b.Healthy) (hs : (Builder.step s).run b = .ok () b')
    (hdistinct : b.names.Distinct) : b'.names.Distinct := by
  obtain ⟨o, y, b₁, -, -, -, hnames⟩ := h.names_of_step hs
  have hleaves : (o.leaves b.names).Distinct := by
    cases o with
    | rollback cp => exact hdistinct.retain _
    | reset => exact Names.distinct_empty
    | _ => exact hdistinct
  rw [hnames]
  cases s.boundName? with
  | none => exact hleaves
  | some name => exact hleaves.insert name y

private theorem exists_get?_of_step (h : b.Healthy) (hs : (Builder.step s).run b = .ok () b')
    (hv : s.boundName? = some v) : ∃ y, b'.names.get? v = some y := by
  obtain ⟨o, y, b₁, -, -, -, hnames⟩ := h.names_of_step hs
  refine ⟨y, ?_⟩
  rw [hnames, hv]
  exact Names.get?_insert_self _ v y

/-- What a statement leaves under a name that it does not bind. -/
theorem get?_of_step (h : b.Healthy) (hs : (Builder.step s).run b = .ok () b')
    (hv : s.boundName? ≠ some v) :
    ∃ o, b.order s = .ok o ∧ b'.names.get? v = (o.leaves b.names).get? v := by
  obtain ⟨o, y, b₁, ho, -, -, hnames⟩ := h.names_of_step hs
  refine ⟨o, ho, ?_⟩
  rw [hnames]
  cases hbound : s.boundName? with
  | none => rfl
  | some name =>
    -- binding another name leaves this one
    have hne : v ≠ name := by
      rintro rfl
      exact hv hbound
    exact Names.get?_insert_of_ne _ _ hne

/-- A statement gives no name another value, unless it binds it. -/
theorem bound_of_step (h : b.Healthy) (hdistinct : b.names.Distinct)
    (hs : (Builder.step s).run b = .ok () b') (hv : s.boundName? ≠ some v)
    (hget : b'.names.get? v = some x) : b.names.get? v = some x := by
  obtain ⟨o, -, hleaves⟩ := h.get?_of_step hs hv
  rw [hget] at hleaves
  cases o with
  | rollback cp =>
    -- going back forgets names, but it changes none
    rw [Order.leaves, hdistinct.get?_retain] at hleaves
    exact (Option.filter_eq_some_iff.mp hleaves.symm).1
  | reset => cases hleaves
  | _ => exact hleaves.symm

private theorem bound_of_run (h : b.Healthy) (hdistinct : b.names.Distinct)
    (hss : ∀ s ∈ ss, s.boundName? ≠ some v) (hrun : Builder.run ss b = .ok b')
    (hget : b'.names.get? v = some x) : b.names.get? v = some x := by
  induction ss generalizing b with
  | nil =>
    cases hrun
    exact hget
  | cons s ss ih =>
    obtain ⟨b₁, hstep, hrun⟩ := run_cons_eq_ok.mp hrun
    obtain ⟨hs, hss⟩ := List.forall_mem_cons.mp hss
    have hb₁ := ((h.step s).post hstep).1
    have hget₁ := ih hb₁ (h.distinct_step hstep hdistinct) hss hrun
    exact h.bound_of_step hdistinct hstep hs hget₁

end Healthy

/-- **In every state that a script reaches** a name has one entry. -/
theorem ReachedBy.distinct (h : b.ReachedBy ss) : b.names.Distinct := by
  induction ss using List.reverseRecOn generalizing b with
  | nil =>
    obtain ⟨t, -, hrun⟩ := h
    cases hrun
    exact Names.distinct_empty
  | append_singleton ss s ih =>
    obtain ⟨b₁, hb₁, hstep⟩ := reachedBy_concat.mp h
    exact hb₁.healthy.distinct_step hstep (ih hb₁)

/-- A statement that goes back asks for a rollback. -/
private theorem Healthy.exists_rollback (h : b.Healthy) (ho : b.order s = .ok o) {n : Bytes}
    (hs : s.turn? = some (.returnsTo n)) :
    ∃ cp, o = .rollback cp ∧ b.checkpoints.get? n = some cp := by
  obtain ⟨-, hturn⟩ := h.isFit_order ho
  rw [hs] at hturn
  cases o with
  | rollback cp =>
    obtain ⟨m, hm, hcp⟩ := hturn
    cases hm
    exact ⟨cp, rfl, hcp⟩
  | _ => cases hturn

/-! ### What survives -/

/-- What a trace holds survives going back to a checkpoint that is not older. -/
private theorem survives_of_isLive {t : Trace} {cp : Checkpoint} (hins : t.nins ≤ cp.ins)
    (hconst : cp.const ≤ t.nk) (hx : t.view.IsLive x.ref) : survives cp x = true := by
  unfold survives
  split
  · exact decide_eq_true (UInt32.le_trans hconst hx.1)
  · exact decide_eq_true (UInt32.lt_of_lt_of_le hx.2 hins)

/-- **What survives** going back to a checkpoint is what the trace held when it was taken. -/
theorem survives_checkpoint_iff {t : Trace} (ht : t.Healthy) :
    survives t.checkpoint x = true ↔ t.isLive x.ref = true := by
  rw [Trace.isLive_iff]
  constructor
  · exact Healthy.isLive_of_survives ht rfl rfl
  · exact survives_of_isLive UInt32.le_rfl UInt32.le_rfl

namespace Anchored

variable {t : Trace} {names : List Bytes}

/-- **One statement** that stays within the names keeps a name that stands for something of `t`,
unless it binds it. -/
theorem bound_step (h : Anchored t names b) (hb : b.Healthy) (hdistinct : b.names.Distinct)
    (hs : (Builder.step s).run b = .ok () b') (hspares : s.turn? ≠ some .restarts)
    (hwithin : staysWithin names (s :: ss) = true) (hv : s.boundName? ≠ some v)
    (hx : t.view.IsLive x.ref) (hget : b.names.get? v = some x) : b'.names.get? v = some x := by
  obtain ⟨o, ho, hleaves⟩ := hb.get?_of_step hs hv
  obtain ⟨-, hturn⟩ := hb.isFit_order ho
  rw [hleaves]
  cases o with
  | rollback cp =>
    -- the return goes to a checkpoint that is not older than `t`
    obtain ⟨n, hturn, hcp⟩ := hturn
    rw [staysWithin, hturn] at hwithin
    have hn := (Bool.and_eq_true_iff.mp hwithin).1
    obtain ⟨hins, hconst, -⟩ := h.newer (List.contains_iff_mem.mp hn) hcp
    rw [Order.leaves, hdistinct.get?_retain, hget]
    exact Option.filter_some_pos (survives_of_isLive hins hconst hx)
  | reset => exact absurd hturn hspares
  | _ => exact hget

/-- **Any number of statements** that stay within the names keep it. -/
theorem bound_run (ht : t.Sound) (hx : t.view.IsLive x.ref)
    (hspares : ∀ s ∈ ss, s.turn? ≠ some .restarts) (hss : ∀ s ∈ ss, s.boundName? ≠ some v) :
    ∀ {names b}, Anchored t names b → b.Healthy → b.names.Distinct →
      staysWithin names ss = true → Builder.run ss b = .ok b' → b.names.get? v = some x →
        b'.names.get? v = some x := by
  induction ss with
  | nil =>
    intro names b _ _ _ _ hrun hget
    cases hrun
    exact hget
  | cons s ss ih =>
    intro names b h hb hdistinct hwithin hrun hget
    obtain ⟨b₁, hstep, hrun⟩ := run_cons_eq_ok.mp hrun
    obtain ⟨hturn, hspares⟩ := List.forall_mem_cons.mp hspares
    obtain ⟨hv, hss⟩ := List.forall_mem_cons.mp hss
    have hget₁ := h.bound_step hb hdistinct hstep hturn hwithin hv hx hget
    obtain ⟨names', h', hwithin'⟩ := h.step ht hb hstep hturn hwithin
    exact ih hspares hss h' ((hb.step s).post hstep).1 (hb.distinct_step hstep hdistinct) hwithin'
      hrun hget₁

end Anchored

/-! ### Names that are not bound -/

/-- Every name among the arguments is bound. -/
def Knows (b : Builder) (args : List Arg) : Prop :=
  ∀ l, Arg.ident l ∈ args → ∃ x, b.names.get? l.text = some x

private theorem knows_nil : b.Knows [] :=
  fun _ hl => absurd hl List.not_mem_nil

private theorem Knows.cons {a : Arg} {args : List Arg} (ha : b.valueArg a = .ok x)
    (h : b.Knows args) :
    b.Knows (a :: args) := by
  intro l hl
  rcases List.mem_cons.mp hl with rfl | hl
  · rw [valueArg] at ha
    split at ha
    · next hget => exact ⟨_, hget⟩
    · cases ha
  · exact h l hl

private theorem Knows.operand {op : Opcode} {i : Nat} {kind : OperandKind}
    {kinds : List OperandKind} {args args' : Operands} {r : Ref}
    (hr : b.operand op i kind args = .ok (r, args'))
    (h : b.Knows (operandValues kinds args'.args)) :
    b.Knows (operandValues (kind :: kinds) args.args) := by
  obtain ⟨args, ty⟩ := args
  cases kind with
  | ref =>
    cases args with
    | nil => cases hr
    | cons a args =>
      obtain ⟨z, hz, hr⟩ := exists_of_bind hr
      cases hr
      exact .cons (of_inPart hz) h
  | lit =>
    -- a number takes an argument too, but none that is a value
    cases args with
    | nil => cases hr
    | cons a args =>
      obtain ⟨z, -, hr⟩ := exists_of_bind hr
      split at hr
      · cases hr
        exact h
      · cases hr
  | const | absent =>
    cases hr
    exact h

private theorem knows_instruction {op : Opcode} {i : Ty × Ref × Ref}
    (hi : b.instruction op s = .ok i) :
    b.Knows (operandValues [op.shape.left, op.shape.right] s.args) := by
  unfold instruction at hi
  split at hi
  · cases hi
  · obtain ⟨⟨left, args⟩, hleft, hi⟩ := exists_of_bind hi
    obtain ⟨⟨right, args'⟩, hright, -⟩ := exists_of_bind hi
    exact .operand hleft (.operand hright knows_nil)

private theorem knows_snapshotRefs {args : List Arg} {i : Nat} {refs : List Ref}
    (hrefs : b.snapshotRefs i args = .ok refs) : b.Knows args := by
  induction args generalizing i refs with
  | nil => exact knows_nil
  | cons a args ih =>
    obtain ⟨z, hz, hrefs⟩ := exists_of_bind hrefs
    obtain ⟨rest, hrest, -⟩ := exists_of_bind hrefs
    exact .cons (of_inPart hz) (ih hrest)

private theorem args_of_onlyArg {a : Arg} (h : onlyArg s = .ok a) : s.args = [a] := by
  unfold onlyArg at h
  split at h
  · next hargs =>
    cases h
    exact hargs
  · cases h

private theorem Reads.knows {w : Verb} (h : b.Reads s w o) : b.Knows (w.valueArgs s.args) := by
  cases h with
  | spelled hw hk =>
    rw [Verb.valueArgs_of_isSpelled hw]
    exact knows_nil
  | coerce ha hx =>
    rw [args_of_onlyArg ha]
    exact .cons hx knows_nil
  | snapshot hrefs => exact knows_snapshotRefs hrefs
  | slot hslot =>
    -- the number of the slot is the second argument
    unfold slotOf at hslot
    split at hslot
    · next hargs =>
      obtain ⟨key, hkey, -⟩ := exists_of_bind hslot
      rw [hargs]
      exact .cons (of_inPart hkey) knows_nil
    · cases hslot
  | object _ | fixed _ | checkpoint _ | rollback _ | reset => exact knows_nil

/-- **A statement that can be read** uses bound names only. -/
theorem knows_of_order (ho : b.order s = .ok o) : b.Knows s.valueArgs := by
  unfold Statement.valueArgs
  rcases order_cases ho with ⟨w, hverb, hreads⟩ | ⟨hverb, op, ty, left, right, hop, hi, -⟩
  · rw [hverb]
    exact hreads.knows
  · rw [hverb, hop]
    exact knows_instruction hi

private theorem valueArg_of_get?_eq_none {l : Lexeme} (h : b.names.get? l.text = none) :
    b.valueArg (.ident l) = .error (.undefined l.text) := by
  rw [valueArg, h]

/-- A statement that uses a name which is not bound is wrong. -/
private theorem Healthy.wrong_of_uses (h : b.Healthy) (hv : b.names.get? v = none) (hs : s.Uses v) :
    ∃ e b', (Builder.step s).run b = .error (.wrong e) b' := by
  cases hrun : (Builder.step s).run b with
  | ok u b' =>
    -- a statement that succeeds has been read, and then all it uses is bound
    obtain ⟨o, y, b₁, ho, -⟩ := run_step_eq_ok.mp hrun
    obtain ⟨l, rfl, hl⟩ := hs
    obtain ⟨z, hz⟩ := knows_of_order ho l hl
    rw [hv] at hz
    cases hz
  | error e b' =>
    obtain ⟨w, rfl⟩ := (h.step s).allowed_of_error hrun
    exact ⟨w, b', rfl⟩

/-! ### What a rollback forgets -/

namespace Excursion

variable {pre mid m₁ m₂ post : List Statement} {c r : Statement} {n : Bytes}

/-- **The names after a return** are those before it that stand for something which the trace held
when the checkpoint was taken. -/
theorem names_iff (h : Excursion pre c mid r n b₁ b b₂) :
    b₂.names.get? v = some x ↔ b.names.get? v = some x ∧ b₁.trace.isLive x.ref = true := by
  obtain ⟨b₀, hb₀, hstep⟩ := reachedBy_concat.mp h.ends
  obtain rfl := hb₀.unique h.lasts
  obtain ⟨o, y, b₃, ho, -, -, hnames⟩ := h.lasts.healthy.names_of_step hstep
  obtain ⟨cp, rfl, hcp⟩ := h.lasts.healthy.exists_rollback ho h.returns
  -- the checkpoint is still the one that was taken, since nothing took it anew
  rw [h.get?_checkpoint] at hcp
  cases hcp
  rw [hnames, boundName?_of_order ho]
  calc (b₀.names.retain (survives b₁.trace.checkpoint)).get? v = some x
      ↔ (b₀.names.get? v).filter (survives b₁.trace.checkpoint) = some x := by
        rw [h.lasts.distinct.get?_retain]
    _ ↔ b₀.names.get? v = some x ∧ survives b₁.trace.checkpoint x = true :=
        Option.filter_eq_some_iff
    _ ↔ b₀.names.get? v = some x ∧ b₁.trace.isLive x.ref = true := by
        rw [survives_checkpoint_iff h.begins.healthy.trace]

/-- The statement that binds a name since the checkpoint, and the run from there to the return. -/
private theorem exists_of_boundBy (h : Excursion pre c mid r n b₁ b b₂)
    (hbound : BoundBy mid v m₁ s m₂) :
    ∃ (b₃ : Builder) (x : TRef), b₃.ReachedBy (pre ++ c :: (m₁ ++ [s])) ∧
      run (m₁ ++ [s]) b₁ = .ok b₃ ∧ run m₂ b₃ = .ok b ∧ b₃.names.get? v = some x := by
  have hmid := h.run_mid
  rw [hbound.split, List.append_cons] at hmid
  obtain ⟨b₃, hrun, hpost⟩ := run_append_eq_ok.mp hmid
  have hb₃ : b₃.ReachedBy (pre ++ [c] ++ (m₁ ++ [s])) :=
    reachedBy_append.mpr ⟨b₁, h.begins, hrun⟩
  rw [← List.append_cons] at hb₃
  -- the last step of this is the statement that binds the name
  have hlast : b₃.ReachedBy (pre ++ c :: m₁ ++ [s]) := by
    rwa [List.append_assoc, List.cons_append]
  obtain ⟨b₀, hb₀, hstep⟩ := reachedBy_concat.mp hlast
  obtain ⟨x, hx⟩ := hb₀.healthy.exists_get?_of_step hstep hbound.binds
  exact ⟨b₃, x, hb₃, hrun, hpost, hx⟩

/-- A name that stands for something older than the checkpoint stays bound until the return. -/
private theorem get?_of_isLive (h : Excursion pre c mid r n b₁ b b₂)
    (hwithin : staysWithin [n] mid = true) (hbound : BoundBy mid v m₁ s m₂)
    (hrun : run (m₁ ++ [s]) b₁ = .ok b₃) (hb₃ : b₃.ReachedBy (pre ++ c :: (m₁ ++ [s])))
    (hpost : run m₂ b₃ = .ok b) (hget : b₃.names.get? v = some x)
    (hx : b₁.trace.isLive x.ref = true) :
    b.names.get? v = some x := by
  have ht := h.begins.healthy.trace.sound
  have hspares : ∀ s' ∈ (m₁ ++ [s]) ++ m₂, s'.turn? ≠ some .restarts := by
    intro s' hs'
    rw [← List.append_cons, ← hbound.split] at hs'
    exact (h.spares s' hs').1
  rw [hbound.split, List.append_cons] at hwithin
  -- up to the statement that binds it nothing of the checkpoint is lost, and so on from there
  obtain ⟨names, hanchored, hwithin₂⟩ := Anchored.run_append ht
    (fun s' hs' => hspares s' (List.mem_append_left _ hs')) h.begins.healthy h.anchored hwithin hrun
  exact Anchored.bound_run ht ((Trace.isLive_iff _ _).mp hx)
    (fun s' hs' => hspares s' (List.mem_append_right _ hs')) hbound.last hanchored hb₃.healthy
    hb₃.distinct hwithin₂ hpost hget

/-- A name that is not bound after the return is not bound until a statement binds it. -/
private theorem get?_eq_none_of_run (h : Excursion pre c mid r n b₁ b b₂)
    (hv : b₂.names.get? v = none) (hpost : ∀ s ∈ post, s.boundName? ≠ some v)
    (hb₃ : b₃.ReachedBy (pre ++ c :: mid ++ [r] ++ post)) : b₃.names.get? v = none := by
  obtain ⟨b₀, hb₀, hrun⟩ := reachedBy_append.mp hb₃
  obtain rfl := hb₀.unique h.ends
  -- if it were bound, it would have been bound right after the return
  rw [Option.eq_none_iff_forall_ne_some]
  intro z hz
  have hget := h.ends.healthy.bound_of_run h.ends.distinct hpost hrun hz
  rw [hv] at hget
  cases hget

/-- **What a rollback forgets.** The names after it are those before it whose values the trace held
at the checkpoint. Of a name that was bound since then this means: it is forgotten if the statement
gave it something new. If it gave it something older, then the name stays, provided that there was
no return to an older checkpoint in between. What is forgotten is undefined until it is bound
again, and every statement that uses it is wrong. -/
theorem forgets_iff_not_live (h : Excursion pre c mid r n b₁ b b₂) :
    (∀ v x, b₂.names.get? v = some x ↔
      b.names.get? v = some x ∧ b₁.trace.isLive x.ref = true) ∧
    (∀ v m₁ s m₂, BoundBy mid v m₁ s m₂ →
      ∃ (b₃ : Builder) (x : TRef), b₃.ReachedBy (pre ++ c :: (m₁ ++ [s])) ∧
        b₃.names.get? v = some x ∧
        (b₁.trace.isLive x.ref = false → b₂.names.get? v = none) ∧
        (staysWithin [n] mid = true → b₁.trace.isLive x.ref = true →
          b₂.names.get? v = some x)) ∧
    ∀ v post (b₃ : Builder), b₂.names.get? v = none → (∀ s ∈ post, s.boundName? ≠ some v) →
      b₃.ReachedBy (pre ++ c :: mid ++ [r] ++ post) →
      (∀ l, l.text = v → b₃.valueArg (.ident l) = .error (.undefined v)) ∧
        ∀ s, s.Uses v → ∃ e b₄, (step s).run b₃ = .error (.wrong e) b₄ := by
  refine ⟨fun v x => h.names_iff, ?_, ?_⟩
  · intro v m₁ s m₂ hbound
    obtain ⟨b₃, x, hb₃, hrun, hpost, hget⟩ := h.exists_of_boundBy hbound
    refine ⟨b₃, x, hb₃, hget, ?_, ?_⟩
    · intro hdead
      rw [Option.eq_none_iff_forall_ne_some]
      intro z hz
      obtain ⟨hbefore, hlive⟩ := h.names_iff.mp hz
      -- no later statement binds the name, so the value is the one it got
      have hsame := hb₃.healthy.bound_of_run hb₃.distinct hbound.last hpost hbefore
      rw [hget] at hsame
      cases hsame
      rw [hdead] at hlive
      cases hlive
    · intro hwithin hlive
      exact h.names_iff.mpr
        ⟨h.get?_of_isLive hwithin hbound hrun hb₃ hpost hget hlive, hlive⟩
  · intro v post b₃ hv hpost hb₃
    have hnone := h.get?_eq_none_of_run hv hpost hb₃
    constructor
    · rintro l rfl
      exact valueArg_of_get?_eq_none hnone
    · intro s hs
      exact hb₃.healthy.wrong_of_uses hnone hs

end Excursion

/-- Between a checkpoint and the return to it one name gets a new value and one a constant that
every trace holds. -/
def newAndFixed : Bytes :=
  Bytes.ascii "cp = checkpoint\nx = SLOAD.int! #1 #0\nt = kpri true\nrollback cp\n"

theorem Excursion.forgets_of_newAndFixed :
    ∃ p, parseFile [] newAndFixed = .tree p ∧
      ∃ pre c mid r n b₁ b b₂, p.statements = pre ++ c :: mid ++ [r] ∧
        Excursion pre c mid r n b₁ b b₂ ∧
        (∃ z, b.names.get? (Bytes.ascii "t") = some z ∧ b₁.trace.isLive z.ref = true) ∧
        ∀ l, l.text = Bytes.ascii "x" →
          b₂.valueArg (.ident l) = .error (.undefined (Bytes.ascii "x")) := by
  have h : (lastExcursion? newAndFixed 0 (Bytes.ascii "cp")).any (fun e =>
      (e.2.2.names.get? (Bytes.ascii "t")).isSome &&
        (e.2.2.names.get? (Bytes.ascii "x")).isNone) = true := by decide +kernel
  obtain ⟨⟨mid, b₁, b₂⟩, hlast, hnames⟩ := (Option.any_eq_true _ _).mp h
  obtain ⟨hfixed, hnew⟩ := Bool.and_eq_true_iff.mp hnames
  obtain ⟨z, hz⟩ := Option.isSome_iff_exists.mp hfixed
  obtain ⟨p, hp, pre, c, r, b, hsplit, hex⟩ := exists_of_lastExcursion? hlast
  obtain ⟨hkept, -, hforgotten⟩ := hex.forgets_iff_not_live
  have hends := hex.ends
  rw [← List.append_nil (pre ++ c :: mid ++ [r])] at hends
  refine ⟨p, hp, pre, c, mid, r, _, b₁, b, b₂, hsplit, hex, ⟨z, (hkept _ z).mp hz⟩, ?_⟩
  exact (hforgotten _ [] b₂ (Option.isNone_iff_eq_none.mp hnew)
    (fun _ hs => absurd hs List.not_mem_nil) hends).1

/-- A name that is bound after a checkpoint to a constant which every trace holds. -/
def fixedSince : Bytes :=
  Bytes.ascii "cp = checkpoint\nt = kpri true\nrollback cp\n"

theorem Excursion.keeps_name_of_fixedSince :
    ∃ p, parseFile [] fixedSince = .tree p ∧
      ∃ pre c mid r n b₁ b b₂, p.statements = pre ++ c :: mid ++ [r] ∧
        Excursion pre c mid r n b₁ b b₂ ∧
        ∃ v m₁ s m₂ x, BoundBy mid v m₁ s m₂ ∧ b₂.names.get? v = some x := by
  have h : (lastExcursion? fixedSince 0 (Bytes.ascii "cp")).any (fun e =>
      e.1.getLast?.any (fun s => s.boundName? == some (Bytes.ascii "t")) &&
        (e.2.2.names.get? (Bytes.ascii "t")).isSome) = true := by decide +kernel
  obtain ⟨⟨mid, b₁, b₂⟩, hlast, hnames⟩ := (Option.any_eq_true _ _).mp h
  obtain ⟨hlate, hfixed⟩ := Bool.and_eq_true_iff.mp hnames
  obtain ⟨x, hx⟩ := Option.isSome_iff_exists.mp hfixed
  obtain ⟨s, hs, hbinds⟩ := (Option.any_eq_true _ _).mp hlate
  obtain ⟨m₁, hmid⟩ := List.getLast?_eq_some_iff.mp hs
  obtain ⟨p, hp, pre, c, r, b, hsplit, hex⟩ := exists_of_lastExcursion? hlast
  refine ⟨p, hp, pre, c, mid, r, _, b₁, b, b₂, hsplit, hex, Bytes.ascii "t", m₁, s, [], x, ?_, hx⟩
  exact ⟨hmid, beq_iff_eq.mp hbinds, fun _ hs => absurd hs List.not_mem_nil⟩

end Builder

end TraceIR.Script
