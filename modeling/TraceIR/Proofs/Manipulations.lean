import TraceIR.Proofs.Limits
import TraceIR.Proofs.PrintedForm

/-!
# Traces under any manipulation

A recording keeps to rules that make its chains come out right. What lies where in a trace does not
depend on them: emit constants as instructions, bend the chains by hand, eliminate dead code in
between or let other traces use the pool, and still every live reference has a record, and what lies
below the border is a constant.

* `Manipulation` — whatever can be done to a trace, and `Trace.Manipulated`, a trace to which any of
  it was done.
* `View.RespectsBorder` — below the border there are constants only. Growing keeps this
  (`RespectsBorder.growths`), and so does an instruction of any opcode (`RespectsBorder.push`);
  going back only takes records away (`View.record_of_rollback`).
* `Trace.RespectsBorder` — this, with a sound layout. `RespectsBorder.manipulate` is the step lemma
  and `Manipulated.respectsBorder` the run lemma.
-/

namespace TraceIR

/-- What can be done to a trace. -/
inductive Manipulation where
  /-- A step of a recording, or an emission of any opcode. -/
  | move (m : Move)
  /-- A pass that eliminates dead code. -/
  | eliminate
  /-- A chain is made to begin somewhere else. -/
  | setHead (op : Opcode) (r : Ref)
  /-- Other traces have used the pool. -/
  | usePool (p : Pool)

namespace Trace

/-- The trace after a manipulation, whether it succeeds or fails. -/
def manipulate (t : Trace) : Manipulation → Trace
  | .move m => t.move m
  | .eliminate => t.after eliminateDeadCode
  | .setHead op r => t.after (setHead op r)
  | .usePool p => { t with pool := p }

/-- The trace after some manipulations. -/
def manipulateAll (t : Trace) (l : List Manipulation) : Trace :=
  l.foldl manipulate t

/-- A trace to which anything may have been done. -/
inductive Manipulated : Trace → Prop
  | start {config : Config} {pool : Pool} {t : Trace} (h : start config pool = .ok t) :
      Manipulated t
  | manipulate {t : Trace} (h : Manipulated t) (m : Manipulation) : Manipulated (t.manipulate m)

theorem Manipulated.manipulateAll {t : Trace} (h : Manipulated t) (l : List Manipulation) :
    Manipulated (t.manipulateAll l) := by
  induction l generalizing t with
  | nil => exact h
  | cons m l ih => exact ih (h.manipulate m)

end Trace

/-! ### Both sides of the border -/

/-- There is an instruction, and what lies below the border is a constant. -/
structure View.RespectsBorder (v : View) : Prop where
  base_lt : Ref.base < v.nins
  constant : ∀ {r x}, v.record r = some x → r.isConst = true → x.op.isConst = true

namespace View

variable {v v' : View} {x : Record} {r : Ref}

private theorem record_of_popInstruction (h : v.popInstruction.record r = some x) :
    v.record r = some x := by
  rw [popInstruction_record] at h
  split at h
  · cases h
  · exact h

private theorem record_of_popConstant (h : v.popConstant.record r = some x) :
    v.record r = some x := by
  rw [popConstant_record] at h
  split at h
  · cases h
  · exact h

/-- What takes one record off takes off records only, however often it is done. -/
private theorem record_of_iterate (pop : View → View)
    (hpop : ∀ {v : View}, (pop v).record r = some x → v.record r = some x) (n : Nat) :
    ∀ {v : View}, (pop^[n] v).record r = some x → v.record r = some x := by
  induction n with
  | zero => exact fun h => h
  | succ n ih =>
    intro v h
    rw [Function.iterate_succ_apply] at h
    exact hpop (ih h)

/-- Going back only takes records away. -/
theorem record_of_rollback {cp : Checkpoint} (h : (v.rollback cp).record r = some x) :
    v.record r = some x := by
  -- instructions are taken off first and constants after them, so the way back is the other one
  have hinstructions := record_of_iterate popConstant record_of_popConstant _ h
  have hrecord := record_of_iterate popInstruction record_of_popInstruction _ hinstructions
  exact hrecord

namespace RespectsBorder

private theorem initial (config : Config) (pool : Pool) (folder : Option Folder) :
    (View.initial config pool folder).RespectsBorder := by
  have hformed := wellFormed_initial config pool folder
  exact ⟨hformed.base_lt, fun hx hr => (hformed.kind hx).trans hr⟩

/-- Only the end of the instructions and the records matter. -/
private theorem of_eq (h : v.RespectsBorder) (hnins : v'.nins = v.nins)
    (hrecord : v'.record = v.record) :
    v'.RespectsBorder :=
  ⟨hnins ▸ h.base_lt, fun hx => h.constant (hrecord ▸ hx)⟩

/-- An instruction of any opcode enters above the border. -/
theorem push (h : v.RespectsBorder) (hlimit : v.nins < Ref.limit) (x : Record) :
    (v.push x).RespectsBorder := by
  have hbase := h.base_lt
  refine ⟨show Ref.base < v.nins + 1 by grind, fun {r y} hy hr => ?_⟩
  rcases record_push_cases hy with ⟨rfl, -⟩ | hy
  · -- the end of the instructions is never below the border, so the opcode does not matter
    have habove := (Ref.isConst_iff _).mp hr
    have hle := UInt32.lt_iff_toNat_lt.mp hbase
    rw [Ref.toNat_base] at hle
    omega
  · exact h.constant hy hr

private theorem pushConstant (h : v.RespectsBorder) (hop : x.op.isConst = true) :
    (v.pushConstant x).RespectsBorder := by
  refine ⟨h.base_lt, fun {r y} hy hr => ?_⟩
  rcases record_pushConstant_cases hy with ⟨-, rfl⟩ | hy
  · exact hop
  · exact h.constant hy hr

/-- Growing keeps the two sides apart. -/
theorem growths (h : v.RespectsBorder) (hg : Relation.ReflTransGen View.Growth v v') :
    v'.RespectsBorder := by
  induction hg with
  | refl => exact h
  | tail _ hstep ih =>
    cases hstep with
    -- three kinds of growth leave the records alone
    | pool x => exact ih.of_eq rfl rfl
    | resetGuard => exact ih.of_eq rfl rfl
    | snapshot refs => exact ih.of_eq rfl rfl
    | push x hop hlimit => exact ih.push hlimit x
    | pushConstant x hop hone => exact ih.pushConstant hop

end RespectsBorder

end View

namespace Trace

variable {t t' : Trace} {op : Opcode} {ty : Ty}

/-- The layout is sound, and constants and instructions keep to their sides. -/
structure RespectsBorder (t : Trace) : Prop where
  laid : t.Laid
  view : t.view.RespectsBorder

/-! ### Emission of any opcode -/

/-- Asking changes nothing, so what follows decides. -/
private theorem after_ask_bind_of {P : Trace → Prop} {α β : Type} {q : Trace → Except Breach α}
    {f : α → Action β} (hsame : P t) (hf : ∀ x, P (t.after (f x))) : P (t.after (ask q >>= f)) := by
  rw [after_bind, run_ask]
  cases q t with
  | ok x => exact hf x
  | error e => exact hsame

private theorem after_place_of {P : Trace → Prop} (hsame : P t)
    (hraw : ∀ a b, P (t.after (emitRaw op ty a b))) (f : Folder) (a b : Ref) :
    P (t.after (place f op ty a b)) := by
  rw [place]
  split
  · refine after_ask_bind_of hsame fun found => ?_
    cases found.join with
    -- the instruction is there already
    | some r => exact hsame
    | none => exact hraw a b
  · exact hraw a b

private theorem after_emitDecided_of {P : Trace → Prop} (hsame : P t)
    (hraw : ∀ a b, P (t.after (emitRaw op ty a b))) (f : Folder) (a b : Ref) :
    P (t.after (emitDecided f op ty a b)) := by
  rw [emitDecided]
  split
  · rw [after_bind, EStateM.run_get]
    dsimp only
    cases t.foldComparison op a b with
    | error e => exact hsame
    | ok found =>
      cases found with
      | some x => exact hsame
      | none => exact after_place_of hsame hraw f a b
  · exact after_place_of hsame hraw f a b

/-- **Emission** leaves a trace as it is or appends the instruction, its operands swapped or not. -/
theorem after_emit_of {P : Trace → Prop} (hsame : P t)
    (hraw : ∀ a b, P (t.after (emitRaw op ty a b))) (a b : Ref) :
    P (t.after (emit op ty a b)) := by
  rw [emit, after_bind, EStateM.run_get]
  dsimp only
  cases t.folder with
  | none => exact hraw a b
  | some f =>
    dsimp only
    split
    · exact after_emitDecided_of hsame hraw f b a
    · exact after_emitDecided_of hsame hraw f a b

/-! ### Manipulations -/

namespace RespectsBorder

/-- Only what a trace shows and where its records lie matter. -/
private theorem of_eq (h : t.RespectsBorder) (hconfig : t'.config = t.config)
    (hnins : t'.nins = t.nins) (hnk : t'.nk = t.nk) (hbuffer : t'.buffer = t.buffer) :
    t'.RespectsBorder := by
  refine ⟨h.laid.of_view hconfig hnins hnk hbuffer, h.view.of_eq hnins (funext fun r => ?_)⟩
  show (if t'.isLive r then t'.buffer.get? r else none) =
    if t.isLive r then t.buffer.get? r else none
  rw [isLive, isLive, hnins, hnk, hbuffer]

private theorem emitRaw (h : t.RespectsBorder) (op : Opcode) (ty : Ty) (a b : Ref) :
    (t.after (emitRaw op ty a b)).RespectsBorder := by
  by_cases hfull : t.InstructionsFull
  · rw [after_of_error (by rw [run_emitRaw, if_pos hfull])]
    exact h
  · obtain ⟨t', hrun, hlaid, hview⟩ := h.laid.run_emitRaw hfull op ty a b
    rw [after_of_ok hrun]
    exact ⟨hlaid, hview ▸ h.view.push (Laid.lt_limit_of_not_full hfull) _⟩

private theorem emit (h : t.RespectsBorder) (op : Opcode) (ty : Ty) (a b : Ref) :
    (t.after (emit op ty a b)).RespectsBorder :=
  after_emit_of h (fun a b => h.emitRaw op ty a b) a b

private theorem step (h : t.RespectsBorder) (s : Step) : (t.step s).RespectsBorder := by
  -- a step makes the trace grow, goes back, starts afresh or changes the folder
  rcases step_cases t s with hgrows | ⟨cp, rfl⟩ | rfl | ⟨f, rfl⟩
  · obtain ⟨hlaid, hview⟩ := hgrows h.laid
    exact ⟨hlaid, h.view.growths hview⟩
  · rcases h.laid.step_rollback cp with hsame | ⟨-, hlaid, hview⟩
    · rw [hsame]
      exact h
    · -- nothing has entered
      refine ⟨hlaid, hlaid.base_lt, fun hx => h.view.constant ?_⟩
      rw [hview] at hx
      exact View.record_of_rollback hx
  · obtain ⟨t', hrun, hlaid, hview⟩ := h.laid.run_setup
    rw [Trace.step, after_of_ok hrun]
    exact ⟨hlaid, hview ▸ View.RespectsBorder.initial ..⟩
  · exact h.of_eq rfl rfl rfl rfl

private theorem eliminate (h : t.RespectsBorder) : (t.after eliminateDeadCode).RespectsBorder := by
  by_cases hsweeps : t.Sweeps
  · obtain ⟨hlaid, hbelow, -⟩ := hsweeps.left_of_eliminate h.laid
    refine ⟨hlaid, hlaid.base_lt, fun {r x} hx hr => h.view.constant ?_ hr⟩
    -- the walk ends before it comes to the constants
    rw [← hbelow, hx]
    rw [UInt32.lt_iff_toNat_lt, Ref.toNat_first]
    have := (Ref.isConst_iff r).mp hr
    omega
  · rw [h.laid.eliminate_of_not_sweeps hsweeps]
    exact h

/-- **One manipulation**, whatever it is, leaves the layout sound and the two sides apart. -/
theorem manipulate (h : t.RespectsBorder) (d : Manipulation) : (t.manipulate d).RespectsBorder := by
  cases d with
  | move m =>
    cases m with
    | step s => exact h.step s
    | emit op ty a b => exact h.emit op ty a b
    | emitRaw op ty a b => exact h.emitRaw op ty a b
  | eliminate => exact h.eliminate
  | setHead op r => exact h.of_eq rfl rfl rfl rfl
  | usePool p => exact h.of_eq rfl rfl rfl rfl

end RespectsBorder

/-- **Any manipulations**, in any order, leave them so. -/
theorem Manipulated.respectsBorder (h : Manipulated t) : t.RespectsBorder := by
  induction h with
  | start h =>
    obtain ⟨hlaid, hview⟩ := start_eq_ok h
    exact ⟨hlaid, hview ▸ View.RespectsBorder.initial ..⟩
  | manipulate _ m ih => exact ih.manipulate m

end Trace

end TraceIR
