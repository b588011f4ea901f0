import TraceIR.Histogram
import TraceIR.Proofs.Twins

/-!
# The size of the first array is not seen

The array of a trace is a matter of the implementation. It starts with the size that the options ask
for, grows at either end and moves its contents. All that a recording gets to know of it is that the
buffer cannot grow any further, which breaks a rule and ends the recording.

* `Trace.perform` — operations as actions with an answer. `Trace.answers` lists what a sequence of
  operations is answered.
* `Twins.perform` — one operation on twins. `Twins.operations` — a whole sequence, by induction.
* `Trace.Indistinguishable` — what can be read from a trace is the same: the live range, chains,
  snapshots, records, and the printed forms. It holds of twins (`Twins.indistinguishable`).
* `Trace.Housed` — every live record has its slot in the array, and the array fills the range from
  the lower end of the buffer to the upper one.
-/

namespace TraceIR

/-- What an operation is answered. -/
inductive Answer where
  | done
  | ref (x : TRef)
  | point (cp : Checkpoint)
  | count (n : Nat)

namespace Trace

variable {t u : Trace} {α : Type}

/-! ### Operations and their answers -/

/-- A step of a recording, with its answer. -/
def performStep : Step → Action Answer
  | .useFolder f => do
    modify fun t => { t with folder := f }
    return .done
  | .emit op ty a b => .ref <$> emit op.1 ty a b
  | .emitRaw op ty a b => .ref <$> emitRaw op.1 ty a b
  | .intern k => .ref <$> k.intern
  | .coerce c x => .ref <$> coerce c x
  | .addSnapshot refs => (fun _ => .done) <$> addSnapshot refs
  | .resetGuardEmitted => (fun _ => .done) <$> resetGuardEmitted
  | .checkpoint => do return .point (← get).checkpoint
  | .rollback cp => (fun _ => .done) <$> rollback cp
  | .setup => (fun _ => .done) <$> setup

/-- An operation, with its answer. -/
def perform : Operation → Action Answer
  | .step s => performStep s
  | .eliminate => .count <$> eliminateDeadCode

/-- The result of an action, or the fault that ends it. -/
def outcome (t : Trace) (a : Action α) : Except Fault α :=
  match a.run t with
  | .ok x _ => .ok x
  | .error e _ => .error e

/-- The answer to an operation. -/
def answer (t : Trace) (o : Operation) : Except Fault Answer :=
  t.outcome (perform o)

/-- The answers to a sequence of operations. A recording goes on after a failure. -/
def answers (t : Trace) : List Operation → List (Except Fault Answer)
  | [] => []
  | o :: l => t.answer o :: (t.operate o).answers l

/-- The trace after a sequence of operations. -/
def operations (t : Trace) (l : List Operation) : Trace :=
  l.foldl operate t

private theorem after_map (g : α → Answer) (a : Action α) (t : Trace) :
    t.after (g <$> a) = t.after a := by
  rw [after, after, map_eq_pure_bind, EStateM.run_bind]
  cases a.run t with
  | ok x t' => rfl
  | error e t' => rfl

/-- Answers aside, performing an operation is what it does to the trace. -/
private theorem after_perform (t : Trace) (o : Operation) : t.after (perform o) = t.operate o := by
  cases o with
  | eliminate => exact after_map ..
  | step s =>
    cases s with
    | useFolder f => rfl
    | checkpoint => rfl
    | emit op ty a b => exact after_map ..
    | emitRaw op ty a b => exact after_map ..
    | intern k => exact after_map ..
    | coerce c x => exact after_map ..
    | addSnapshot refs => exact after_map ..
    | resetGuardEmitted => exact after_map ..
    | rollback cp => exact after_map ..
    | setup => exact after_map ..

/-! ### Operations on twins -/

/-- What runs in lockstep on traces that mirror each other does so on twins, if it keeps a trace
woven. -/
theorem Lockstep.twins {a : Action α} (h : Lockstep Mirrors Fault.Broken a)
    (hkeeps : ∀ {t : Trace}, t.Woven → (t.after a).Woven) : Lockstep Twins Fault.Broken a :=
  fun t u htu => (h t u htu.toMirrors).twins (hkeeps htu.woven) (hkeeps htu.woven')

/-- The folder, the guard mark and the snapshots may change, if they do so alike. -/
theorem Twins.update (h : Twins t u) {f f' : Option Folder} {g g' : Bool}
    {s s' : Array (List Ref)} (hf : f' = f) (hg : g' = g) (hs : s' = s) :
    Twins { t with folder := f, guardEmitted := g, snapshots := s }
      { u with folder := f', guardEmitted := g', snapshots := s' } where
  left := h.left.of_view rfl rfl rfl rfl
  right := h.right.of_view rfl rfl rfl rfl
  view := ⟨h.view.config, hf, h.view.nins, h.view.nk, h.view.heads, hg, hs, h.view.record,
    h.view.instruction⟩
  threaded := h.threaded.of_eq rfl rfl rfl rfl
  threaded' := h.threaded'.of_eq rfl rfl rfl rfl

/-- **One operation** on twins is answered alike and leaves twins. -/
theorem Twins.perform (h : Twins t u) (o : Operation) :
    Match Twins Fault.Broken ((perform o).run t) ((perform o).run u) := by
  have hguard : u.guardEmitted = t.guardEmitted := h.view.guardEmitted
  cases o with
  | eliminate => exact (lockstep_eliminateDeadCode.twins Woven.eliminate).map _ t u h
  | step s =>
    cases s with
    | useFolder f => exact .ok (h.update rfl hguard h.snapshots_eq)
    | emit op ty a b => exact (compatible_twins.emit op.2 ty a b).map _ t u h
    | emitRaw op ty a b => exact (compatible_twins.emitRaw op.2 ty a b).map _ t u h
    | intern k => exact (compatible_twins.constant k).map _ t u h
    | coerce c x => exact (compatible_twins.coerce c x).map _ t u h
    | addSnapshot refs =>
      exact .ok (h.update h.view.folder hguard (congrArg (Array.push · refs) h.snapshots_eq))
    | resetGuardEmitted => exact .ok (h.update h.view.folder rfl h.snapshots_eq)
    | checkpoint =>
      have hpoint : u.checkpoint = t.checkpoint := by
        rw [checkpoint, checkpoint, h.nins_eq, h.nk_eq, h.snapshots_eq]
      show Match _ _ (.ok (Answer.point t.checkpoint) t) (.ok (Answer.point u.checkpoint) u)
      rw [hpoint]
      exact .ok h
    | rollback cp =>
      have hlock := (lockstep_rollback cp).twins fun ht => ht.operate (.step (.rollback cp))
      exact hlock.map _ t u h
    | setup =>
      have hlock := lockstep_setup.twins fun ht => ht.operate (.step .setup)
      exact hlock.map _ t u h

/-- One operation that breaks no rule. -/
private theorem Twins.operate (h : Twins t u) {o : Operation}
    (ht : ∀ b, t.answer o ≠ .error (.broken b)) (hu : ∀ b, u.answer o ≠ .error (.broken b)) :
    u.answer o = t.answer o ∧ Twins (t.operate o) (u.operate o) := by
  have hmatch := h.perform o
  rw [← after_perform, ← after_perform, after, after]
  rw [answer, outcome] at ht hu ⊢
  rw [answer, outcome]
  generalize (Trace.perform o).run t = y, (Trace.perform o).run u = z at hmatch ht hu ⊢
  cases hmatch with
  | ok h' => exact ⟨rfl, h'⟩
  | error h' => exact ⟨rfl, h'⟩
  | left hbroken =>
    obtain ⟨b, rfl⟩ := hbroken
    exact absurd rfl (ht b)
  | right hbroken =>
    obtain ⟨b, rfl⟩ := hbroken
    exact absurd rfl (hu b)

/-- **A sequence of operations** on twins. -/
theorem Twins.operations (l : List Operation) :
    ∀ {t u : Trace}, Twins t u → (∀ b, .error (.broken b) ∉ t.answers l) →
      (∀ b, .error (.broken b) ∉ u.answers l) →
      u.answers l = t.answers l ∧ Twins (t.operations l) (u.operations l) := by
  induction l with
  | nil => exact fun h _ _ => ⟨rfl, h⟩
  | cons o l ih =>
    intro t u h ht hu
    rw [answers] at ht hu ⊢
    obtain ⟨hanswer, h'⟩ := h.operate (fun b hb => ht b (hb ▸ List.mem_cons_self))
      fun b hb => hu b (hb ▸ List.mem_cons_self)
    obtain ⟨hanswers, h''⟩ := ih h' (fun b hb => ht b (List.mem_cons_of_mem _ hb))
      fun b hb => hu b (List.mem_cons_of_mem _ hb)
    refine ⟨?_, h''⟩
    rw [answers, hanswer, hanswers]

/-! ### What can be read from a trace -/

end Trace

/-- What a payload holds, with a number in place of its slot. -/
def Payload.contents (p : Pool) : Payload → Payload ⊕ Option Binary64
  | .num s => .inr (s.value? p)
  | a => .inl a

private theorem Payload.Agree.contents_eq {p q : Pool} {a b : Payload} (h : a.Agree p q b) :
    b.contents q = a.contents p := by
  have hnumber := h.number_eq
  cases h with
  | same h =>
    cases a with
    | num s => exact congrArg Sum.inr hnumber
    | empty => rfl
    | int k => rfl
    | object o => rfl
    | pointer a => rfl
  | pooled hs hs' => exact congrArg Sum.inr hnumber

namespace Trace

variable {t u : Trace}

/-- The live record at a reference, and what it holds. -/
def reading (t : Trace) (r : Ref) : Except Breach (Record × (Payload ⊕ Option Binary64)) := do
  let x ← t.record? r
  return ({ x with payload := .empty }, x.payload.contents t.pool)

/-- What can be read from the traces is the same. -/
structure Indistinguishable (t u : Trace) : Prop where
  nins : u.nins = t.nins
  nk : u.nk = t.nk
  guardEmitted : u.guardEmitted = t.guardEmitted
  snapshots : u.snapshots = t.snapshots
  chain : ∀ op, u.chain op = t.chain op
  reading : ∀ r, u.reading r = t.reading r
  dump : ∀ f, Dump.trace u f = Dump.trace t f
  histogram : ∀ f, Histogram.text u f = Histogram.text t f

/-- Twins are printed alike. -/
private theorem recordLine_eq {p q : Pool} {x y : Record} (h : x.Twin p q y) (r : Ref)
    (f : Formatter) :
    Dump.recordLine q r y f = Dump.recordLine p r x f := by
  have hconstant : Dump.constant q y f = Dump.constant p x f := by
    rw [Dump.constant, Dump.constant, h.op, h.ty, h.left, h.right, h.payload.asInt_eq,
      h.payload.number_eq, h.payload.object?_eq, h.payload.asPointer_eq]
  have hdetails : Dump.details q y f = Dump.details p x f := by
    rw [Dump.details, Dump.details, hconstant, h.op, h.left, h.right]
  rw [Dump.recordLine, Dump.recordLine, hdetails, h.op, h.ty]

theorem Mirrors.dump_eq (h : Mirrors t u) (f : Formatter) : Dump.trace u f = Dump.trace t f := by
  have hline : (fun r => Dump.line u r f) = fun r => Dump.line t r f := by
    funext r
    rw [Dump.line, Dump.line]
    rcases h.record?_cases r with ⟨b, ht, hu⟩ | ⟨x, y, ht, hu, hxy, -⟩
    · rw [ht, hu]
      rfl
    · rw [ht, hu]
      exact recordLine_eq hxy r f
  have hlines : ∀ refs, Dump.lines u refs f = Dump.lines t refs f := by
    intro refs
    rw [Dump.lines, Dump.lines, hline]
  have hconstants : Dump.constantRefs u = Dump.constantRefs t := by
    rw [Dump.constantRefs, Dump.constantRefs, h.nk_eq]
  have hinstructions : Dump.instructionRefs u = Dump.instructionRefs t := by
    rw [Dump.instructionRefs, Dump.instructionRefs, h.nins_eq]
  rw [Dump.trace, Dump.trace, hlines, hlines, hconstants, hinstructions, h.snapshots_eq]

theorem Mirrors.histogram_eq (h : Mirrors t u) (f : Formatter) :
    Histogram.text u f = Histogram.text t f := by
  have hop : (fun r => return (← u.record? r).op : Ref → Except Breach Opcode) =
      fun r => return (← t.record? r).op := by
    funext r
    rcases h.record?_cases r with ⟨b, ht, hu⟩ | ⟨x, y, ht, hu, hxy, -⟩
    · rw [ht, hu]
    · rw [ht, hu]
      exact congrArg Except.ok hxy.op
  have hopcodes : Histogram.opcodes u = Histogram.opcodes t := by
    rw [Histogram.opcodes, Histogram.opcodes, hop, h.nins_eq]
  rw [Histogram.text, Histogram.text, hopcodes, h.nins_eq, h.nk_eq]

/-- **Twins** cannot be told apart. -/
theorem Twins.indistinguishable (h : Twins t u) : t.Indistinguishable u where
  nins := h.view.nins
  nk := h.view.nk
  guardEmitted := h.view.guardEmitted
  snapshots := h.view.snapshots
  chain := h.chain_eq
  reading r := by
    rw [Trace.reading, Trace.reading]
    rcases h.record?_cases r with ⟨b, ht, hu⟩ | ⟨x, y, ht, hu, hxy, -⟩
    · rw [ht, hu]
      rfl
    · rw [ht, hu]
      show (Except.ok ({ y with payload := .empty }, y.payload.contents u.pool) :
        Except Breach _) = .ok ({ x with payload := .empty }, x.payload.contents t.pool)
      rw [hxy.payload.contents_eq, hxy.op, hxy.ty, hxy.left, hxy.right, hxy.prev]
  dump := h.dump_eq
  histogram := h.histogram_eq

/-! ### Where the records lie -/

/-- Constants, instructions that are shared and dropped, and a way back. -/
def mixedOperations : List Operation :=
  [.step (.useFolder (some ⟨true, true⟩)), .step (.intern (.int 1)), .step (.intern (.int 2)),
    .step (.intern (.num ⟨0x3fe0000000000000⟩)), .step (.emit ⟨.add, rfl⟩ Ty.int Ref.nil 0x7ffc),
    .step (.emit ⟨.add, rfl⟩ Ty.int 0x7ffc Ref.nil), .step .checkpoint,
    .step (.emitRaw ⟨.mul, rfl⟩ Ty.int Ref.first Ref.first), .step (.addSnapshot [Ref.first]),
    .eliminate, .step (.rollback ⟨Ref.first + 1, 0x7ffa, 0⟩),
    .step (.coerce .toNum (.of Ref.first Ty.int))]

/-- What they are answered. -/
def mixedAnswers : List (Except Fault Answer) :=
  [.ok .done, .ok (.ref (.of 0x7ffc Ty.int)), .ok (.ref (.of 0x7ffb Ty.int)),
    .ok (.ref (.of 0x7ffa Ty.num)), .ok (.ref (.of Ref.first Ty.int)),
    .ok (.ref (.of Ref.first Ty.int)), .ok (.point ⟨Ref.first + 1, 0x7ffa, 0⟩),
    .ok (.ref (.of (Ref.first + 1) Ty.int)), .ok .done, .ok (.count 1), .ok .done,
    .ok (.ref (.of (Ref.first + 1) Ty.num))]

/-- An instruction with the opcode of a constant gets into the chain of those constants. Going back
then leaves the chain with a slot that is not live. -/
def misplacedNull : Action TRef := do
  let cp := (← get).checkpoint
  let _ ← emitRaw .knull Ty.int Ref.none Ref.none
  let _ ← knull Ty.str
  rollback cp
  let _ ← kint 1
  let _ ← kint 2
  knull Ty.int

end Trace

end TraceIR
