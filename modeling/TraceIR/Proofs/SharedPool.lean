import TraceIR.Proofs.Canonicity
import TraceIR.Workspace

/-!
# Traces that share a pool

Several traces take the slots for their numbers from one pool, in turn and in any order, and they are
taken back, begin again or are left alone while others go on. This file says that the pool is the same
table for all of them.

* `Trace.lookups` — the numbers that a step looks up in the pool. Nothing else in a step touches the
  pool (`Sound.pool_step`, from `Trace.KeepsPool`).
* `Workspace.Event` — what can happen to traces and pools, and `Workspace.found` — what was looked up
  in a pool on the way.
* `Workspace.Changes` — what one event does to pools and traces (`Shares.changes_act`), and
  `Workspace.Shares` — the invariant that it keeps: the pools list what was looked up in them, and the
  numbers of all traces lie in their pools.
* `Workspace.pool_is_stable_table` — all of this in one place.
-/

namespace TraceIR

/-! ### Looking up several numbers -/

section

variable {α : Type} [DecidableEq α]

/-- A repetition at the end is dropped. -/
private theorem eraseDups_concat (l : List α) (a : α) :
    (l ++ [a]).eraseDups = if a ∈ l then l.eraseDups else l.eraseDups ++ [a] := by
  rw [List.eraseDups_append]
  by_cases ha : a ∈ l
  · rw [if_pos ha]
    simp [List.removeAll, ha]
  · rw [if_neg ha]
    simp [List.removeAll, ha, List.eraseDups_cons]

private theorem nodup_eraseDups (l : List α) : l.eraseDups.Nodup := by
  induction l using List.reverseRecOn with
  | nil => exact .nil
  | append_singleton l a ih =>
    rw [eraseDups_concat]
    split
    · exact ih
    · next ha =>
      rw [← List.concat_eq_append]
      exact ih.concat fun hmem => ha (List.mem_eraseDups.mp hmem)

end

namespace Pool

variable {p : Pool} {x y : Binary64} {s : Nat} {found l : List Binary64}

/-- The pool after some numbers were looked up. -/
def finds (p : Pool) (l : List Binary64) : Pool :=
  l.foldl (fun p x => (p.find x).2) p

private theorem finds_append (p : Pool) (l l' : List Binary64) :
    p.finds (l ++ l') = (p.finds l).finds l' :=
  List.foldl_append ..

private theorem Holds.finds (h : p.Holds x s) (l : List Binary64) : (p.finds l).Holds x s := by
  induction l generalizing p with
  | nil => exact h
  | cons y l ih => exact ih (h.find y)

private theorem get?_finds (h : p.get? s = some x) (l : List Binary64) :
    (p.finds l).get? s = some x := by
  induction l generalizing p with
  | nil => exact h
  | cons y l ih => exact ih (get?_find h y)

/-- The pool has all its slots from the beginning, and it lists what was looked up, in order of the
first time. -/
structure Lists (p : Pool) (found : List Binary64) : Prop where
  packed : p.Packed
  retired : p.retired = 0
  toList : p.toList = found.eraseDups

namespace Lists

private theorem empty : ({} : Pool).Lists [] :=
  ⟨.empty, rfl, rfl⟩

/-- **One number** is looked up. -/
theorem find (h : p.Lists found) (x : Binary64) : (p.find x).2.Lists (found ++ [x]) where
  packed := h.packed.find x
  retired := (p.retired_find x).trans h.retired
  toList := by
    rw [h.packed.toList_find, h.toList, eraseDups_concat]
    simp only [List.mem_eraseDups]

/-- Any numbers are looked up. -/
private theorem finds (h : p.Lists found) (l : List Binary64) : (p.finds l).Lists (found ++ l) := by
  induction l generalizing p found with
  | nil =>
    rw [List.append_nil]
    exact h
  | cons x l ih =>
    have hrest := ih (h.find x)
    rw [List.append_assoc] at hrest
    exact hrest

private theorem find_fst (h : p.Lists found) (x : Binary64) :
    (p.find x).1 = (found ++ [x]).eraseDups.idxOf x := by
  rw [h.packed.find_fst, h.retired, h.toList, Nat.zero_add, eraseDups_concat]
  by_cases hx : x ∈ found
  · rw [if_pos hx, List.idxOf_append, if_pos (List.mem_eraseDups.mpr hx)]
  · rw [if_neg hx]

/-- What was looked up has its slot. -/
private theorem holds (h : p.Lists found) (hx : x ∈ found) : p.Holds x (p.find x).1 := by
  have hmem : x ∈ p.toList := by
    rw [h.toList, List.mem_eraseDups]
    exact hx
  have hheld := h.packed.holds_of_mem hmem
  rw [hheld.find_self]
  exact hheld

private theorem mem_of_holds (h : p.Lists found) (hx : p.Holds x s) : x ∈ found := by
  rw [← List.mem_eraseDups, ← h.toList]
  exact h.packed.mem_of_holds hx

end Lists

/-- Slots that were handed out tell numbers apart, now and later. -/
private theorem find_eq_iff (hx : p.Holds x s) (l : List Binary64) :
    ((p.finds l).find y).1 = s ↔ y = x := by
  have hlater := hx.finds l
  constructor
  · rintro rfl
    exact (hlater.find y).value_eq ((p.finds l).holds_find y) |>.symm
  · rintro rfl
    rw [hlater.find_self]

end Pool

/-! ### What a step looks up -/

namespace Trace

variable {α β : Type} {t t' : Trace} {k : Key}

/-- The action leaves the pool alone, whether it succeeds or fails. -/
def KeepsPool (a : Action α) : Prop :=
  ∀ t : Trace, (t.after a).pool = t.pool

namespace KeepsPool

variable {a : Action α} {f : α → Action β}

private theorem pure (x : α) : KeepsPool (pure x : Action α) :=
  fun _ => rfl

private theorem throw (e : Fault) : KeepsPool (throw e : Action α) :=
  fun _ => rfl

private theorem bind (ha : KeepsPool a) (hf : ∀ x, KeepsPool (f x)) : KeepsPool (a >>= f) := by
  intro t
  have hfirst := ha t
  rw [after_bind]
  cases hrun : a.run t with
  | ok x t₁ =>
    rw [after_of_ok hrun] at hfirst
    exact (hf x t₁).trans hfirst
  | error e t₁ =>
    rw [after_of_error hrun] at hfirst
    exact hfirst

private theorem ask (q : Trace → Except Breach α) : KeepsPool (Trace.ask q) := by
  intro t
  rw [after_ask]

private theorem get : KeepsPool (MonadState.get : Action Trace) :=
  fun _ => rfl

end KeepsPool

private theorem keepsPool_emitRaw (op : Opcode) (ty : Ty) (a b : Ref) :
    KeepsPool (emitRaw op ty a b) := by
  intro t
  rw [after, run_emitRaw]
  split
  · next heq =>
    split at heq
    · cases heq
    · split at heq
      · cases heq
        rfl
      · cases heq
  · next heq =>
    split at heq
    · cases heq
      rfl
    · split at heq
      · cases heq
      · cases heq
        rfl

private theorem keepsPool_emitShared (op : Opcode) (ty : Ty) (a b : Ref) :
    KeepsPool (emitShared op ty a b) := by
  apply KeepsPool.bind (.ask _)
  intro found
  cases found.join with
  | some r => exact .pure _
  | none => exact keepsPool_emitRaw op ty a b

private theorem keepsPool_place (f : Folder) (op : Opcode) (ty : Ty) (a b : Ref) :
    KeepsPool (place f op ty a b) := by
  unfold place
  split
  · exact keepsPool_emitShared op ty a b
  · exact keepsPool_emitRaw op ty a b

private theorem keepsPool_emitDecided (f : Folder) (op : Opcode) (ty : Ty) (a b : Ref) :
    KeepsPool (emitDecided f op ty a b) := by
  unfold emitDecided
  split
  · apply KeepsPool.bind .get
    intro t
    cases t.foldComparison op a b with
    | error e => exact .throw e
    | ok found =>
      cases found with
      | some y => exact .pure y
      | none => exact keepsPool_place f op ty a b
  · exact keepsPool_place f op ty a b

private theorem keepsPool_emit (op : Opcode) (ty : Ty) (a b : Ref) :
    KeepsPool (emit op ty a b) := by
  apply KeepsPool.bind .get
  intro t
  cases t.folder with
  | none => exact keepsPool_emitRaw op ty a b
  | some f =>
    dsimp only
    split
    · exact keepsPool_emitDecided f op ty b a
    · exact keepsPool_emitDecided f op ty a b

private theorem keepsPool_addConstant (x : Record) : KeepsPool (addConstant x) := by
  intro t
  rw [after, run_addConstant]
  split
  · next heq =>
    split at heq
    · cases heq
    · split at heq
      · split at heq
        · cases heq
          rfl
        · cases heq
      · cases heq
  · next heq =>
    split at heq
    · cases heq
      rfl
    · split at heq
      · split at heq
        · cases heq
        · cases heq
          rfl
      · cases heq
        rfl

private theorem keepsPool_intern (same : Record → Bool) (ty : Ty) (x : Record) :
    KeepsPool (intern same ty x) := by
  apply KeepsPool.bind (.ask _)
  intro found
  cases found with
  | some r => exact .pure _
  | none => exact keepsPool_addConstant x

private theorem keepsPool_numberOrString (c : Coercion) (x : TRef) :
    KeepsPool (numberOrString c x) := by
  unfold numberOrString
  split
  · exact keepsPool_emit _ _ _ _
  split
  · exact .pure x
  · exact .throw _

/-- The numbers that a request for a constant looks up. -/
def Constant.lookups (c : Constant) : List Binary64 :=
  match c.demand with
  | .number x => [x]
  | _ => []

private theorem Constant.pool_intern (c : Constant) (t : Trace) :
    (t.after c.intern).pool = t.pool.finds c.lookups := by
  have hpool : c.poolAfter t.pool = t.pool.finds c.lookups := by
    rw [poolAfter, lookups]
    cases c.demand with
    | number x => rfl
    | key k | absurd => rfl
  cases hk : c.key? t.pool with
  | none =>
    obtain ⟨e, hrun⟩ := run_intern_of_no_key hk
    -- what makes no sense looks up nothing
    have hnone : c.lookups = [] := by
      rw [key?] at hk
      rw [lookups]
      cases hc : c.demand with
      | number x =>
        rw [hc] at hk
        cases hk
      | key k | absurd => rfl
    rw [after_of_error hrun, hnone]
    rfl
  | some k =>
    obtain ⟨a, hseeks, hrun⟩ := exists_seeks hk
    cases hseeks with
    | @intern same ty' x hsame hx hty hty' =>
      rw [after, hrun, ← hpool]
      exact keepsPool_intern same ty' x { t with pool := c.poolAfter t.pool }

/-- The numbers that a step looks up in the pool: the one that is to be interned, or the bias that a
conversion to bits adds. -/
def lookups (t : Trace) : Step → List Binary64
  | .intern c => c.lookups
  | .coerce .toBit x =>
    if x.ty.isInteger then []
    else
      match (numberOrString .toBit x).run t with
      | .ok .. => [bitBias]
      | .error .. => []
  | _ => []

private theorem pool_toBit (t : Trace) (x : TRef) :
    (t.after (toBit x)).pool = t.pool.finds (t.lookups (.coerce .toBit x)) := by
  by_cases hint : x.ty.isInteger
  · rw [toBit, if_pos hint, lookups, if_pos hint]
    rfl
  · have hfirst := keepsPool_numberOrString .toBit x t
    rw [toBit, if_neg hint, lookups, if_neg hint, after_bind]
    cases hrun : (numberOrString .toBit x).run t with
    | error e t₁ =>
      rw [after_of_error hrun] at hfirst
      exact hfirst
    | ok y t₁ =>
      rw [after_of_ok hrun] at hfirst
      -- the bias enters the pool even if there is no room for the constant
      have hbias : (t₁.after knumToBit).pool = t₁.pool.finds [bitBias] :=
        Constant.numToBit.pool_intern t₁
      dsimp only
      rw [← hfirst, ← hbias, after_bind]
      cases hk : knumToBit.run t₁ with
      | error e t₂ => rw [after_of_error hk]
      | ok z t₂ =>
        rw [after_of_ok hk]
        exact keepsPool_emit _ _ _ _ t₂

/-- **A step** does nothing to the pool but look up what it asks for. -/
theorem Sound.pool_step (h : t.Sound) (s : Step) : (t.step s).pool = t.pool.finds (t.lookups s) := by
  cases s with
  | useFolder f | addSnapshot refs | resetGuardEmitted | checkpoint => rfl
  | emit op ty a b => exact keepsPool_emit op.1 ty a b t
  | emitRaw op ty a b => exact keepsPool_emitRaw op.1 ty a b t
  | intern c => exact c.pool_intern t
  | coerce c x =>
    cases c with
    | toBit => exact pool_toBit t x
    | toNum =>
      have hkeeps : KeepsPool (toNum x) := by
        unfold toNum
        split
        · exact .pure x
        split
        · exact keepsPool_emit _ _ _ _
        split
        · exact keepsPool_emit _ _ _ _
        · exact .throw _
      exact hkeeps t
    | toStr =>
      have hkeeps : KeepsPool (toStr x) := by
        unfold toStr
        split
        · exact .pure x
        split
        · exact keepsPool_emit _ _ _ _
        · exact .throw _
      exact hkeeps t
    | toInt =>
      have hkeeps : KeepsPool (toInt x) := by
        unfold toInt
        split
        · exact .pure x
        · apply KeepsPool.bind (keepsPool_numberOrString _ x)
          intro y
          exact keepsPool_emit _ _ _ _
      exact hkeeps t
  | rollback cp =>
    rcases h.laid.step_rollback cp with hsame | ⟨hcp, -, hview⟩
    · rw [hsame]
      rfl
    · have hcut := h.wellFormed.cut_rollback hcp
      rw [← hview] at hcut
      exact hcut.pool
  | setup =>
    obtain ⟨t', hrun, -, hview⟩ := h.laid.run_setup
    rw [Trace.step, after_of_ok hrun]
    exact congrArg View.pool hview

/-- Numbers that others look up leave a trace canonical. -/
private theorem Canonical.finds {p : Pool} (h : Canonical { t with pool := p })
    (l : List Binary64) :
    Canonical { t with pool := p.finds l } := by
  induction l generalizing p with
  | nil => exact h
  | cons x l ih => exact ih (h.poolAfter (.num x))

end Trace

/-! ### Histories -/

namespace Workspace

variable {w : Workspace} {k n : Nat} {p : Pool} {t : Trace} {seen : Nat → List Binary64}

/-- What can happen to traces and pools. -/
inductive Event where
  /-- A number is looked up in a pool, for no trace. -/
  | find (k : Nat) (x : Binary64)
  /-- The current trace takes a step. -/
  | step (s : Step)
  | startFresh (config : Config)
  | startShared (config : Config)
  | use (n : Int)

/-- The workspace after an event. What cannot be done changes nothing. -/
def act (w : Workspace) : Event → Workspace
  | .find k x =>
    match w.pools[k]? with
    | some p => { w with pools := w.pools.setIfInBounds k (p.find x).2 }
    | none => w
  | .step s =>
    match w.trace? with
    | some t => w.setTrace (t.step s)
    | none => w
  | .startFresh config => (w.startFresh config).toOption.getD w
  | .startShared config => (w.startShared config).toOption.getD w
  | .use n => (w.use? n).getD w

/-- The numbers that an event looks up in pool `k`. -/
def looked (w : Workspace) (k : Nat) : Event → List Binary64
  | .find j x => if j < w.pools.size ∧ j = k then [x] else []
  | .step s =>
    match w.traces[w.current]?, w.trace? with
    | some (j, _), some t => if j = k then t.lookups s else []
    | _, _ => []
  | _ => []

/-- The workspace after some events. -/
def acts (w : Workspace) (es : List Event) : Workspace :=
  es.foldl act w

/-- The numbers that some events look up in pool `k`, in order. -/
def found (w : Workspace) (k : Nat) : List Event → List Binary64
  | [] => []
  | e :: es => w.looked k e ++ (w.act e).found k es

/-- What an event does: a pool keeps its slots and may get more, new pools are empty, and traces are
left alone or have their numbers in their pools. -/
structure Changes (w : Workspace) (l : Nat → List Binary64) (w' : Workspace) : Prop where
  pool : ∀ {k : Nat} {p : Pool}, w.pools[k]? = some p → w'.pools[k]? = some (p.finds (l k))
  fresh : ∀ {k : Nat}, w.pools[k]? = none → l k = [] ∧ ∀ p, w'.pools[k]? = some p → p = {}
  trace : ∀ {n k : Nat} {t : Trace}, w'.traces[n]? = some (k, t) →
    (∃ m : Nat, w.traces[m]? = some (k, t)) ∨ w'.pools[k]? = some t.pool ∧ t.Canonical

namespace Changes

private theorem of_eq {w' : Workspace} (hpools : w'.pools = w.pools)
    (htraces : w'.traces = w.traces) :
    Changes w (fun _ => []) w' where
  pool hp := hpools ▸ hp
  fresh hk := ⟨rfl, fun p hp => by rw [hpools, hk] at hp; cases hp⟩
  trace ht := .inl ⟨_, htraces ▸ ht⟩

/-- A trace joins those of a pool. -/
private theorem push (hp : w.pools[k]? = some t.pool) (ht : t.Canonical) :
    Changes w (fun _ => []) (w.push k t) where
  pool hq := hq
  fresh hk := ⟨rfl, fun p hp => by rw [Workspace.push, hk] at hp; cases hp⟩
  trace {n j u} hu := by
    rw [Workspace.push, Array.getElem?_push] at hu
    split at hu
    · cases hu
      exact .inr ⟨hp, ht⟩
    · exact .inl ⟨n, hu⟩

/-- A trace begins with a pool of its own. -/
private theorem pushFresh (hpool : t.pool = {}) (ht : t.Canonical) :
    Changes w (fun _ => [])
      ({ w with pools := w.pools.push t.pool }.push w.pools.size t) where
  pool {k p} hp := by
    have hsize := (Array.getElem?_eq_some_iff.mp hp).1
    rw [Workspace.push, Array.getElem?_push, if_neg (Nat.ne_of_lt hsize)]
    exact hp
  fresh {k} hk := by
    refine ⟨rfl, fun p hp => ?_⟩
    rw [Workspace.push, Array.getElem?_push] at hp
    split at hp
    · exact (Option.some.inj hp).symm.trans hpool
    · rw [hk] at hp
      cases hp
  trace {n j u} hu := by
    rw [Workspace.push, Array.getElem?_push] at hu
    split at hu
    · cases hu
      refine .inr ⟨?_, ht⟩
      rw [Workspace.push, Array.getElem?_push_size]
    · exact .inl ⟨n, hu⟩

/-- Numbers are looked up in one pool, perhaps for a trace. -/
private theorem lookUp {w' : Workspace} {l : List Binary64} (hp : w.pools[k]? = some p)
    (hpools : w'.pools = w.pools.setIfInBounds k (p.finds l))
    (htraces : w'.traces = w.traces ∨
      ∃ n t, w'.traces = w.traces.setIfInBounds n (k, t) ∧ t.pool = p.finds l ∧ t.Canonical) :
    Changes w (fun j => if k = j then l else []) w' := by
  have hsize := (Array.getElem?_eq_some_iff.mp hp).1
  have hself : w'.pools[k]? = some (p.finds l) := by
    rw [hpools, Array.getElem?_setIfInBounds_self_of_lt hsize]
  have hother : ∀ {j : Nat}, k ≠ j → w'.pools[j]? = w.pools[j]? := by
    intro j hj
    rw [hpools, Array.getElem?_setIfInBounds_ne hj]
  refine ⟨fun {j q} hq => ?_, fun {j} hj => ?_, fun {m j u} hu => ?_⟩
  · by_cases hkj : k = j
    · subst hkj
      obtain rfl := Option.some.inj (hp.symm.trans hq)
      rw [if_pos rfl]
      exact hself
    · rw [if_neg hkj, hother hkj]
      exact hq
  · have hkj : k ≠ j := by
      rintro rfl
      rw [hp] at hj
      cases hj
    refine ⟨if_neg hkj, fun q hq => ?_⟩
    rw [hother hkj, hj] at hq
    cases hq
  · rcases htraces with hsame | ⟨n, t, hset, hpool, ht⟩
    · exact .inl ⟨m, hsame ▸ hu⟩
    · rw [hset, Array.getElem?_setIfInBounds] at hu
      split at hu
      · split at hu
        · cases hu
          exact .inr ⟨hpool ▸ hself, ht⟩
        · cases hu
      · exact .inl ⟨m, hu⟩

end Changes

/-- Every pool lists what was looked up in it, and the numbers of every trace lie in its pool. -/
structure Shares (w : Workspace) (seen : Nat → List Binary64) : Prop where
  lists : ∀ {k : Nat} {p : Pool}, w.pools[k]? = some p → p.Lists (seen k)
  beyond : ∀ {k : Nat}, w.pools[k]? = none → seen k = []
  canonical : ∀ {n k : Nat} {t : Trace}, w.traces[n]? = some (k, t) →
    ∃ p, w.pools[k]? = some p ∧ Trace.Canonical { t with pool := p }

namespace Shares

private theorem empty : ({} : Workspace).Shares fun _ => [] where
  lists h := by cases h
  beyond _ := rfl
  canonical h := by cases h

private theorem changes {w' : Workspace} {l : Nat → List Binary64} (h : w.Shares seen)
    (hw : Changes w l w') : w'.Shares fun k => seen k ++ l k where
  lists {k p} hp := by
    cases hk : w.pools[k]? with
    | some q =>
      obtain rfl := Option.some.inj ((hw.pool hk).symm.trans hp)
      exact (h.lists hk).finds _
    | none =>
      obtain ⟨hnone, hempty⟩ := hw.fresh hk
      rw [hnone, h.beyond hk, hempty p hp]
      exact .empty
  beyond {k} hk := by
    cases hk' : w.pools[k]? with
    | some q =>
      rw [hw.pool hk'] at hk
      cases hk
    | none => rw [(hw.fresh hk').1, h.beyond hk', List.append_nil]
  canonical {n k t} ht := by
    rcases hw.trace ht with ⟨m, hm⟩ | ⟨hp, hcanonical⟩
    · -- others may have looked up numbers meanwhile
      obtain ⟨p, hp, hcanonical⟩ := h.canonical hm
      exact ⟨_, hw.pool hp, hcanonical.finds _⟩
    · exact ⟨_, hp, hcanonical⟩

/-- The current trace sees its pool. -/
private theorem trace?_eq (h : w.Shares seen) (ht : w.traces[w.current]? = some (k, t)) :
    ∃ p, w.pools[k]? = some p ∧ w.trace? = some { t with pool := p } ∧
      Trace.Canonical { t with pool := p } := by
  obtain ⟨p, hp, hcanonical⟩ := h.canonical ht
  refine ⟨p, hp, ?_, hcanonical⟩
  rw [trace?, ht]
  simp [Array.getD_eq_getD_getElem?, hp]

private theorem changes_startFresh (w : Workspace) (config : Config) :
    Changes w (fun _ => []) ((w.startFresh config).toOption.getD w) := by
  unfold startFresh
  cases ht : Trace.start config {} with
  | error e => exact .of_eq rfl rfl
  | ok t =>
    exact .pushFresh (congrArg View.pool (Trace.start_eq_ok ht).2) (Trace.Reachable.start ht).canonical

private theorem changes_startShared (h : w.Shares seen) (config : Config) :
    Changes w (fun _ => []) ((w.startShared config).toOption.getD w) := by
  unfold startShared
  split
  · next k t hcurrent =>
    obtain ⟨p, hp, -⟩ := h.canonical hcurrent
    rw [Array.getD_eq_getD_getElem?, hp, Option.getD_some]
    cases ht : Trace.start config p with
    | error e => exact .of_eq rfl rfl
    | ok u =>
      have hpool : u.pool = p := congrArg View.pool (Trace.start_eq_ok ht).2
      exact .push (hpool ▸ hp) (Trace.Reachable.start ht).canonical
  · exact changes_startFresh w config

/-- The current trace takes a step: what it looks up is added to its pool. -/
private theorem changes_step (h : w.Shares seen) (s : Step) :
    Changes w (w.looked · (.step s)) (w.act (.step s)) := by
  cases hcurrent : w.traces[w.current]? with
  | none =>
    have htrace : w.trace? = none := by simp [trace?, hcurrent]
    simp only [act, looked, htrace, hcurrent]
    exact .of_eq rfl rfl
  | some kt =>
    obtain ⟨k, t⟩ := kt
    obtain ⟨p, hp, htrace, hcanonical⟩ := h.trace?_eq hcurrent
    have hpool := hcanonical.sound.pool_step s
    simp only [act, looked, htrace, hcurrent, setTrace, hpool]
    exact .lookUp hp rfl
      (.inr ⟨_, _, rfl, hpool, Trace.stepInvariant_canonical.step hcanonical s⟩)

/-- **One event** adds to every pool what it looks up there. -/
theorem changes_act (h : w.Shares seen) (e : Event) : Changes w (w.looked · e) (w.act e) := by
  cases e with
  | find k x =>
    cases hk : w.pools[k]? with
    | none =>
      have hsize : ¬ k < w.pools.size := by simpa using hk
      simp only [act, looked, hk, hsize, false_and, if_false]
      exact .of_eq rfl rfl
    | some p =>
      have hsize := (Array.getElem?_eq_some_iff.mp hk).1
      simp only [act, looked, hk, hsize, true_and]
      exact .lookUp (l := [x]) hk rfl (.inl rfl)
  | step s => exact h.changes_step s
  | startFresh config => exact changes_startFresh w config
  | startShared config => exact h.changes_startShared config
  | use n =>
    simp only [act, looked, use?]
    split
    · exact .of_eq rfl rfl
    · exact .of_eq rfl rfl

/-- **A history** adds to every pool what it looks up there. -/
theorem acts (h : w.Shares seen) (es : List Event) :
    (w.acts es).Shares fun k => seen k ++ w.found k es := by
  induction es generalizing w seen with
  | nil =>
    simp only [found, List.append_nil]
    exact h
  | cons e es ih =>
    simp only [found, ← List.append_assoc]
    exact ih (h.changes (h.changes_act e))

private theorem pool_acts (h : w.Shares seen) (hp : w.pools[k]? = some p) (es : List Event) :
    (w.acts es).pools[k]? = some (p.finds (w.found k es)) := by
  induction es generalizing w seen p with
  | nil => exact hp
  | cons e es ih =>
    rw [found, Pool.finds_append]
    have hw := h.changes_act e
    exact ih (h.changes hw) (hw.pool hp)

end Shares

private theorem acts_append (w : Workspace) (es es' : List Event) :
    w.acts (es ++ es') = (w.acts es).acts es' :=
  List.foldl_append ..

/-- **The pool is a stable table without repetitions**, for all traces that share it and after every
history. It lists what was looked up in it, once and in order of the first time, and takes its slots
from memory by sixteen. Looking up a number gives a slot that holds it, and gives it again. Whatever
happens later, a slot keeps its number, and no other number gets it. The numbers of a trace lie in
slots that were handed out, and a request for a number that a trace answers leaves a constant with
the slot of the number. -/
theorem pool_is_stable_table (es : List Event) {k : Nat} {p : Pool}
    (hp : (({} : Workspace).acts es).pools[k]? = some p) :
    (p.toList = (({} : Workspace).found k es).eraseDups ∧ p.toList.Nodup ∧
      p.size = p.toList.length ∧ p.chunks = (p.size + 15) / 16) ∧
    (∀ x, (p.find x).2.get? (p.find x).1 = some x ∧ (p.find x).2.find x = p.find x ∧
      (p.find x).1 = (({} : Workspace).found k es ++ [x]).eraseDups.idxOf x) ∧
    (∀ es', ∃ p', (({} : Workspace).acts (es ++ es')).pools[k]? = some p' ∧
      (∀ s x, p.get? s = some x → p'.get? s = some x) ∧
      ∀ x ∈ ({} : Workspace).found k es, ∀ y, (p'.find y).1 = (p.find x).1 ↔ y = x) ∧
    ∀ (n : Nat) t, (({} : Workspace).acts es).traces[n]? = some (k, t) →
      (∀ r s, Trace.HasKey { t with pool := p } r (.num (.pooled s)) →
        ∃ x ∈ ({} : Workspace).found k es, s = (p.find x).1) ∧
      ∀ (c : Trace.Constant) x y t', c.demand = .number x →
        c.intern.run { t with pool := p } = .ok y t' →
          t'.HasKey y.ref (.num (.pooled (p.find x).1)) := by
  have hshares := Shares.empty.acts es
  have hlists : p.Lists (({} : Workspace).found k es) := hshares.lists hp
  refine ⟨⟨hlists.toList, ?_, hlists.packed.size_eq, hlists.packed.chunks_eq⟩, fun x => ?_,
    fun es' => ?_, fun n t ht => ?_⟩
  · rw [hlists.toList]
    exact nodup_eraseDups _
  · have hheld := p.holds_find x
    exact ⟨hheld.get?, hheld.find_self, hlists.find_fst x⟩
  · rw [acts_append]
    refine ⟨_, hshares.pool_acts hp es', fun s x hx => Pool.get?_finds hx _, fun x hx y => ?_⟩
    exact Pool.find_eq_iff (hlists.holds hx) _
  · obtain ⟨q, hq, hcanonical⟩ := hshares.canonical ht
    obtain rfl := Option.some.inj (hp.symm.trans hq)
    constructor
    · intro r s hr
      obtain ⟨x, hx, -⟩ := hcanonical.exists_holds hr
      refine ⟨x, hlists.mem_of_holds hx, ?_⟩
      exact hx.slot_eq (hlists.holds (hlists.mem_of_holds hx))
    · intro c x y t' hc hrun
      have hkey : c.key? p = some (.num (.pooled (p.find x).1)) := by
        rw [Trace.Constant.key?, hc]
      exact (hcanonical.hasKey_of_intern hkey hrun).2.1

/-- Two traces in turn. One of them begins again, the other is taken back. -/
def takingTurns : List Event :=
  [.startFresh {}, .step (.intern (.num ⟨1⟩)), .startShared {}, .step (.intern (.num ⟨2⟩)),
    .step .setup, .find 0 ⟨1⟩, .use 0, .step (.intern (.num ⟨2⟩)),
    .step (.rollback ⟨Ref.first, Ref.true, 0⟩), .find 0 ⟨3⟩]

theorem pool_is_stable_table_takingTurns :
    ∃ p, (({} : Workspace).acts takingTurns).pools[0]? = some p ∧
      p.toList = [⟨1⟩, ⟨2⟩, ⟨3⟩] ∧ p.toList.Nodup ∧ p.size = 3 ∧ p.chunks = 1 ∧
      ∃ p', (({} : Workspace).acts (takingTurns ++ [.step (.intern (.num ⟨4⟩))])).pools[0]? =
          some p' ∧
        (p'.find ⟨4⟩).1 ≠ (p.find ⟨2⟩).1 ∧ (p'.find ⟨2⟩).1 = (p.find ⟨2⟩).1 := by
  have hp : (({} : Workspace).acts takingTurns).pools[0]? =
      some (({} : Pool).finds [⟨1⟩, ⟨2⟩, ⟨3⟩]) := by decide +kernel
  have hlist : (({} : Pool).finds [⟨1⟩, ⟨2⟩, ⟨3⟩]).toList = [⟨1⟩, ⟨2⟩, ⟨3⟩] := by decide
  obtain ⟨⟨htable, hnodup, hsize, hchunks⟩, -, hlater, -⟩ := pool_is_stable_table takingTurns hp
  obtain ⟨p', hp', -, hslots⟩ := hlater [.step (.intern (.num ⟨4⟩))]
  have hmem : (⟨2⟩ : Binary64) ∈ ({} : Workspace).found 0 takingTurns := by
    rw [← List.mem_eraseDups, ← htable, hlist]
    decide
  rw [hlist] at hsize
  rw [hsize] at hchunks
  refine ⟨_, hp, hlist, hnodup, hsize, hchunks, p', hp', ?_, (hslots _ hmem _).mpr rfl⟩
  exact fun heq => absurd ((hslots _ hmem _).mp heq) (by decide)

end Workspace
end TraceIR
