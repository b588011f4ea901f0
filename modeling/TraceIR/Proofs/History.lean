import TraceIR.Proofs.Building

/-!
# Going back in a script

A checkpoint of a script is three counters under a name, and it stays known after the trace has
gone back behind it. Going back to it undoes everything since then only if the trace still holds
what it held when the checkpoint was taken.

* `Trace.Sound.sameRecording_iff_extends` — going back to a checkpoint restores the recording it
  was taken of if and only if that recording is still part of the trace.
* `staysWithin` — statements that go back to none but the given and newer checkpoints.
* `Builder.Anchored` — the invariant of such statements (`Anchored.step`, `Anchored.run`).
* `Builder.Excursion` — a checkpoint, what follows, and the return to it.
  `Excursion.restores_iff_still_held` says what the return restores.
* `Orderly` — scripts that never go back to a checkpoint which an earlier one has overtaken. It can
  be decided, and such scripts undo exactly (`Orderly.exists_restored`).
-/

namespace TraceIR

namespace Trace

variable {s t t' : Trace}

/-! ### Going back to a recording -/

/-- Traces that agree show the same records. -/
theorem SameRecording.view_record (h : t.SameRecording s) : t.view.record = s.view.record := by
  funext r
  ext x
  rw [← record?_eq_ok_iff, ← record?_eq_ok_iff, h.record]

/-- **Going back** to the checkpoint of `s` restores `s` exactly if `s` is still part of the
trace. -/
theorem Sound.sameRecording_iff_extends (hs : s.Sound) (ht : t.Sound)
    (hrun : (rollback s.checkpoint).run t = .ok () t') :
    t'.SameRecording s ↔ s.view.Extends t.view := by
  obtain ⟨haccepts, hlaid, hview⟩ := ht.laid.of_run_rollback hrun
  have hcp := (accepts_iff.mp haccepts.1).1
  have hcut := ht.wellFormed.cut_rollback hcp
  rw [← hview] at hcut
  constructor
  · intro hsame
    refine ⟨hcut.config.symm.trans hsame.config, hcut.folder.symm.trans hsame.folder, hcp.ins_le,
      hcp.nk_le, fun {r x} hx => ?_, ?_⟩
    · -- what `s` shows is shown by `t'`, which shows nothing that `t` does not
      have hlive := (hs.wellFormed.live_iff r).mp ⟨x, hx⟩
      rw [← hx, ← hsame.view_record]
      exact (hcut.record r hlive.1 hlive.2).symm
    · show s.snapshots.toList <+: t.snapshots.toList
      rw [← hsame.snapshots, show t'.snapshots = _ from hcut.snapshots]
      have htake : (t.view.snapshots.take s.checkpoint.snapshots.toNat).toList =
          t.snapshots.toList.take s.checkpoint.snapshots.toNat := by simp [view]
      rw [htake]
      exact List.take_prefix ..
  · intro hextends
    -- what is cut off is exactly what came after `s`
    obtain ⟨-, hrecord, hsnapshots⟩ := hextends.rollback_eq ht.wellFormed hs.wellFormed
    change t'.view = t.view.rollback ⟨s.view.nins, s.view.nk, s.view.snapshots.size⟩ at hview
    rw [← hview] at hrecord hsnapshots
    have hnins : t'.nins = s.nins := hcut.nins
    have hnk : t'.nk = s.nk := hcut.nk
    refine
      { nins := hnins
        nk := hnk
        snapshots := hsnapshots
        heads := hcut.wellFormed.heads_get_eq hs.wellFormed hrecord
        record := fun r => ?_
        config := hcut.config.trans hextends.config
        folder := hcut.folder.trans hextends.folder }
    rw [hlaid.record?_eq, hs.laid.record?_eq, hrecord, hnins, hnk]

end Trace

namespace Script

/-! ### Statements between a checkpoint and the return to it -/

/-- The statement leaves the checkpoint as it is: it neither takes one under the same name nor
begins the trace again. -/
def Statement.Spares (n : Bytes) (s : Statement) : Prop :=
  s.turn? ≠ some .restarts ∧ s.turn? ≠ some (.takes n)

instance (n : Bytes) (s : Statement) : Decidable (s.Spares n) :=
  inferInstanceAs (Decidable (_ ∧ _))

/-- Every return goes to a checkpoint with one of the names, or to one taken on the way. -/
def staysWithin (names : List Bytes) : List Statement → Bool
  | [] => true
  | s :: ss =>
    match s.turn? with
    | some (.takes n) => staysWithin (n :: names) ss
    | some (.returnsTo n) => names.contains n && staysWithin names ss
    | _ => staysWithin names ss

namespace Builder

variable {t : Trace} {names : List Bytes} {b b' b₁ b₂ : Builder} {s : Statement}
  {n : Bytes} {ss : List Statement}

/-- The trace still holds what `t` holds, and the named checkpoints are not older than `t`. -/
structure Anchored (t : Trace) (names : List Bytes) (b : Builder) : Prop where
  extends_view : t.view.Extends b.trace.view
  newer : ∀ {n cp}, n ∈ names → b.checkpoints.get? n = some cp →
    t.nins ≤ cp.ins ∧ cp.const ≤ t.nk ∧ (t.snapshots.size : Int) ≤ cp.snapshots

namespace Anchored

/-- Taking a checkpoint adds a name. -/
private theorem takes (h : Anchored t names b) (htrace : b'.trace = b.trace)
    (hcheckpoints : b'.checkpoints = b.checkpoints.insert n b.trace.checkpoint) :
    Anchored t (n :: names) b' := by
  refine ⟨htrace ▸ h.extends_view, fun {m cp} hm hget => ?_⟩
  rw [hcheckpoints] at hget
  by_cases hmn : m = n
  · subst hmn
    rw [Names.get?_insert_self] at hget
    cases hget
    exact ⟨h.extends_view.nins_le, h.extends_view.nk_le,
      Int.ofNat_le.mpr h.extends_view.snapshots.length_le⟩
  · rw [Names.get?_insert_of_ne _ _ hmn] at hget
    exact h.newer ((List.mem_cons.mp hm).resolve_left hmn) hget

/-- **One statement** that stays within the names keeps what `t` holds. -/
theorem step (h : Anchored t names b) (ht : t.Sound) (hb : b.Healthy)
    (hs : (Builder.step s).run b = .ok () b') (hspares : s.turn? ≠ some .restarts)
    (hwithin : staysWithin names (s :: ss) = true) :
    ∃ names', Anchored t names' b' ∧ staysWithin names' ss = true := by
  obtain ⟨-, hadvances, -⟩ := (hb.step s).post hs
  rw [staysWithin] at hwithin
  cases hturn : s.turn? with
  | none =>
    rw [hturn] at hadvances hwithin
    obtain ⟨hg, hcheckpoints⟩ := hadvances
    refine ⟨names, ⟨h.extends_view.growths hb.trace.sound.wellFormed hg.growths, ?_⟩, hwithin⟩
    rw [hcheckpoints]
    exact h.newer
  | some turn =>
    rw [hturn] at hadvances hwithin hspares
    cases turn with
    | takes n => exact ⟨n :: names, h.takes hadvances.1 hadvances.2, hwithin⟩
    | returnsTo n =>
      -- going back forgets no checkpoint, not even those it overtakes
      obtain ⟨cp, hget, hrun, hcheckpoints⟩ := hadvances
      obtain ⟨hn, hwithin⟩ := Bool.and_eq_true_iff.mp hwithin
      obtain ⟨hins, hconst, hsnapshots⟩ := h.newer (List.contains_iff_mem.mp hn) hget
      obtain ⟨haccepts, -, hview⟩ := hb.trace.sound.laid.of_run_rollback hrun
      have hcp := (Trace.accepts_iff.mp haccepts.1).1
      refine ⟨names, ⟨?_, ?_⟩, hwithin⟩
      -- the checkpoint is not older than `t`, so the return takes away nothing of it
      · rw [hview]
        exact h.extends_view.rollback hb.trace.sound.wellFormed ht.wellFormed hcp hins hconst
          hsnapshots
      · rw [hcheckpoints]
        exact h.newer
    | restarts => exact absurd rfl hspares

end Anchored

/-- Statements that stay within the names leave it to those after them to do so. -/
theorem Anchored.run_append (ht : t.Sound) {rest : List Statement}
    (hspares : ∀ s ∈ ss, s.turn? ≠ some .restarts) :
    ∀ {names b}, b.Healthy → Anchored t names b → staysWithin names (ss ++ rest) = true →
      Builder.run ss b = .ok b' →
        ∃ names', Anchored t names' b' ∧ staysWithin names' rest = true := by
  induction ss with
  | nil =>
    intro names b _ h hwithin hrun
    cases hrun
    exact ⟨names, h, hwithin⟩
  | cons s ss ih =>
    intro names b hb h hwithin hrun
    obtain ⟨b₁, hs, hss⟩ := run_cons_eq_ok.mp hrun
    obtain ⟨hs', hss'⟩ := List.forall_mem_cons.mp hspares
    obtain ⟨names', h', hwithin'⟩ := h.step ht hb hs hs' hwithin
    exact ih hss' ((hb.step s).post hs).1 h' hwithin' hss

/-- **Any number of statements** that stay within the names keep what `t` holds. -/
theorem Anchored.run (h : Anchored t names b) (ht : t.Sound) (hb : b.Healthy)
    (hspares : ∀ s ∈ ss, s.turn? ≠ some .restarts) (hwithin : staysWithin names ss = true)
    (hrun : Builder.run ss b = .ok b') : t.view.Extends b'.trace.view := by
  rw [← List.append_nil ss] at hwithin
  obtain ⟨names', h', -⟩ := Anchored.run_append ht hspares hb h hwithin hrun
  exact h'.extends_view

/-! ### What a checkpoint is of -/

/-- A statement that spares a checkpoint leaves it known. -/
private theorem Healthy.get?_of_spares (hb : b.Healthy) (hs : (Builder.step s).run b = .ok () b')
    (hspares : s.Spares n) : b'.checkpoints.get? n = b.checkpoints.get? n := by
  obtain ⟨-, hadvances, -⟩ := (hb.step s).post hs
  obtain ⟨hrestarts, htakes⟩ := hspares
  cases hturn : s.turn? with
  | none =>
    rw [hturn] at hadvances
    rw [hadvances.2]
  | some turn =>
    rw [hturn] at hadvances hrestarts htakes
    cases turn with
    | takes m =>
      have hne : n ≠ m := by
        rintro rfl
        exact htakes rfl
      rw [hadvances.2, Names.get?_insert_of_ne _ _ hne]
    | returnsTo m =>
      obtain ⟨cp, -, -, hcheckpoints⟩ := hadvances
      rw [hcheckpoints]
    | restarts => exact absurd rfl hrestarts

private theorem Healthy.get?_of_run (hb : b.Healthy) (hspares : ∀ s ∈ ss, s.Spares n)
    (hrun : run ss b = .ok b') : b'.checkpoints.get? n = b.checkpoints.get? n := by
  induction ss generalizing b with
  | nil =>
    cases hrun
    rfl
  | cons s ss ih =>
    obtain ⟨b₁, hs, hss⟩ := run_cons_eq_ok.mp hrun
    obtain ⟨hs', hss'⟩ := List.forall_mem_cons.mp hspares
    rw [ih ((hb.step s).post hs).1 hss' hss, hb.get?_of_spares hs hs']

/-- A statement that takes a checkpoint leaves the trace it is of. -/
private theorem ReachedBy.get?_of_takes (h : b.ReachedBy (ss ++ [s]))
    (hs : s.turn? = some (.takes n)) :
    b.checkpoints.get? n = some b.trace.checkpoint := by
  obtain ⟨b₀, hb₀, hstep⟩ := reachedBy_concat.mp h
  obtain ⟨-, hadvances, -⟩ := (hb₀.healthy.step s).post hstep
  rw [hs] at hadvances
  obtain ⟨htrace, hcheckpoints⟩ := hadvances
  rw [hcheckpoints, htrace, Names.get?_insert_self]

/-- **A known checkpoint** was taken by a statement of the script, and none since then has taken
it anew or begun the trace again. -/
theorem ReachedBy.exists_takes {cp : Checkpoint} (h : b.ReachedBy ss)
    (hget : b.checkpoints.get? n = some cp) :
    ∃ pre c mid, ss = pre ++ c :: mid ∧ c.turn? = some (.takes n) ∧ (∀ s ∈ mid, s.Spares n) ∧
      ∃ b₁ : Builder, b₁.ReachedBy (pre ++ [c]) ∧ b₁.trace.checkpoint = cp := by
  induction ss using List.reverseRecOn generalizing b with
  | nil =>
    obtain ⟨t, -, hrun⟩ := h
    cases hrun
    cases hget
  | append_singleton ss s ih =>
    obtain ⟨b₀, hb₀, hstep⟩ := reachedBy_concat.mp h
    -- the last statement takes it, or it was known before and the statement spares it
    by_cases htakes : s.turn? = some (.takes n)
    · rw [h.get?_of_takes htakes] at hget
      cases hget
      exact ⟨ss, s, [], rfl, htakes, fun _ hs => absurd hs List.not_mem_nil, b, h, rfl⟩
    have hrestarts : s.turn? ≠ some .restarts := by
      -- after a new beginning no checkpoint is known
      intro hturn
      obtain ⟨-, hadvances, -⟩ := (hb₀.healthy.step s).post hstep
      rw [hturn] at hadvances
      rw [hadvances.2] at hget
      cases hget
    rw [hb₀.healthy.get?_of_spares hstep ⟨hrestarts, htakes⟩] at hget
    obtain ⟨pre, c, mid, rfl, hc, hmid, hb₁⟩ := ih hb₀ hget
    refine ⟨pre, c, mid ++ [s], by simp, hc, ?_, hb₁⟩
    simp only [List.mem_append, List.mem_singleton]
    rintro s' (hs' | rfl)
    · exact hmid s' hs'
    · exact ⟨hrestarts, htakes⟩

/-! ### What a rollback restores -/

/-- A part of a script that begins with taking a checkpoint and ends with going back to it, and the
states at its beginning, just before its end and at its end. -/
structure Excursion (pre : List Statement) (c : Statement) (mid : List Statement) (r : Statement)
    (n : Bytes) (b₁ b b₂ : Builder) : Prop where
  takes : c.turn? = some (.takes n)
  spares : ∀ s ∈ mid, s.Spares n
  returns : r.turn? = some (.returnsTo n)
  begins : b₁.ReachedBy (pre ++ [c])
  lasts : b.ReachedBy (pre ++ c :: mid)
  ends : b₂.ReachedBy (pre ++ c :: mid ++ [r])

variable {pre mid : List Statement} {c r : Statement}

namespace Excursion

theorem run_mid (h : Excursion pre c mid r n b₁ b b₂) : run mid b₁ = .ok b := by
  have hlasts := h.lasts
  rw [List.append_cons] at hlasts
  obtain ⟨b₀, hb₀, hrun⟩ := reachedBy_append.mp hlasts
  rwa [← hb₀.unique h.begins]

theorem get?_checkpoint (h : Excursion pre c mid r n b₁ b b₂) :
    b.checkpoints.get? n = some b₁.trace.checkpoint := by
  rw [h.begins.healthy.get?_of_run h.spares h.run_mid, h.begins.get?_of_takes h.takes]

/-- The return goes to the checkpoint that was taken. -/
private theorem run_rollback (h : Excursion pre c mid r n b₁ b b₂) :
    (Trace.rollback b₁.trace.checkpoint).run b.trace = .ok () b₂.trace := by
  obtain ⟨b₀, hb₀, hstep⟩ := reachedBy_concat.mp h.ends
  obtain rfl := hb₀.unique h.lasts
  obtain ⟨-, hadvances, -⟩ := (h.lasts.healthy.step r).post hstep
  rw [h.returns] at hadvances
  obtain ⟨cp, hget, hback, -⟩ := hadvances
  rw [h.get?_checkpoint] at hget
  cases hget
  exact hback

theorem anchored (h : Excursion pre c mid r n b₁ b b₂) : Anchored b₁.trace [n] b₁ := by
  refine ⟨.refl _, fun {m cp} hm hget => ?_⟩
  rw [List.mem_singleton.mp hm, h.begins.get?_of_takes h.takes] at hget
  cases hget
  exact ⟨UInt32.le_rfl, UInt32.le_rfl, Int.le_refl _⟩

/-- Statements that stay within the checkpoint keep what the trace held. -/
private theorem still_held (h : Excursion pre c mid r n b₁ b b₂)
    (hwithin : staysWithin [n] mid = true) :
    b₁.trace.view.Extends b.trace.view :=
  h.anchored.run h.begins.healthy.trace.sound h.begins.healthy
    (fun s hs => (h.spares s hs).1) hwithin h.run_mid

private theorem sameRecording_iff (h : Excursion pre c mid r n b₁ b b₂) :
    b₂.trace.SameRecording b₁.trace ↔ b₁.trace.view.Extends b.trace.view :=
  h.begins.healthy.trace.sound.sameRecording_iff_extends h.lasts.healthy.trace.sound h.run_rollback

/-- **A rollback** restores the recording that its checkpoint was taken of exactly if the trace
still holds all of it. This is so if the statements in between went back to no older checkpoint. -/
theorem restores_iff_still_held (h : Excursion pre c mid r n b₁ b b₂) :
    (b₂.trace.SameRecording b₁.trace ↔ b₁.trace.view.Extends b.trace.view) ∧
      (staysWithin [n] mid = true → b₂.trace.SameRecording b₁.trace) :=
  ⟨h.sameRecording_iff, fun hwithin => h.sameRecording_iff.mpr (h.still_held hwithin)⟩

end Excursion

/-- **Every return** in a script ends an excursion. -/
theorem ReachedBy.exists_excursion (h : b₂.ReachedBy (ss ++ [r]))
    (hr : r.turn? = some (.returnsTo n)) :
    ∃ pre c mid b₁ b, ss = pre ++ c :: mid ∧ Excursion pre c mid r n b₁ b b₂ := by
  obtain ⟨b, hb, hstep⟩ := reachedBy_concat.mp h
  obtain ⟨-, hadvances, -⟩ := (hb.healthy.step r).post hstep
  rw [hr] at hadvances
  obtain ⟨cp, hget, -, -⟩ := hadvances
  obtain ⟨pre, c, mid, rfl, hc, hmid, b₁, hb₁, -⟩ := hb.exists_takes hget
  exact ⟨pre, c, mid, b₁, b, rfl, hc, hmid, hr, hb₁, hb, h⟩

/-- The part of a source from its statement `i` to its last one, if that is an excursion: what lies
between the two, and the states at its beginning and at its end. -/
def lastExcursion? (text : Bytes) (i : Nat) (n : Bytes) :
    Option (List Statement × Builder × Builder) := do
  let p ← (parseFile [] text).tree?
  let r ← p.statements.getLast?
  let c ← p.statements.dropLast[i]?
  let pre := p.statements.dropLast.take i
  let mid := p.statements.dropLast.drop (i + 1)
  let b₁ ← reach? (pre ++ [c])
  let b₂ ← reach? (pre ++ c :: mid ++ [r])
  if c.turn? = some (.takes n) ∧ mid.all (fun s => s.Spares n) = true ∧
      r.turn? = some (.returnsTo n) then
    some (mid, b₁, b₂)
  else none

theorem exists_of_lastExcursion? {text : Bytes} {i : Nat}
    (h : lastExcursion? text i n = some (mid, b₁, b₂)) :
    ∃ p, parseFile [] text = .tree p ∧ ∃ pre c r b, p.statements = pre ++ c :: mid ++ [r] ∧
      Excursion pre c mid r n b₁ b b₂ := by
  obtain ⟨p, hp, h⟩ := Option.bind_eq_some_iff.mp h
  obtain ⟨r, hr, h⟩ := Option.bind_eq_some_iff.mp h
  obtain ⟨c, hc, h⟩ := Option.bind_eq_some_iff.mp h
  obtain ⟨b₁', hbegins, h⟩ := Option.bind_eq_some_iff.mp h
  obtain ⟨b₂', hends, h⟩ := Option.bind_eq_some_iff.mp h
  split at h
  · next hturns =>
    cases h
    obtain ⟨htakes, hspares, hreturns⟩ := hturns
    have hspares := fun s hs => of_decide_eq_true (List.all_eq_true.mp hspares s hs)
    have hbegins := reach?_eq_some_iff.mp hbegins
    have hends := reach?_eq_some_iff.mp hends
    -- the end is reached through the state just before it
    obtain ⟨b, hlasts, -⟩ := reachedBy_append.mp hends
    obtain ⟨hi, rfl⟩ := List.getElem?_eq_some_iff.mp hc
    refine ⟨p, Parsed.of_tree? hp, _, _, r, b, ?_, htakes, hspares, hreturns, hbegins, hlasts, hends⟩
    rw [← List.drop_eq_getElem_cons hi, List.take_append_drop, List.dropLast_append_getLast? r hr]
  · cases h

/-- Two checkpoints, one within the other, and returns to both. -/
def nestedReturns : Bytes :=
  Bytes.ascii ("a = checkpoint\nx = SLOAD.int! #1 #0\nb = checkpoint\n" ++
    "snap x\nrollback b\nrollback a\n")

theorem Excursion.restores_of_nestedReturns :
    ∃ p, parseFile [] nestedReturns = .tree p ∧
      ∃ pre c mid r n b₁ b b₂, p.statements = pre ++ c :: mid ++ [r] ∧
        Excursion pre c mid r n b₁ b b₂ ∧ b₂.trace.SameRecording b₁.trace := by
  have h : (lastExcursion? nestedReturns 0 (Bytes.ascii "a")).any (fun e =>
      staysWithin [Bytes.ascii "a"] e.1) = true := by decide +kernel
  obtain ⟨⟨mid, b₁, b₂⟩, hlast, hwithin⟩ := (Option.any_eq_true _ _).mp h
  obtain ⟨p, hp, pre, c, r, b, hsplit, hex⟩ := exists_of_lastExcursion? hlast
  exact ⟨p, hp, pre, c, mid, r, _, b₁, b, b₂, hsplit, hex, hex.restores_iff_still_held.2 hwithin⟩

/-- A return to a checkpoint that an older one has overtaken: by then the trace holds something
else in its place. -/
def overtakenReturn : Bytes :=
  Bytes.ascii ("a = checkpoint\nx = SLOAD.int! #1 #0\nb = checkpoint\nrollback a\n" ++
    "y = SLOAD.num! #2 #0\nz = SLOAD.num! #3 #0\nrollback b\n")

theorem Excursion.not_restores_of_overtakenReturn :
    ∃ p, parseFile [] overtakenReturn = .tree p ∧
      ∃ pre c mid r n b₁ b b₂, p.statements = pre ++ c :: mid ++ [r] ∧
        Excursion pre c mid r n b₁ b b₂ ∧ ¬ b₂.trace.SameRecording b₁.trace := by
  have h : (lastExcursion? overtakenReturn 2 (Bytes.ascii "b")).any (fun e =>
      decide (e.2.2.trace.view.record Ref.first ≠ e.2.1.trace.view.record Ref.first)) = true := by
    decide +kernel
  obtain ⟨⟨mid, b₁, b₂⟩, hlast, hdiff⟩ := (Option.any_eq_true _ _).mp h
  obtain ⟨p, hp, pre, c, r, b, hsplit, hex⟩ := exists_of_lastExcursion? hlast
  refine ⟨p, hp, pre, c, mid, r, _, b₁, b, b₂, hsplit, hex, fun hsame => ?_⟩
  exact of_decide_eq_true hdiff (by rw [hsame.view_record])

end Builder

/-! ### Orderly scripts -/

/-- Between a checkpoint and a return to it there is no return to an older checkpoint. -/
def Orderly (script : List Statement) : Prop :=
  ∀ pre c mid r post n, script = pre ++ c :: (mid ++ r :: post) → c.turn? = some (.takes n) →
    (∀ s ∈ mid, s.Spares n) → r.turn? = some (.returnsTo n) → staysWithin [n] mid = true

/-- Are all returns to the checkpoint in order, as long as no statement takes it anew? It is
`within` until there is a return to none of the names. -/
def returnsInOrder (n : Bytes) (names : List Bytes) (within : Bool) : List Statement → Bool
  | [] => true
  | s :: ss =>
    match s.turn? with
    | none => returnsInOrder n names within ss
    | some .restarts => true
    | some (.takes m) => m == n || returnsInOrder n (m :: names) within ss
    | some (.returnsTo m) =>
      (m != n || within) && returnsInOrder n names (within && names.contains m) ss

private theorem returnsInOrder_iff {n : Bytes} (ss : List Statement) : ∀ {names within},
    returnsInOrder n names within ss = true ↔
      ∀ mid r post, ss = mid ++ r :: post → (∀ s ∈ mid, s.Spares n) →
        r.turn? = some (.returnsTo n) → (within && staysWithin names mid) = true := by
  induction ss with
  | nil =>
    intro names within
    refine ⟨fun _ mid r post h => absurd h (by simp), fun _ => rfl⟩
  | cons s ss ih =>
    intro names within
    -- a return to `n` is the first statement or one of the others
    have hsplit : (∀ mid r post, s :: ss = mid ++ r :: post → (∀ s ∈ mid, s.Spares n) →
          r.turn? = some (.returnsTo n) → (within && staysWithin names mid) = true) ↔
        (s.turn? = some (.returnsTo n) → within = true) ∧
          (s.Spares n → ∀ mid r post, ss = mid ++ r :: post → (∀ s ∈ mid, s.Spares n) →
            r.turn? = some (.returnsTo n) → (within && staysWithin names (s :: mid)) = true) := by
      constructor
      · intro h
        refine ⟨fun hs => ?_, fun hs mid r post hss hmid hr => ?_⟩
        · simpa [staysWithin] using h [] s ss rfl (by simp) hs
        · exact h (s :: mid) r post (by rw [hss]; rfl) (List.forall_mem_cons.mpr ⟨hs, hmid⟩) hr
      · rintro ⟨hfirst, hrest⟩ mid r post hss hmid hr
        cases mid with
        | nil =>
          cases hss
          simp [staysWithin, hfirst hr]
        | cons s' mid =>
          cases hss
          obtain ⟨hs, hmid⟩ := List.forall_mem_cons.mp hmid
          exact hrest hs mid r post rfl hmid hr
    rw [hsplit, returnsInOrder]
    -- for the others the names and the flag are those after the first statement
    cases hturn : s.turn? with
    | none => simp [ih, Statement.Spares, staysWithin, hturn]
    | some turn =>
      cases turn with
      | takes m =>
        by_cases hm : m = n
        · simp [Statement.Spares, hturn, hm]
        · simp [ih, Statement.Spares, staysWithin, hturn, hm]
      | returnsTo m =>
        by_cases hm : m = n
        · simp [ih, Statement.Spares, staysWithin, hturn, hm, Bool.and_assoc]
        · simp [ih, Statement.Spares, staysWithin, hturn, hm, Bool.and_assoc]
      | restarts => simp [Statement.Spares, hturn]

private theorem orderly_cons {s : Statement} {ss : List Statement} :
    Orderly (s :: ss) ↔
      (∀ n, s.turn? = some (.takes n) → returnsInOrder n [n] true ss = true) ∧ Orderly ss := by
  simp only [returnsInOrder_iff, Bool.true_and]
  constructor
  · intro h
    refine ⟨fun n hs mid r post hss => ?_, fun pre c mid r post n hss => ?_⟩
    · exact h [] s mid r post n (by rw [hss]; rfl) hs
    · exact h (s :: pre) c mid r post n (by rw [hss]; rfl)
  · rintro ⟨hfirst, hrest⟩ pre c mid r post n hss hc
    cases pre with
    | nil =>
      cases hss
      exact hfirst n hc mid r post rfl
    | cons s' pre =>
      cases hss
      exact hrest pre c mid r post n rfl hc

/-- Is the script orderly? -/
def isOrderly : List Statement → Bool
  | [] => true
  | s :: ss =>
    (match s.turn? with
      | some (.takes n) => returnsInOrder n [n] true ss
      | _ => true) && isOrderly ss

theorem isOrderly_iff (script : List Statement) : isOrderly script = true ↔ Orderly script := by
  induction script with
  | nil => exact ⟨fun _ pre c mid r post n hss => absurd hss (by simp), fun _ => rfl⟩
  | cons s ss ih =>
    rw [isOrderly, Bool.and_eq_true_iff, ih, orderly_cons]
    refine and_congr_left fun _ => ?_
    cases hturn : s.turn? with
    | none => simp
    | some turn =>
      cases turn with
      | takes n => simp
      | returnsTo n => simp
      | restarts => simp

instance (script : List Statement) : Decidable (Orderly script) :=
  decidable_of_iff _ (isOrderly_iff script)

theorem Orderly.of_append {ss ss' : List Statement} (h : Orderly (ss ++ ss')) : Orderly ss := by
  intro pre c mid r post n hss
  exact h pre c mid r (post ++ ss') n (by rw [hss]; simp)

/-- **In an orderly script** every return restores an earlier recording. -/
theorem Orderly.exists_restored {ss : List Statement} {r : Statement} {n : Bytes} {b₂ : Builder}
    (h : Orderly (ss ++ [r])) (hb₂ : b₂.ReachedBy (ss ++ [r]))
    (hr : r.turn? = some (.returnsTo n)) :
    ∃ pre c mid, ss = pre ++ c :: mid ∧
      ∃ b₁ : Builder, b₁.ReachedBy (pre ++ [c]) ∧ b₂.trace.SameRecording b₁.trace := by
  obtain ⟨pre, c, mid, b₁, b, rfl, hex⟩ := hb₂.exists_excursion hr
  have hwithin := h pre c mid r [] n (by simp) hex.takes hex.spares hr
  exact ⟨pre, c, mid, rfl, b₁, hex.begins, hex.sameRecording_iff.mpr (hex.still_held hwithin)⟩

end Script

end TraceIR
