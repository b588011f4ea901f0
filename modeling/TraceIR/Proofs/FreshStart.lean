import TraceIR.Proofs.Answering
import TraceIR.Proofs.Replay

/-!
# A fresh start

A trace that begins again keeps its array, its pool and its folder, and forgets all the rest. From
then on it does what a new trace does.

* `View.SameSettings` — options and folder, which recording leaves alone.
  `Attainable.normalize_config` — the options of a trace are those that a new one is given.
* `Trace.GoesOnLike` — whatever operations follow, they are answered alike, and what can be read
  from the traces is the same.
* `Laid.twins_of_setup` — a trace that begins again and a new one are twins.
* `setup_is_fresh_start` — the law for traces and for scripts.
-/

namespace TraceIR

/-! ### Options and folder -/

private theorem Config.normalize_normalize (c : Config) : c.normalize.normalize = c.normalize := by
  unfold normalize
  simp only [Config.mk.injEq, and_true]
  -- a default makes sense, and so does what is left as it was
  refine ⟨?_, ?_, ?_⟩ <;> split <;> rfl

namespace View

variable {v w : View}

/-- The views have the same options and the same folder. -/
structure SameSettings (v w : View) : Prop where
  config : w.config = v.config
  folder : w.folder = v.folder

namespace SameSettings

private theorem refl (v : View) : v.SameSettings v :=
  ⟨rfl, rfl⟩

private theorem trans {x : View} (h : v.SameSettings w) (h' : w.SameSettings x) :
    v.SameSettings x :=
  ⟨h'.config.trans h.config, h'.folder.trans h.folder⟩

private theorem growths (h : Relation.ReflTransGen View.Growth v w) : v.SameSettings w := by
  induction h with
  | refl => exact .refl v
  | tail _ hg ih =>
    refine ih.trans ?_
    cases hg with
    | pool x => exact ⟨rfl, rfl⟩
    | resetGuard => exact ⟨rfl, rfl⟩
    | snapshot refs => exact ⟨rfl, rfl⟩
    | push x _ _ => exact ⟨rfl, rfl⟩
    | pushConstant x _ _ => exact ⟨rfl, rfl⟩

private theorem popInstruction (v : View) : v.SameSettings v.popInstruction := by
  unfold View.popInstruction
  split
  · exact .refl v
  · exact ⟨rfl, rfl⟩

private theorem popConstant (v : View) : v.SameSettings v.popConstant := by
  unfold View.popConstant
  split
  · exact .refl v
  · exact ⟨rfl, rfl⟩

private theorem iterate {f : View → View} (hf : ∀ v : View, v.SameSettings (f v)) (n : Nat) :
    ∀ v : View, v.SameSettings (f^[n] v) := by
  induction n with
  | zero => exact refl
  | succ n ih => exact fun v => (hf v).trans (ih (f v))

private theorem rollback (v : View) (cp : Checkpoint) : v.SameSettings (v.rollback cp) := by
  have hcut : v.SameSettings { v with snapshots := v.snapshots.take cp.snapshots.toNat } :=
    ⟨rfl, rfl⟩
  exact (hcut.trans (iterate popInstruction _ _)).trans (iterate popConstant _ _)

end SameSettings

end View

namespace Trace

variable {t : Trace}

/-- An operation leaves the options alone. -/
private theorem Woven.config_operate (h : t.Woven) (o : Operation) :
    (t.operate o).config = t.config := by
  cases o with
  | eliminate =>
    by_cases hsweeps : t.Sweeps
    · obtain ⟨s, t₁, hwalked, -, -, hview⟩ := hsweeps.eliminate (I := fun _ _ _ => True) h.laid
        (fun _ _ _ _ _ => True.intro) fun _ _ => True.intro
      have houtline : t.view.SameOutline (t.after eliminateDeadCode).view := by
        rw [hview]
        exact hwalked.outline.trans t₁.view.sameOutline_relink
      exact houtline.config
    · rw [Trace.operate, h.laid.eliminate_of_not_sweeps hsweeps]
  | step s =>
    -- a step makes the trace grow, rolls it back, begins again or changes the folder
    rcases step_cases t s with hgrows | ⟨cp, rfl⟩ | rfl | ⟨f, rfl⟩
    · exact (View.SameSettings.growths (hgrows h.laid).2).config
    · rcases h.laid.step_rollback cp with hsame | ⟨-, -, hview⟩
      · rw [Trace.operate, hsame]
      · have hsettings := View.SameSettings.rollback t.view cp
        rw [← hview] at hsettings
        exact hsettings.config
    · obtain ⟨t', hrun, -, hview⟩ := h.laid.run_setup
      rw [Trace.operate, step, after_of_ok hrun]
      exact congrArg View.config hview
    · rfl

/-- **The options of a trace** make sense as they are. -/
theorem Attainable.normalize_config (h : Attainable t) : t.config.normalize = t.config := by
  induction h with
  | @start config pool t h =>
    have hconfig : t.config = config.normalize := congrArg View.config (start_eq_ok h).2
    rw [hconfig, Config.normalize_normalize]
  | operate h o ih => rw [h.woven.config_operate o, ih]

private theorem Attainable.operations (h : Attainable t) (l : List Operation) :
    Attainable (t.operations l) := by
  induction l generalizing t with
  | nil => exact h
  | cons o l ih => exact ih (h.operate o)

/-- Whether a trace can be started depends on the options only. -/
private theorem exists_start_of_normalize {config config' : Config} {pool : Pool}
    (h : start config pool = .ok t) (hconfig : config'.normalize = config.normalize) (pool' : Pool) :
    ∃ u, start config' pool' = .ok u := by
  rw [start] at h
  split at h
  · next t' hrun =>
    obtain ⟨hroom, hbase, hslots, -⟩ := run_setup_eq_ok.mp hrun
    have hrun' := (run_setup_eq_ok (t := { config := config.normalize, pool := pool' })).mpr
      ⟨hroom, hbase, hslots, rfl⟩
    rw [start, hconfig, hrun']
    exact ⟨_, rfl⟩
  · cases h

private theorem Attainable.exists_start (h : Attainable t) {config : Config}
    (hconfig : config.normalize = t.config) (pool : Pool) : ∃ u, Trace.start config pool = .ok u := by
  induction h with
  | @start config₀ pool₀ t h =>
    have hconfig₀ : t.config = config₀.normalize := congrArg View.config (start_eq_ok h).2
    exact exists_start_of_normalize h (hconfig.trans hconfig₀) pool
  | operate h o ih => exact ih (hconfig.trans (h.woven.config_operate o))

/-! ### Traces that begin again -/

/-- Whatever operations follow, as long as they break no rule in either trace, they are answered
alike, and what can be read from the traces is the same. -/
def GoesOnLike (t u : Trace) : Prop :=
  ∀ l : List Operation, (∀ b, .error (.broken b) ∉ t.answers l) →
    (∀ b, .error (.broken b) ∉ u.answers l) →
    u.answers l = t.answers l ∧ (t.operations l).Indistinguishable (u.operations l) ∧
      ∀ r, (u.operations l).value r = (t.operations l).value r

private theorem Twins.goesOnLike {u : Trace} (h : Twins t u) : t.GoesOnLike u := by
  intro l ht hu
  obtain ⟨hanswers, h'⟩ := Twins.operations l h ht hu
  exact ⟨hanswers, h'.indistinguishable, h'.value_eq⟩

/-- **Beginning again** makes a trace the twin of a new one with the same options and folder. -/
theorem Laid.twins_of_setup (h : t.Laid) {t' u : Trace} {config : Config} {pool : Pool}
    (hconfig : config.normalize = t.config) (hsetup : setup.run t = .ok () t')
    (hstart : start config pool = .ok u) : Twins { u with folder := t.folder } t' := by
  obtain ⟨t₁, hrun, hlaid, hview⟩ := h.run_setup
  rw [hsetup] at hrun
  cases hrun
  obtain ⟨hlaid', hview'⟩ := start_eq_ok hstart
  -- the folder of a new trace is put in afterwards
  have hfolder : { u with folder := t.folder : Trace }.view =
      View.initial t.config pool t.folder := by
    rw [← hconfig]
    exact congrArg (fun v : View => { v with folder := t.folder }) hview'
  refine ⟨⟨hlaid'.of_view rfl rfl rfl rfl, hlaid, ?_⟩, ?_, ?_⟩
  · rw [hview, hfolder]
    exact View.twin_initial rfl _ _ _
  · rw [hfolder]
    exact View.threaded_initial ..
  · rw [hview]
    exact View.threaded_initial ..

end Trace

namespace Script.Builder

variable {b b' : Builder} {s : Statement}

/-! ### Scripts that begin again -/

/-- A statement leaves the folder alone. -/
private theorem Healthy.folder_step (h : b.Healthy) (hrun : (Builder.step s).run b = .ok () b') :
    b'.trace.folder = b.trace.folder := by
  obtain ⟨-, hadvances, -⟩ := (h.step s).post hrun
  have hlaid := h.trace.sound.laid
  rw [Advances.eq_def] at hadvances
  split at hadvances
  · exact (hadvances.1.extends h.trace.sound.wellFormed).folder
  · rw [hadvances.1]
  · obtain ⟨cp, -, hback, -⟩ := hadvances
    obtain ⟨-, -, hview⟩ := hlaid.of_run_rollback hback
    have hsettings := View.SameSettings.rollback b.trace.view cp
    rw [← hview] at hsettings
    exact hsettings.folder
  · obtain ⟨t', hsetup, -, hview⟩ := hlaid.run_setup
    rw [hadvances.1] at hsetup
    cases hsetup
    exact congrArg View.folder hview

/-- The folder of a script is the one that it was given. -/
private theorem ReachedBy.folder {script : List Statement} (h : b.ReachedBy script) :
    b.trace.folder = some (.ofConfig ({} : Config).normalize) := by
  induction script using List.reverseRecOn generalizing b with
  | nil =>
    obtain ⟨t, ht, hrun⟩ := h
    cases hrun
    have hconfig : t.config = ({} : Config).normalize := (Healthy.of_startTrace ht).config
    rw [startTrace] at ht
    split at ht
    · cases ht
      exact congrArg (some ∘ Folder.ofConfig) hconfig
    · cases ht
  | append_singleton ss s ih =>
    obtain ⟨b₁, hb₁, hstep⟩ := reachedBy_concat.mp h
    rw [hb₁.healthy.folder_step hstep, ih hb₁]

/-- The statement of a line that says `reset`. -/
def resetStatement : Statement where
  pos := 0
  stop := 5
  name := none
  op := ⟨0, Bytes.ascii "reset"⟩
  ty := none
  guard := false
  args := []

private theorem parseFile_reset (name : Bytes) :
    parseFile name (Bytes.ascii "reset") = .tree ⟨0, 5, [resetStatement]⟩ := by
  rw [parseFile_eq_tree_iff]
  exact ⟨rfl, rfl, by decide +kernel⟩

/-- **A line that says `reset`** leads to a state that is like the one at the beginning. -/
theorem ReachedBy.exists_reset {script : List Statement} (h : b.ReachedBy script) {t : Trace}
    (ht : startTrace {} = .ok t) (k : Nat) :
    ∃ c, (Builder.step (resetStatement.moved k)).run b = .ok () c ∧ Alike { trace := t } c := by
  have hlaid := h.healthy.trace.sound.laid
  obtain ⟨t', hsetup, -, -⟩ := hlaid.run_setup
  have horder : b.order (resetStatement.moved k) = .ok .reset := rfl
  have hreset : (carryOut .reset).run b = .ok .none { trace := t' } := by
    unfold carryOut silently reset
    rw [EStateM.run_bind, EStateM.run_bind, run_record_of_ok hsetup]
    rfl
  refine ⟨{ trace := t' }, run_step_eq_ok.mpr ⟨.reset, .none, _, horder, hreset, rfl⟩, ?_, rfl, rfl⟩
  -- the beginning of a script is a new trace with the folder of its options
  rw [startTrace] at ht
  split at ht
  · next u hstart =>
    cases ht
    have htwins := hlaid.twins_of_setup h.healthy.config.symm hsetup hstart
    have hconfig : u.config = ({} : Config).normalize := congrArg View.config (Trace.start_eq_ok hstart).2
    rw [h.folder, ← hconfig] at htwins
    exact htwins
  · cases ht

end Script.Builder

open Script

/-- Dead code elimination leaves traces that mirror each other. -/
private theorem mirrors_of_optimize {t u t' u' : Trace} (h : Trace.Mirrors t u)
    (ht : optimize t = .ok t') (hu : optimize u = .ok u') : Trace.Mirrors t' u' := by
  have hmatch := Trace.lockstep_eliminateDeadCode t u h
  change Trace.Match _ _ (Trace.eliminateDeadCode t) (Trace.eliminateDeadCode u) at hmatch
  rw [optimize] at ht hu
  generalize Trace.eliminateDeadCode t = y, Trace.eliminateDeadCode u = z at hmatch ht hu
  cases hmatch with
  | ok h' =>
    cases ht
    cases hu
    exact h'
  | error _ => cases ht
  | left _ => cases ht
  | right _ => cases hu

/-- Two scripts with a line between them that says `reset`. -/
def resetBetween (a b : Bytes) : Bytes :=
  a ++ Bytes.ascii "\nreset\n" ++ b

/-- What comes before a line that says `reset` is not seen. -/
private theorem compile_resetBetween {name a b dump : Bytes} {t : Trace}
    (ha : build {} name a = .ok t) (hb : compile {} name b = .ok dump) :
    compile {} name (resetBetween a b) = .ok dump := by
  obtain ⟨p, c, hp, hc, -⟩ := Builder.build_eq_ok_iff.mp ha
  obtain ⟨u, u', hbuild, hoptimize, -⟩ := exists_of_compile hb
  obtain ⟨q, d, hq, hd, rfl⟩ := Builder.build_eq_ok_iff.mp hbuild
  obtain ⟨t₀, ht₀, hrun⟩ := hd
  -- the text is the first script, the line, and the second script
  obtain ⟨p₁, hp₁, hstatements₁⟩ := parseFile_append hp (Builder.parseFile_reset name)
  obtain ⟨p₂, hp₂, hstatements₂⟩ := parseFile_append hp₁ hq
  have htext : (a ++ 0x0a :: Bytes.ascii "reset") ++ 0x0a :: b = resetBetween a b := by
    have hline : Bytes.ascii "\nreset\n" = 0x0a :: (Bytes.ascii "reset" ++ [0x0a]) := by decide
    rw [resetBetween, hline]
    simp only [List.append_assoc, List.cons_append, List.nil_append]
  -- after the line the state is like that at the beginning
  obtain ⟨c₁, hreset, halike⟩ := hc.exists_reset ht₀ (a.length + 1)
  have hc₁ : c₁.ReachedBy p₁.statements := by
    rw [hstatements₁]
    exact Builder.reachedBy_concat.mpr ⟨c, hc, hreset⟩
  -- so the second script does again what it does alone
  obtain ⟨d', hrun', halike'⟩ :=
    halike.run ((a ++ 0x0a :: Bytes.ascii "reset").length + 1) hc₁.healthy hrun
  have hd' : d'.ReachedBy p₂.statements := by
    rw [hstatements₂]
    exact Builder.reachedBy_append.mpr ⟨c₁, hc₁, hrun'⟩
  have hbuild' : build {} name (resetBetween a b) = .ok d'.trace :=
    Builder.build_eq_ok_iff.mpr ⟨p₂, d', htext ▸ hp₂, hd', rfl⟩
  -- optimizing can fail at snapshots only, and those are the same
  have hheld : d'.trace.SnapshotsHeld := by
    have hanswered : Answered (compile {} name b) := by
      rw [hb]
      exact True.intro
    have hheld := (answered_iff_snapshotsHeld name b).mp hanswered d.trace hbuild
    rw [Trace.SnapshotsHeld, halike'.trace.snapshots_eq, halike'.trace.nins_eq]
    exact hheld
  obtain ⟨w, hoptimize', -, -⟩ := exists_optimize hbuild' hheld
  have hmirrors := mirrors_of_optimize halike'.trace.toMirrors hoptimize hoptimize'
  rw [compile, hbuild, ok_bind, hoptimize, ok_bind] at hb
  rw [compile, hbuild', ok_bind, hoptimize', ok_bind, hmirrors.dump_eq, hmirrors.histogram_eq]
  exact hb

/-! ### The law -/

namespace Trace

/-- **Beginning again is beginning.** A trace that begins again goes on like a new one with its
options, its pool and its folder, whatever it held before. A script that comes after another one and
a line that says `reset` is compiled as if it stood alone. -/
theorem setup_is_fresh_start :
    (∀ t : Trace, Attainable t → t.config.normalize = t.config ∧
      ∃ t', setup.run t = .ok () t' ∧ ∀ config : Config, config.normalize = t.config →
        ∃ u, start config t.pool = .ok u ∧ { u with folder := t.folder : Trace }.GoesOnLike t') ∧
    ∀ name a b dump t, build {} name a = .ok t → compile {} name b = .ok dump →
      compile {} name (resetBetween a b) = .ok dump := by
  refine ⟨fun t h => ⟨h.normalize_config, ?_⟩, fun name a b dump t => compile_resetBetween⟩
  obtain ⟨t', hsetup, -, -⟩ := h.woven.laid.run_setup
  refine ⟨t', hsetup, fun config hconfig => ?_⟩
  obtain ⟨u, hstart⟩ := h.exists_start hconfig t.pool
  exact ⟨u, hstart, (h.woven.laid.twins_of_setup hconfig hsetup hstart).goesOnLike⟩

/-- A script that fills the trace and gives names. -/
def scriptBefore : Bytes :=
  Bytes.ascii "x = kint 1\ns = SLOAD.int #1 #0\ny = ADD s x\nc = checkpoint\nz = MUL y y\nsnap z\n"

/-- A script that gives some of the names to something else. -/
def scriptAfter : Bytes :=
  Bytes.ascii "s = SLOAD.int #2 #0\nx = kint 2\ny = ADD s x\nw = MUL y s\nsnap y"

/-- Two constants, for which a small buffer has to move its contents, and a snapshot. -/
def movingOperations : List Operation :=
  [.step (.useFolder (some ⟨true, true⟩)), .step (.intern (.int 1)), .step (.intern (.int 2)),
    .step (.addSnapshot [Ref.base])]

/-- The small buffer has moved before it begins again, and stays where it is. -/
theorem fresh_start_after_growth :
    ∃ t₀ t t' u, start { minSize := 16 } {} = .ok t₀ ∧ t = t₀.operations movingOperations ∧
      setup.run t = .ok () t' ∧ start { minSize := 16 } t.pool = .ok u ∧
      t'.buffer.bot < u.buffer.bot ∧
      (∀ b, .error (.broken b) ∉ t'.answers mixedOperations) ∧
      t'.answers mixedOperations = { u with folder := t.folder : Trace }.answers mixedOperations ∧
      ∃ v dump, build {} [] scriptBefore = .ok v ∧ compile {} [] scriptAfter = .ok dump ∧
        compile {} [] (resetBetween scriptBefore scriptAfter) = .ok dump := by
  obtain ⟨t₀, ht₀⟩ : ∃ t, start { minSize := 16 } {} = .ok t := ⟨_, rfl⟩
  have hattainable := (Attainable.start ht₀).operations movingOperations
  obtain ⟨-, t', hsetup, hnew⟩ := setup_is_fresh_start.1 _ hattainable
  obtain ⟨hconfig, hpool, hfolder⟩ :
      ({ minSize := 16 } : Config).normalize = (t₀.operations movingOperations).config ∧
        (t₀.operations movingOperations).pool = {} ∧
        (t₀.operations movingOperations).folder = some ⟨true, true⟩ := by
    cases ht₀
    exact ⟨rfl, rfl, rfl⟩
  obtain ⟨u, hstart, hgoes⟩ := hnew { minSize := 16 } hconfig
  have ht' : t' = (t₀.operations movingOperations).after setup := (after_of_ok hsetup).symm
  have hu : start { minSize := 16 } {} = .ok u := hpool ▸ hstart
  have hanswers : t'.answers mixedOperations = mixedAnswers := by
    rw [ht']
    cases ht₀
    rfl
  have hanswers' : { u with folder := (t₀.operations movingOperations).folder : Trace }.answers
      mixedOperations = mixedAnswers := by
    rw [hfolder]
    cases hu
    rfl
  have hbot : t'.buffer.bot < u.buffer.bot := by
    rw [ht']
    cases ht₀
    cases hu
    decide +kernel
  have hquiet : ∀ b, .error (.broken b) ∉ mixedAnswers := by
    intro b
    simp [mixedAnswers]
  obtain ⟨hsame, -⟩ := hgoes mixedOperations (hanswers' ▸ hquiet) (hanswers ▸ hquiet)
  have hbuild : (build {} [] scriptBefore).toOption.isSome = true := by decide +kernel
  have hcompile : (compile {} [] scriptAfter).toOption.isSome = true := by decide +kernel
  obtain ⟨v, hv⟩ := Option.isSome_iff_exists.mp hbuild
  obtain ⟨dump, hdump⟩ := Option.isSome_iff_exists.mp hcompile
  rw [toOption_eq_some_iff] at hv hdump
  exact ⟨t₀, _, t', u, ht₀, rfl, hsetup, hstart, hbot, hanswers ▸ hquiet, hsame, v, dump, hv, hdump,
    setup_is_fresh_start.2 _ _ _ _ _ hv hdump⟩

/-- An instruction with the opcode of a constant shows where the buffer has gone before. -/
theorem misplaced_null_shows_setup :
    ∃ t t' u, Attainable t ∧ setup.run t = .ok () t' ∧ start t.config t.pool = .ok u ∧
      t'.outcome misplacedNull = .ok (.of Ref.first Ty.int) ∧
      { u with folder := t.folder : Trace }.outcome misplacedNull = .ok (.of 0x7ffa Ty.int) := by
  obtain ⟨t₀, ht₀⟩ : ∃ t, start { minSize := 16 } {} = .ok t := ⟨_, rfl⟩
  have hattainable := (Attainable.start ht₀).operations movingOperations
  obtain ⟨t', hsetup, -, -⟩ := hattainable.woven.laid.run_setup
  obtain ⟨u, hstart⟩ := hattainable.exists_start hattainable.normalize_config _
  refine ⟨_, t', u, hattainable, hsetup, hstart, ?_, ?_⟩
  · rw [← after_of_ok hsetup]
    cases ht₀
    decide +kernel
  · cases ht₀
    cases hstart
    decide +kernel

end Trace

end TraceIR
