import KvmUtils.Lib.Rounds
import KvmUtils.IpiBench.Sequence
import KvmUtils.IpiBench.Stuck

/-!
# The start barrier opens

The workers of one benchmark spin until all of them have arrived, so none of
them has a bound on its steps, and no worker gets through alone.  The way of
the workers has two stages.  `arriving` leads every worker to its spin loop,
and `passing` from there to its end, once `ready_to_run` has reached
`should_run`.

With every worker created, the second stage follows the first one, and both
together take a number of rounds that only `loops` decides.  With a worker
missing, `complete_run` never reaches `should_run`.
-/

namespace KvmUtils.IpiBench

open Function Machine

/-- The steps that a worker has still to make before it has added one to
`ready_to_run`. -/
def Pc.toReady : Pc → Nat
  | .sampleForked => 3
  | .storeForked _ => 2
  | .addReady => 1
  | _ => 0

/-- The steps that a worker at the open barrier has still to make.  A worker
that has read `ready_to_run` too early makes one turn more. -/
def Pc.toDone (should : Int) (loops : Nat) : Pc → Nat
  | .spinShould ready => if ready < should then 2 * loops + 15 else 2 * loops + 13
  | .spinReady => 2 * loops + 14
  | .checkReady => 2 * loops + 12
  | .checkShould _ => 2 * loops + 11
  | .sampleStart => 2 * loops + 10
  | .storeStart _ => 2 * loops + 9
  | .enter => 2 * loops + 8
  | .one _ loop _ => 2 * loop + 7
  | .call _ loop _ _ => 2 * (loop - 1) + 8
  | .many loop => loop + 6
  | .storeIpitime _ => 6
  | .sampleFinish => 5
  | .storeFinish _ => 4
  | .storeRunDelay => 3
  | .addComplete => 2
  | .wake => 1
  | .absent | .sampleForked | .storeForked _ | .addReady | .bug | .done => 0

/-- The turns that a worker has still to make in its timed section. -/
def Pc.loopsLeft : Pc → Nat
  | .one _ loop _ | .call _ loop _ _ | .many loop => loop
  | _ => 0

/-- No worker has more turns to make than the parameter `loops` says. -/
def State.LoopsWithin (p : Params) (s : State) : Prop :=
  ∀ w, (s.pc w).loopsLeft ≤ p.loops.toNat

/-- The rounds in which the workers of one benchmark get through. -/
def releaseRounds (p : Params) : Nat := 3 + (2 * p.loops.toNat + 15)

section Release

variable {p : Params} {job : Job} {s s' : State} {e : Event}

/-! ## The way to the barrier -/

theorem Pc.toReady_le (q : Pc) : q.toReady ≤ 3 := by
  cases q with
  | sampleForked => exact Nat.le_refl 3
  | storeForked => exact Nat.le_succ 2
  | addReady => exact Nat.le_add_left 1 2
  | _ => exact Nat.zero_le 3

/-- A worker that exists and has no step of the first stage left has added one
to `ready_to_run`. -/
theorem Pc.hasReadied_of_toReady {q : Pc} (h : q.toReady = 0) (hq : q ≠ .absent) :
    q.HasReadied := by
  cases q <;> trivial

theorem Pc.InBody.toReady_eq {q : Pc} (h : q.InBody) : q.toReady = 0 := by
  cases q <;> first | exact h.elim | rfl

theorem WorkerMove.toReady_le {w : Worker} (h : WorkerMove s w s') :
    (s'.pc w).toReady ≤ (s.pc w).toReady - 1 := by
  have hgoto : ∀ {t : State} {q : Pc}, q.toReady ≤ (s.pc w).toReady - 1 →
      ((t.goto w q).pc w).toReady ≤ (s.pc w).toReady - 1 := by
    intro t q hq
    show (update t.pc w q w).toReady ≤ _
    rwa [update_self]
  cases h with
  | body hpc hp hclock =>
    refine hgoto ?_
    rw [hp.toReady_eq]
    exact Nat.zero_le _
  | sampleForked hpc _ | storeForked hpc | addReady hpc | spinReady hpc | spin hpc _ | leave hpc _
  | checkReady hpc | bug hpc _ | pass hpc _ | sampleStart hpc _ | storeStart hpc
  | storeIpitime hpc | sampleFinish hpc _ | storeFinish hpc | runDelay hpc | addComplete hpc
  | wake hpc =>
    refine hgoto ?_
    rw [hpc]
    exact Nat.le_refl _

/-- When the loop that creates the workers is over, it stays so, and the main
thread creates nobody. -/
theorem LaunchLoop.over_of_main (h : LaunchLoop job s) (hover : s.LaunchOver job)
    (hmove : MainMove [job] s e s') :
    s'.LaunchOver job ∧ s'.pc = s.pc ∧ s'.launched = s.launched := by
  have hpast := h.barrier.past_should
  cases hmove with
  | build hmain =>
    unfold State.PastShould at hpast
    rw [hmain] at hpast
    simp [MainPc.Built] at hpast
  | launch hmain hjob hi | launchFail hmain hjob hi =>
    obtain rfl := h.turn hmain hjob
    have hle := hover _ hmain
    omega
  | endLaunch _ _ _ hp | waitReturn _ _ hp =>
    refine ⟨fun i hi => ?_, rfl, rfl⟩
    rcases hp with rfl | rfl <;> cases hi
  | stop | begin | alloc | noMemory | setShould | buildFail | sampleStart | sampleEnd | report
  | endReport | free =>
    refine ⟨fun i hi => ?_, rfl, rfl⟩
    cases hi

theorem LaunchLoop.over_of_step (h : LaunchLoop job s) (hover : s.LaunchOver job)
    (hst : step p [job] s e = some s') :
    s'.LaunchOver job ∧ s'.launched = s.launched := by
  rcases move_of_step hst with ⟨w, hmove⟩ | hmove
  · refine ⟨fun i hi => ?_, hmove.frame.launched⟩
    rw [hmove.frame.main] at hi
    exact hover i hi
  · obtain ⟨hover', -, hlaunched⟩ := h.over_of_main hover hmove
    exact ⟨hover', hlaunched⟩

/-- Worker `w` can make a step. -/
def State.CanStep (p : Params) (job : Job) (s : State) (w : Worker) : Prop :=
  ∃ e s', Event.actor e = some w ∧ step p [job] s e = some s'

theorem canStep_of_isSome {w : Worker} (hactor : e.actor = some w)
    (h : (step p [job] s e).isSome) : s.CanStep p job w :=
  ⟨e, _, hactor, (Option.some_get h).symm⟩

/-- A worker that has not arrived can make a step. -/
theorem canStep_of_toReady {w : Worker} (h : (s.pc w).toReady ≠ 0) : s.CanStep p job w := by
  cases hpc : s.pc w with
  | sampleForked =>
    exact canStep_of_isSome (e := .sample w s.clock) rfl (by simp [step, sampleStep, hpc])
  | storeForked | addReady =>
    exact canStep_of_isSome (e := .worker w) rfl (by simp [step, workerStep, hpc])
  | absent | spinReady | spinShould | checkReady | checkShould | bug | sampleStart | storeStart
  | enter | one | call | storeIpitime | many | sampleFinish | storeFinish | storeRunDelay
  | addComplete | wake | done =>
    rw [hpc] at h
    exact absurd rfl h

/-- The first stage: the loop that creates the workers is over, and the
workers come to the barrier. -/
def arriving (p : Params) (job : Job) : Stage (step p [job]) Event.actor where
  Inv s := LaunchLoop job s ∧ s.LaunchOver job
  left s w := (s.pc w).toReady
  bound := 3
  inv_step h hst := ⟨h.1.of_step hst, (h.1.over_of_step h.2 hst).1⟩
  left_le _ _ := Pc.toReady_le _
  own_le _ hactor hst := (workerMove_of_step hactor hst).toReady_le
  other_le {s e s' w} h hactor hst := by
    cases he : e.actor with
    | none =>
      rw [(h.1.over_of_main h.2 (mainMove_of_step he hst)).2.1]
    | some v =>
      have hne : w ≠ v := by
        rintro rfl
        exact hactor he
      rw [((workerMove_of_step he hst).others hne).2.2]
  ready _ hleft := canStep_of_toReady hleft

/-! ## The way from the open barrier -/

theorem Pc.toDone_le (should : Int) {loops : Nat} {q : Pc} (h : q.loopsLeft ≤ loops) :
    q.toDone should loops ≤ 2 * loops + 15 := by
  cases q <;> simp only [Pc.toDone, Pc.loopsLeft] at * <;> first | omega | (split <;> omega)

theorem WorkerAct.loopsLeft_le {w : Worker} (h : WorkerAct p [job] s w e s')
    (hs : s.LoopsWithin p) : (s'.pc w).loopsLeft ≤ p.loops.toNat := by
  have hold := hs w
  cases h with
  | sampleForked hpc | storeForked hpc | addReady hpc | spinReady hpc | spin hpc | leave hpc
  | checkReady hpc | bug hpc | pass hpc | sampleStart hpc | storeStart hpc | enterSingle hpc
  | enterMany hpc | sampleCall hpc | callFailed hpc | callWaited hpc | callSent hpc | endOne hpc
  | storeIpitime hpc | many hpc | endMany hpc | sampleFinish hpc | storeFinish hpc | runDelay hpc
  | addComplete hpc | wake hpc =>
    rw [hpc] at hold
    simp only [State.goto, State.store, update_self, Pc.loopsLeft] at hold ⊢
    omega

theorem State.LoopsWithin.of_step (h : s.LoopsWithin p) (hpast : s.PastShould)
    (hst : step p [job] s e = some s') : s'.LoopsWithin p := by
  intro w
  cases he : e.actor with
  | none =>
    rcases (mainFrame_of_move hpast (mainMove_of_step he hst)).pc w with hkeep | hnew
    · rw [hkeep]
      exact h w
    · rw [hnew]
      exact Nat.zero_le _
  | some v =>
    have hact := act_of_step he hst
    by_cases hwv : w = v
    · subst hwv
      exact hact.loopsLeft_le h
    · rw [(hact.move.others hwv).2.2]
      exact h w

/-- Every worker has arrived at the barrier. -/
structure Opened (p : Params) (job : Job) (s : State) : Prop where
  loop : LaunchLoop job s
  open_eq : s.ready = s.should
  loops : s.LoopsWithin p

theorem Opened.hasReadied (h : Opened p job s) {w : Worker} (hw : s.pc w ≠ .absent) :
    (s.pc w).HasReadied := by
  have hcounted := h.loop.barrier.counted
  have hmem := mem_workers.mp (hcounted.launched_subset rfl hcounted.only_first
    ((hcounted.mem_launched w).mpr hw))
  have hall := (h.loop.barrier.all_readied h.open_eq w.2 hmem.2).2
  rwa [← hmem.1] at hall

theorem Opened.ready_eq_of_move {w : Worker} (h : Opened p job s) (hmove : WorkerMove s w s') :
    s'.ready = s.ready := by
  have hreadied := h.hasReadied hmove.frame.present
  cases hmove with
  | addReady hpc =>
    rw [hpc] at hreadied
    exact hreadied.elim
  | sampleForked | storeForked | spinReady | spin | leave | checkReady | bug | pass | sampleStart
  | storeStart | body | storeIpitime | sampleFinish | storeFinish | runDelay | addComplete
  | wake => rfl

theorem Opened.of_step (h : Opened p job s) (hst : step p [job] s e = some s') :
    Opened p job s' := by
  refine ⟨h.loop.of_step hst, ?_, h.loops.of_step h.loop.barrier.past_should hst⟩
  rcases move_of_step hst with ⟨w, hmove⟩ | hmove
  · rw [h.ready_eq_of_move hmove, hmove.frame.should]
    exact h.open_eq
  · have hframe := mainFrame_of_move h.loop.barrier.past_should hmove
    rw [hframe.ready, hframe.should]
    exact h.open_eq

/-- A step of a worker at the open barrier takes it nearer to its end. -/
theorem Opened.toDone_le {w : Worker} (h : Opened p job s) (hact : WorkerAct p [job] s w e s') :
    (s'.pc w).toDone s'.should p.loops.toNat ≤
      (s.pc w).toDone s.should p.loops.toNat - 1 := by
  have hreadied := h.hasReadied hact.move.frame.present
  rw [hact.move.frame.should]
  cases hact with
  | sampleForked hpc | storeForked hpc | addReady hpc =>
    rw [hpc] at hreadied
    exact hreadied.elim
  | bug hpc hne => exact absurd (h.loop.barrier.check _ _ hpc) hne
  | spinReady hpc =>
    simp only [State.goto, update_self, Pc.toDone, hpc, h.open_eq, lt_irrefl, if_false]
    omega
  | spin hpc hlt =>
    simp only [State.goto, update_self, Pc.toDone, hpc, if_pos hlt]
    omega
  | leave hpc hge =>
    simp only [State.goto, update_self, Pc.toDone, hpc, if_neg (not_lt.mpr hge)]
    omega
  | checkReady hpc | pass hpc | sampleStart hpc | storeStart hpc | enterSingle hpc
  | enterMany hpc | sampleCall hpc | callFailed hpc | callWaited hpc | callSent hpc | endOne hpc
  | storeIpitime hpc | many hpc | endMany hpc | sampleFinish hpc | storeFinish hpc | runDelay hpc
  | addComplete hpc | wake hpc =>
    simp only [State.goto, State.store, update_self, Pc.toDone, hpc]
    omega

/-- At the open barrier a worker that is not at its end can make a step. -/
theorem Opened.canStep {w : Worker} (h : Opened p job s)
    (hleft : (s.pc w).toDone s.should p.loops.toNat ≠ 0) : s.CanStep p job w := by
  have hjob : s.pc w ≠ .absent → [job][w.1]? = some job := by
    intro hw
    have hcounted := h.loop.barrier.counted
    rw [hcounted.only_first w ((hcounted.mem_launched w).mpr hw)]
    rfl
  cases hpc : s.pc w with
  | absent | sampleForked | storeForked | addReady | bug | done =>
    rw [hpc] at hleft
    exact absurd rfl hleft
  | sampleStart | sampleFinish =>
    exact canStep_of_isSome (e := .sample w s.clock) rfl (by simp [step, sampleStep, hpc])
  | storeRunDelay => exact canStep_of_isSome (e := .runDelay w 0) rfl (by simp [step, hpc])
  | call =>
    exact canStep_of_isSome (e := .call w (-1) s.clock) rfl (by simp [step, callStep, hpc])
  | one dst loop ipitime =>
    by_cases hloop : loop = 0
    · exact canStep_of_isSome (e := .worker w) rfl (by simp [step, workerStep, hpc, hloop])
    · exact canStep_of_isSome (e := .sample w s.clock) rfl
        (by simp [step, sampleStep, hpc, hloop])
  | enter =>
    have hget := hjob (by simp [hpc])
    refine canStep_of_isSome (e := .worker w) rfl ?_
    cases htask : job.task <;> simp [step, workerStep, hpc, hget, htask]
  | spinShould ready =>
    refine canStep_of_isSome (e := .worker w) rfl ?_
    by_cases hlt : ready < s.should <;> simp [step, workerStep, hpc, hlt]
  | checkShould ready =>
    refine canStep_of_isSome (e := .worker w) rfl ?_
    by_cases heq : ready = s.should <;> simp [step, workerStep, hpc, heq]
  | many loop =>
    refine canStep_of_isSome (e := .worker w) rfl ?_
    by_cases hloop : loop = 0 <;> simp [step, workerStep, hpc, hloop]
  | spinReady | checkReady | storeStart | storeIpitime | storeFinish | addComplete | wake =>
    exact canStep_of_isSome (e := .worker w) rfl (by simp [step, workerStep, hpc])

/-- The second stage: the barrier is open, and the workers run to their
end. -/
def passing (p : Params) (job : Job) : Stage (step p [job]) Event.actor where
  Inv := Opened p job
  left s w := (s.pc w).toDone s.should p.loops.toNat
  bound := 2 * p.loops.toNat + 15
  inv_step h hst := h.of_step hst
  left_le w h := Pc.toDone_le _ (h.loops w)
  own_le h hactor hst := h.toDone_le (act_of_step hactor hst)
  other_le {s e s' w} h hactor hst := by
    cases he : e.actor with
    | none =>
      have hframe := mainFrame_of_move h.loop.barrier.past_should (mainMove_of_step he hst)
      rw [hframe.should]
      rcases hframe.pc w with hkeep | hnew
      · rw [hkeep]
      · rw [hnew]
        exact Nat.zero_le _
    | some v =>
      have hne : w ≠ v := by
        rintro rfl
        exact hactor he
      have hmove := workerMove_of_step he hst
      rw [(hmove.others hne).2.2, hmove.frame.should]
  ready h hleft := h.canStep hleft

/-! ## Both stages -/

/-- Before the workers are created none of them is in its timed section. -/
theorem Launching.loopsWithin (h : Launching job s) : s.LoopsWithin p := by
  intro w
  rw [h.pc w]
  exact Nat.zero_le _

theorem loopsWithin_of_exec {es : List Event} (h : Launching job s)
    (hrun : exec (step p [job]) s es = some s') : s'.LoopsWithin p := by
  have hboth : LaunchLoop job s' ∧ s'.LoopsWithin p :=
    exec_invariant' (I := fun t => LaunchLoop job t ∧ t.LoopsWithin p)
      (fun _ _ _ hI hst => ⟨hI.1.of_step hst, hI.2.of_step hI.1.barrier.past_should hst⟩)
      ⟨h.launchLoop, h.loopsWithin⟩ hrun
  exact hboth.2

/-- Once the loop that creates the workers is over, nobody is created. -/
theorem launched_of_exec {es : List Event} (h : LaunchLoop job s) (hover : s.LaunchOver job)
    (hrun : exec (step p [job]) s es = some s') : s'.launched = s.launched := by
  have hboth : (arriving p job).Inv s' ∧ s'.launched = s.launched :=
    exec_invariant' (I := fun t => (arriving p job).Inv t ∧ t.launched = s.launched)
      (fun _ _ _ hI hst => ⟨(arriving p job).inv_step hI.1 hst,
        (hI.1.1.over_of_step hI.1.2 hst).2.trans hI.2⟩)
      ⟨⟨h, hover⟩, rfl⟩ hrun
  exact hboth.2

/-- Once the loop that creates the workers is over, no creation fails. -/
theorem not_launchFail_of_exec {es : List Event} (h : LaunchLoop job s)
    (hover : s.LaunchOver job) (hrun : exec (step p [job]) s es = some s') :
    Event.launch false ∉ es := by
  have hall : AllSteps (step p [job]) (fun _ e => e ≠ Event.launch false) s es :=
    allSteps_imp (I := (arriving p job).Inv) (P := fun _ _ => True)
      (fun _ _ _ hI _ hst => (arriving p job).inv_step hI hst)
      (fun t e t' hI _ hst => by
        rintro rfl
        have hmissing := missing_of_launchFail hst
        have hturns := turns_of_launchOver hI.1 hI.2
        obtain ⟨hover', hlaunched⟩ := hI.1.over_of_step hI.2 hst
        have hturns' := turns_of_launchOver (hI.1.of_step hst) hover'
        unfold State.missing at hmissing
        rw [hturns, hturns', hlaunched] at hmissing
        omega)
      ⟨h, hover⟩ hrun (allSteps_of_forall (fun _ _ => trivial) s es)
  exact fun hfail => (allSteps_iff_forall hrun).mp hall _ hfail rfl

/-- The steps of workers leave the main thread where it is. -/
theorem main_of_workers {es : List Event} {ws : Finset Worker}
    (hworkers : ∀ e ∈ es, ∃ w ∈ ws, e.actor = some w)
    (hrun : exec (step p [job]) s es = some s') : s'.main = s.main := by
  induction es generalizing s with
  | nil => rw [← Option.some.inj hrun]
  | cons e es ih =>
    obtain ⟨t, hst, hrest⟩ := exec_cons.mp hrun
    obtain ⟨⟨w, -, hactor⟩, hlater⟩ := List.forall_mem_cons.mp hworkers
    rw [ih hlater hrest, (workerMove_of_step hactor hst).frame.main]

/-- When nobody is missing, the barrier is open as soon as all have arrived. -/
theorem opened_of_arrived {es : List Event} (h : Launching job s) (hlen : 0 ≤ job.shouldRun)
    (hrun : exec (step p [job]) s es = some s') (hover : s'.LaunchOver job)
    (hok : Event.launch false ∉ es) (harrived : ∀ w ∈ s'.launched, (s'.pc w).toReady = 0) :
    Opened p job s' := by
  have hloop := h.launchLoop.of_exec hrun
  have hcounted := hloop.barrier.counted
  have hreadied : ∀ w ∈ s'.launched, (s'.pc w).HasReadied := fun w hw =>
    Pc.hasReadied_of_toReady (harrived w hw) ((hcounted.mem_launched w).mp hw)
  have hge := (ready_to_run_reaches_iff h hrun hover hreadied).mpr hok
  refine ⟨hloop, le_antisymm ?_ hge, loopsWithin_of_exec h hrun⟩
  rw [hloop.barrier.should_eq]
  rcases s'.launched.eq_empty_or_nonempty with hnone | ⟨w, hw⟩
  · have hready := hcounted.ready_eq
    rw [hnone] at hready
    exact hready ▸ hlen
  · exact hcounted.ready_le hw

/-- When every worker is at its end, `complete_run` has reached
`should_run`. -/
theorem Opened.complete_eq (h : Opened p job s) (hlen : 0 ≤ job.shouldRun)
    (hdone : ∀ w ∈ s.launched, (s.pc w).toDone s.should p.loops.toNat = 0) :
    s.complete = s.should := by
  have hcounted := h.loop.barrier.counted
  have hcompleted : ∀ w ∈ s.launched, (s.pc w).HasCompleted := by
    intro w hw
    have hreadied := h.hasReadied ((hcounted.mem_launched w).mp hw)
    have hzero := hdone w hw
    cases hpc : s.pc w with
    | done => trivial
    | bug => exact absurd hpc (h.loop.barrier.no_bug w)
    | absent | sampleForked | storeForked | addReady =>
      rw [hpc] at hreadied
      exact hreadied.elim
    | spinShould ready =>
      rw [hpc, Pc.toDone] at hzero
      split at hzero <;> cases hzero
    | spinReady | checkReady | checkShould | sampleStart | storeStart | enter | one | call
    | storeIpitime | many | sampleFinish | storeFinish | storeRunDelay | addComplete | wake =>
      rw [hpc] at hzero
      cases hzero
  have hcensus : census s.launched Pc.HasCompleted s.pc = s.launched.card :=
    census.eq_card_iff.mpr hcompleted
  have hsub : workers 0 job.shouldRun.toNat ⊆ s.launched := by
    intro w hw
    obtain ⟨hfirst, hlt⟩ := mem_workers.mp hw
    have hmem := (h.loop.barrier.all_readied h.open_eq w.2 hlt).1
    rwa [← hfirst] at hmem
  have hcard := Finset.card_le_card hsub
  have hcard' := Finset.card_le_card (hcounted.launched_subset rfl hcounted.only_first)
  rw [card_workers] at hcard hcard'
  rw [hcounted.complete_eq, hcensus, h.loop.barrier.should_eq]
  omega

/-- With a worker missing, `complete_run` stays below `should_run`. -/
theorem complete_lt_of_launchFail {es : List Event} (h : Launching job s)
    (hrun : exec (step p [job]) s es = some s') (hfail : Event.launch false ∈ es) :
    s'.complete < s'.should := by
  have hloop := h.launchLoop.of_exec hrun
  have hne : s'.missing job ≠ 0 := fun hzero => (missing_eq_zero_iff h hrun).mp hzero hfail
  have hcomplete := hloop.barrier.counted.complete_eq
  have hcensus : census s'.launched Pc.HasCompleted s'.pc ≤ s'.launched.card := census.le_card
  have hshould := hloop.barrier.should_eq
  have hcard := hloop.card_le
  have hturns := hloop.turns_le
  unfold State.missing at hne
  omega

end Release

/-- The workers of one benchmark, for any number of them, any parameters and
any interleaving, from any state in which the loop that creates them is over.
The main thread may be anywhere after it, but it has not returned: then the
module is gone, with the code of the workers.

1. After `releaseRounds` rounds, in whatever order the steps are made and
   whatever the main thread does meanwhile, `complete_run` equals `should_run`
   if and only if no creation has failed.
2. If none has failed, the workers alone get there from every such state, in
   at most `releaseRounds` steps each. -/
theorem workers_complete_iff {p : Params} {job : Job} {s t : State} {es : List Event}
    (h : Launching job s) (hlen : 0 ≤ job.shouldRun)
    (hrun : exec (step p [job]) s es = some t) (hover : t.LaunchOver job)
    (hmain : t.main ≠ .returned) :
    (∀ n s', Rounds (step p [job]) Event.actor n t s' → releaseRounds p ≤ n →
      s'.main ≠ .returned → (s'.complete = s'.should ↔ Event.launch false ∉ es)) ∧
    (Event.launch false ∉ es → ∃ fs s', (∀ e ∈ fs, ∃ w ∈ t.launched, e.actor = some w) ∧
      fs.length ≤ releaseRounds p * job.shouldRun.toNat ∧
      exec (step p [job]) t fs = some s' ∧ s'.complete = s'.should ∧ s'.main ≠ .returned) := by
  have ht : (arriving p job).Inv t := ⟨h.launchLoop.of_exec hrun, hover⟩
  -- no creation fails after the loop is over
  have hlater : ∀ {fs u}, exec (step p [job]) t fs = some u →
      (Event.launch false ∈ es ++ fs ↔ Event.launch false ∈ es) := by
    intro fs u hfs
    have hnot := not_launchFail_of_exec ht.1 hover hfs
    simp [hnot]
  -- at the end of the first stage the second one can begin
  have hopened : ∀ {fs u}, exec (step p [job]) t fs = some u → Event.launch false ∉ es →
      (∀ w ∈ u.launched, (u.pc w).toReady = 0) → Opened p job u := by
    intro fs u hfs hok harrived
    have hu := (arriving p job).inv_exec ht hfs
    exact opened_of_arrived h hlen (exec_trans hrun hfs) hu.2
      (fun hfail => hok ((hlater hfs).mp hfail)) harrived
  constructor
  · intro n s' hrounds hn _
    obtain ⟨gs, hgs⟩ := hrounds.reaches
    constructor
    · intro hcomplete hfail
      have hlt := complete_lt_of_launchFail h (exec_trans hrun hgs) ((hlater hgs).mpr hfail)
      omega
    · intro hok
      obtain ⟨k, rfl⟩ := Nat.exists_eq_add_of_le (Nat.le_of_add_right_le hn)
      obtain ⟨u, harrive, hpass⟩ := hrounds.split
      obtain ⟨fs, hfs⟩ := harrive.reaches
      have hu := hopened hfs hok fun w _ =>
        (arriving p job).through_of_rounds w ht harrive (Nat.le_refl 3)
      have hk : 2 * p.loops.toNat + 15 ≤ k := by
        unfold releaseRounds at hn
        omega
      obtain ⟨fs', hfs'⟩ := hpass.reaches
      exact ((passing p job).inv_exec hu hfs').complete_eq hlen fun w _ =>
        (passing p job).through_of_rounds w hu hpass hk
  · intro hok
    obtain ⟨fs, u, hfsw, hfslen, hfs, harrived⟩ :=
      (arriving p job).exists_through t.launched.toList ht
    have hlaunched := launched_of_exec ht.1 hover hfs
    have hu := hopened hfs hok fun w hw =>
      harrived w (Finset.mem_toList.mpr (hlaunched ▸ hw))
    obtain ⟨gs, s', hgsw, hgslen, hgs, hdone⟩ :=
      (passing p job).exists_through t.launched.toList hu
    have hlast := (launched_of_exec ht.1 hover (exec_trans hfs hgs))
    have hworkers : ∀ e ∈ fs ++ gs, ∃ w ∈ t.launched, e.actor = some w := by
      intro e he
      rcases List.mem_append.mp he with he | he
      · obtain ⟨w, hw, hactor⟩ := hfsw e he
        exact ⟨w, Finset.mem_toList.mp hw, hactor⟩
      · obtain ⟨w, hw, hactor⟩ := hgsw e he
        exact ⟨w, Finset.mem_toList.mp hw, hactor⟩
    refine ⟨fs ++ gs, s', hworkers, ?_, exec_trans hfs hgs, ?_, ?_⟩
    · have hcounted := ht.1.barrier.counted
      have hcard := Finset.card_le_card (hcounted.launched_subset rfl hcounted.only_first)
      rw [card_workers] at hcard
      calc (fs ++ gs).length
          = fs.length + gs.length := List.length_append
        _ ≤ releaseRounds p * t.launched.toList.length := by
          rw [releaseRounds, Nat.add_mul]
          exact Nat.add_le_add hfslen hgslen
        _ ≤ releaseRounds p * job.shouldRun.toNat := by
          rw [Finset.length_toList]
          exact Nat.mul_le_mul_left _ hcard
    · exact ((passing p job).inv_exec hu hgs).complete_eq hlen fun w hw =>
        hdone w (Finset.mem_toList.mpr (hlast ▸ hw))
    · rw [main_of_workers hworkers (exec_trans hfs hgs)]
      exact hmain

/-- Two workers have been created, and a signal has ended the wait before
either of them has made a step. -/
theorem workers_complete_iff_of_two_workers : ∃ t : State,
    exec (step ⟨1, 0, 1, 0, true, 2, true, ALL_IPI⟩ [benchAll ⟨4, fun _ => 0⟩ 2])
        (State.launching (benchAll ⟨4, fun _ => 0⟩ 2) [(0, 0), (1, 0)])
        [.launch true, .launch true, .main, .mainSample 0, .waitReturn .signal] = some t ∧
      t.main = .sampleEnd 0 ∧ t.complete ≠ t.should ∧
      ∃ fs s', fs.length ≤ 40 ∧
        exec (step ⟨1, 0, 1, 0, true, 2, true, ALL_IPI⟩ [benchAll ⟨4, fun _ => 0⟩ 2]) t fs =
          some s' ∧ s'.complete = s'.should ∧ s'.main ≠ .returned := by
  have hcpus : (benchAll ⟨4, fun _ => 0⟩ 2).cpus (fun n => UInt64.ofNat n) =
      some [(0, 0), (1, 0)] := by
    decide +kernel
  have h : (exec (step ⟨1, 0, 1, 0, true, 2, true, ALL_IPI⟩ [benchAll ⟨4, fun _ => 0⟩ 2])
      (State.launching (benchAll ⟨4, fun _ => 0⟩ 2) [(0, 0), (1, 0)])
      [.launch true, .launch true, .main, .mainSample 0, .waitReturn .signal]).map
      (fun t => decide (t.main = .sampleEnd 0 ∧ t.complete ≠ t.should)) = some true := by
    decide +kernel
  obtain ⟨t, hrun, ht⟩ := exists_exec_of_map h
  obtain ⟨hmain, hearly⟩ := of_decide_eq_true ht
  have hboth := workers_complete_iff (launching_launching hcpus) (by decide) hrun
    (fun i hi => by cases hmain.symm.trans hi) (by simp [hmain])
  obtain ⟨fs, s', -, hlength, hfs, hcomplete, hlast⟩ := hboth.2 (by simp)
  exact ⟨t, hrun, hmain, hearly, fs, s', hlength, hfs, hcomplete, hlast⟩

end KvmUtils.IpiBench
