import Mathlib.Algebra.BigOperators.Group.Finset.Basic
import Mathlib.Algebra.Order.BigOperators.Group.Finset
import KvmUtils.IpiBench.Memory
import KvmUtils.IpiBench.Readings

/-!
# The calls behind a figure

`ipi_bench_one` gives up at the first call that fails, but its worker goes on
as if it were through.  The report divides by `loops` in any case.
`ipi_bench_mesh` counts `loops` calls for each of its pairs, also for a worker
that it could not create or did not wait for.

The invariant `Worked` says how many calls of a worker have succeeded.  A
figure is right exactly when no call behind it has failed or is missing.
-/

namespace KvmUtils.IpiBench

open Function Machine

/-- Whether the call of worker `w` succeeds, if the event is one. -/
def resultOutput (w : Worker) (_ : State) : Event → List Bool
  | .call v ret _ => if v = w then [decide (0 ≤ ret)] else []
  | _ => []

/-- The results of the calls of worker `w` in a run. -/
def resultsOf (p : Params) (jobs : List Job) (w : Worker) (s : State) (es : List Event) :
    List Bool :=
  outputs (step p jobs) (resultOutput w) s es

/-- The worker has none of its calls left. -/
def Pc.LoopDone : Pc → Prop
  | .one _ loop _ => loop = 0
  | .storeIpitime _ | .sampleFinish | .storeFinish _ | .storeRunDelay | .addComplete | .wake
  | .done => True
  | _ => False

/-- The worker is on its way to a call. -/
def Pc.CallAhead : Pc → Prop
  | .sampleForked | .storeForked _ | .addReady | .spinReady | .spinShould _ | .checkReady
  | .checkShould _ | .sampleStart | .storeStart _ | .enter | .call _ _ _ _ => True
  | .one _ loop _ | .many loop => loop ≠ 0
  | _ => False

/-- The results `o` of a worker that runs `ipi_bench_single_task`. -/
def Worked (loops : Nat) (o : List Bool) : Pc → Prop
  | .one _ loop _ => false ∉ o ∧ o.count true + loop = loops
  | .call _ loop _ _ => false ∉ o ∧ o.count true + loop = loops ∧ 0 < loop
  | .storeIpitime _ => false ∉ o ∧ o.count true = loops
  | .sampleFinish | .storeFinish _ | .storeRunDelay | .addComplete | .wake | .done =>
    if false ∈ o then o.count true < loops else o.count true = loops
  | .many _ => False
  | .absent | .sampleForked | .storeForked _ | .addReady | .spinReady | .spinShould _
  | .checkReady | .checkShould _ | .bug | .sampleStart | .storeStart _ | .enter => o = []

section Worked

variable {p : Params} {jobs : List Job} {s s' : State} {w : Worker} {o : List Bool}

/-- All calls have succeeded exactly when the worker is through its loop and
none has failed. -/
theorem Worked.count_eq_iff {loops : Nat} {pc : Pc} (hloops : 0 < loops) (h : Worked loops o pc) :
    o.count true = loops ↔ pc.LoopDone ∧ false ∉ o := by
  cases pc with
  | one dst loop ipitime =>
    obtain ⟨hnone, hcount⟩ := h
    show _ ↔ loop = 0 ∧ _
    constructor
    · intro heq
      exact ⟨by omega, hnone⟩
    · intro ⟨heq, _⟩
      omega
  | call dst loop ipitime now =>
    obtain ⟨hnone, hcount, hpos⟩ := h
    refine iff_of_false ?_ And.left
    omega
  | storeIpitime => exact iff_of_true h.2 ⟨trivial, h.1⟩
  | sampleFinish | storeFinish | storeRunDelay | addComplete | wake | done =>
    unfold Worked at h
    show _ ↔ True ∧ _
    split_ifs at h with hfail
    · exact iff_of_false h.ne fun hn => hn.2 hfail
    · exact iff_of_true h ⟨trivial, hfail⟩
  | many => exact h.elim
  | absent | sampleForked | storeForked | addReady | spinReady | spinShould | checkReady
  | checkShould | bug | sampleStart | storeStart | enter =>
    obtain rfl : o = [] := h
    refine iff_of_false ?_ And.left
    exact hloops.ne

/-- What can keep a worker from having no calls left. -/
theorem Worked.loopDone_iff {loops : Nat} {pc : Pc} (h : Worked loops o pc) :
    pc.LoopDone ↔ pc ≠ .absent ∧ pc ≠ .bug ∧ ¬ pc.CallAhead := by
  cases pc with
  | one dst loop ipitime =>
    show loop = 0 ↔ _ ∧ _ ∧ ¬ loop ≠ 0
    exact ⟨fun hdone => ⟨nofun, nofun, not_not_intro hdone⟩, fun hn => not_not.mp hn.2.2⟩
  | many => exact h.elim
  | absent => exact iff_of_false id fun hn => hn.1 rfl
  | bug => exact iff_of_false id fun hn => hn.2.1 rfl
  | sampleForked | storeForked | addReady | spinReady | spinShould | checkReady | checkShould
  | sampleStart | storeStart | enter | call => exact iff_of_false id fun hn => hn.2.2 trivial
  | storeIpitime | sampleFinish | storeFinish | storeRunDelay | addComplete | wake | done =>
    exact iff_of_true trivial ⟨nofun, nofun, id⟩

theorem Worked.count_le {loops : Nat} {pc : Pc} (h : Worked loops o pc) :
    o.count true ≤ loops := by
  cases pc with
  | one | call =>
    obtain ⟨-, hcount⟩ := h
    omega
  | storeIpitime => exact h.2.le
  | sampleFinish | storeFinish | storeRunDelay | addComplete | wake | done =>
    unfold Worked at h
    split_ifs at h <;> omega
  | many => exact h.elim
  | absent | sampleForked | storeForked | addReady | spinReady | spinShould | checkReady
  | checkShould | bug | sampleStart | storeStart | enter =>
    obtain rfl : o = [] := h
    exact Nat.zero_le _

/-! ## Steps of the worker -/

theorem worked_goto (q : Pc) {loops : Nat} :
    Worked loops o ((s.goto w q).pc w) ↔ Worked loops o q := by
  simp only [State.goto, update_self]

/-- A step of the worker that is no call. -/
theorem Worked.act {job : Job} {e : Event} (h : Worked p.loops.toNat o (s.pc w))
    (hget : jobs[w.1]? = some job) (htask : job.task = .single)
    (hact : WorkerAct p jobs s w e s') (hcall : ∀ ret t, e ≠ .call w ret t) :
    Worked p.loops.toNat o (s'.pc w) := by
  cases hact with
  | callFailed | callWaited | callSent => exact absurd rfl (hcall _ _)
  | sampleForked hpc _ | storeForked hpc | addReady hpc | spinReady hpc | spin hpc _
  | leave hpc _ | checkReady hpc | bug hpc _ | pass hpc _ | sampleStart hpc _ | storeStart hpc
  | endOne hpc | sampleFinish hpc _ | storeFinish hpc | runDelay hpc | addComplete hpc
  | wake hpc =>
    rw [hpc] at h
    exact (worked_goto _).mpr h
  | enterSingle hpc _ _ =>
    rw [hpc] at h
    obtain rfl : o = [] := h
    exact (worked_goto _).mpr ⟨List.not_mem_nil, Nat.zero_add _⟩
  | enterMany hpc hjob hmany =>
    obtain rfl := Option.some.inj (hget.symm.trans hjob)
    cases htask.symm.trans hmany
  | sampleCall hpc hloop _ =>
    rw [hpc] at h
    exact (worked_goto _).mpr ⟨h.1, h.2, Nat.pos_of_ne_zero hloop⟩
  | storeIpitime hpc =>
    rw [hpc] at h
    refine (worked_goto _).mpr ?_
    unfold Worked
    rw [if_neg h.1]
    exact h.2
  | many hpc _ | endMany hpc =>
    rw [hpc] at h
    exact h.elim

/-- The loop counts a call that succeeds, and ends with one that fails. -/
theorem Worked.call {ret : Int} {t : UInt64} (h : Worked p.loops.toNat o (s.pc w))
    (hact : WorkerAct p jobs s w (.call w ret t) s') :
    Worked p.loops.toNat (o ++ [decide (0 ≤ ret)]) (s'.pc w) := by
  have hsuccess : ∀ {dst loop ipitime now ipitime'}, s.pc w = .call dst loop ipitime now →
      0 ≤ ret →
        Worked p.loops.toNat (o ++ [decide (0 ≤ ret)]) (.one dst (loop - 1) ipitime') := by
    intro dst loop ipitime now ipitime' hpc hret
    rw [hpc] at h
    obtain ⟨hnone, hcount, hpos⟩ := h
    rw [decide_eq_true hret]
    refine ⟨by simp [hnone], ?_⟩
    rw [List.count_append, List.count_singleton_self]
    omega
  cases hact with
  | callFailed hpc hret _ =>
    rw [hpc] at h
    obtain ⟨hnone, hcount, hpos⟩ := h
    refine (worked_goto _).mpr ?_
    unfold Worked
    rw [decide_eq_false (by omega), if_pos (by simp)]
    simp only [List.count_append, List.count_singleton]
    show _ + 0 < _
    omega
  | callWaited hpc hret _ _ | callSent hpc hret _ _ =>
    exact (worked_goto _).mpr (hsuccess hpc hret)

/-! ## Other steps -/

theorem resultOutput_of_not_call {e : Event} (h : ∀ ret t, e ≠ .call w ret t) :
    resultOutput w s e = [] := by
  cases e with
  | call v ret t =>
    rw [resultOutput, if_neg]
    rintro rfl
    exact h ret t rfl
  | main | alloc | build | launch | mainSample | waitReturn | worker | sample | runDelay => rfl

/-- The main thread creates a worker that has made no calls. -/
theorem Worked.main {loops : Nat} {e : Event} (h : Worked loops o (s.pc w))
    (hcounted : Counted jobs s) (hmove : MainMove jobs s e s') : Worked loops o (s'.pc w) := by
  obtain ⟨-, hpc⟩ | ⟨habsent, hpc⟩ := hmove.worker hcounted w
  · rwa [hpc]
  · rw [habsent] at h
    rcases hpc with hpc | hpc
    · rw [hpc]
      exact h
    · rw [hpc]
      exact h

theorem Worked.step {job : Job} {e : Event} (h : Worked p.loops.toNat o (s.pc w))
    (hget : jobs[w.1]? = some job) (htask : job.task = .single) (hcounted : Counted jobs s)
    (hst : IpiBench.step p jobs s e = some s') :
    Worked p.loops.toNat (o ++ resultOutput w s e) (s'.pc w) := by
  by_cases hany : ∃ ret t, e = .call w ret t
  · obtain ⟨ret, t, rfl⟩ := hany
    rw [resultOutput, if_pos rfl]
    exact h.call (act_of_step rfl hst)
  · have hnot : ∀ ret t, e ≠ .call w ret t := fun ret t heq => hany ⟨ret, t, heq⟩
    rw [resultOutput_of_not_call hnot, List.append_nil]
    cases hactor : e.actor with
    | none => exact h.main hcounted (mainMove_of_step hactor hst)
    | some v =>
      by_cases hwv : w = v
      · subst hwv
        exact h.act hget htask (act_of_step hactor hst) hnot
      · rwa [((workerMove_of_step hactor hst).others hwv).2.2]

theorem worked_of_exec {job : Job} {es : List Event} (hget : jobs[w.1]? = some job)
    (htask : job.task = .single) (hrun : exec (IpiBench.step p jobs) State.load es = some s) :
    Worked p.loops.toNat (resultsOf p jobs w State.load es) (s.pc w) := by
  have hrun' := exec_invariant_outputs (f := resultOutput w) (P := fun _ _ => True)
    (I := fun s o => Counted jobs s ∧ Worked p.loops.toNat o (s.pc w))
    (fun s e s' o hI _ hst =>
      ⟨counted_of_exec hI.1 (exec_one hst), hI.2.step hget htask hI.1 hst⟩)
    (s := State.load) (o := []) ⟨counted_load jobs, rfl⟩
    (allSteps_of_forall (fun _ _ => trivial) _ _) hrun
  exact hrun'.2

end Worked

/-! ## Figures -/

/-- The number of calls of worker `w` that have succeeded. -/
def succeeded (p : Params) (jobs : List Job) (w : Worker) (es : List Event) : Nat :=
  (resultsOf p jobs w State.load es).count true

/-- A call of worker `w` has failed. -/
def CallFailed (p : Params) (jobs : List Job) (w : Worker) (es : List Event) : Prop :=
  false ∈ resultsOf p jobs w State.load es

/-- Terms that are at most `b` add up to `b` for each of them exactly when
none is smaller. -/
theorem sum_eq_mul_iff {n b : Nat} {f : Nat → Nat} (hf : ∀ i < n, f i ≤ b) :
    ∑ i ∈ Finset.range n, f i = n * b ↔ ∀ i < n, f i = b := by
  have hsum : ∑ _i ∈ Finset.range n, b = n * b := by
    rw [Finset.sum_const_nat fun _ _ => rfl, Finset.card_range]
  rw [← hsum, Finset.sum_eq_sum_iff_of_le fun i hi => hf i (Finset.mem_range.mp hi)]
  exact forall_congr' fun i => by rw [Finset.mem_range]

/-- The benchmarks of a load with a positive `loops`, in any run.

1. When the report on a worker prints its averages, the worker has made
   `loops` successful calls exactly when none of its calls has failed.  This is
   for runs without a stale store, in which the memory that the report reads
   holds what `State.args` says.  What it takes for the worker's `finish` may
   otherwise be that of a late worker of an earlier benchmark.
2. When `ipi_bench_mesh` prints its throughput, its workers have together made
   `pairs * loops` successful calls exactly when all of them have been created,
   none has left at the barrier, none is on its way to a call, and no call has
   failed. -/
theorem figures_count_done_work_iff {topo : Topology} {p : Params} {s : State} {es : List Event}
    (hloops : 0 < p.loops)
    (hrun : exec (step p (benchInit topo p)) State.load es = some s) :
    (AllSteps (step p (benchInit topo p)) NoStaleStore State.load es →
      ArgsInMemory p (benchInit topo p) es ∧
      ∀ w job fields, s.AtReport (benchInit topo p) w job fields → job.task = .single →
        reportSingle p fields ≠ none →
          ((succeeded p (benchInit topo p) w es : Int) = p.loops ↔
            ¬ CallFailed p (benchInit topo p) w es)) ∧
    (∀ elapsed,
      s.AtThroughput (benchInit topo p) (benchMesh topo p.pairs p.acrossnuma) elapsed →
        (((∑ i ∈ Finset.range p.pairs.toNat, succeeded p (benchInit topo p) (s.job, i) es : Nat) :
            Int) = p.pairs * p.loops ↔
          ∀ i < p.pairs.toNat, (s.job, i) ∈ s.launched ∧ s.pc (s.job, i) ≠ .bug ∧
            ¬ (s.pc (s.job, i)).CallAhead ∧ ¬ CallFailed p (benchInit topo p) (s.job, i) es)) := by
  have hpos : 0 < p.loops.toNat := by omega
  constructor
  · intro hstores
    refine ⟨argsInMemory_of_noStaleStore hrun hstores, fun w job fields hat htask hprint => ?_⟩
    have hget : (benchInit topo p)[w.1]? = some job := by
      rw [hat.own]
      exact hat.get
    have hworked := worked_of_exec hget htask hrun
    have hfinish : readOf job.task fields .finish ≠ 0 := by
      rw [htask]
      intro hzero
      exact hprint (by simp [reportSingle, report, hzero])
    have hpast := (recorded_of_exec hget hrun).finish_of_atReport hat hfinish
    have hdone : (s.pc w).LoopDone := by
      cases hpc : s.pc w <;> rw [hpc] at hpast <;> first | exact hpast.elim | trivial
    have hcount := hworked.count_eq_iff hpos
    rw [and_iff_right hdone] at hcount
    unfold CallFailed
    rw [← hcount, succeeded]
    omega
  · intro elapsed hat
    obtain ⟨i, fields, hmain, -⟩ := hat.main
    have hpairs : 0 ≤ p.pairs :=
      shouldRun_nonneg hrun (by rw [hmain]; trivial) _ hat.get
    have hcounted := counted_of_exec (counted_load _) hrun
    have hworked : ∀ i, Worked p.loops.toNat
        (resultsOf p (benchInit topo p) (s.job, i) State.load es) (s.pc (s.job, i)) :=
      fun i => worked_of_exec hat.get rfl hrun
    have hsum := sum_eq_mul_iff (n := p.pairs.toNat) fun i _ => (hworked i).count_le
    have hmul : ((p.pairs.toNat * p.loops.toNat : Nat) : Int) = p.pairs * p.loops := by
      rw [Int.natCast_mul, Int.toNat_of_nonneg hpairs, Int.toNat_of_nonneg hloops.le]
    have hone : ∀ i, (resultsOf p (benchInit topo p) (s.job, i) State.load es).count true =
          p.loops.toNat ↔
        (s.job, i) ∈ s.launched ∧ s.pc (s.job, i) ≠ .bug ∧ ¬ (s.pc (s.job, i)).CallAhead ∧
          ¬ CallFailed p (benchInit topo p) (s.job, i) es := by
      intro i
      rw [(hworked i).count_eq_iff hpos, (hworked i).loopDone_iff, hcounted.mem_launched,
        CallFailed, and_assoc, and_assoc]
    rw [← hmul, Int.natCast_inj]
    exact hsum.trans (forall₂_congr fun i _ => hone i)

/-- `ipi_bench_self` with two loops, whose second call fails, up to the report
of its worker. -/
def failedCallRun : List Event :=
  selfBarrierRun ++
    ([.sample (0, 0) 2, .worker (0, 0), .worker (0, 0), .sample (0, 0) 3, .call (0, 0) 0 4,
      .sample (0, 0) 5, .call (0, 0) (-1) 6, .sample (0, 0) 7, .worker (0, 0),
      .runDelay (0, 0) 0, .worker (0, 0), .main, .waitReturn .condition] : List Event) ++
    List.replicate 5 .main

theorem exec_failedCallRun :
    ∃ s, exec (step (onePair 2 SELF_IPI) (benchInit twoCpus (onePair 2 SELF_IPI))) State.load
        failedCallRun = some s ∧
      s.AtReport (benchInit twoCpus (onePair 2 SELF_IPI)) (0, 0) (benchSelf 0)
        [1, 2, 7, 0, 0] := by
  have h : (exec (step (onePair 2 SELF_IPI) (benchInit twoCpus (onePair 2 SELF_IPI))) State.load
      failedCallRun).map (fun s => decide (s.main = .report 0 0 [1, 2, 7, 0, 0] ∧ s.job = 0)) =
        some true := by
    decide +kernel
  obtain ⟨s, hrun, hs⟩ := exists_exec_of_map h
  obtain ⟨hmain, hjob⟩ := of_decide_eq_true hs
  refine ⟨s, hrun, ⟨⟨0, hmain⟩, hjob.symm, ?_, by decide, rfl⟩⟩
  rw [hjob]
  rfl

theorem succeeded_failedCallRun :
    succeeded (onePair 2 SELF_IPI) (benchInit twoCpus (onePair 2 SELF_IPI)) (0, 0)
      failedCallRun = 1 := by
  decide +kernel

/-- In the run with the failed call one call has succeeded, and one has
failed. -/
theorem figures_count_done_work_iff_failedCallRun :
    ∃ s, exec (step (onePair 2 SELF_IPI) (benchInit twoCpus (onePair 2 SELF_IPI))) State.load
        failedCallRun = some s ∧
      CallFailed (onePair 2 SELF_IPI) (benchInit twoCpus (onePair 2 SELF_IPI)) (0, 0)
        failedCallRun := by
  obtain ⟨s, hrun, hat⟩ := exec_failedCallRun
  have hstores : AllSteps (step (onePair 2 SELF_IPI) [benchSelf 0]) NoStaleStore State.load
      failedCallRun := noStaleStore_of_single hrun
  have hfigure := ((figures_count_done_work_iff (by decide) hrun).1 hstores).2 (0, 0) (benchSelf 0) _
    hat rfl (by decide)
  refine ⟨s, hrun, not_not.mp fun hnone => ?_⟩
  have htwo := hfigure.mpr hnone
  rw [succeeded_failedCallRun] at htwo
  exact absurd htwo (by decide)

/-- `ipi_bench_mesh`, whose wait a signal ends before its worker has done
anything, up to the line with its throughput. -/
def interruptedRun : List Event :=
  ([.main, .alloc true, .main, .build fun k => UInt64.ofNat k, .launch true, .main, .mainSample 1,
    .waitReturn .signal, .mainSample 10] : List Event) ++
    List.replicate 6 .main

/-- A report prints an average over two calls where one has succeeded, and a
throughput is printed where no call has been made. -/
theorem figures_without_work :
    (∃ s, exec (step (onePair 2 SELF_IPI) (benchInit twoCpus (onePair 2 SELF_IPI))) State.load
        failedCallRun = some s ∧
      s.AtReport (benchInit twoCpus (onePair 2 SELF_IPI)) (0, 0) (benchSelf 0) [1, 2, 7, 0, 0] ∧
      (reportSingle (onePair 2 SELF_IPI) [1, 2, 7, 0, 0]).map Line.avgCall = some 2 ∧
      succeeded (onePair 2 SELF_IPI) (benchInit twoCpus (onePair 2 SELF_IPI)) (0, 0)
        failedCallRun = 1) ∧
    ∃ s, exec (step (onePair 2 MESH_IPI) (benchInit twoCpus (onePair 2 MESH_IPI))) State.load
        interruptedRun = some s ∧
      s.AtThroughput (benchInit twoCpus (onePair 2 MESH_IPI)) (benchMesh twoCpus 1 true) 9 ∧
      meshThroughput 1 2 9 = 222222222 ∧
      succeeded (onePair 2 MESH_IPI) (benchInit twoCpus (onePair 2 MESH_IPI)) (0, 0)
        interruptedRun = 0 := by
  constructor
  · obtain ⟨s, hrun, hat⟩ := exec_failedCallRun
    exact ⟨s, hrun, hat, by decide, succeeded_failedCallRun⟩
  · have h : (exec (step (onePair 2 MESH_IPI) (benchInit twoCpus (onePair 2 MESH_IPI))) State.load
        interruptedRun).map (fun s => decide (s.main = .report 9 1 [] ∧ s.job = 0)) =
          some true := by
      decide +kernel
    obtain ⟨s, hrun, hs⟩ := exists_exec_of_map h
    obtain ⟨hmain, hjob⟩ := of_decide_eq_true hs
    refine ⟨s, hrun, ⟨⟨1, [], hmain, by decide⟩, ?_, rfl⟩, by decide, by decide +kernel⟩
    rw [hjob]
    rfl

end KvmUtils.IpiBench
