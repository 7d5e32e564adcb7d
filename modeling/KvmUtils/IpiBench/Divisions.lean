import KvmUtils.IpiBench.CpuUses
import KvmUtils.IpiBench.Params
import KvmUtils.IpiBench.Printing

/-!
# The divisions

A report divides by `loops`, which `ipi_bench_init_params` does not look at.
A throughput is divided by the time between two readings of the clock, which
may be the same.

`divisors_nonzero_iff` says with which parameters no run of a load divides by
zero.  It also says that for a `loops` other than 0 it is enough that the clock
moves on during each wait.
-/

namespace KvmUtils.IpiBench

open Function Machine

/-- The divisors of a report, without the constant 1000. -/
def reportDivisors (p : Params) (task : Task) (fields : List UInt64) : List UInt64 :=
  if readOf task fields .finish = 0 then []
  else
    match task with
    | .single => [toWord p.loops, toWord p.loops]
    | .many => [toWord p.loops]

/-- The divisors of a step. -/
def divisors (p : Params) (jobs : List Job) (s : State) : Event → List UInt64
  | .main =>
    match s.main, jobs[s.job]? with
    | .report elapsed i fields, some job =>
      if (i : Int) < job.shouldRun then
        match (reportFields job.task)[fields.length]? with
        | some _ => []
        | none => reportDivisors p job.task fields
      else if job.timed then [elapsed]
      else []
    | _, _ => []
  | _ => []

/-- The step does not divide by zero. -/
def NonzeroDivisors (p : Params) (jobs : List Job) (s : State) (e : Event) : Prop :=
  ∀ d ∈ divisors p jobs s e, d ≠ 0

instance (p : Params) (jobs : List Job) (s : State) (e : Event) :
    Decidable (NonzeroDivisors p jobs s e) :=
  List.decidableBAll (fun d => d ≠ 0) (divisors p jobs s e)

/-- The clock has moved on when a wait is over. -/
def ClockMoves (s : State) (e : Event) : Prop :=
  ∀ t startns, e = .mainSample t → s.main = .sampleEnd startns → t ≠ startns

theorem toWord_ne_zero {x : Int} (hx : IsInt x) (hne : x ≠ 0) : toWord x ≠ 0 := by
  intro hzero
  have hword := CFormat.toNat_toUInt64 (Int32.ofInt x)
  rw [Int32.toInt_ofInt_of_le hx.1 hx.2] at hword
  have hnat : (toWord x).toNat = 0 := by
    rw [hzero]
    rfl
  unfold toWord at hnat
  rw [hnat] at hword
  obtain ⟨hle, hlt⟩ := hx
  omega

section Steps

variable {p : Params} {jobs : List Job} {s s' : State}

/-- A step divides by `loops` in the report of a worker, and by the time that
has passed at the end of the reports. -/
theorem nonzeroDivisors_of {e : Event}
    (hloops : ∀ elapsed i fields, s.main = .report elapsed i fields → toWord p.loops ≠ 0)
    (helapsed : ∀ elapsed i fields job, s.main = .report elapsed i fields →
      jobs[s.job]? = some job → job.timed = true → elapsed ≠ 0) :
    NonzeroDivisors p jobs s e := by
  intro d hd
  unfold divisors at hd
  split at hd
  · split at hd
    · rename_i elapsed i fields job hmain hjob
      have hne := hloops elapsed i fields hmain
      split_ifs at hd with hi htimed
      · split at hd
        · cases hd
        · unfold reportDivisors at hd
          split_ifs at hd
          · cases hd
          · have hd' : d = toWord p.loops := by
              cases htask : job.task <;> rw [htask] at hd <;> simpa using hd
            rwa [hd']
      · rw [List.mem_singleton.mp hd]
        exact helapsed elapsed i fields job hmain hjob htimed
      · cases hd
    · cases hd
  · cases hd

/-- The time that the reports of a timed benchmark carry is not zero. -/
def State.Elapsed (jobs : List Job) (s : State) : Prop :=
  ∀ elapsed i fields job, s.main = .report elapsed i fields → jobs[s.job]? = some job →
    job.timed = true → elapsed ≠ 0

theorem State.Elapsed.of_not_report (h : ∀ elapsed i fields, s.main ≠ .report elapsed i fields) :
    s.Elapsed jobs :=
  fun elapsed i fields _ hmain => absurd hmain (h elapsed i fields)

/-- The reports keep the time. -/
theorem State.Elapsed.report {elapsed : UInt64} {i : Nat} {fields : List UInt64}
    (h : s.Elapsed jobs) (hmain : s.main = .report elapsed i fields)
    (hmove : ReportMove jobs s elapsed i fields s') : s'.Elapsed jobs := by
  cases hmove with
  | read | line =>
    intro _ _ _ job hreport
    cases hreport
    exact h elapsed i fields job hmain
  | last => exact .of_not_report (by simp)

theorem State.Elapsed.step {e : Event} (h : s.Elapsed jobs) (hclock : ClockMoves s e)
    (hst : IpiBench.step p jobs s e = some s') : s'.Elapsed jobs := by
  cases he : e.actor with
  | some w =>
    have hframe := (workerMove_of_step he hst).frame
    unfold State.Elapsed
    rw [hframe.main, hframe.job]
    exact h
  | none =>
    cases mainMove_of_step he hst with
    | @waitReturn how startns q hmain =>
      -- without a clock there is nothing to divide
      simp only [IpiBench.step, waitStep, hmain] at hst
      split at hst
      · rename_i hjob
        split_ifs at hst with hcond htimed
        · intro elapsed i fields job hreport
          rw [← Option.some.inj hst] at hreport
          cases hreport
        · intro elapsed i fields job' _ hjob' htimed'
          obtain rfl := Option.some.inj (hjob.symm.trans hjob')
          exact absurd htimed' htimed
      · cases hst
    | @sampleEnd t startns hmain =>
      intro elapsed i fields job hreport _ _
      cases hreport
      have hne := hclock t startns rfl hmain
      intro hzero
      exact hne (by simpa [sub_eq_zero] using hzero)
    | report hmain => exact h.report hmain (reportMove_of_mainStep hmain hst)
    | endLaunch hmain _ _ hp =>
      rcases hp with rfl | rfl <;> exact .of_not_report (by simp)
    | stop | begin | alloc | noMemory | setShould | build | buildFail | launch | launchFail
    | sampleStart | endReport | free => exact .of_not_report (by simp [State.goto])

/-- With a `loops` other than 0, a clock that moves on is enough. -/
theorem nonzeroDivisors_of_clockMoves {es : List Event} (hloops : toWord p.loops ≠ 0)
    (hrun : exec (IpiBench.step p jobs) State.load es = some s)
    (hclock : AllSteps (IpiBench.step p jobs) ClockMoves State.load es) :
    AllSteps (IpiBench.step p jobs) (NonzeroDivisors p jobs) State.load es :=
  allSteps_imp (I := State.Elapsed jobs) (P := ClockMoves)
    (fun _ _ _ hI hP hst => hI.step hP hst)
    (fun _ _ _ hI _ _ => nonzeroDivisors_of (fun _ _ _ _ => hloops) hI)
    (.of_not_report (by simp [State.load])) hrun hclock

end Steps

/-! ## Runs that divide by zero -/

section Reaches

variable {p : Params} {jobs : List Job} {job : Job} {j : Nat} {s : State}

/-- No run divides by zero. -/
def NeverDividesByZero (p : Params) (jobs : List Job) : Prop :=
  ∀ es s, exec (step p jobs) State.load es = some s →
    AllSteps (step p jobs) (NonzeroDivisors p jobs) State.load es

/-- In every state that a run reaches, the next step does not divide by
zero. -/
theorem NeverDividesByZero.of_reaches {s' : State} {e : Event} (h : NeverDividesByZero p jobs)
    (hs : Reaches (step p jobs) State.load s) (hst : step p jobs s e = some s') :
    NonzeroDivisors p jobs s e := by
  obtain ⟨es, hes⟩ := hs
  have hall := h (es ++ [e]) s' (exec_trans hes (exec_one hst))
  exact ((allSteps_append hes).mp hall).2.1

/-- No worker of the benchmark can be created. -/
theorem reaches_launchFail {i : Nat} (hjob : jobs[s.job]? = some job)
    (hmain : s.main = .launch i) (hi : i ≤ job.shouldRun.toNat) :
    Reaches (step p jobs) s { s with main := .launch job.shouldRun.toNat } := by
  induction hm : job.shouldRun.toNat - i generalizing s i with
  | zero =>
    obtain rfl : i = job.shouldRun.toNat := by omega
    rw [← hmain]
    exact .refl s
  | succ m ih =>
    have hlt : (i : Int) < job.shouldRun := by omega
    have hst : step p jobs s (.launch false) = some { s with main := .launch (i + 1) } := by
      simp [step, launchStep, hmain, hjob, hlt]
    exact .head hst (ih (s := { s with main := .launch (i + 1) }) hjob rfl (by omega) (by omega))

/-- A timed benchmark that gets its memory and its CPUs can end in the
instant in which it starts to wait. -/
theorem exists_zero_elapsed (hjob : jobs[j]? = some job) (hlen : 0 ≤ job.shouldRun)
    (hfeasible : job.Feasible) (htimed : job.timed = true) :
    ∃ s k rest, Reaches (step p jobs) State.load s ∧ s.main = .report 0 k rest ∧
      jobs[s.job]? = some job ∧ job.shouldRun ≤ (k : Nat) := by
  obtain ⟨random, cpus, hcpus⟩ := hfeasible
  obtain ⟨s₁, hbuild, hmain₁, hjob₁⟩ : ∃ s₁, step p jobs (State.building job j) (.build random) =
      some s₁ ∧ s₁.main = .launch 0 ∧ s₁.job = j := by
    simp [step, buildStep, State.building, State.skipped, hjob, hcpus]
  have hget : jobs[s₁.job]? = some job := by rwa [hjob₁]
  have hlaunch := reaches_launchFail (p := p) hget hmain₁ (Nat.zero_le _)
  have hwait : exec (step p jobs) { s₁ with main := .launch job.shouldRun.toNat }
      [.main, .mainSample s₁.clock, .waitReturn .signal, .mainSample s₁.clock] =
        some { s₁ with main := .report 0 0 [] } := by
    simp [exec, step, mainStep, mainSampleStep, waitStep, hget, htimed]
  obtain ⟨reports, k, rest, hk, hreport⟩ := reaches_lastReport p
    (s := { s₁ with main := .report 0 0 [] }) hget rfl
  exact ⟨_, k, rest, ((((reaches_building hjob hlen).trans (.head hbuild hlaunch)).trans
    (.of_exec _ hwait)).trans hreport), rfl, hget, hk⟩

/-- A timed benchmark that gets its memory and its CPUs can divide by zero. -/
theorem not_neverDividesByZero_of_timed (hjob : jobs[j]? = some job) (hlen : 0 ≤ job.shouldRun)
    (hfeasible : job.Feasible) (htimed : job.timed = true) : ¬ NeverDividesByZero p jobs := by
  intro h
  obtain ⟨s, k, rest, hreaches, hmain, hget, hk⟩ :=
    exists_zero_elapsed (p := p) hjob hlen hfeasible htimed
  have hi : ¬ (k : Int) < job.shouldRun := by omega
  have hst : step p jobs s .main = some { s with ret := update s.ret s.job 0, main := .free } := by
    simp [step, mainStep, hmain, hget, hi]
  exact h.of_reaches hreaches hst 0 (by simp [divisors, hmain, hget, hi, htimed]) rfl

/-- Without loops a benchmark with a single worker can divide by zero. -/
theorem not_neverDividesByZero_of_pair {src dst : Int} (hjob : jobs[j]? = some (benchPair src dst))
    (hloops : p.loops = 0) : ¬ NeverDividesByZero p jobs := by
  intro h
  obtain ⟨s, hone, hs⟩ := reaches_one (p := p) hjob
  rw [hloops] at hs
  obtain ⟨s₁, hfinish, hjob₁, hmain₁, -, hfield⟩ := reaches_finish p jobs hs
  have hget : jobs[s₁.job]? = some (benchPair src dst) := by rwa [hjob₁]
  have htask : (benchPair src dst).task = .single := rfl
  have hlen : (benchPair src dst).shouldRun = 1 := rfl
  have hbuilding := reaches_building (p := p) hjob (by rw [hlen]; decide)
  have hreaches := ((hbuilding.trans hone).trans hfinish).trans
    (reaches_report (p := p) hget hmain₁)
  rw [← hjob₁] at hfield
  have hst : step p jobs { s₁ with
      main := .report 0 0 ((reportFields .single).map (s₁.args (s₁.job, 0)).field) } .main =
        some { s₁ with
          reports := s₁.reports ++ [⟨(s₁.job, 0), 0, (reportFields .single).map
            (s₁.args (s₁.job, 0)).field⟩]
          main := .report 0 1 [] } := by
    simp [step, mainStep, hget, htask, hlen, reportFields]
  refine h.of_reaches hreaches hst 0 ?_ rfl
  simp [divisors, hget, htask, hlen, reportFields, reportDivisors, readOf, hfield, hloops]
  decide

end Reaches

/-- The benchmarks that `options` selects. -/
theorem mem_benchInit {topo : Topology} {p : Params} {job : Job} :
    job ∈ benchInit topo p ↔
      (p.options &&& SELF_IPI ≠ 0 ∧ job = benchSelf p.srccpu) ∨
      (p.options &&& SINGLE_IPI ≠ 0 ∧ job = benchSingle p.srccpu p.dstcpu) ∨
      (p.options &&& MESH_IPI ≠ 0 ∧ job = benchMesh topo p.pairs p.acrossnuma) ∨
      (p.options &&& ALL_IPI ≠ 0 ∧ job = benchAll topo p.broadcasts) := by
  simp only [benchInit, List.mem_append, List.mem_ite_nil_right, List.mem_singleton, or_assoc]

/-- The parameters `p` that a load runs with, of which `loops` is an `int`.

1. No run of the load divides by zero exactly when `loops` is not 0 or neither
   of the benchmarks with a single worker is selected, and when no selected
   benchmark with a throughput can get its memory and its CPUs.
2. With a `loops` other than 0, a run in which the clock moves on during each
   timed wait does not divide by zero. -/
theorem divisors_nonzero_iff {topo : Topology} {p : Params} (hint : IsInt p.loops) :
    (NeverDividesByZero p (benchInit topo p) ↔
      (p.loops = 0 → p.options &&& SELF_IPI = 0 ∧ p.options &&& SINGLE_IPI = 0) ∧
      (p.options &&& MESH_IPI ≠ 0 →
        ¬ (0 ≤ p.pairs ∧ (benchMesh topo p.pairs p.acrossnuma).Feasible)) ∧
      (p.options &&& ALL_IPI ≠ 0 → ¬ (0 ≤ p.broadcasts ∧ (benchAll topo p.broadcasts).Feasible))) ∧
    (p.loops ≠ 0 → ∀ es s, exec (step p (benchInit topo p)) State.load es = some s →
      AllSteps (step p (benchInit topo p)) ClockMoves State.load es →
        AllSteps (step p (benchInit topo p)) (NonzeroDivisors p (benchInit topo p))
          State.load es) := by
  refine ⟨⟨fun h => ?_, fun ⟨hpair, hmesh, hall⟩ => ?_⟩, fun hloops es s hrun =>
    nonzeroDivisors_of_clockMoves (toWord_ne_zero hint hloops) hrun⟩
  · have htimed : ∀ job ∈ benchInit topo p, job.timed = true →
        ¬ (0 ≤ job.shouldRun ∧ job.Feasible) := by
      intro job hmem htimed ⟨hlen, hfeasible⟩
      obtain ⟨j, hj⟩ := List.mem_iff_getElem?.mp hmem
      exact not_neverDividesByZero_of_timed hj hlen hfeasible htimed h
    refine ⟨fun hloops => ⟨?_, ?_⟩, fun hbit => ?_, fun hbit => ?_⟩
    · by_contra hbit
      obtain ⟨j, hj⟩ := List.mem_iff_getElem?.mp (mem_benchInit.mpr (Or.inl ⟨hbit, rfl⟩))
      exact not_neverDividesByZero_of_pair hj hloops h
    · by_contra hbit
      obtain ⟨j, hj⟩ := List.mem_iff_getElem?.mp
        (mem_benchInit.mpr (Or.inr (Or.inl ⟨hbit, rfl⟩)))
      exact not_neverDividesByZero_of_pair hj hloops h
    · exact htimed _ (mem_benchInit.mpr (Or.inr (Or.inr (Or.inl ⟨hbit, rfl⟩)))) rfl
    · exact htimed _ (mem_benchInit.mpr (Or.inr (Or.inr (Or.inr ⟨hbit, rfl⟩)))) rfl
  · -- only a benchmark with a single worker gets to its reports
    have hpairOnly : ∀ {es s elapsed i fields}, exec (step p (benchInit topo p)) State.load es =
        some s → s.main = .report elapsed i fields →
          p.loops ≠ 0 ∧ ∀ job, (benchInit topo p)[s.job]? = some job → job.timed = false := by
      intro es s elapsed i fields hrun hmain
      obtain ⟨job, hget, -, hfeasible⟩ :=
        (counted_of_exec (counted_load _) hrun).built (by rw [hmain]; trivial)
      have hlen := shouldRun_nonneg hrun (by rw [hmain]; trivial) job hget
      obtain ⟨hbit, rfl⟩ | ⟨hbit, rfl⟩ | ⟨hbit, rfl⟩ | ⟨hbit, rfl⟩ :=
        mem_benchInit.mp (List.mem_iff_getElem?.mpr ⟨_, hget⟩)
      · refine ⟨fun hloops => hbit (hpair hloops).1, fun job hjob => ?_⟩
        rw [← Option.some.inj (hget.symm.trans hjob)]
        rfl
      · refine ⟨fun hloops => hbit (hpair hloops).2, fun job hjob => ?_⟩
        rw [← Option.some.inj (hget.symm.trans hjob)]
        rfl
      · exact absurd ⟨hlen, hfeasible⟩ (hmesh hbit)
      · exact absurd ⟨hlen, hfeasible⟩ (hall hbit)
    intro es s hrun
    refine allSteps_imp (I := Reaches (step p (benchInit topo p)) State.load)
      (P := fun _ _ => True) (fun _ e _ hs _ hst => hs.trans (.of_exec [e] (exec_one hst)))
      (fun t e _ ht _ _ => ?_) (.refl _) hrun (allSteps_of_forall (fun _ _ => trivial) _ _)
    obtain ⟨fs, hfs⟩ := ht
    refine nonzeroDivisors_of (fun _ _ _ hmain => ?_) fun _ _ _ job hmain hjob htimed => ?_
    · exact toWord_ne_zero hint (hpairOnly hfs hmain).1
    · exact absurd htimed (by rw [(hpairOnly hfs hmain).2 job hjob]; decide)

/-- `ipi_bench_self` with no loops, up to the report of its worker. -/
def noLoopsRun : List Event :=
  selfBarrierRun ++
    ([.sample (0, 0) 2, .worker (0, 0), .worker (0, 0), .worker (0, 0), .worker (0, 0),
      .sample (0, 0) 3, .worker (0, 0), .runDelay (0, 0) 0, .worker (0, 0), .main,
      .waitReturn .condition] : List Event) ++
    List.replicate 6 .main

/-- `ipi_bench_mesh` with one pair, whose wait ends in the instant in which it
has begun, up to its throughput. -/
def sameInstantRun : List Event :=
  ([.main, .alloc true, .main, .build fun k => UInt64.ofNat k, .launch true, .main, .mainSample 1,
    .waitReturn .signal, .mainSample 1] : List Event) ++
    List.replicate 7 .main

/-- The parameters of the two runs are accepted, and each of them divides by
zero: by `loops`, and by the elapsed time. -/
theorem divides_by_zero :
    (initParams twoCpus (fun _ => 0) 1 (onePair 0 SELF_IPI) = some (0, onePair 0 SELF_IPI) ∧
      (exec (step (onePair 0 SELF_IPI) (benchInit twoCpus (onePair 0 SELF_IPI))) State.load
        noLoopsRun).isSome ∧
      ¬ AllSteps (step (onePair 0 SELF_IPI) (benchInit twoCpus (onePair 0 SELF_IPI)))
        (NonzeroDivisors (onePair 0 SELF_IPI) (benchInit twoCpus (onePair 0 SELF_IPI)))
          State.load noLoopsRun) ∧
    initParams twoCpus (fun _ => 0) 1 (onePair 1 MESH_IPI) = some (0, onePair 1 MESH_IPI) ∧
      (exec (step (onePair 1 MESH_IPI) (benchInit twoCpus (onePair 1 MESH_IPI))) State.load
        sameInstantRun).isSome ∧
      ¬ AllSteps (step (onePair 1 MESH_IPI) (benchInit twoCpus (onePair 1 MESH_IPI)))
        (NonzeroDivisors (onePair 1 MESH_IPI) (benchInit twoCpus (onePair 1 MESH_IPI)))
          State.load sameInstantRun := by
  refine ⟨⟨rfl, ?_, ?_⟩, rfl, ?_, ?_⟩
  all_goals decide +kernel

/-- `ipi_bench_self` with one loop never divides by zero. -/
theorem never_divides_by_zero_self :
    NeverDividesByZero (onePair 1 SELF_IPI) (benchInit twoCpus (onePair 1 SELF_IPI)) :=
  (divisors_nonzero_iff (by decide)).1.mpr
    ⟨fun hloops => absurd hloops (by decide), fun hbit => absurd rfl hbit,
      fun hbit => absurd rfl hbit⟩

end KvmUtils.IpiBench
