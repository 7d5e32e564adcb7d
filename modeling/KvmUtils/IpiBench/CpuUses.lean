import KvmUtils.IpiBench.Assignment
import KvmUtils.IpiBench.Paths

/-!
# The uses of the CPU numbers

A benchmark passes CPU numbers to `cpu_to_node` while it chooses its CPUs,
when it creates a worker and in its reports, to `kthread_bind` when it has
created a worker, and to `smp_call_function_single` in its workers.  `usesOf`
lists those of one step of the machine.

`uses_mem_of_step` carries the validity of what the benchmarks choose to all
uses in all runs.  `reaches_building` and the lemmas after it are runs that
lead to the uses.
-/

namespace KvmUtils.IpiBench

open Function Machine

/-- A CPU number that is passed to a function of the kernel. -/
inductive Use where
  | cpuToNode (cpu : Int)
  | kthreadBind (cpu : Int)
  | smpCall (cpu : Int)
  deriving DecidableEq, Repr

def Use.cpu : Use → Int
  | .cpuToNode cpu | .kthreadBind cpu | .smpCall cpu => cpu

/-! ## The uses while the CPUs are chosen -/

/-- The CPUs whose nodes `__random_unused_cpu_in_cpumask` asks for, with
`retry` turns left. -/
def randomUnusedCpuNodes (topo : Topology) (random : Nat → UInt64) (node : Int) :
    Nat → Nat → Finset Int → List Int
  | 0, _, _ => []
  | retry + 1, pos, cpumask =>
    let cpu : Int := (random pos).toNat % topo.numCpus
    if cpu ∈ cpumask then randomUnusedCpuNodes topo random node retry (pos + 1) cpumask
    else if 0 ≤ node then
      if topo.cpuToNode cpu ≠ node then
        cpu :: randomUnusedCpuNodes topo random node retry (pos + 1) cpumask
      else [cpu]
    else []

/-- The CPUs whose nodes one turn of the loop of `ipi_bench_mesh` asks for.
It does so for `ba->src` before it looks at the sign. -/
def meshTurnNodes (topo : Topology) (acrossnuma : Bool) (random : Nat → UInt64) (st : Picking) :
    List Int :=
  let (src, cpumask, pos) := randomUnusedCpu topo random st.cpumask (-1) st.pos
  let node := if acrossnuma then st.node else topo.cpuToNode src
  randomUnusedCpuNodes topo random (-1) RETRY st.pos st.cpumask ++
    (if acrossnuma then [] else [src]) ++
    randomUnusedCpuNodes topo random node RETRY pos cpumask

/-- The same for one turn of the loop of `ipi_bench_all`. -/
def allTurnNodes (topo : Topology) (random : Nat → UInt64) (st : Picking) : List Int :=
  randomUnusedCpuNodes topo random (-1) RETRY st.pos st.cpumask

/-- The CPUs whose nodes `n` turns of a loop ask for. -/
def nodesOf (turn : Picking → Option ((Int × Int) × Picking)) (nodes : Picking → List Int) :
    Nat → Picking → List Int
  | 0, _ => []
  | n + 1, st =>
    nodes st ++
      match turn st with
      | none => []
      | some (_, st) => nodesOf turn nodes n st

/-- A benchmark, with the CPUs whose nodes it asks for while it chooses its
CPUs. -/
structure Bench where
  job : Job
  nodes : (Nat → UInt64) → List Int

def Bench.pair (src dst : Int) : Bench where
  job := benchPair src dst
  nodes _ := []

def Bench.mesh (topo : Topology) (pairs : Int) (acrossnuma : Bool) : Bench where
  job := benchMesh topo pairs acrossnuma
  nodes random := nodesOf (meshTurn topo acrossnuma random) (meshTurnNodes topo acrossnuma random)
    pairs.toNat Picking.start

def Bench.all (topo : Topology) (broadcasts : Int) : Bench where
  job := benchAll topo broadcasts
  nodes random := nodesOf (allTurn topo random) (allTurnNodes topo random) broadcasts.toNat
    Picking.start

/-- The benchmarks of `benchInit`. -/
def benches (topo : Topology) (p : Params) : List Bench :=
  (if p.options &&& SELF_IPI ≠ 0 then [Bench.pair p.srccpu p.srccpu] else []) ++
    (if p.options &&& SINGLE_IPI ≠ 0 then [Bench.pair p.srccpu p.dstcpu] else []) ++
    (if p.options &&& MESH_IPI ≠ 0 then [Bench.mesh topo p.pairs p.acrossnuma] else []) ++
    (if p.options &&& ALL_IPI ≠ 0 then [Bench.all topo p.broadcasts] else [])

theorem map_job_benches (topo : Topology) (p : Params) :
    (benches topo p).map Bench.job = benchInit topo p := by
  simp only [benches, benchInit, List.map_append, apply_ite (List.map Bench.job), List.map_nil,
    List.map_cons]
  rfl

/-! ## The uses in a step -/

/-- The CPUs whose nodes `ipi_bench_report_single` and `ipi_bench_report_all`
ask for. -/
def reportUses (task : Task) (ba : BenchArgs) : List Use :=
  match task with
  | .single => [.cpuToNode ba.src, .cpuToNode ba.dst]
  | .many => [.cpuToNode ba.src]

/-- The CPU numbers that a step passes on.  A report that has read `finish`
equal to zero prints `too many loops` only. -/
def usesOf (bs : List Bench) (s : State) : Event → List Use
  | .build random =>
    match bs[s.job]? with
    | none => []
    | some bench => (bench.nodes random).map .cpuToNode
  | .launch ok =>
    match s.main with
    | .launch i =>
      let src := (s.args (s.job, i)).src
      if ok then [.cpuToNode src, .kthreadBind src] else [.cpuToNode src]
    | _ => []
  | .call w _ _ =>
    match s.pc w with
    | .call dst _ _ _ => [.smpCall dst]
    | _ => []
  | .main =>
    match s.main, bs[s.job]? with
    | .report _ i fields, some bench =>
      if (i : Int) < bench.job.shouldRun ∧
          fields.length = (reportFields bench.job.task).length ∧ fields.getD 2 0 ≠ 0 then
        reportUses bench.job.task (s.args (s.job, i))
      else []
    | _, _ => []
  | .alloc _ | .mainSample _ | .waitReturn _ | .worker _ | .sample _ _ | .runDelay _ _ => []

/-- What the benchmark chooses, and asks for while it chooses, is in `S`. -/
structure Bench.Within (bench : Bench) (S : Finset Int) : Prop where
  nodes : ∀ random, ∀ cpu ∈ bench.nodes random, cpu ∈ S
  src : ∀ random cpus, bench.job.cpus random = some cpus → ∀ pair ∈ cpus, pair.1 ∈ S
  dst : ∀ random cpus, bench.job.cpus random = some cpus → bench.job.task = .single →
    ∀ pair ∈ cpus, pair.2 ∈ S

/-- The local `dst` of `ipi_bench_one`. -/
def Pc.callDst : Pc → Option Int
  | .one dst _ _ | .call dst _ _ _ => some dst
  | _ => none

/-- The workers have only CPUs of `S` to send to. -/
structure SendWithin (jobs : List Job) (S : Finset Int) (s : State) : Prop where
  entry : ∀ w ∈ s.launched, ∀ job, jobs[w.1]? = some job → job.task = .single →
    (s.args w).dst ∈ S
  callDst : ∀ w dst, (s.pc w).callDst = some dst → dst ∈ S

section Within

variable {p : Params} {jobs : List Job} {S : Finset Int} {s s' : State} {e : Event}

/-- Where the local `dst` comes from. -/
theorem callDst_of_step {w : Worker} (he : e.actor = some w) (hst : step p jobs s e = some s')
    {dst : Int} (hdst : (s'.pc w).callDst = some dst) :
    (s.pc w).callDst = some dst ∨
      dst = (s.args w).dst ∧ ∃ job, jobs[w.1]? = some job ∧ job.task = .single := by
  have hgoto : ∀ (t : State) (q : Pc), (t.goto w q).pc w = q := fun t q => update_self _ _ _
  cases act_of_step he hst with
  | enterSingle hpc hjob htask =>
    rw [hgoto] at hdst
    cases hdst
    exact Or.inr ⟨rfl, _, hjob, htask⟩
  | sampleCall hpc _ _ | callWaited hpc _ _ _ | callSent hpc _ _ _ =>
    rw [hgoto] at hdst
    rw [hpc]
    exact Or.inl hdst
  | _ =>
    rw [hgoto] at hdst
    cases hdst

theorem SendWithin.worker {w : Worker} (h : SendWithin jobs S s) (hchosen : Chosen jobs s)
    (he : e.actor = some w) (hst : step p jobs s e = some s') : SendWithin jobs S s' := by
  have hmove := workerMove_of_step he hst
  obtain ⟨q, hpc, -⟩ := hmove.frame.pc
  have hlaunched : w ∈ s.launched := (hchosen.counted.mem_launched w).mpr hmove.frame.present
  refine ⟨fun v hv job hjob htask => ?_, fun v dst hdst => ?_⟩
  · rw [hmove.frame.launched] at hv
    rw [(hmove.cpus.2 v).2]
    exact h.entry v hv job hjob htask
  · by_cases hvw : v = w
    · subst hvw
      rcases callDst_of_step he hst hdst with hkept | ⟨rfl, job, hjob, htask⟩
      · exact h.callDst v dst hkept
      · exact h.entry v hlaunched job hjob htask
    · rw [hpc, update_of_ne hvw] at hdst
      exact h.callDst v dst hdst

/-- Entry `i` of a benchmark whose CPUs are chosen. -/
theorem Chosen.entry (hchosen : Chosen jobs s) (hbuilt : s.main.Built) {job : Job}
    (hjob : jobs[s.job]? = some job) {i : Nat} (hi : (i : Int) < job.shouldRun) :
    ∃ random cpus, job.cpus random = some cpus ∧
      ((s.args (s.job, i)).src, (s.args (s.job, i)).dst) ∈ cpus := by
  obtain ⟨job', random, cpus, hjob', hcpus, harray⟩ := hchosen.assigned hbuilt
  obtain rfl := Option.some.inj (hjob.symm.trans hjob')
  refine ⟨random, cpus, hcpus, ?_⟩
  rw [← harray]
  exact List.mem_map.mpr ⟨i, List.mem_range.mpr (by omega), rfl⟩

theorem SendWithin.main (h : SendWithin jobs S s) (hchosen : Chosen jobs s)
    (hwithin : ∀ job ∈ jobs, job.task = .single → ∀ random cpus, job.cpus random = some cpus →
      ∀ pair ∈ cpus, pair.2 ∈ S)
    (hmove : MainMove jobs s e s') : SendWithin jobs S s' := by
  cases hmove with
  | @build job random cpus hmain hjob hcpus =>
    refine ⟨fun w hw job hjob htask => ?_, h.callDst⟩
    have hother : w.1 ≠ s.job := by
      intro hcur
      have hpassed := hchosen.counted.passed w hw hcur
      rw [hmain] at hpassed
      exact hpassed
    simp only [if_neg hother]
    exact h.entry w hw job hjob htask
  | @launch job i hmain hjob hi =>
    refine ⟨fun w hw job' hjob' htask => ?_, fun w dst hdst => ?_⟩
    · rcases Finset.mem_insert.mp hw with rfl | hw
      · obtain rfl := Option.some.inj (hjob.symm.trans hjob')
        obtain ⟨random, cpus, hcpus, hmem⟩ :=
          hchosen.entry (by rw [hmain]; trivial) hjob hi
        exact hwithin job (List.mem_of_getElem? hjob) htask random cpus hcpus _ hmem
      · exact h.entry w hw job' hjob' htask
    · by_cases hw : w = (s.job, i)
      · subst hw
        simp only [State.goto, update_self] at hdst
        cases hdst
      · simp only [State.goto, update_of_ne hw] at hdst
        exact h.callDst w dst hdst
  | stop | begin | alloc | noMemory | setShould | buildFail | launchFail | endLaunch | sampleStart
  | waitReturn | sampleEnd | report | endReport | free => exact ⟨h.entry, h.callDst⟩

end Within

section Uses

variable {p : Params} {S : Finset Int} {s s' : State} {e : Event} {bs : List Bench}
  {es : List Event}

theorem bench_of_job {job : Job} {j : Nat} (hjob : (bs.map Bench.job)[j]? = some job) :
    ∃ bench ∈ bs, bs[j]? = some bench ∧ bench.job = job := by
  rw [List.getElem?_map, Option.map_eq_some_iff] at hjob
  obtain ⟨bench, hbench, rfl⟩ := hjob
  exact ⟨bench, List.mem_of_getElem? hbench, hbench, rfl⟩

/-- In a run of benchmarks that choose CPUs of `S`, the workers send to CPUs
of `S`. -/
theorem sendWithin_of_exec (hwithin : ∀ bench ∈ bs, bench.Within S)
    (hrun : exec (step p (bs.map Bench.job)) State.load es = some s) :
    Chosen (bs.map Bench.job) s ∧ SendWithin (bs.map Bench.job) S s := by
  have hdst : ∀ job ∈ bs.map Bench.job, job.task = .single → ∀ random cpus,
      job.cpus random = some cpus → ∀ pair ∈ cpus, pair.2 ∈ S := by
    intro job hjob htask random cpus hcpus
    obtain ⟨bench, hbench, rfl⟩ := List.mem_map.mp hjob
    exact (hwithin bench hbench).dst random cpus hcpus htask
  refine exec_invariant' (I := fun s => Chosen (bs.map Bench.job) s ∧
    SendWithin (bs.map Bench.job) S s) (fun s e s' hI hst => ?_)
    ⟨chosen_load _, nofun, nofun⟩ hrun
  refine ⟨chosen_of_exec hI.1 (exec_one hst), ?_⟩
  cases he : e.actor with
  | none => exact hI.2.main hI.1 hdst (mainMove_of_step he hst)
  | some w => exact hI.2.worker hI.1 he hst

/-- The creation of a worker asks for its source. -/
theorem cpu_of_launch {ok : Bool} {use : Use} (huse : use ∈ usesOf bs s (.launch ok)) :
    ∃ i, s.main = .launch i ∧ use.cpu = (s.args (s.job, i)).src := by
  simp only [usesOf] at huse
  split at huse
  · rename_i i hmain
    refine ⟨i, hmain, ?_⟩
    cases ok with
    | true =>
      rcases List.mem_pair.mp huse with rfl | rfl
      · rfl
      · rfl
    | false =>
      obtain rfl := List.mem_singleton.mp huse
      rfl
  · cases huse

/-- A report asks for the source of its worker, and for the destination of a
worker that has one. -/
theorem cpu_of_report {use : Use} (huse : use ∈ usesOf bs s .main) :
    ∃ elapsed i fields bench, s.main = .report elapsed i fields ∧ bs[s.job]? = some bench ∧
      (i : Int) < bench.job.shouldRun ∧
        (use.cpu = (s.args (s.job, i)).src ∨
          bench.job.task = .single ∧ use.cpu = (s.args (s.job, i)).dst) := by
  simp only [usesOf] at huse
  split at huse
  · rename_i elapsed i fields bench hmain hbench
    split at huse
    · rename_i hreport
      refine ⟨elapsed, i, fields, bench, hmain, hbench, hreport.1, ?_⟩
      unfold reportUses at huse
      split at huse
      · rename_i htask
        rcases List.mem_pair.mp huse with rfl | rfl
        · exact Or.inl rfl
        · exact Or.inr ⟨htask, rfl⟩
      · obtain rfl := List.mem_singleton.mp huse
        exact Or.inl rfl
    · cases huse
  · cases huse

/-- All uses in a run are of CPUs of `S`, if all benchmarks choose CPUs of
`S`. -/
theorem uses_mem_of_step (hwithin : ∀ bench ∈ bs, bench.Within S)
    (hrun : exec (step p (bs.map Bench.job)) State.load es = some s)
    (hst : step p (bs.map Bench.job) s e = some s') : ∀ use ∈ usesOf bs s e, use.cpu ∈ S := by
  obtain ⟨hchosen, hsend⟩ := sendWithin_of_exec hwithin hrun
  intro use huse
  cases e with
  | alloc | mainSample | waitReturn | worker | sample | runDelay => cases huse
  | build random =>
    simp only [usesOf] at huse
    split at huse
    · cases huse
    · rename_i bench hbench
      obtain ⟨cpu, hcpu, rfl⟩ := List.mem_map.mp huse
      exact (hwithin bench (List.mem_of_getElem? hbench)).nodes random cpu hcpu
  | launch ok =>
    obtain ⟨i, hmain, hcpu⟩ := cpu_of_launch huse
    obtain ⟨job, hjob, hi⟩ : ∃ job, (bs.map Bench.job)[s.job]? = some job ∧
        (i : Int) < job.shouldRun := by
      cases mainMove_of_step (e := .launch ok) rfl hst with
      | @launch job k hmain' hjob hi | @launchFail job k hmain' hjob hi =>
        obtain rfl := MainPc.launch.inj (hmain.symm.trans hmain')
        exact ⟨job, hjob, hi⟩
    obtain ⟨bench, hmem, -, rfl⟩ := bench_of_job hjob
    obtain ⟨random, cpus, hcpus, hentry⟩ := hchosen.entry (by rw [hmain]; trivial) hjob hi
    rw [hcpu]
    exact (hwithin bench hmem).src random cpus hcpus _ hentry
  | call w ret t =>
    simp only [usesOf] at huse
    split at huse
    · rename_i dst loop ipitime now hpc
      obtain rfl := List.mem_singleton.mp huse
      exact hsend.callDst w dst (by rw [hpc]; rfl)
    · cases huse
  | main =>
    obtain ⟨elapsed, i, fields, bench, hmain, hbench, hi, hcpu⟩ := cpu_of_report huse
    have hjob : (bs.map Bench.job)[s.job]? = some bench.job := by
      rw [List.getElem?_map, hbench]
      rfl
    obtain ⟨random, cpus, hcpus, hentry⟩ := hchosen.entry (by rw [hmain]; trivial) hjob hi
    have hok := hwithin bench (List.mem_of_getElem? hbench)
    obtain hsrc | ⟨htask, hdst⟩ := hcpu
    · rw [hsrc]
      exact hok.src random cpus hcpus _ hentry
    · rw [hdst]
      exact hok.dst random cpus hcpus htask _ hentry

end Uses

/-! ## Runs that lead to the uses -/

/-- The module before benchmark `j`, if no benchmark before it has got its
memory. -/
def State.skipped (j : Nat) : State := { State.load with job := j }

/-- The main thread is about to choose the CPUs of benchmark `j`, the first
one that has got its memory. -/
def State.building (job : Job) (j : Nat) : State :=
  { State.skipped j with
    main := .build
    should := job.shouldRun
    live := update (fun _ => false) j true }

section Runs

variable {p : Params} {jobs : List Job} {job : Job} {j : Nat}

theorem reaches_building (hjob : jobs[j]? = some job) (hlen : 0 ≤ job.shouldRun) :
    Reaches (step p jobs) State.load (State.building job j) := by
  have hj : j < jobs.length := by
    by_contra hge
    rw [List.getElem?_eq_none (by omega)] at hjob
    cases hjob
  have hskip : Reaches (step p jobs) State.load (State.skipped j) :=
    reaches_skip p rfl (Nat.zero_le j) hj.le
  refine hskip.trans (.of_exec [.main, .alloc true, .main] ?_)
  simp [exec, step, mainStep, allocStep, State.skipped, State.building, State.load, hjob, hlen]

/-- The only worker of `ipi_bench_single` is at `q`, and the clock stands at
zero. -/
structure Single (j : Nat) (dst : Int) (q : Pc) (s : State) : Prop where
  job : s.job = j
  main : s.main = .launch 1
  clock : s.clock = 0
  dst : (s.args (j, 0)).dst = dst
  pc : s.pc (j, 0) = q

section Single

variable {src dst : Int} {q q' : Pc} {s : State}

theorem Single.goto (h : Single j dst q s) : Single j dst q' (s.goto (j, 0) q') :=
  ⟨h.job, h.main, h.clock, h.dst, update_self ..⟩

theorem Single.store (h : Single j dst q s) (f : Field) (v : UInt64) :
    Single j dst q (s.store (j, 0) f v) := by
  refine ⟨h.job, h.main, h.clock, ?_, h.pc⟩
  show (update s.args (j, 0) _ (j, 0)).dst = dst
  rw [update_self]
  exact h.dst

/-- The worker is created. -/
theorem exec_launched (hjob : jobs[j]? = some (benchPair src dst)) (random : Nat → UInt64) :
    ∃ s, exec (step p jobs) (State.building (benchPair src dst) j)
        [.build random, .launch true] = some s ∧
      Single j dst .sampleForked s ∧ s.ready + 1 = s.should := by
  have hcpus : (benchPair src dst).cpus random = some [(src, dst)] := rfl
  have hone : (benchPair src dst).shouldRun = 1 := rfl
  obtain ⟨s, hrun, hcur, hmain, hclock, hopen, hdst, hpc⟩ :
      ∃ s, exec (step p jobs) (State.building (benchPair src dst) j)
          [.build random, .launch true] = some s ∧
        s.job = j ∧ s.main = .launch 1 ∧ s.clock = 0 ∧ s.ready + 1 = s.should ∧
        (s.args (j, 0)).dst = dst ∧ s.pc (j, 0) = .sampleForked := by
    simp [exec, step, buildStep, launchStep, State.building, State.skipped, State.load, hjob,
      hcpus, hone, State.goto, BenchArgs.fresh]
  exact ⟨s, hrun, ⟨hcur, hmain, hclock, hdst, hpc⟩, hopen⟩

/-- The worker gets through the barrier, which is open for it alone. -/
theorem reaches_one (hjob : jobs[j]? = some (benchPair src dst)) :
    ∃ s, Reaches (step p jobs) (State.building (benchPair src dst) j) s ∧
      Single j dst (.one dst p.loops.toNat 0) s := by
  obtain ⟨s, hlaunched, hs, hopen⟩ := exec_launched (p := p) hjob fun _ => 0
  obtain ⟨s₁, harrive, hs₁, hopen₁⟩ : ∃ s₁, exec (step p jobs) s
      [.sample (j, 0) 0, .worker (j, 0), .worker (j, 0)] = some s₁ ∧
        Single j dst .spinReady s₁ ∧ s₁.ready = s₁.should := by
    have hrun := exec_arrive p jobs hs.pc
    rw [hs.clock] at hrun
    have hstore := hs.store .forked 0
    exact ⟨_, hrun, ⟨hstore.job, hstore.main, hstore.clock, hstore.dst, update_self ..⟩, hopen⟩
  have hbarrier := exec_barrier p jobs hopen₁ hs₁.pc
  obtain ⟨s₂, hs₂⟩ : ∃ s₂, s₂ = s₁.goto (j, 0) .sampleStart := ⟨_, rfl⟩
  rw [← hs₂] at hbarrier
  have hs₂' : Single j dst .sampleStart s₂ := hs₂ ▸ hs₁.goto
  obtain ⟨s₃, hstart, hs₃⟩ : ∃ s₃, exec (step p jobs) s₂ [.sample (j, 0) 0, .worker (j, 0)] =
      some s₃ ∧ Single j dst .enter s₃ := by
    have hrun := exec_start p jobs hs₂'.pc
    rw [hs₂'.clock] at hrun
    exact ⟨_, hrun, (hs₂'.store .start 0).goto⟩
  have henter : step p jobs s₃ (.worker (j, 0)) =
      some (s₃.goto (j, 0) (.one dst p.loops.toNat 0)) := by
    have htask : (benchPair src dst).task = .single := rfl
    simp only [step, workerStep, hs₃.pc, hjob, htask, hs₃.dst]
  have harrived := exec_trans (exec_trans hlaunched harrive) hbarrier
  exact ⟨_, .of_exec _ (exec_trans (exec_trans harrived hstart) (exec_one henter)), hs₃.goto⟩

/-- With no calls to make, the worker finishes. -/
theorem reaches_finish (p : Params) (jobs : List Job) {s : State}
    (hs : Single j dst (.one dst 0 0) s) :
    ∃ s', Reaches (step p jobs) s s' ∧ s'.job = j ∧ s'.main = .launch 1 ∧
      (s'.args (j, 0)).dst = dst ∧ (s'.args (j, 0)).field .finish = 1 := by
  have hbody : exec (step p jobs) s [.worker (j, 0), .worker (j, 0)] =
      some (((s.goto (j, 0) (.storeIpitime 0)).store (j, 0) .ipitime 0).goto (j, 0)
        .sampleFinish) := by
    simp [exec, step, workerStep, hs.pc, State.goto]
  obtain ⟨s₁, hs₁⟩ : ∃ s₁, s₁ = ((s.goto (j, 0) (.storeIpitime 0)).store (j, 0) .ipitime 0).goto
      (j, 0) .sampleFinish := ⟨_, rfl⟩
  rw [← hs₁] at hbody
  have hs₁' : Single j dst .sampleFinish s₁ := hs₁ ▸ (hs.goto.store .ipitime 0).goto
  have hfinish : exec (step p jobs) s₁ [.sample (j, 0) 1, .worker (j, 0)] =
      some (({ s₁ with clock := 1 }.store (j, 0) .finish 1).goto (j, 0) .storeRunDelay) := by
    simp [exec, step, sampleStep, workerStep, hs₁'.clock, hs₁'.pc, State.goto, State.store]
  refine ⟨_, .of_exec _ (exec_trans hbody hfinish), hs₁'.job, hs₁'.main, ?_, ?_⟩
  · simp [State.goto, State.store, hs₁'.dst]
  · simp [State.goto, State.store]

/-- The report on `ipi_bench_single` comes to the end of its fields. -/
theorem reaches_report {s : State} (hjob : jobs[s.job]? = some (benchPair src dst))
    (hmain : s.main = .launch 1) :
    Reaches (step p jobs) s { s with main := .report 0 0 ((reportFields .single).map
      (s.args (s.job, 0)).field) } := by
  have hone : (benchPair src dst).shouldRun = 1 := rfl
  have htask : (benchPair src dst).task = .single := rfl
  have htimed : (benchPair src dst).timed = false := rfl
  have hwait : exec (step p jobs) s [.main, .waitReturn .timeout] =
      some { s with main := .report 0 0 [] } := by
    simp [exec, step, mainStep, waitStep, hjob, hmain, hone, htimed]
  have hreport : exec (step p jobs) { s with main := .report 0 0 [] } (List.replicate 5 .main) =
      some { s with main := .report 0 0 ((reportFields .single).map
        (s.args (s.job, 0)).field) } := by
    simp [exec, step, mainStep, hjob, hone, htask, reportFields, List.replicate]
  exact .of_exec _ (exec_trans hwait hreport)

end Single

end Runs

end KvmUtils.IpiBench
