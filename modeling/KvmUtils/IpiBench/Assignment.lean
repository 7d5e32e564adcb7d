import KvmUtils.IpiBench.Barrier
import KvmUtils.IpiBench.Picks

/-!
# The CPUs of the workers

`ipi_bench_mesh` and `ipi_bench_all` choose a CPU of its own for every end of
every pair, and for every worker.  The `cpumask` is carried through the picks
and holds all CPUs chosen so far, so no CPU is chosen twice.  With
`acrossnuma` equal to zero the second pick of a turn asks for the node of the
first.

If a pick gives up, then the benchmark goes to its `kfree` and returns `-1`
without having created a worker.
-/

namespace KvmUtils.IpiBench

open Function Machine

/-! ## What the loops choose -/

section Loops

variable {topo : Topology} {random : Nat → UInt64} {acrossnuma : Bool} {n : Nat} {st : Picking}
  {cpus : List (Int × Int)}

/-- The turns of `ipi_bench_mesh` choose distinct online CPUs that were not
in the `cpumask`, and with `acrossnuma` equal to zero the two ends of a pair
are on one node. -/
theorem pickLoop_mesh (hn : 0 < topo.numCpus)
    (h : pickLoop (meshTurn topo acrossnuma random) n st = some cpus) :
    (ends cpus).Nodup ∧ (∀ c ∈ ends cpus, 0 ≤ c ∧ c < topo.numCpus ∧ c ∉ st.cpumask) ∧
      (acrossnuma = false → ∀ pair ∈ cpus, 0 ≤ topo.cpuToNode pair.1 →
        topo.cpuToNode pair.2 = topo.cpuToNode pair.1) := by
  induction n generalizing st cpus with
  | zero =>
    obtain rfl := Option.some.inj h
    exact ⟨List.nodup_nil, nofun, fun _ => nofun⟩
  | succ n ih =>
    obtain ⟨pair, st', rest, hturn, hrest, rfl⟩ := pickLoop_succ_eq_some.mp h
    have hturned := meshTurned_of_turn hn hturn
    obtain ⟨hnodup, hrange, hnode⟩ := ih hrest
    have hnew : ∀ c ∈ ends rest, c ≠ pair.1 ∧ c ≠ pair.2 ∧ c ∉ st.cpumask := by
      intro c hc
      have hmask := (hrange c hc).2.2
      rw [hturned.cpumask, Finset.mem_insert, Finset.mem_insert, not_or, not_or] at hmask
      exact ⟨hmask.2.1, hmask.1, hmask.2.2⟩
    have hdst := hturned.dst.2.2.1
    rw [Finset.mem_insert, not_or] at hdst
    refine ⟨?_, ?_, ?_⟩
    · show (pair.1 :: pair.2 :: ends rest).Nodup
      rw [List.nodup_cons, List.nodup_cons, List.mem_cons, not_or]
      exact ⟨⟨fun heq => hdst.1 heq.symm, fun hmem => (hnew _ hmem).1 rfl⟩,
        fun hmem => (hnew _ hmem).2.1 rfl, hnodup⟩
    · intro c hc
      rcases List.mem_cons.mp hc with rfl | hc
      · exact ⟨hturned.src.1, hturned.src.2.1, hturned.src.2.2.1⟩
      · rcases List.mem_cons.mp hc with rfl | hc
        · exact ⟨hturned.dst.1, hturned.dst.2.1, hdst.2⟩
        · exact ⟨(hrange c hc).1, (hrange c hc).2.1, (hnew c hc).2.2⟩
    · intro hwithin q hq hpos
      rcases List.mem_cons.mp hq with rfl | hq
      · have heq : st'.node = topo.cpuToNode q.1 := by
          rw [hturned.node, hwithin]
          rfl
        rw [← heq] at hpos ⊢
        exact hturned.dst.2.2.2 hpos
      · exact hnode hwithin q hq hpos

/-- The turns of `ipi_bench_all` choose distinct online CPUs. -/
theorem pickLoop_all (hn : 0 < topo.numCpus)
    (h : pickLoop (allTurn topo random) n st = some cpus) :
    (cpus.map Prod.fst).Nodup ∧
      ∀ c ∈ cpus.map Prod.fst, 0 ≤ c ∧ c < topo.numCpus ∧ c ∉ st.cpumask := by
  induction n generalizing st cpus with
  | zero =>
    obtain rfl := Option.some.inj h
    exact ⟨List.nodup_nil, nofun⟩
  | succ n ih =>
    obtain ⟨pair, st', rest, hturn, hrest, rfl⟩ := pickLoop_succ_eq_some.mp h
    obtain ⟨hfits, hmask⟩ := allTurn_spec hn hturn
    obtain ⟨hnodup, hrange⟩ := ih hrest
    rw [hmask] at hrange
    refine ⟨?_, ?_⟩
    · rw [List.map_cons, List.nodup_cons]
      exact ⟨fun hmem => (hrange _ hmem).2.2 (Finset.mem_insert_self _ _), hnodup⟩
    · intro c hc
      rw [List.map_cons] at hc
      rcases List.mem_cons.mp hc with rfl | hc
      · exact ⟨hfits.1, hfits.2.1, hfits.2.2.1⟩
      · have hrest := hrange c hc
        exact ⟨hrest.1, hrest.2.1, fun hmem => hrest.2.2 (Finset.mem_insert_of_mem hmem)⟩

theorem benchMesh_cpus_eq_none_iff (hn : 0 < topo.numCpus) {pairs : Int} :
    (benchMesh topo pairs acrossnuma).cpus random = none ↔
      ∃ pick ∈ meshPicks topo pairs acrossnuma random, pick.cpu = -1 :=
  pickLoop_eq_none_iff fun _ => meshTurn_eq_none_iff hn

theorem benchAll_cpus_eq_none_iff (hn : 0 < topo.numCpus) {broadcasts : Int} :
    (benchAll topo broadcasts).cpus random = none ↔
      ∃ pick ∈ allPicks topo broadcasts random, pick.cpu = -1 :=
  pickLoop_eq_none_iff fun _ => allTurn_eq_none_iff hn

end Loops

/-! ## The array of the benchmark -/

/-- The `src` and `dst` of the first `n` entries of the array of benchmark
`j`. -/
def State.cpusOf (s : State) (j n : Nat) : List (Int × Int) :=
  (List.range n).map fun i => ((s.args (j, i)).src, (s.args (j, i)).dst)

/-- Once the CPUs are chosen, the array holds them. -/
def State.Assigned (jobs : List Job) (s : State) : Prop :=
  s.main.Built → ∃ (job : Job) (random : Nat → UInt64) (cpus : List (Int × Int)),
    jobs[s.job]? = some job ∧ job.cpus random = some cpus ∧
      s.cpusOf s.job job.shouldRun.toNat = cpus

/-- A benchmark that is not through its reports returns `-1`. -/
def State.NotReturned (s : State) : Prop :=
  ∀ k, s.job < k ∨ k = s.job ∧ s.main ≠ .free → s.ret k = -1

section Array

variable {p : Params} {jobs : List Job} {s s' : State}

/-- A worker changes neither its CPUs nor what a benchmark returns. -/
theorem WorkerMove.cpus {w : Worker} (h : WorkerMove s w s') :
    s'.ret = s.ret ∧ ∀ v, (s'.args v).src = (s.args v).src ∧ (s'.args v).dst = (s.args v).dst := by
  cases h with
  | storeForked | storeStart | storeIpitime | storeFinish | runDelay =>
    refine ⟨rfl, fun v => ?_⟩
    by_cases hvw : v = w
    · subst hvw
      simp [State.goto, State.store]
    · simp [State.goto, State.store, hvw]
  | sampleForked | addReady | spinReady | spin | leave | checkReady | bug | pass | sampleStart
  | body | sampleFinish | addComplete | wake => exact ⟨rfl, fun _ => ⟨rfl, rfl⟩⟩

theorem State.Assigned.worker {w : Worker} (h : s.Assigned jobs) (hmove : WorkerMove s w s') :
    s'.Assigned jobs := by
  intro hbuilt
  rw [hmove.frame.main] at hbuilt
  have hsame : ∀ j n, s'.cpusOf j n = s.cpusOf j n := by
    intro j n
    refine List.map_congr_left fun i _ => ?_
    obtain ⟨hsrc, hdst⟩ := hmove.cpus.2 (j, i)
    rw [hsrc, hdst]
  simp only [hmove.frame.job, hsame]
  exact h hbuilt

theorem State.Assigned.main {e : Event} (h : s.Assigned jobs) (hmove : MainMove jobs s e s') :
    s'.Assigned jobs := by
  cases hmove with
  | @build job random cpus hmain hjob hcpus =>
    refine fun _ => ⟨job, random, cpus, hjob, hcpus, ?_⟩
    have hlen := job.length_cpus hcpus
    refine List.ext_getElem (by simp [State.cpusOf, hlen]) fun i hi hi' => ?_
    simp [State.cpusOf, BenchArgs.fresh, hi']
  | stop | begin | alloc | noMemory | setShould | buildFail | endReport | free =>
    exact fun hbuilt => hbuilt.elim
  | launch hmain | launchFail hmain | sampleStart hmain | sampleEnd hmain | report hmain =>
    exact fun _ => h (by rw [hmain]; trivial)
  | endLaunch hmain | waitReturn hmain => exact fun _ => h (by rw [hmain]; trivial)

theorem State.NotReturned.worker {w : Worker} (h : s.NotReturned) (hmove : WorkerMove s w s') :
    s'.NotReturned := by
  unfold State.NotReturned
  rw [hmove.cpus.1, hmove.frame.job, hmove.frame.main]
  exact h

theorem State.NotReturned.main {e : Event} (h : s.NotReturned) (hmove : MainMove jobs s e s') :
    s'.NotReturned := by
  have hlater : ∀ k, s.job < k → s.ret k = -1 := fun k hk => h k (Or.inl hk)
  cases hmove with
  | noMemory | free =>
    intro k hk
    refine hlater k ?_
    rcases hk with hlt | ⟨rfl, -⟩
    · exact Nat.lt_of_succ_lt hlt
    · exact Nat.lt_succ_self _
  | buildFail =>
    rintro k (hlt | ⟨-, hmain⟩)
    · exact hlater k hlt
    · exact absurd rfl hmain
  | endReport =>
    rintro k (hlt | ⟨-, hmain⟩)
    · show update s.ret s.job 0 k = -1
      rw [update_of_ne (Nat.ne_of_gt hlt)]
      exact hlater k hlt
    · exact absurd rfl hmain
  | stop hmain | begin hmain | alloc hmain | setShould hmain | build hmain | launch hmain
  | launchFail hmain | endLaunch hmain | sampleStart hmain | waitReturn hmain | sampleEnd hmain
  | report hmain =>
    rintro k (hlt | ⟨rfl, -⟩)
    · exact hlater k hlt
    · exact h _ (Or.inr ⟨rfl, by simp [hmain]⟩)

/-- The two invariants, with that of the counters. -/
structure Chosen (jobs : List Job) (s : State) : Prop where
  counted : Counted jobs s
  assigned : s.Assigned jobs
  notReturned : s.NotReturned

theorem chosen_load (jobs : List Job) : Chosen jobs State.load where
  counted := counted_load jobs
  assigned hbuilt := hbuilt.elim
  notReturned _ _ := rfl

theorem chosen_of_exec {es : List Event} (h : Chosen jobs s)
    (hrun : exec (step p jobs) s es = some s') : Chosen jobs s' := by
  refine exec_invariant' (fun s e s' hI hst => ?_) h hrun
  rcases move_of_step hst with ⟨w, hmove⟩ | hmove
  · exact ⟨hI.counted.worker hmove, hI.assigned.worker hmove, hI.notReturned.worker hmove⟩
  · exact ⟨hI.counted.main hmove, hI.assigned.main hmove, hI.notReturned.main hmove⟩

/-! ## A choice that fails -/

/-- Benchmark `j` has failed to choose its CPUs: it has created no worker and
returns `-1`. -/
structure GivenUp (j : Nat) (s : State) : Prop where
  left : s.job = j ∧ s.main = .free ∨ j < s.job
  no_worker : ∀ w ∈ s.launched, w.1 ≠ j
  ret : s.ret j = -1

theorem GivenUp.worker {j : Nat} {w : Worker} (h : GivenUp j s) (hmove : WorkerMove s w s') :
    GivenUp j s' := by
  refine ⟨?_, ?_, ?_⟩
  · rw [hmove.frame.job, hmove.frame.main]
    exact h.left
  · rw [hmove.frame.launched]
    exact h.no_worker
  · rw [hmove.cpus.1]
    exact h.ret

theorem GivenUp.main {j : Nat} {e : Event} (h : GivenUp j s) (hmove : MainMove jobs s e s') :
    GivenUp j s' := by
  have hlater : s.main ≠ .free → j < s.job := fun hmain =>
    h.left.resolve_left fun hfree => hmain hfree.2
  cases hmove with
  | free hmain =>
    refine ⟨Or.inr ?_, h.no_worker, h.ret⟩
    rcases h.left with ⟨rfl, -⟩ | hlt
    · exact Nat.lt_succ_self _
    · exact Nat.lt_succ_of_lt hlt
  | noMemory hmain =>
    exact ⟨Or.inr (Nat.lt_succ_of_lt (hlater (by simp [hmain]))), h.no_worker, h.ret⟩
  | launch hmain =>
    have hlt := hlater (by simp [hmain])
    refine ⟨Or.inr hlt, fun w hw => ?_, h.ret⟩
    rcases Finset.mem_insert.mp hw with rfl | hw
    · exact Nat.ne_of_gt hlt
    · exact h.no_worker w hw
  | endReport hmain =>
    have hlt := hlater (by simp [hmain])
    refine ⟨Or.inr hlt, h.no_worker, ?_⟩
    show update s.ret s.job 0 j = -1
    rw [update_of_ne (Nat.ne_of_lt hlt)]
    exact h.ret
  | stop hmain | begin hmain | alloc hmain | setShould hmain | build hmain | buildFail hmain
  | launchFail hmain | endLaunch hmain | sampleStart hmain | waitReturn hmain | sampleEnd hmain
  | report hmain => exact ⟨Or.inr (hlater (by simp [hmain])), h.no_worker, h.ret⟩

theorem givenUp_of_exec {j : Nat} {es : List Event} (h : GivenUp j s)
    (hrun : exec (step p jobs) s es = some s') : GivenUp j s' := by
  refine exec_invariant' (fun s e s' hI hst => ?_) h hrun
  rcases move_of_step hst with ⟨w, hmove⟩ | hmove
  · exact hI.worker hmove
  · exact hI.main hmove

/-- A choice that fails ends the benchmark. -/
theorem Chosen.givenUp {job : Job} {random : Nat → UInt64} (h : Chosen jobs s)
    (hmain : s.main = .build) (hjob : jobs[s.job]? = some job) (hcpus : job.cpus random = none)
    (hst : step p jobs s (.build random) = some s') :
    GivenUp s.job s' ∧ s'.main = .free := by
  simp only [step, buildStep, hmain, hjob, hcpus] at hst
  cases hst
  refine ⟨⟨Or.inl ⟨rfl, rfl⟩, fun w hw hcur => ?_, h.notReturned _ (Or.inr ⟨rfl, ?_⟩)⟩, rfl⟩
  · have hpassed := h.counted.passed w hw hcur
    rw [hmain] at hpassed
    exact hpassed
  · simp [hmain]

/-- Some pick of the current benchmark, which is `ipi_bench_mesh` or
`ipi_bench_all`, returns `-1`. -/
def State.PickFails (s : State) (jobs : List Job) (topo : Topology) (random : Nat → UInt64) :
    Prop :=
  (∃ pairs acrossnuma, jobs[s.job]? = some (benchMesh topo pairs acrossnuma) ∧
    ∃ pick ∈ meshPicks topo pairs acrossnuma random, pick.cpu = -1) ∨
  ∃ broadcasts, jobs[s.job]? = some (benchAll topo broadcasts) ∧
    ∃ pick ∈ allPicks topo broadcasts random, pick.cpu = -1

/-- The CPUs of the workers, in every run of the module.

1. When `ipi_bench_mesh` creates its workers, the two CPUs of all pairs are
   distinct online CPUs, and with `acrossnuma` equal to zero those of one pair
   are on one node.
2. When `ipi_bench_all` creates its workers, their CPUs are distinct online
   CPUs.
3. If a pick returns `-1`, then the benchmark ends at once, it never creates a
   worker, and it returns `-1`. -/
theorem cpu_assignment {topo : Topology} {es : List Event} (hn : 0 < topo.numCpus)
    (hnode : ∀ c : Int, 0 ≤ c → c < topo.numCpus → 0 ≤ topo.cpuToNode c)
    (hrun : exec (step p jobs) State.load es = some s) :
    (∀ (pairs : Int) (acrossnuma : Bool) (i : Nat),
      jobs[s.job]? = some (benchMesh topo pairs acrossnuma) → s.main = .launch i →
      (ends (s.cpusOf s.job pairs.toNat)).Nodup ∧
      (∀ c ∈ ends (s.cpusOf s.job pairs.toNat), 0 ≤ c ∧ c < topo.numCpus) ∧
      (acrossnuma = false → ∀ pair ∈ s.cpusOf s.job pairs.toNat,
        topo.cpuToNode pair.2 = topo.cpuToNode pair.1)) ∧
    (∀ (broadcasts : Int) (i : Nat),
      jobs[s.job]? = some (benchAll topo broadcasts) → s.main = .launch i →
      ((s.cpusOf s.job broadcasts.toNat).map Prod.fst).Nodup ∧
      ∀ c ∈ (s.cpusOf s.job broadcasts.toNat).map Prod.fst, 0 ≤ c ∧ c < topo.numCpus) ∧
    (∀ random, s.main = .build → s.PickFails jobs topo random →
      (∃ s', exec (step p jobs) s [.build random, .main] = some s' ∧ s'.main = .next ∧
        s'.job = s.job + 1) ∧
      ∀ es' s', exec (step p jobs) s (.build random :: es') = some s' →
        (∀ w ∈ s'.launched, w.1 ≠ s.job) ∧ s'.ret s.job = -1) := by
  have hchosen := chosen_of_exec (chosen_load jobs) hrun
  refine ⟨fun pairs acrossnuma i hjob hmain => ?_, fun broadcasts i hjob hmain => ?_,
    fun random hmain hfails => ?_⟩
  · obtain ⟨job, random, cpus, hjob', hcpus, harray⟩ :=
      hchosen.assigned (by rw [hmain]; trivial)
    obtain rfl := Option.some.inj (hjob.symm.trans hjob')
    obtain ⟨hnodup, hrange, hsame⟩ := pickLoop_mesh hn hcpus
    rw [show s.cpusOf s.job pairs.toNat = cpus from harray]
    refine ⟨hnodup, fun c hc => ⟨(hrange c hc).1, (hrange c hc).2.1⟩, fun hwithin pair hpair =>
      hsame hwithin pair hpair ?_⟩
    have hmem : pair.1 ∈ ends cpus := List.mem_flatMap.mpr ⟨pair, hpair, List.mem_cons_self⟩
    exact hnode _ (hrange _ hmem).1 (hrange _ hmem).2.1
  · obtain ⟨job, random, cpus, hjob', hcpus, harray⟩ :=
      hchosen.assigned (by rw [hmain]; trivial)
    obtain rfl := Option.some.inj (hjob.symm.trans hjob')
    obtain ⟨hnodup, hrange⟩ := pickLoop_all hn hcpus
    rw [show s.cpusOf s.job broadcasts.toNat = cpus from harray]
    exact ⟨hnodup, fun c hc => ⟨(hrange c hc).1, (hrange c hc).2.1⟩⟩
  · obtain ⟨job, hjob, hcpus⟩ : ∃ job, jobs[s.job]? = some job ∧ job.cpus random = none := by
      rcases hfails with ⟨pairs, acrossnuma, hjob, hpick⟩ | ⟨broadcasts, hjob, hpick⟩
      · exact ⟨_, hjob, (benchMesh_cpus_eq_none_iff hn).mpr hpick⟩
      · exact ⟨_, hjob, (benchAll_cpus_eq_none_iff hn).mpr hpick⟩
    refine ⟨⟨{ s with
        main := .next
        job := s.job + 1
        live := update s.live s.job false }, ?_, rfl, rfl⟩, fun es' s' hrun' => ?_⟩
    · simp [exec, step, buildStep, mainStep, hmain, hjob, hcpus]
    · obtain ⟨t, hst, hts⟩ := exec_cons.mp hrun'
      have hgivenUp := givenUp_of_exec (hchosen.givenUp hmain hjob hcpus hst).1 hts
      exact ⟨hgivenUp.no_worker, hgivenUp.ret⟩

end Array

/-- Two pairs on four CPUs of one node. -/
theorem cpu_assignment_of_two_pairs :
    (ends ((State.launching (benchMesh ⟨4, fun _ => 0⟩ 2 false)
      [(0, 1), (2, 3)]).cpusOf 0 2)).Nodup := by
  have hcpus : (benchMesh ⟨4, fun _ => 0⟩ 2 false).cpus (fun n => UInt64.ofNat n) =
      some [(0, 1), (2, 3)] := by
    decide +kernel
  have hrun := exec_launching (p := ⟨1, 0, 1, 2, false, 1, true, MESH_IPI⟩) (by decide) hcpus
  have hassigned := @cpu_assignment _ _ _ ⟨4, fun _ => 0⟩ _ (by decide)
    (fun _ _ _ => le_refl _) hrun
  exact (hassigned.1 2 false 0 rfl rfl).1

end KvmUtils.IpiBench
