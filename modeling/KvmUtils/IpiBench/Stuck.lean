import KvmUtils.IpiBench.Barrier

/-!
# Workers that could not be created

`should_run` is stored before the workers are created, and every benchmark
drops the result of `ipi_bench_one_task` and of `ipi_bench_all_task`.  A
worker that `kthread_create_on_node` did not create is therefore still waited
for at the start barrier.

`State.missing` counts those workers.  It never falls, and it grows exactly
when a creation fails, so it is zero at the end of the loop exactly when
every creation has succeeded.
-/

namespace KvmUtils.IpiBench

open Function Machine

/-- The turns that the loop that creates the workers has made. -/
def State.turns (job : Job) (s : State) : Nat :=
  match s.main with
  | .launch i => i
  | _ => job.shouldRun.toNat

/-- The loop that creates the workers has made all its turns. -/
def State.LaunchOver (job : Job) (s : State) : Prop :=
  ∀ i, s.main = .launch i → job.shouldRun ≤ i

/-- The workers that the loop has passed without creating them. -/
def State.missing (job : Job) (s : State) : Int := s.turns job - s.launched.card

/-- The loop makes no more turns than there are workers to create. -/
structure LaunchLoop (job : Job) (s : State) : Prop where
  barrier : Barrier job s
  turns_le : s.turns job ≤ job.shouldRun.toNat

section Missing

variable {p : Params} {job : Job} {s s' : State} {e : Event}

theorem turns_of_launch {i : Nat} (h : s.main = .launch i) : s.turns job = i := by
  simp [State.turns, h]

theorem turns_of_not_launch (h : ∀ i, s.main ≠ .launch i) :
    s.turns job = job.shouldRun.toNat := by
  unfold State.turns
  split
  · rename_i i hmain
    exact absurd hmain (h i)
  · rfl

theorem turns_of_launchOver (h : LaunchLoop job s) (hover : s.LaunchOver job) :
    s.turns job = job.shouldRun.toNat := by
  by_cases hlaunch : ∃ i, s.main = .launch i
  · obtain ⟨i, hmain⟩ := hlaunch
    have hle := h.turns_le
    have hge := hover i hmain
    rw [turns_of_launch hmain] at hle ⊢
    omega
  · exact turns_of_not_launch fun i hmain => hlaunch ⟨i, hmain⟩

/-- While workers are created, the benchmark is the first one. -/
theorem State.PastShould.job_eq {i : Nat} (h : s.PastShould) (hmain : s.main = .launch i) :
    s.job = 0 := by
  rcases h with ⟨hzero, -⟩ | ⟨-, hnext | hnext⟩
  · exact hzero
  · cases hmain.symm.trans hnext
  · cases hmain.symm.trans hnext

/-- A turn of the loop is one for a worker of the benchmark. -/
theorem LaunchLoop.turn {job' : Job} {i : Nat} (h : LaunchLoop job s)
    (hmain : s.main = .launch i) (hjob : [job][s.job]? = some job') : job' = job := by
  rw [h.barrier.past_should.job_eq hmain] at hjob
  exact (Option.some.inj hjob).symm

/-- Every created worker has been passed by the loop. -/
theorem LaunchLoop.card_le (h : LaunchLoop job s) : s.launched.card ≤ s.turns job := by
  have hsub : s.launched ⊆ workers 0 (s.turns job) := by
    intro w hw
    have hmem := mem_workers.mp
      (h.barrier.counted.launched_subset rfl h.barrier.counted.only_first hw)
    refine mem_workers.mpr ⟨hmem.1, ?_⟩
    by_cases hlaunch : ∃ i, s.main = .launch i
    · obtain ⟨i, hmain⟩ := hlaunch
      have hfirst : w.1 = s.job := hmem.1.trans (h.barrier.past_should.job_eq hmain).symm
      have hpassed := h.barrier.counted.passed w hw hfirst
      rw [hmain] at hpassed
      rw [turns_of_launch hmain]
      exact hpassed
    · rw [turns_of_not_launch fun i hmain => hlaunch ⟨i, hmain⟩]
      exact hmem.2
  have hcard := Finset.card_le_card hsub
  rwa [card_workers] at hcard

/-- A creation that fails is a turn of the loop that creates nobody. -/
theorem missing_of_launchFail (hst : step p [job] s (.launch false) = some s') :
    s'.missing job = s.missing job + 1 := by
  simp only [step, launchStep] at hst
  split at hst
  · rename_i i job' hmain hjob
    split at hst
    · cases hst
      simp only [State.missing, State.turns, hmain]
      push_cast
      omega
    · cases hst
  · cases hst

/-- Every other step keeps the number of missing workers. -/
theorem LaunchLoop.missing_eq (h : LaunchLoop job s) (hst : step p [job] s e = some s')
    (he : e ≠ .launch false) : s'.missing job = s.missing job := by
  rcases move_of_step hst with ⟨w, hmove⟩ | hmove
  · have hf := hmove.frame
    unfold State.missing State.turns
    rw [hf.main, hf.launched]
  · have hpast := h.barrier.past_should
    cases hmove with
    | build hmain =>
      unfold State.PastShould at hpast
      rw [hmain] at hpast
      simp [MainPc.Built] at hpast
    | launchFail => exact absurd rfl he
    | @launch _ i hmain hjob hi =>
      have hnew : (s.job, i) ∉ s.launched := by
        intro hmem
        have hpassed := h.barrier.counted.passed _ hmem rfl
        rw [hmain] at hpassed
        exact Nat.lt_irrefl i hpassed
      show ((i + 1 : Nat) : Int) - (insert (s.job, i) s.launched).card = s.missing job
      rw [Finset.card_insert_of_notMem hnew, State.missing, turns_of_launch hmain]
      push_cast
      omega
    | @endLaunch job' i p hmain hjob hi hp =>
      have hturns : s.turns job = job.shouldRun.toNat := by
        refine turns_of_launchOver h fun k hk => ?_
        obtain rfl : i = k := by
          rw [hmain] at hk
          injection hk
        obtain rfl := h.turn hmain hjob
        exact hi
      unfold State.missing
      rw [hturns, turns_of_not_launch (by rcases hp with rfl | rfl <;> simp)]
    | stop hmain | begin hmain | alloc hmain | noMemory hmain | setShould hmain
    | buildFail hmain | sampleStart hmain | sampleEnd hmain | report hmain | endReport hmain
    | free hmain =>
      unfold State.missing
      rw [turns_of_not_launch (s := s) (by simp [hmain]), turns_of_not_launch (by simp)]
    | waitReturn hmain _ hp =>
      unfold State.missing
      rw [turns_of_not_launch (s := s) (by simp [hmain]),
        turns_of_not_launch (by rcases hp with rfl | rfl <;> simp)]

theorem LaunchLoop.of_step (h : LaunchLoop job s) (hst : step p [job] s e = some s') :
    LaunchLoop job s' := by
  refine ⟨barrier_of_exec h.barrier (exec_one hst), ?_⟩
  rcases move_of_step hst with ⟨w, hmove⟩ | hmove
  · have hturns : s'.turns job = s.turns job := by
      unfold State.turns
      rw [hmove.frame.main]
    rw [hturns]
    exact h.turns_le
  · cases hmove with
    | launch hmain hjob hi | launchFail hmain hjob hi =>
      obtain rfl := h.turn hmain hjob
      rw [turns_of_launch rfl]
      omega
    | build => exact Nat.zero_le _
    | stop | begin | alloc | noMemory | setShould | buildFail | sampleStart | sampleEnd | report
    | endReport | free => exact le_refl _
    | endLaunch _ _ _ hp | waitReturn _ _ hp =>
      rw [turns_of_not_launch (by rcases hp with rfl | rfl <;> simp)]

theorem LaunchLoop.of_exec {es : List Event} (h : LaunchLoop job s)
    (hrun : exec (step p [job]) s es = some s') : LaunchLoop job s' :=
  exec_invariant' (fun _ _ _ hI hst => hI.of_step hst) h hrun

theorem Launching.launchLoop (h : Launching job s) : LaunchLoop job s where
  barrier := h.barrier
  turns_le := by
    rw [turns_of_launch h.main]
    exact Nat.zero_le _

/-- Nobody is missing exactly when no creation has failed. -/
theorem missing_eq_zero_iff {es : List Event} (h : Launching job s)
    (hrun : exec (step p [job]) s es = some s') :
    s'.missing job = 0 ↔ Event.launch false ∉ es := by
  have hzero : s.missing job = 0 := by
    rw [State.missing, turns_of_launch h.main, h.launched]
    rfl
  have hmeasure := measure_eq_iff (P := fun _ e => e ≠ Event.launch false) (State.missing job)
    (I := LaunchLoop job) (fun _ _ _ hI hst => hI.of_step hst)
    (fun _ e _ hI hst => by
      by_cases he : e = .launch false
      · subst he
        rw [missing_of_launchFail hst]
        omega
      · rw [hI.missing_eq hst he])
    (fun _ e _ hI hst => by
      by_cases he : e = .launch false
      · subst he
        rw [missing_of_launchFail hst]
        simp
      · exact iff_of_true (hI.missing_eq hst he) he)
    h.launchLoop hrun
  rw [hzero, allSteps_iff_forall hrun] at hmeasure
  rw [hmeasure]
  exact ⟨fun hall hmem => hall _ hmem rfl, fun hnot e he heq => hnot (heq ▸ he)⟩

/-- In every state in which the loop is over and every created worker has
added one to `ready_to_run`, that counter has reached `should_run` exactly
when no creation has failed. -/
theorem ready_to_run_reaches_iff {es : List Event} (h : Launching job s)
    (hrun : exec (step p [job]) s es = some s') (hover : s'.LaunchOver job)
    (hready : ∀ w ∈ s'.launched, (s'.pc w).HasReadied) :
    s'.should ≤ s'.ready ↔ Event.launch false ∉ es := by
  have hloop := h.launchLoop.of_exec hrun
  have hcensus : census s'.launched Pc.HasReadied s'.pc = s'.launched.card :=
    census.eq_card_iff.mpr hready
  have hready_eq := hloop.barrier.counted.ready_eq
  have hshould := hloop.barrier.should_eq
  have hcard := hloop.card_le
  have hmissing : s'.missing job = job.shouldRun.toNat - s'.launched.card := by
    rw [State.missing, turns_of_launchOver hloop hover]
  rw [turns_of_launchOver hloop hover] at hcard
  rw [← missing_eq_zero_iff h hrun, hmissing, hready_eq, hcensus, hshould]
  omega

/-- After a failed creation no worker ever gets past the loop of the
barrier. -/
theorem spins_of_launchFail {es : List Event} (h : Launching job s)
    (hrun : exec (step p [job]) s es = some s') (hfail : Event.launch false ∈ es)
    (w : Worker) : ¬ (s'.pc w).PastSpin := by
  intro hpast
  have hloop := h.launchLoop.of_exec hrun
  have hne : s'.missing job ≠ 0 := fun hzero => (missing_eq_zero_iff h hrun).mp hzero hfail
  have hready := hloop.barrier.past w hpast
  have hready_eq := hloop.barrier.counted.ready_eq
  have hshould := hloop.barrier.should_eq
  have hcensus : census s'.launched Pc.HasReadied s'.pc ≤ s'.launched.card := census.le_card
  have hcard := hloop.card_le
  have hturns := hloop.turns_le
  unfold State.missing at hne
  omega

end Missing

/-- The second of two workers is not created.  The first one is, and spins. -/
theorem worker_spins_forever : ∃ s : State,
    exec (step ⟨1, 0, 1, 0, true, 2, true, ALL_IPI⟩ [benchAll ⟨4, fun _ => 0⟩ 2]) State.load
        ([.main, .alloc true, .main, .build fun n => UInt64.ofNat n] ++
          [.launch true, .launch false, .main] ++ arriveRun (0, 0) 1) = some s ∧
      s.LaunchOver (benchAll ⟨4, fun _ => 0⟩ 2) ∧ s.launched = {(0, 0)} ∧
      (∀ w ∈ s.launched, (s.pc w).HasReadied) ∧ ¬ s.should ≤ s.ready := by
  have h : (exec (step ⟨1, 0, 1, 0, true, 2, true, ALL_IPI⟩ [benchAll ⟨4, fun _ => 0⟩ 2])
      State.load ([.main, .alloc true, .main, .build fun n => UInt64.ofNat n] ++
        [.launch true, .launch false, .main] ++ arriveRun (0, 0) 1)).map
      (fun s => decide (s.main = .sampleStart ∧ s.launched = {(0, 0)} ∧
        (∀ w ∈ s.launched, (s.pc w).HasReadied) ∧ ¬ s.should ≤ s.ready)) = some true := by
    decide +kernel
  obtain ⟨s, hrun, hs⟩ := exists_exec_of_map h
  obtain ⟨hmain, hrest⟩ := of_decide_eq_true hs
  refine ⟨s, hrun, fun i hi => ?_, hrest⟩
  cases hmain.symm.trans hi

/-- With both created the counter reaches `should_run`. -/
theorem ready_to_run_reaches_two : ∃ s : State,
    exec (step ⟨1, 0, 1, 0, true, 2, true, ALL_IPI⟩ [benchAll ⟨4, fun _ => 0⟩ 2])
        (State.launching (benchAll ⟨4, fun _ => 0⟩ 2) [(0, 0), (1, 0)])
        ([.launch true, .launch true, .main] ++ arriveRun (0, 0) 1 ++ arriveRun (0, 1) 2) =
          some s ∧
      (s.should ≤ s.ready ↔ Event.launch false ∉
        ([.launch true, .launch true, .main] ++ arriveRun (0, 0) 1 ++ arriveRun (0, 1) 2)) := by
  have hcpus : (benchAll ⟨4, fun _ => 0⟩ 2).cpus (fun n => UInt64.ofNat n) =
      some [(0, 0), (1, 0)] := by
    decide +kernel
  have h : (exec (step ⟨1, 0, 1, 0, true, 2, true, ALL_IPI⟩ [benchAll ⟨4, fun _ => 0⟩ 2])
      (State.launching (benchAll ⟨4, fun _ => 0⟩ 2) [(0, 0), (1, 0)])
      ([.launch true, .launch true, .main] ++ arriveRun (0, 0) 1 ++ arriveRun (0, 1) 2)).map
      (fun s => decide (s.main = .sampleStart ∧ ∀ w ∈ s.launched, (s.pc w).HasReadied)) =
        some true := by
    decide +kernel
  obtain ⟨s, hrun, hs⟩ := exists_exec_of_map h
  obtain ⟨hmain, hready⟩ := of_decide_eq_true hs
  refine ⟨s, hrun, ready_to_run_reaches_iff (launching_launching hcpus) hrun (fun i hi => ?_)
    hready⟩
  cases hmain.symm.trans hi

end KvmUtils.IpiBench
