import Mathlib.Tactic.Ring
import KvmUtils.IpiBench.Counters

/-!
# What a thread can do when it is left alone

A counterexample for any number of workers is a run that is put together from
short ones in which a single thread moves.  This file gives those parts.

* `reaches_freed_of_wait`: from the end of its wait the main thread gets
  through the report and the `kfree` to the next benchmark.
* `reaches_launched`: the main thread creates all workers of its benchmark and
  gets to the wait.
* `advance_arrive`, `advance_pass` and `advance_complete`: a worker gets to
  the barrier, through the open barrier and its timed section, and past its
  addition to `complete_run`.  `Advance.all` does the same for a list of
  workers, one after the other.
* `exec_arrive`, `exec_barrier`, `exec_start`, `exec_finish` and
  `exec_runDelay` are the stages of a worker, with the state that each ends
  in.
-/

namespace KvmUtils.IpiBench

open Function Machine

variable (p : Params) {jobs : List Job} {s : State} {job : Job}

/-! ## The main thread -/

theorem length_reportFields_le (task : Task) : (reportFields task).length ≤ 5 := by
  cases task <;> decide

/-- The main thread at the end of its benchmark, with the array freed. -/
def State.freed (s : State) (reports : List Report) : State :=
  { s with
    main := .next
    job := s.job + 1
    live := update s.live s.job false
    reports := reports
    ret := update s.ret s.job 0 }

/-- The report gets to its end. -/
theorem reaches_lastReport {elapsed : UInt64} {i : Nat} {fields : List UInt64}
    (hjob : jobs[s.job]? = some job) (hmain : s.main = .report elapsed i fields) :
    ∃ reports k rest, job.shouldRun ≤ (k : Nat) ∧ Reaches (step p jobs) s
      { s with reports := reports, main := .report elapsed k rest } := by
  -- what is left to read: the fields of this entry, and the later entries
  induction hm : (job.shouldRun.toNat - i) * 6 + (5 - fields.length) using Nat.strong_induction_on
    generalizing s i fields with
  | h m ih =>
    by_cases hi : (i : Int) < job.shouldRun
    · cases hf : (reportFields job.task)[fields.length]? with
      | some f =>
        have hlt : fields.length < (reportFields job.task).length :=
          (List.getElem?_eq_some_iff.mp hf).1
        have hle := length_reportFields_le job.task
        have hst : step p jobs s .main = some { s with
            main := .report elapsed i (fields ++ [(s.args (s.job, i)).field f]) } := by
          simp [step, mainStep, hmain, hjob, hi, hf]
        obtain ⟨reports, k, rest, hk, hrest⟩ := ih _ (by simp; omega) (s := { s with
          main := .report elapsed i (fields ++ [(s.args (s.job, i)).field f]) }) hjob rfl rfl
        exact ⟨reports, k, rest, hk, hrest.head hst⟩
      | none =>
        have hst : step p jobs s .main = some { s with
            reports := s.reports ++ [⟨(s.job, i), elapsed, fields⟩]
            main := .report elapsed (i + 1) [] } := by
          simp [step, mainStep, hmain, hjob, hi, hf]
        obtain ⟨reports, k, rest, hk, hrest⟩ := ih _ (by simp; omega) (s := { s with
          reports := s.reports ++ [⟨(s.job, i), elapsed, fields⟩]
          main := .report elapsed (i + 1) [] }) hjob rfl rfl
        exact ⟨reports, k, rest, hk, hrest.head hst⟩
    · refine ⟨s.reports, i, fields, by omega, ?_⟩
      rw [← hmain]
      exact .refl s

/-- The report ends. -/
theorem reaches_next_of_report {elapsed : UInt64} {i : Nat} {fields : List UInt64}
    (hjob : jobs[s.job]? = some job) (hmain : s.main = .report elapsed i fields) :
    ∃ reports, Reaches (step p jobs) s (s.freed reports) := by
  obtain ⟨reports, k, rest, hk, hreport⟩ := reaches_lastReport p hjob hmain
  refine ⟨reports, hreport.trans (.of_exec [.main, .main] ?_)⟩
  have hi : ¬ (k : Int) < job.shouldRun := by omega
  simp [exec, step, mainStep, hjob, hi, State.freed]

/-- After the wait has ended, the main thread frees the array and goes on to
the next benchmark. -/
theorem reaches_freed_of_wait {startns : UInt64} (how : WaitEnd) (hjob : jobs[s.job]? = some job)
    (hmain : s.main = .wait startns) (hcond : how = .condition → s.complete = s.should) :
    ∃ s' reports, step p jobs s (.waitReturn how) = some s' ∧
      Reaches (step p jobs) s' (s.freed reports) := by
  have hends : ¬ (how = .condition ∧ s.complete ≠ s.should) := by
    rintro ⟨hhow, hne⟩
    exact hne (hcond hhow)
  cases htimed : job.timed with
  | true =>
    have hwait : step p jobs s (.waitReturn how) = some { s with main := .sampleEnd startns } := by
      simp [step, waitStep, hmain, hjob, htimed, hends]
    have hsample : step p jobs { s with main := .sampleEnd startns } (.mainSample s.clock) =
        some { s with main := .report (s.clock - startns) 0 [] } := by
      simp [step, mainSampleStep]
    obtain ⟨reports, hreport⟩ := reaches_next_of_report p
      (s := { s with main := .report (s.clock - startns) 0 [] }) hjob rfl
    exact ⟨_, reports, hwait, hreport.head hsample⟩
  | false =>
    have hwait : step p jobs s (.waitReturn how) = some { s with main := .report 0 0 [] } := by
      simp [step, waitStep, hmain, hjob, htimed, hends]
    obtain ⟨reports, hreport⟩ := reaches_next_of_report p
      (s := { s with main := .report 0 0 [] }) hjob rfl
    exact ⟨_, reports, hwait, hreport⟩

/-- A benchmark for which there is no memory is skipped. -/
theorem reaches_skip (hmain : s.main = .next) {k : Nat} (hle : s.job ≤ k) (hk : k ≤ jobs.length) :
    Reaches (step p jobs) s { s with job := k } := by
  induction hle with
  | refl => exact .refl s
  | @step k hle ih =>
    refine (ih (Nat.le_of_succ_le hk)).trans (.of_exec [.main, .alloc false] ?_)
    have hjob : jobs[k]? = some jobs[k] := List.getElem?_eq_getElem hk
    simp [exec, step, mainStep, allocStep, hmain, hjob]

/-- From `s` the main thread has created `n` workers of its benchmark and left
the counters and the other workers alone. -/
structure Created (n : Nat) (s s' : State) : Prop where
  job : s'.job = s.job
  ready : s'.ready = s.ready
  complete : s'.complete = s.complete
  worker : ∀ i < n, (s.job, i) ∈ s'.launched ∧ s'.pc (s.job, i) = .sampleForked
  others : ∀ v, v.1 ≠ s.job → s'.pc v = s.pc v

/-- The loop that creates the workers, without a failure. -/
theorem reaches_launch (s₀ : State) {n : Nat} (hjob : jobs[s₀.job]? = some job)
    (hcreated : Created n s₀ s) (hmain : s.main = .launch n) (hn : n ≤ job.shouldRun.toNat) :
    ∃ s', Reaches (step p jobs) s s' ∧ Created job.shouldRun.toNat s₀ s' ∧
      s'.main = .launch job.shouldRun.toNat ∧ s'.should = s.should := by
  induction hm : job.shouldRun.toNat - n generalizing s n with
  | zero =>
    obtain rfl : n = job.shouldRun.toNat := by omega
    exact ⟨s, .refl s, hcreated, hmain, rfl⟩
  | succ m ih =>
    have hi : (n : Int) < job.shouldRun := by omega
    have hst : step p jobs s (.launch true) = some ({ s with
        launched := insert (s.job, n) s.launched
        main := .launch (n + 1) }.goto (s.job, n) .sampleForked) := by
      simp [step, launchStep, hmain, hcreated.job, hjob, hi]
    have hnext : Created (n + 1) s₀ ({ s with
        launched := insert (s.job, n) s.launched
        main := .launch (n + 1) }.goto (s.job, n) .sampleForked) := by
      refine ⟨hcreated.job, hcreated.ready, hcreated.complete, fun i hi => ?_, fun v hv => ?_⟩
      · show (s₀.job, i) ∈ insert (s.job, n) s.launched ∧
          update s.pc (s.job, n) .sampleForked (s₀.job, i) = .sampleForked
        rw [hcreated.job]
        by_cases hin : i = n
        · subst hin
          exact ⟨Finset.mem_insert_self _ _, update_self _ _ _⟩
        · have hworker := hcreated.worker i (by omega)
          rw [update_of_ne (by simpa using hin)]
          exact ⟨Finset.mem_insert_of_mem hworker.1, hworker.2⟩
      · show update s.pc (s.job, n) .sampleForked v = s₀.pc v
        rw [update_of_ne (by rintro rfl; exact hv hcreated.job)]
        exact hcreated.others v hv
    obtain ⟨s', hreach, hrest⟩ := ih hnext rfl (by omega) (by omega)
    exact ⟨s', hreach.head hst, hrest⟩

/-- The main thread creates all workers of its benchmark and waits. -/
theorem reaches_launched {random : Nat → UInt64} {cpus : List (Int × Int)}
    (hjob : jobs[s.job]? = some job) (hmain : s.main = .next) (hpos : 0 < job.shouldRun)
    (hcpus : job.cpus random = some cpus) :
    ∃ s', Reaches (step p jobs) s s' ∧ Created job.shouldRun.toNat s s' ∧
      (∃ startns, s'.main = .wait startns) ∧ s'.should = job.shouldRun := by
  have hbuild : exec (step p jobs) s [.main, .alloc true, .main, .build random] = some { s with
      live := update s.live s.job true
      should := job.shouldRun
      args := fun w => if w.1 = s.job then BenchArgs.fresh (cpus.getD w.2 (0, 0)) else s.args w
      main := .launch 0 } := by
    simp [exec, step, mainStep, allocStep, buildStep, hmain, hjob, hpos.le, hcpus]
  obtain ⟨s₁, hreach, hcreated, hlaunch, hshould⟩ := reaches_launch p s (n := 0)
    (s := { s with
      live := update s.live s.job true
      should := job.shouldRun
      args := fun w => if w.1 = s.job then BenchArgs.fresh (cpus.getD w.2 (0, 0)) else s.args w
      main := .launch 0 })
    hjob ⟨rfl, rfl, rfl, fun i hi => absurd hi (Nat.not_lt_zero i), fun _ _ => rfl⟩ rfl
    (Nat.zero_le _)
  have hjob₁ : jobs[s₁.job]? = some job := hcreated.job ▸ hjob
  have hall := (Reaches.of_exec _ hbuild).trans hreach
  cases htimed : job.timed with
  | true =>
    refine ⟨{ s₁ with main := .wait s₁.clock }, hall.trans (.of_exec
      [.main, .mainSample s₁.clock] ?_), ⟨hcreated.job, hcreated.ready, hcreated.complete,
      hcreated.worker, hcreated.others⟩, ⟨_, rfl⟩, hshould⟩
    simp [exec, step, mainStep, mainSampleStep, hlaunch, hjob₁, htimed]
  | false =>
    refine ⟨{ s₁ with main := .wait 0 }, hall.trans (.of_exec [.main] ?_),
      ⟨hcreated.job, hcreated.ready, hcreated.complete, hcreated.worker, hcreated.others⟩,
      ⟨_, rfl⟩, hshould⟩
    simp [exec, step, mainStep, hlaunch, hjob₁, htimed]

/-! ## Workers -/

/-- From `s` the workers `ws` alone get to the point `q`, where the state is
`s'`.  They add `dr` to `ready_to_run` and `dc` to `complete_run`. -/
structure Advance (p : Params) (jobs : List Job) (ws : List Worker) (q : Pc) (dr dc : Int)
    (s s' : State) : Prop where
  reaches : Reaches (step p jobs) s s'
  job : s'.job = s.job
  main : s'.main = s.main
  should : s'.should = s.should
  launched : s'.launched = s.launched
  ready : s'.ready = s.ready + dr
  complete : s'.complete = s.complete + dc
  arrived : ∀ w ∈ ws, s'.pc w = q
  others : ∀ v ∉ ws, s'.pc v = s.pc v

section Workers

variable {p : Params} {w : Worker} {a q : Pc}

theorem Advance.trans {ws : List Worker} {dr dc dr' dc' : Int} {s₁ s₂ : State}
    (h : Advance p jobs ws a dr dc s s₁) (h' : Advance p jobs ws q dr' dc' s₁ s₂) :
    Advance p jobs ws q (dr + dr') (dc + dc') s s₂ where
  reaches := h.reaches.trans h'.reaches
  job := h'.job.trans h.job
  main := h'.main.trans h.main
  should := h'.should.trans h.should
  launched := h'.launched.trans h.launched
  ready := by rw [h'.ready, h.ready, Int.add_assoc]
  complete := by rw [h'.complete, h.complete, Int.add_assoc]
  arrived := h'.arrived
  others v hv := (h'.others v hv).trans (h.others v hv)

/-- Workers that can each get from `a` to `q` can do so one after the
other. -/
theorem Advance.all {dr dc : Int} {I : State → Prop} {ws : List Worker} (hnodup : ws.Nodup)
    (hone : ∀ s, ∀ w ∈ ws, I s → s.pc w = a → ∃ s', Advance p jobs [w] q dr dc s s' ∧ I s')
    (hI : I s) (hat : ∀ w ∈ ws, s.pc w = a) :
    ∃ s', Advance p jobs ws q (ws.length * dr) (ws.length * dc) s s' := by
  induction ws generalizing s with
  | nil =>
    exact ⟨s, .refl s, rfl, rfl, rfl, rfl, by simp, by simp, by simp, by simp⟩
  | cons w ws ih =>
    obtain ⟨hw, hnodup⟩ := List.nodup_cons.mp hnodup
    obtain ⟨s₁, hfirst, hI₁⟩ := hone s w List.mem_cons_self hI (hat w List.mem_cons_self)
    have hat₁ : ∀ v ∈ ws, s₁.pc v = a := by
      intro v hv
      have hne : v ∉ [w] := by
        rw [List.mem_singleton]
        rintro rfl
        exact hw hv
      rw [hfirst.others v hne]
      exact hat v (List.mem_cons_of_mem w hv)
    obtain ⟨s₂, hrest⟩ := ih hnodup (fun s v hv => hone s v (List.mem_cons_of_mem w hv)) hI₁ hat₁
    refine ⟨s₂, hfirst.reaches.trans hrest.reaches, hrest.job.trans hfirst.job,
      hrest.main.trans hfirst.main, hrest.should.trans hfirst.should,
      hrest.launched.trans hfirst.launched, ?_, ?_, ?_, ?_⟩
    · rw [hrest.ready, hfirst.ready, List.length_cons]
      push_cast
      ring
    · rw [hrest.complete, hfirst.complete, List.length_cons]
      push_cast
      ring
    · intro v hv
      rcases List.mem_cons.mp hv with rfl | hv
      · rw [hrest.others v hw]
        exact hfirst.arrived v (List.mem_singleton_self v)
      · exact hrest.arrived v hv
    · intro v hv
      rw [List.mem_cons, not_or] at hv
      rw [hrest.others v hv.2, hfirst.others v (by simpa using hv.1)]

theorem advance_of_exec {es : List Event} {dr dc : Int} {s' : State}
    (hrun : exec (step p jobs) s es = some s') (hjob : s'.job = s.job) (hmain : s'.main = s.main)
    (hshould : s'.should = s.should) (hlaunched : s'.launched = s.launched)
    (hready : s'.ready = s.ready + dr) (hcomplete : s'.complete = s.complete + dc)
    (hpc : s'.pc = update s.pc w q) : Advance p jobs [w] q dr dc s s' := by
  refine ⟨.of_exec es hrun, hjob, hmain, hshould, hlaunched, hready, hcomplete, ?_, ?_⟩
  · intro v hv
    rw [List.mem_singleton.mp hv, hpc, update_self]
  · intro v hv
    rw [hpc, update_of_ne (by simpa using hv)]

/-- A run of `w` that leaves the counters alone. -/
theorem advance_of_exec_still {es : List Event} {s' : State}
    (hrun : exec (step p jobs) s es = some s') (hjob : s'.job = s.job) (hmain : s'.main = s.main)
    (hshould : s'.should = s.should) (hlaunched : s'.launched = s.launched)
    (hready : s'.ready = s.ready) (hcomplete : s'.complete = s.complete)
    (hpc : s'.pc = update s.pc w q) : Advance p jobs [w] q 0 0 s s' :=
  advance_of_exec hrun hjob hmain hshould hlaunched (by rw [hready, Int.add_zero])
    (by rw [hcomplete, Int.add_zero]) hpc

/-- The steps of a new worker to the barrier. -/
theorem exec_arrive (p : Params) (jobs : List Job) (hpc : s.pc w = .sampleForked) :
    exec (step p jobs) s [.sample w s.clock, .worker w, .worker w] =
      some ({ s.store w .forked s.clock with ready := s.ready + 1 }.goto w .spinReady) := by
  simp [exec, step, sampleStep, workerStep, State.goto, State.store, hpc]

/-- A new worker gets to the barrier. -/
theorem advance_arrive (p : Params) (jobs : List Job) (hpc : s.pc w = .sampleForked) :
    ∃ s', Advance p jobs [w] .spinReady 1 0 s s' :=
  ⟨_, advance_of_exec (exec_arrive p jobs hpc) rfl rfl rfl rfl rfl (Int.add_zero _).symm rfl⟩

/-- The loop of `ipi_bench_one`, when every call succeeds. -/
theorem advance_one (p : Params) (jobs : List Job) {dst : Int} {loop : Nat} {ipitime : UInt64}
    (hpc : s.pc w = .one dst loop ipitime) :
    ∃ s', Advance p jobs [w] .sampleFinish 0 0 s s' := by
  induction loop generalizing s ipitime with
  | zero =>
    have hrun : exec (step p jobs) s [.worker w, .worker w] =
        some ((s.store w .ipitime ipitime).goto w .sampleFinish) := by
      simp [exec, step, workerStep, State.goto, State.store, hpc]
    exact ⟨_, advance_of_exec_still hrun rfl rfl rfl rfl rfl rfl rfl⟩
  | succ loop ih =>
    have hturn : ∃ ipitime', exec (step p jobs) s [.sample w s.clock, .call w 0 s.clock] =
        some (s.goto w (.one dst loop ipitime')) := by
      cases hwait : p.wait with
      | true =>
        refine ⟨ipitime + ipiBenchGettime s.clock s.clock, ?_⟩
        simp [exec, step, sampleStep, callStep, State.goto, hpc, hwait]
      | false =>
        refine ⟨ipitime, ?_⟩
        simp [exec, step, sampleStep, callStep, State.goto, hpc, hwait]
    obtain ⟨ipitime', hrun⟩ := hturn
    have hfirst : Advance p jobs [w] (.one dst loop ipitime') 0 0 s _ :=
      advance_of_exec_still hrun rfl rfl rfl rfl rfl rfl rfl
    obtain ⟨s', hrest⟩ := ih (hfirst.arrived w (List.mem_singleton_self w))
    exact ⟨s', hfirst.trans hrest⟩

/-- The loop of `ipi_bench_many`. -/
theorem advance_many (p : Params) (jobs : List Job) {loop : Nat} (hpc : s.pc w = .many loop) :
    ∃ s', Advance p jobs [w] .sampleFinish 0 0 s s' := by
  induction loop generalizing s with
  | zero =>
    have hrun : exec (step p jobs) s [.worker w] = some (s.goto w .sampleFinish) := by
      simp [exec, step, workerStep, hpc]
    exact ⟨_, advance_of_exec_still hrun rfl rfl rfl rfl rfl rfl rfl⟩
  | succ loop ih =>
    have hrun : exec (step p jobs) s [.worker w] = some (s.goto w (.many loop)) := by
      simp [exec, step, workerStep, hpc]
    have hfirst : Advance p jobs [w] (.many loop) 0 0 s _ :=
      advance_of_exec_still hrun rfl rfl rfl rfl rfl rfl rfl
    obtain ⟨s', hrest⟩ := ih (hfirst.arrived w (List.mem_singleton_self w))
    exact ⟨s', hfirst.trans hrest⟩

/-- The timed section. -/
theorem advance_body (p : Params) (hjob : jobs[w.1]? = some job) (hpc : s.pc w = .enter) :
    ∃ s', Advance p jobs [w] .sampleFinish 0 0 s s' := by
  have henter : ∀ {q : Pc}, exec (step p jobs) s [.worker w] = some (s.goto w q) →
      Advance p jobs [w] q 0 0 s (s.goto w q) := fun hrun =>
    advance_of_exec_still hrun rfl rfl rfl rfl rfl rfl rfl
  cases htask : job.task with
  | single =>
    have hfirst := henter (q := .one (s.args w).dst p.loops.toNat 0)
      (by simp [exec, step, workerStep, hpc, hjob, htask])
    obtain ⟨s', hrest⟩ := advance_one p jobs
      (hfirst.arrived w (List.mem_singleton_self w))
    exact ⟨s', hfirst.trans hrest⟩
  | many =>
    have hfirst := henter (q := .many p.loops.toNat)
      (by simp [exec, step, workerStep, hpc, hjob, htask])
    obtain ⟨s', hrest⟩ := advance_many p jobs
      (hfirst.arrived w (List.mem_singleton_self w))
    exact ⟨s', hfirst.trans hrest⟩

/-- The open barrier does not keep a worker. -/
theorem exec_barrier (p : Params) (jobs : List Job) (hopen : s.ready = s.should)
    (hpc : s.pc w = .spinReady) :
    exec (step p jobs) s (List.replicate 4 (.worker w)) = some (s.goto w .sampleStart) := by
  simp [List.replicate, exec, step, workerStep, State.goto, hpc, hopen]

/-- A worker reads the clock, stores the time in `start` and enters its timed
section. -/
theorem exec_start (p : Params) (jobs : List Job) (hpc : s.pc w = .sampleStart) :
    exec (step p jobs) s [.sample w s.clock, .worker w] =
      some ((s.store w .start s.clock).goto w .enter) := by
  simp [exec, step, sampleStep, workerStep, State.goto, State.store, hpc]

/-- A worker at the end of its timed section stores the time in `finish`. -/
theorem exec_finish (p : Params) (jobs : List Job) (hpc : s.pc w = .sampleFinish) :
    exec (step p jobs) s [.sample w s.clock, .worker w] =
      some ((s.store w .finish s.clock).goto w .storeRunDelay) := by
  simp [exec, step, sampleStep, workerStep, State.goto, State.store, hpc]

theorem exec_runDelay (p : Params) (jobs : List Job) (hpc : s.pc w = .storeRunDelay) :
    exec (step p jobs) s [.runDelay w 0] =
      some ((s.store w .runDelay 0).goto w .addComplete) := by
  simp [exec, step, hpc]

/-- A worker at the open barrier gets through its timed section, and past its
last access to its `bench_args`. -/
theorem advance_pass (p : Params) (hjob : jobs[w.1]? = some job) (hopen : s.ready = s.should)
    (hpc : s.pc w = .spinReady) : ∃ s', Advance p jobs [w] .addComplete 0 0 s s' := by
  have hbarrier : Advance p jobs [w] .sampleStart 0 0 s _ :=
    advance_of_exec_still (exec_barrier p jobs hopen hpc) rfl rfl rfl rfl rfl rfl rfl
  have hpc' := hbarrier.arrived w (List.mem_singleton_self w)
  have hstart : Advance p jobs [w] .enter 0 0 _ _ :=
    advance_of_exec_still (exec_start p jobs hpc') rfl rfl rfl rfl rfl rfl rfl
  have hfirst := hbarrier.trans hstart
  obtain ⟨s₁, hbody⟩ := advance_body p hjob (hfirst.arrived w (List.mem_singleton_self w))
  have hpc₁ := hbody.arrived w (List.mem_singleton_self w)
  have hfinish : Advance p jobs [w] .storeRunDelay 0 0 s₁ _ :=
    advance_of_exec_still (exec_finish p jobs hpc₁) rfl rfl rfl rfl rfl rfl rfl
  have hpc₂ := hfinish.arrived w (List.mem_singleton_self w)
  have hdelay : Advance p jobs [w] .addComplete 0 0 _ _ :=
    advance_of_exec_still (exec_runDelay p jobs hpc₂) rfl rfl rfl rfl rfl rfl rfl
  exact ⟨_, (hfirst.trans hbody).trans (hfinish.trans hdelay)⟩

theorem advance_complete (p : Params) (jobs : List Job) (hpc : s.pc w = .addComplete) :
    ∃ s', Advance p jobs [w] .wake 0 1 s s' := by
  have hrun : exec (step p jobs) s [.worker w] =
      some ({ s with complete := s.complete + 1 }.goto w .wake) := by
    simp [exec, step, workerStep, hpc]
  exact ⟨_, advance_of_exec hrun rfl rfl rfl rfl (Int.add_zero _).symm rfl rfl⟩

end Workers

end KvmUtils.IpiBench
