import Mathlib.Algebra.Order.BigOperators.Group.List
import KvmUtils.Lib.Progress
import KvmUtils.IpiBench.Divisions
import KvmUtils.IpiBench.Memory
import KvmUtils.IpiBench.Sequence

/-!
# The main thread, from the load to its return

`ipi_bench_init` runs its benchmarks one after the other.  Its wait for the
workers has a timeout, so nothing that the workers do can keep it from going
on: it returns after a number of its own steps that the benchmarks fix, unless
it divides by zero (`main_thread_returns`).  Whatever happens on the way, each array that it
allocates is freed once, before the next one is allocated
(`arrays_are_paired`), and a benchmark that is through its reports has
reported each of its workers once and in order (`reports_in_order`).
-/

namespace KvmUtils.IpiBench

open Function Machine

/-- The main thread is in a benchmark. -/
def MainPc.InJob : MainPc → Prop
  | .next | .returned => False
  | _ => True

/-- The benchmark that the main thread is in exists. -/
structure InRange (jobs : List Job) (s : State) : Prop where
  job : s.main.InJob → ∃ job, jobs[s.job]? = some job
  le : s.job ≤ jobs.length
  returned : s.main = .returned → s.job = jobs.length

section Moves

variable {p : Params} {jobs : List Job} {s s' : State} {e : Event}

/-- In its reports the main thread only takes steps of its own. -/
theorem reportMove_of_step {elapsed : UInt64} {i : Nat} {fields : List UInt64}
    (hmain : s.main = .report elapsed i fields) (he : e.actor = none)
    (hst : step p jobs s e = some s') : e = .main ∧ ReportMove jobs s elapsed i fields s' := by
  cases e with
  | main => exact ⟨rfl, reportMove_of_mainStep hmain hst⟩
  | alloc | build | launch | waitReturn =>
    simp [step, allocStep, buildStep, launchStep, waitStep, hmain] at hst
  | mainSample t => simp [step, mainSampleStep, hmain] at hst
  | worker | sample | call | runDelay => cases he

theorem InRange.of_step (h : InRange jobs s) (hst : step p jobs s e = some s') :
    InRange jobs s' := by
  rcases move_of_step hst with ⟨w, hmove⟩ | hmove
  · refine ⟨?_, ?_, ?_⟩ <;> rw [hmove.frame.job]
    · rw [hmove.frame.main]
      exact h.job
    · exact h.le
    · rw [hmove.frame.main]
      exact h.returned
  · have hin : s.main.InJob → s.job < jobs.length := by
      intro hjob
      obtain ⟨job, hget⟩ := h.job hjob
      exact (List.getElem?_eq_some_iff.mp hget).1
    cases hmove with
    | stop hmain hjob =>
      have hge := List.getElem?_eq_none_iff.mp hjob
      exact ⟨fun h => h.elim, h.le, fun _ => Nat.le_antisymm h.le hge⟩
    | begin hmain hjob => exact ⟨fun _ => ⟨_, hjob⟩, h.le, nofun⟩
    | noMemory hmain | free hmain =>
      rw [hmain] at hin
      exact ⟨fun h => h.elim, hin trivial, nofun⟩
    | endLaunch hmain _ _ hp =>
      have hget := h.job (by rw [hmain]; trivial)
      refine ⟨fun _ => hget, h.le, fun hret => ?_⟩
      rcases hp with rfl | rfl <;> cases hret
    | waitReturn hmain _ hp =>
      have hget := h.job (by rw [hmain]; trivial)
      refine ⟨fun _ => hget, h.le, fun hret => ?_⟩
      rcases hp with rfl | rfl <;> cases hret
    | alloc hmain | setShould hmain | build hmain | buildFail hmain | launch hmain
    | launchFail hmain | sampleStart hmain | sampleEnd hmain | report hmain | endReport hmain =>
      have hget := h.job (by rw [hmain]; trivial)
      exact ⟨fun _ => hget, h.le, nofun⟩

theorem inRange_load : InRange jobs State.load := ⟨fun h => h.elim, Nat.zero_le _, nofun⟩

theorem inRange_of_exec {es : List Event} (hrun : exec (step p jobs) State.load es = some s) :
    InRange jobs s :=
  exec_invariant' (fun _ _ _ h hst => h.of_step hst) inRange_load hrun

end Moves

/-! ## The steps of the main thread -/

/-- The steps from the first report of a benchmark to its end, at most. -/
def Job.reportSteps (job : Job) : Nat :=
  job.shouldRun.toNat * ((reportFields job.task).length + 1) + (reportFields job.task).length + 2

/-- The steps of the main thread in a benchmark, at most. -/
def Job.mainSteps (job : Job) : Nat := job.shouldRun.toNat + job.reportSteps + 8

/-- The steps that the main thread has still to make in a benchmark, at
most. -/
def MainPc.left (job : Job) : MainPc → Nat
  | .next | .returned => 0
  | .alloc => job.shouldRun.toNat + job.reportSteps + 7
  | .setShould => job.shouldRun.toNat + job.reportSteps + 6
  | .build => job.shouldRun.toNat + job.reportSteps + 5
  | .launch i => (job.shouldRun.toNat - i) + job.reportSteps + 4
  | .sampleStart => job.reportSteps + 3
  | .wait _ => job.reportSteps + 2
  | .sampleEnd _ => job.reportSteps + 1
  | .report _ i fields =>
    (job.shouldRun.toNat - i) * ((reportFields job.task).length + 1) +
      ((reportFields job.task).length - fields.length) + 2
  | .free => 1

/-- The steps of the main thread in the benchmarks from `k` on, and its
return, at most. -/
def stepsFrom (jobs : List Job) (k : Nat) : Nat := ((jobs.drop k).map Job.mainSteps).sum + 1

/-- The steps that the main thread has still to make, at most. -/
def State.mainLeft (jobs : List Job) (s : State) : Nat :=
  match s.main with
  | .returned => 0
  | .next => stepsFrom jobs s.job
  | _ => (jobs[s.job]?.map (s.main.left ·)).getD 0 + stepsFrom jobs (s.job + 1)

section Steps

variable {p : Params} {jobs : List Job} {s s' : State} {e : Event}

theorem stepsFrom_of_get {k : Nat} {job : Job} (h : jobs[k]? = some job) :
    stepsFrom jobs k = job.mainSteps + stepsFrom jobs (k + 1) := by
  obtain ⟨hlt, rfl⟩ := List.getElem?_eq_some_iff.mp h
  rw [stepsFrom, List.drop_eq_getElem_cons hlt, List.map_cons, List.sum_cons, Nat.add_assoc,
    ← stepsFrom]

theorem stepsFrom_le (jobs : List Job) (k : Nat) : stepsFrom jobs k ≤ stepsFrom jobs 0 := by
  have hsub : (jobs.drop k).Sublist jobs := List.drop_sublist k jobs
  have hsum := (hsub.map Job.mainSteps).sum_le_sum fun _ _ => Nat.zero_le _
  exact Nat.succ_le_succ hsum

theorem MainPc.left_lt (job : Job) (q : MainPc) : q.left job < job.mainSteps := by
  have hmul : ∀ i, (job.shouldRun.toNat - i) * ((reportFields job.task).length + 1) ≤
      job.shouldRun.toNat * ((reportFields job.task).length + 1) :=
    fun i => Nat.mul_le_mul_right _ (Nat.sub_le _ i)
  cases q with
  | report elapsed i fields =>
    have hle := hmul i
    simp only [MainPc.left, Job.mainSteps, Job.reportSteps]
    omega
  | _ =>
    simp only [MainPc.left, Job.mainSteps, Job.reportSteps]
    omega

/-- The measure in a benchmark. -/
theorem mainLeft_of_get {job : Job} (hin : s.main.InJob) (hjob : jobs[s.job]? = some job) :
    s.mainLeft jobs = s.main.left job + stepsFrom jobs (s.job + 1) := by
  unfold State.mainLeft
  rw [hjob]
  cases hmain : s.main with
  | next | returned =>
    rw [hmain] at hin
    exact hin.elim
  | _ => rfl

theorem mainLeft_le (h : InRange jobs s) : s.mainLeft jobs ≤ stepsFrom jobs 0 := by
  by_cases hin : s.main.InJob
  · obtain ⟨job, hjob⟩ := h.job hin
    have hlt := s.main.left_lt job
    have hle := stepsFrom_le jobs s.job
    rw [stepsFrom_of_get hjob] at hle
    rw [mainLeft_of_get hin hjob]
    omega
  · unfold State.mainLeft
    cases hmain : s.main with
    | returned => exact Nat.zero_le _
    | next => exact stepsFrom_le jobs s.job
    | _ =>
      rw [hmain] at hin
      exact absurd trivial hin

/-- A step within a benchmark. -/
theorem mainLeft_lt_of_within {job : Job} (hin : s.main.InJob) (hjob : jobs[s.job]? = some job)
    (hsame : s'.job = s.job) (hin' : s'.main.InJob) (hlt : s'.main.left job < s.main.left job) :
    s'.mainLeft jobs < s.mainLeft jobs := by
  rw [mainLeft_of_get hin hjob, mainLeft_of_get hin' (by rw [hsame, hjob]), hsame]
  omega

/-- One step in the reports. -/
theorem ReportMove.left_lt {job : Job} {elapsed : UInt64} {i : Nat} {fields : List UInt64}
    (hmain : s.main = .report elapsed i fields) (hjob : jobs[s.job]? = some job)
    (h : ReportMove jobs s elapsed i fields s') :
    s'.job = s.job ∧ s'.main.InJob ∧ s'.main.left job < s.main.left job := by
  rw [hmain]
  cases h with
  | read hjob' _ hf =>
    obtain rfl := Option.some.inj (hjob.symm.trans hjob')
    have hlt := (List.getElem?_eq_some_iff.mp hf).1
    refine ⟨rfl, trivial, ?_⟩
    simp only [MainPc.left, List.length_append, List.length_singleton]
    omega
  | line hjob' hi hfull =>
    obtain rfl := Option.some.inj (hjob.symm.trans hjob')
    refine ⟨rfl, trivial, ?_⟩
    obtain ⟨k, hk⟩ : ∃ k, job.shouldRun.toNat - i = k + 1 :=
      ⟨job.shouldRun.toNat - i - 1, by omega⟩
    have hk' : job.shouldRun.toNat - (i + 1) = k := by omega
    simp only [MainPc.left, hk, hk', List.length_nil, Nat.succ_mul]
    omega
  | last hjob' hi =>
    refine ⟨rfl, trivial, ?_⟩
    simp only [MainPc.left]
    omega

/-- Each step of the main thread brings it nearer to its return. -/
theorem mainLeft_lt (hI : InRange jobs s) (he : e.actor = none)
    (hst : step p jobs s e = some s') : s'.mainLeft jobs < s.mainLeft jobs := by
  have hwithin : ∀ {q : MainPc}, s.main = q → q.InJob →
      (∀ job, jobs[s.job]? = some job → s'.main.left job < q.left job) →
      s'.job = s.job → s'.main.InJob → s'.mainLeft jobs < s.mainLeft jobs := by
    rintro q rfl hin hlt hsame hin'
    obtain ⟨job, hjob⟩ := hI.job hin
    exact mainLeft_lt_of_within hin hjob hsame hin' (hlt job hjob)
  by_cases hrep : ∃ elapsed i fields, s.main = .report elapsed i fields
  · obtain ⟨elapsed, i, fields, hmain⟩ := hrep
    obtain ⟨job, hjob⟩ := hI.job (by rw [hmain]; trivial)
    obtain ⟨hsame, hin', hlt⟩ := (reportMove_of_step hmain he hst).2.left_lt hmain hjob
    exact mainLeft_lt_of_within (by rw [hmain]; trivial) hjob hsame hin' hlt
  cases mainMove_of_step he hst with
  | stop hmain _ =>
    simp only [State.mainLeft, hmain, stepsFrom]
    omega
  | begin hmain hjob =>
    rw [mainLeft_of_get (s := { s with main := .alloc }) trivial hjob]
    simp only [State.mainLeft, hmain, stepsFrom_of_get hjob, MainPc.left, Job.mainSteps]
    omega
  | noMemory hmain | free hmain =>
    obtain ⟨job, hjob⟩ := hI.job (by rw [hmain]; trivial)
    rw [mainLeft_of_get (s := s) (by rw [hmain]; trivial) hjob, hmain]
    simp only [State.mainLeft, MainPc.left]
    omega
  | @launch job i hmain hjob hi =>
    refine hwithin hmain trivial (fun job' hjob' => ?_) rfl trivial
    obtain rfl := Option.some.inj (hjob.symm.trans hjob')
    simp only [State.goto, MainPc.left]
    omega
  | @launchFail job i hmain hjob hi =>
    refine hwithin hmain trivial (fun job' hjob' => ?_) rfl trivial
    obtain rfl := Option.some.inj (hjob.symm.trans hjob')
    simp only [MainPc.left]
    omega
  | endLaunch hmain _ _ hp =>
    rcases hp with rfl | rfl
    all_goals
      refine hwithin hmain trivial (fun job _ => ?_) rfl trivial
      simp only [MainPc.left]
      omega
  | waitReturn hmain _ hp =>
    rcases hp with rfl | rfl
    all_goals
      refine hwithin hmain trivial (fun job _ => ?_) rfl trivial
      simp only [MainPc.left, Job.reportSteps, List.length_nil, Nat.sub_zero]
      omega
  | alloc hmain | setShould hmain | build hmain | buildFail hmain | sampleStart hmain
  | sampleEnd hmain =>
    refine hwithin hmain trivial (fun job _ => ?_) rfl trivial
    simp only [MainPc.left, Job.reportSteps, List.length_nil, Nat.sub_zero]
    omega
  | report hmain | endReport hmain => exact absurd ⟨_, _, _, hmain⟩ hrep

/-- Only a reading of the clock moves it. -/
theorem clock_of_mainMove (hmove : MainMove jobs s e s') (he : ∀ t, e ≠ .mainSample t) :
    s'.clock = s.clock := by
  cases hmove with
  | sampleStart | sampleEnd => exact absurd rfl (he _)
  | _ => rfl

/-- The clock may next be read at a time other than `startns`. -/
theorem exists_reading_ne {clock : UInt64} (startns : UInt64)
    (hroom : clock.toNat + 1 < 2 ^ 64) :
    ∃ t : UInt64, clock ≤ t ∧ t ≠ startns ∧ t.toNat ≤ clock.toNat + 1 := by
  by_cases heq : clock = startns
  · have hnat : (clock + 1).toNat = clock.toNat + 1 := by
      rw [UInt64.toNat_add]
      exact Nat.mod_eq_of_lt hroom
    refine ⟨clock + 1, ?_, ?_, hnat.le⟩
    · rw [UInt64.le_iff_toNat_le, hnat]
      exact Nat.le_succ _
    · intro hsame
      rw [hsame, ← heq] at hnat
      omega
  · exact ⟨clock, UInt64.le_refl _, heq, Nat.le_succ _⟩

/-- The main thread is never blocked before its return.  Its next step can
read the clock so that a wait does not end in the instant in which it has
begun, if the clock can move on at all. -/
theorem exists_mainStep (hI : InRange jobs s) (hleft : s.main ≠ .returned)
    (hroom : s.clock.toNat + 1 < 2 ^ 64) :
    ∃ e s', (e.actor = none ∧ ClockMoves s e) ∧ step p jobs s e = some s' ∧
      s'.clock.toNat ≤ s.clock.toNat + 1 := by
  have hevent : ∀ e : Event, e.actor = none → (∀ t, e ≠ .mainSample t) →
      (step p jobs s e).isSome →
      ∃ e s', (e.actor = none ∧ ClockMoves s e) ∧ step p jobs s e = some s' ∧
        s'.clock.toNat ≤ s.clock.toNat + 1 := by
    intro e he hsample h
    have hst : step p jobs s e = some ((step p jobs s e).get h) := (Option.some_get h).symm
    refine ⟨e, _, ⟨he, fun t _ heq => absurd heq (hsample t)⟩, hst, ?_⟩
    rw [clock_of_mainMove (mainMove_of_step he hst) hsample]
    exact Nat.le_succ _
  by_cases hnext : s.main = .next
  · refine hevent .main rfl (by simp) ?_
    cases hjob : jobs[s.job]? <;> simp [step, mainStep, hnext, hjob]
  obtain ⟨job, hjob⟩ := hI.job (by
    cases hmain : s.main with
    | next => exact absurd hmain hnext
    | returned => exact absurd hmain hleft
    | _ => trivial)
  cases hmain : s.main with
  | next => exact absurd hmain hnext
  | returned => exact absurd hmain hleft
  | alloc => exact hevent (.alloc false) rfl (by simp) (by simp [step, allocStep, hmain, hjob])
  | setShould => exact hevent .main rfl (by simp) (by simp [step, mainStep, hmain, hjob])
  | build =>
    refine hevent (.build fun _ => 0) rfl (by simp) ?_
    cases hcpus : job.cpus fun _ => 0 <;> simp [step, buildStep, hmain, hjob, hcpus]
  | launch i =>
    by_cases hi : (i : Int) < job.shouldRun
    · exact hevent (.launch false) rfl (by simp) (by simp [step, launchStep, hmain, hjob, hi])
    · refine hevent .main rfl (by simp) ?_
      by_cases htimed : job.timed = true <;> simp [step, mainStep, hmain, hjob, hi, htimed]
  | sampleStart =>
    refine ⟨.mainSample s.clock, { s with main := .wait s.clock }, ⟨rfl, ?_⟩, ?_, Nat.le_succ _⟩
    · intro t startns _ hend
      cases hmain.symm.trans hend
    · simp [step, mainSampleStep, hmain]
  | sampleEnd startns =>
    obtain ⟨t, hle, hne, hclock⟩ := exists_reading_ne startns hroom
    refine ⟨.mainSample t, { s with clock := t, main := .report (t - startns) 0 [] }, ⟨rfl, ?_⟩,
      ?_, hclock⟩
    · intro t' startns' ht hend
      cases ht
      cases hmain.symm.trans hend
      exact hne
    · simp [step, mainSampleStep, hmain, hle]
  | wait startns =>
    -- the timeout ends the wait whatever the workers do
    refine hevent (.waitReturn .timeout) rfl (by simp) ?_
    by_cases htimed : job.timed = true <;> simp [step, waitStep, hmain, hjob, htimed]
  | report elapsed i fields =>
    refine hevent .main rfl (by simp) ?_
    by_cases hi : (i : Int) < job.shouldRun
    · cases hf : (reportFields job.task)[fields.length]? <;>
        simp [step, mainStep, hmain, hjob, hi, hf]
    · simp [step, mainStep, hmain, hjob, hi]
  | free => exact hevent .main rfl (by simp) (by simp [step, mainStep, hmain])

theorem mainLeft_of_worker {w : Worker} (hmove : WorkerMove s w s') :
    s'.mainLeft jobs = s.mainLeft jobs := by
  unfold State.mainLeft
  rw [hmove.frame.main, hmove.frame.job]

theorem mainLeft_eq_zero (h : s.mainLeft jobs = 0) : s.main = .returned := by
  unfold State.mainLeft at h
  cases hmain : s.main with
  | returned => rfl
  | _ =>
    rw [hmain] at h
    simp [stepsFrom] at h

/-- The main thread among the steps of the machine. -/
def mainThread (p : Params) (jobs : List Job) : Threads (step p jobs) Unit where
  Inv := InRange jobs
  left s _ := s.mainLeft jobs
  bound := stepsFrom jobs 0
  actor e := if e.actor = none then some () else none
  starts _ := none
  inv_step h hst := h.of_step hst
  left_le _ h := mainLeft_le h
  actor_lt {s e s' i} h he hst := by
    have hmain : e.actor = none := by
      by_contra hne
      rw [if_neg hne] at he
      cases he
    exact mainLeft_lt h hmain hst
  other_le {s e s' i} h he _ hst := by
    cases hactor : e.actor with
    | none => exact absurd (if_pos hactor) he
    | some w => exact (mainLeft_of_worker (workerMove_of_step hactor hst)).le

/-- The steps of the main thread in a run. -/
theorem countP_main_le {es : List Event} (hrun : exec (step p jobs) State.load es = some s) :
    es.countP (fun e => e.actor = none) ≤ stepsFrom jobs 0 := by
  have hcount := (mainThread p jobs).count_le () inRange_load hrun
  have hsame : es.countP ((mainThread p jobs).ofThread ()) =
      es.countP fun e => e.actor = none := by
    refine List.countP_congr fun e _ => ?_
    simp [Threads.ofThread, mainThread]
  have hstart : es.countP ((mainThread p jobs).startsThread ()) = 0 := by
    simp [Threads.startsThread, mainThread]
  rw [hsame, hstart, Nat.mul_zero] at hcount
  exact Nat.le_of_add_right_le hcount

/-- The main thread alone comes to its return, with a clock that moves on
during each wait. -/
theorem exists_return (hI : InRange jobs s)
    (hroom : s.clock.toNat + s.mainLeft jobs < 2 ^ 64) :
    ∃ fs t, AllSteps (step p jobs) (fun u e => e.actor = none ∧ ClockMoves u e) s fs ∧
      fs.length ≤ s.mainLeft jobs ∧ exec (step p jobs) s fs = some t ∧ t.main = .returned := by
  have hdown : ∀ {u : State}, (InRange jobs u ∧ u.clock.toNat + u.mainLeft jobs < 2 ^ 64) →
      u.mainLeft jobs ≠ 0 → ∃ e u', (e.actor = none ∧ ClockMoves u e) ∧
        step p jobs u e = some u' ∧
        (InRange jobs u' ∧ u'.clock.toNat + u'.mainLeft jobs < 2 ^ 64) ∧
        u'.mainLeft jobs < u.mainLeft jobs := by
    intro u ⟨hu, hfits⟩ hleft
    have hbusy : u.main ≠ .returned := fun hret => hleft (by simp [State.mainLeft, hret])
    obtain ⟨e, u', hgood, hst, hclock⟩ := exists_mainStep (p := p) hu hbusy (by omega)
    have hlt := mainLeft_lt hu hgood.1 hst
    exact ⟨e, u', hgood, hst, ⟨hu.of_step hst, by omega⟩, hlt⟩
  obtain ⟨fs, t, hall, hlen, hexec, hzero⟩ :=
    exists_zero_allSteps (P := fun u e => e.actor = none ∧ ClockMoves u e) (State.mainLeft jobs)
      hdown ⟨hI, hroom⟩
  exact ⟨fs, t, hall, hlen, hexec, mainLeft_eq_zero hzero⟩

/-- The load returns.  In every run from the load on, with any number of
workers doing whatever they do, the main thread makes at most
`stepsFrom jobs 0` steps.

If `loops` is not 0 and no step has divided by zero, the main thread returns
from wherever the run has got to, by at most that many steps of its own and
without a division by zero.  For this a timed wait that is over must have
taken some time, and the clock must not have come to its end. -/
theorem main_thread_returns {es : List Event}
    (hrun : exec (step p jobs) State.load es = some s) :
    es.countP (fun e => e.actor = none) ≤ stepsFrom jobs 0 ∧
      (toWord p.loops ≠ 0 → AllSteps (step p jobs) (NonzeroDivisors p jobs) State.load es →
        s.Elapsed jobs → s.clock.toNat + stepsFrom jobs 0 < 2 ^ 64 →
        ∃ fs t, (∀ e ∈ fs, e.actor = none) ∧ fs.length ≤ stepsFrom jobs 0 ∧
          exec (step p jobs) s fs = some t ∧ t.main = .returned ∧
          AllSteps (step p jobs) (NonzeroDivisors p jobs) State.load (es ++ fs)) := by
  refine ⟨countP_main_le hrun, fun hloops hdiv helapsed hroom => ?_⟩
  have hI : InRange jobs s := inRange_of_exec hrun
  have hle := mainLeft_le hI
  obtain ⟨fs, t, hall, hlen, hexec, hret⟩ := exists_return (p := p) hI (by omega)
  have hown : ∀ e ∈ fs, e.actor = none :=
    (allSteps_iff_forall hexec).mp <|
      allSteps_imp (I := fun _ => True) (fun _ _ _ _ _ _ => trivial) (fun _ _ _ _ h _ => h.1)
        trivial hexec hall
  have hlater : AllSteps (step p jobs) (NonzeroDivisors p jobs) s fs :=
    allSteps_imp (I := State.Elapsed jobs) (P := fun u e => e.actor = none ∧ ClockMoves u e)
      (fun _ _ _ h hP hst => h.step hP.2 hst)
      (fun _ _ _ h _ _ => nonzeroDivisors_of (fun _ _ _ _ => hloops) h)
      helapsed hexec hall
  exact ⟨fs, t, hown, hlen.trans hle, hexec, hret, (allSteps_append hrun).mpr ⟨hdiv, hlater⟩⟩

end Steps

/-! ## The arrays -/

/-- A call of the allocator for the array of a benchmark. -/
inductive HeapCall where
  | kzalloc (job : Nat)
  | kfree (job : Nat)
  deriving DecidableEq, Repr

/-- The calls of the allocator in one step.  A `kzalloc` that fails gives
nothing to free. -/
def heapCalls (s : State) : Event → List HeapCall
  | .alloc true => [.kzalloc s.job]
  | .main => if s.main = .free then [.kfree s.job] else []
  | _ => []

/-- The calls for the arrays of `js`, one array after the other. -/
def pairedCalls (js : List Nat) : List HeapCall := js.flatMap fun j => [.kzalloc j, .kfree j]

/-- The calls up to now: those for the arrays of `js`, and the `kzalloc` of
the array that the main thread has. -/
structure Paired (s : State) (calls : List HeapCall) (js : List Nat) : Prop where
  calls_eq : calls = pairedCalls js ++ if s.main.HasArray then [.kzalloc s.job] else []
  sorted : js.Pairwise (· < ·)
  lt : ∀ j ∈ js, j < s.job
  array : s.OneArray

section Arrays

variable {p : Params} {jobs : List Job} {s s' : State} {e : Event} {calls : List HeapCall}
  {js : List Nat}

theorem Paired.calls_of_hasArray (h : Paired s calls js) (hhas : s.main.HasArray) :
    calls = pairedCalls js ++ [.kzalloc s.job] := by
  rw [h.calls_eq, if_pos hhas]

theorem Paired.calls_of_not_hasArray (h : Paired s calls js) (hhas : ¬ s.main.HasArray) :
    calls = pairedCalls js := by
  rw [h.calls_eq, if_neg hhas, List.append_nil]

/-- A step that neither allocates nor frees. -/
theorem Paired.same (h : Paired s calls js) (hjob : s'.job = s.job) (harray : s'.OneArray)
    (hhas : s'.main.HasArray ↔ s.main.HasArray) : Paired s' calls js := by
  refine ⟨?_, h.sorted, ?_, harray⟩
  · rw [h.calls_eq, hjob]
    by_cases hmain : s.main.HasArray
    · rw [if_pos hmain, if_pos (hhas.mpr hmain)]
    · rw [if_neg hmain, if_neg (mt hhas.mp hmain)]
  · rw [hjob]
    exact h.lt

theorem Paired.of_step (h : Paired s calls js) (hst : step p jobs s e = some s') :
    ∃ js', Paired s' (calls ++ heapCalls s e) js' := by
  have harray : s'.OneArray := h.array.step hst
  cases hactor : e.actor with
  | some w =>
    have hframe := (workerMove_of_step hactor hst).frame
    have hnone : heapCalls s e = [] := by
      cases e with
      | worker | sample | call | runDelay => rfl
      | main | alloc | build | launch | mainSample | waitReturn => cases hactor
    rw [hnone, List.append_nil]
    exact ⟨js, h.same hframe.job harray (by rw [hframe.main])⟩
  | none =>
    have hsame : ∀ {q : MainPc}, s.main = q → heapCalls s e = [] → s'.job = s.job →
        (s'.main.HasArray ↔ q.HasArray) → ∃ js', Paired s' (calls ++ heapCalls s e) js' := by
      rintro q rfl hnone hjob hhas
      rw [hnone, List.append_nil]
      exact ⟨js, h.same hjob harray hhas⟩
    cases mainMove_of_step hactor hst with
    | alloc hmain hjob _ =>
      have hcalls := h.calls_of_not_hasArray (by rw [hmain]; exact id)
      refine ⟨js, ?_, h.sorted, h.lt, harray⟩
      rw [hcalls]
      rfl
    | free hmain =>
      have hcalls := h.calls_of_hasArray (by rw [hmain]; trivial)
      refine ⟨js ++ [s.job], ?_, ?_, ?_, harray⟩
      · rw [hcalls, heapCalls, if_pos hmain]
        show _ = pairedCalls (js ++ [s.job]) ++ []
        simp [pairedCalls, List.append_assoc]
      · rw [List.pairwise_append]
        refine ⟨h.sorted, List.pairwise_singleton _ _, fun j hj k hk => ?_⟩
        rw [List.mem_singleton.mp hk]
        exact h.lt j hj
      · intro j hj
        rcases List.mem_append.mp hj with hold | hnew
        · exact Nat.lt_succ_of_lt (h.lt j hold)
        · rw [List.mem_singleton.mp hnew]
          exact Nat.lt_succ_self s.job
    | noMemory hmain =>
      have hcalls := h.calls_of_not_hasArray (by rw [hmain]; exact id)
      refine ⟨js, ?_, h.sorted, fun j hj => Nat.lt_succ_of_lt (h.lt j hj), harray⟩
      rw [hcalls]
      exact (List.append_nil _).trans (List.append_nil _).symm
    | stop hmain | begin hmain =>
      exact hsame hmain (by simp [heapCalls, hmain]) rfl Iff.rfl
    | setShould hmain | report hmain | endReport hmain =>
      exact hsame hmain (by simp [heapCalls, hmain]) rfl (iff_of_true trivial trivial)
    | endLaunch hmain _ _ hp =>
      refine hsame hmain (by simp [heapCalls, hmain]) rfl (iff_of_true ?_ trivial)
      rcases hp with rfl | rfl <;> trivial
    | waitReturn hmain _ hp =>
      refine hsame hmain rfl rfl (iff_of_true ?_ trivial)
      rcases hp with rfl | rfl <;> trivial
    | build hmain | buildFail hmain | launch hmain | launchFail hmain | sampleStart hmain
    | sampleEnd hmain => exact hsame hmain rfl rfl (iff_of_true trivial trivial)

/-- Every array is freed once.  In every run from the load on, the calls of
the allocator are a `kzalloc` and a `kfree` for each of some benchmarks, in
their order, and then the `kzalloc` of the one array that is live, if there is
one.  Once the main thread has returned there is none. -/
theorem arrays_are_paired {es : List Event}
    (hrun : exec (step p jobs) State.load es = some s) :
    ∃ js : List Nat, js.Pairwise (· < ·) ∧
      outputs (step p jobs) heapCalls State.load es =
        pairedCalls js ++ (if s.main.HasArray then [.kzalloc s.job] else []) ∧
      (∀ j, s.live j = true ↔ s.main.HasArray ∧ j = s.job) ∧
      (s.main = .returned →
        outputs (step p jobs) heapCalls State.load es = pairedCalls js ∧
          ∀ j, s.live j = false) := by
  have hload : Paired State.load [] [] :=
    ⟨rfl, List.Pairwise.nil, by simp, oneArray_load⟩
  have hend := exec_invariant_outputs (f := heapCalls)
    (I := fun t calls => ∃ js, Paired t calls js) (P := fun _ _ => True)
    (fun t e t' calls h _ hst => h.choose_spec.of_step hst) ⟨[], hload⟩
    (allSteps_of_forall (fun _ _ => trivial) State.load es) hrun
  rw [List.nil_append] at hend
  obtain ⟨js, h⟩ := hend
  refine ⟨js, h.sorted, h.calls_eq, h.array, fun hret => ⟨?_, fun j => ?_⟩⟩
  · exact h.calls_of_not_hasArray (by rw [hret]; exact id)
  · by_contra hlive
    have hhas := ((h.array j).mp (by simpa using hlive)).1
    rw [hret] at hhas
    exact hhas

end Arrays

/-! ## The reports -/

/-- The workers that benchmark `j` has reported when it is through. -/
def reportedBy (jobs : List Job) (s : State) (j : Nat) : List Worker :=
  if s.ret j = 0 then crew j ((jobs[j]?.map (·.shouldRun.toNat)).getD 0) else []

/-- The workers that the benchmark under way has reported. -/
def State.underWay (s : State) : List Worker :=
  match s.main with
  | .report _ i _ => crew s.job i
  | _ => []

/-- The reports up to now. -/
structure ReportInv (jobs : List Job) (s : State) : Prop where
  reports_eq : s.reports.map Report.worker =
    (List.range (s.job + 1)).flatMap (reportedBy jobs s) ++ s.underWay
  ret : ∀ j, s.ret j = 0 ∨ s.ret j = -1
  later : ∀ j, s.job < j → s.ret j = -1
  current : s.main ≠ .free → s.ret s.job = -1
  le : ∀ elapsed i fields, s.main = .report elapsed i fields →
    ∀ job, jobs[s.job]? = some job → i ≤ job.shouldRun.toNat

section Reports

variable {p : Params} {jobs : List Job} {s s' : State} {e : Event}

theorem crew_succ (j n : Nat) : crew j (n + 1) = crew j n ++ [(j, n)] := by
  simp [crew, List.range_succ]

/-- A benchmark that has returned `-1` has reported nobody. -/
theorem reportedBy_of_failed {j : Nat} (h : s.ret j = -1) : reportedBy jobs s j = [] := by
  rw [reportedBy, h]
  rfl

/-- A step outside the reports. -/
theorem ReportInv.same (h : ReportInv jobs s) (hreports : s'.reports = s.reports)
    (hret : s'.ret = s.ret) (hjob : s'.job = s.job) (hold : s.underWay = [])
    (hnew : s'.underWay = []) (hfree : s'.main ≠ .free → s.main ≠ .free)
    (hle : ∀ elapsed i fields, s'.main = .report elapsed i fields → i = 0) :
    ReportInv jobs s' := by
  have hby : reportedBy jobs s' = reportedBy jobs s := by
    funext j
    simp only [reportedBy, hret]
  refine ⟨?_, ?_, ?_, ?_, ?_⟩
  · rw [hreports, h.reports_eq, hjob, hold, hnew, hby]
  · rw [hret]
    exact h.ret
  · rw [hret, hjob]
    exact h.later
  · rw [hret, hjob]
    exact fun hmain => h.current (hfree hmain)
  · intro elapsed i fields hmain job _
    rw [hle elapsed i fields hmain]
    exact Nat.zero_le _

/-- The main thread goes on to the next benchmark. -/
theorem ReportInv.next (h : ReportInv jobs s) (hold : s.underWay = []) {live : Nat → Bool} :
    ReportInv jobs { s with live := live, job := s.job + 1, main := .next } := by
  have hnew : s.ret (s.job + 1) = -1 := h.later _ (Nat.lt_succ_self _)
  refine ⟨?_, h.ret, fun j hj => h.later j (Nat.lt_of_succ_lt hj), fun _ => hnew, nofun⟩
  show s.reports.map Report.worker =
    (List.range (s.job + 1 + 1)).flatMap (reportedBy jobs s) ++ []
  rw [h.reports_eq, hold, List.range_succ (n := s.job + 1), List.flatMap_append,
    List.flatMap_singleton, reportedBy_of_failed hnew, List.append_nil, List.append_nil]

/-- A step in the reports. -/
theorem ReportInv.report (h : ReportInv jobs s) {elapsed : UInt64} {i : Nat}
    {fields : List UInt64} (hmain : s.main = .report elapsed i fields)
    (hmove : ReportMove jobs s elapsed i fields s') : ReportInv jobs s' := by
  have hcurrent : s.ret s.job = -1 := h.current (by rw [hmain]; nofun)
  have hold := h.reports_eq
  rw [State.underWay, hmain] at hold
  cases hmove with
  | read hjob hi hf =>
    refine ⟨hold, h.ret, h.later, fun _ => hcurrent, ?_⟩
    rintro _ i' _ hmain' job' hjob'
    cases hmain'
    exact h.le _ _ _ hmain job' hjob'
  | line hjob hi hfull =>
    refine ⟨?_, h.ret, h.later, fun _ => hcurrent, ?_⟩
    · show (s.reports ++ [_]).map Report.worker = _ ++ crew s.job (i + 1)
      rw [List.map_append, hold, crew_succ, List.append_assoc]
      rfl
    · rintro _ i' _ hmain' job' hjob'
      cases hmain'
      obtain rfl := Option.some.inj (hjob.symm.trans hjob')
      omega
  | @last job hjob hi =>
    have hi' : i = job.shouldRun.toNat := by
      have hle := h.le _ _ _ hmain job hjob
      omega
    have hby : ∀ j, j ≠ s.job →
        (if (update s.ret s.job 0) j = 0 then
          crew j ((jobs[j]?.map (·.shouldRun.toNat)).getD 0) else []) = reportedBy jobs s j := by
      intro j hj
      rw [update_of_ne hj, reportedBy]
    refine ⟨?_, fun j => ?_, fun j hj => ?_, fun hfree => absurd rfl hfree, nofun⟩
    · show s.reports.map Report.worker = (List.range (s.job + 1)).flatMap (reportedBy jobs
        { s with ret := update s.ret s.job 0, main := .free }) ++ []
      have hlast : reportedBy jobs { s with ret := update s.ret s.job 0, main := .free } s.job =
          crew s.job i := by
        simp [reportedBy, hjob, hi']
      have hfirst : (List.range s.job).flatMap (reportedBy jobs
          { s with ret := update s.ret s.job 0, main := .free }) =
          (List.range s.job).flatMap (reportedBy jobs s) := by
        refine List.flatMap_congr fun j hj => ?_
        exact hby j (Nat.ne_of_lt (List.mem_range.mp hj))
      rw [hold, List.range_succ, List.flatMap_append, List.flatMap_append, List.flatMap_singleton,
        List.flatMap_singleton, hlast, hfirst, reportedBy_of_failed hcurrent, List.append_nil,
        List.append_nil]
    · show update s.ret s.job 0 j = 0 ∨ update s.ret s.job 0 j = -1
      by_cases hj : j = s.job
      · rw [hj, update_self]
        exact Or.inl rfl
      · rw [update_of_ne hj]
        exact h.ret j
    · exact (update_of_ne (Nat.ne_of_gt hj) _ _).trans (h.later j hj)

theorem ReportInv.of_step (h : ReportInv jobs s) (hst : step p jobs s e = some s') :
    ReportInv jobs s' := by
  cases hactor : e.actor with
  | some w =>
    have hmove := workerMove_of_step hactor hst
    have hframe := hmove.frame
    have hsame : s'.reports = s.reports ∧ s'.ret = s.ret := by
      cases hmove <;> exact ⟨rfl, rfl⟩
    have hunder : s'.underWay = s.underWay := by
      simp only [State.underWay, hframe.main, hframe.job]
    have hby : reportedBy jobs s' = reportedBy jobs s := by
      funext j
      simp only [reportedBy, hsame.2]
    refine ⟨?_, ?_, ?_, ?_, ?_⟩
    · rw [hsame.1, hframe.job, hby, hunder, h.reports_eq]
    · rw [hsame.2]
      exact h.ret
    · rw [hsame.2, hframe.job]
      exact h.later
    · rw [hsame.2, hframe.job, hframe.main]
      exact h.current
    · rw [hframe.job, hframe.main]
      exact h.le
  | none =>
    by_cases hrep : ∃ elapsed i fields, s.main = .report elapsed i fields
    · obtain ⟨elapsed, i, fields, hmain⟩ := hrep
      exact h.report hmain (reportMove_of_step hmain hactor hst).2
    have hold : s.underWay = [] := by
      unfold State.underWay
      split
      · rename_i hmain
        exact absurd ⟨_, _, _, hmain⟩ hrep
      · rfl
    have hmain_ne : ∀ {q : MainPc}, s.main = q → q ≠ .free → s.main ≠ .free := by
      rintro q rfl hq
      exact hq
    cases mainMove_of_step hactor hst with
    | report hmain | endReport hmain => exact absurd ⟨_, _, _, hmain⟩ hrep
    | noMemory hmain | free hmain => exact h.next hold
    | stop hmain | begin hmain | alloc hmain | setShould hmain | build hmain | launch hmain
    | launchFail hmain | sampleStart hmain =>
      exact h.same rfl rfl rfl hold rfl (fun _ => hmain_ne hmain nofun) nofun
    | buildFail hmain => exact h.same rfl rfl rfl hold rfl (fun hne => absurd rfl hne) nofun
    | sampleEnd hmain =>
      refine h.same rfl rfl rfl hold rfl (fun _ => hmain_ne hmain nofun) ?_
      rintro _ _ _ hreport
      cases hreport
      rfl
    | endLaunch hmain _ _ hp =>
      rcases hp with rfl | rfl
      all_goals exact h.same rfl rfl rfl hold rfl (fun _ => hmain_ne hmain nofun) nofun
    | waitReturn hmain _ hp =>
      rcases hp with rfl | rfl
      · exact h.same rfl rfl rfl hold rfl (fun _ => hmain_ne hmain nofun) nofun
      · refine h.same rfl rfl rfl hold rfl (fun _ => hmain_ne hmain nofun) ?_
        rintro _ _ _ hreport
        cases hreport
        rfl

/-- The reports are complete and in order.  In every run from the load on, the
reports are those of the benchmarks that have returned `0`, benchmark after
benchmark, each of all its workers once and in order, and then those of the
first workers of the benchmark under way.  Once the main thread has returned,
nothing but the former is left. -/
theorem reports_in_order {es : List Event}
    (hrun : exec (step p jobs) State.load es = some s) :
    s.reports.map Report.worker =
        (List.range (s.job + 1)).flatMap (reportedBy jobs s) ++ s.underWay ∧
      (∀ j, s.ret j = 0 ∨ s.ret j = -1) ∧
      (s.main = .returned →
        s.reports.map Report.worker =
          (List.range jobs.length).flatMap (reportedBy jobs s)) := by
  have hload : ReportInv jobs State.load :=
    ⟨rfl, fun _ => Or.inr rfl, fun _ _ => rfl, fun _ => rfl, nofun⟩
  have h : ReportInv jobs s := exec_invariant' (fun _ _ _ h hst => h.of_step hst) hload hrun
  refine ⟨h.reports_eq, h.ret, fun hret => ?_⟩
  have hlast : s.ret s.job = -1 := h.current (by rw [hret]; nofun)
  have hunder : s.underWay = [] := by rw [State.underWay, hret]
  rw [h.reports_eq, hunder, List.range_succ, List.flatMap_append, List.flatMap_singleton,
    reportedBy_of_failed hlast, (inRange_of_exec hrun).returned hret, List.append_nil,
    List.append_nil]

end Reports

/-! ## A load of one benchmark -/

/-- The one worker is created and never runs, and the wait times out. -/
def idleWorkerRun : List Event :=
  [.main, .alloc true, .main, .build fun _ => 0, .launch true, .main, .waitReturn .timeout] ++
    List.replicate 9 .main

theorem exec_idleWorkerRun : ∃ s,
    exec (step (onePair 1 SELF_IPI) (benchInit twoCpus (onePair 1 SELF_IPI))) State.load
        idleWorkerRun = some s ∧ s.main = .returned := by
  have h : (exec (step (onePair 1 SELF_IPI) (benchInit twoCpus (onePair 1 SELF_IPI))) State.load
      idleWorkerRun).map (fun s => decide (s.main = .returned)) = some true := by
    decide +kernel
  obtain ⟨s, hrun, hs⟩ := exists_exec_of_map h
  exact ⟨s, hrun, of_decide_eq_true hs⟩

/-- The load, as it has just begun to wait for its worker, returns. -/
theorem main_thread_returns_idleWorkerRun : ∃ s,
    exec (step (onePair 1 SELF_IPI) (benchInit twoCpus (onePair 1 SELF_IPI))) State.load
        (idleWorkerRun.take 6) = some s ∧ s.main = .wait 0 ∧
      ∃ fs t, (∀ e ∈ fs, e.actor = none) ∧ fs.length ≤ 25 ∧
        exec (step (onePair 1 SELF_IPI) (benchInit twoCpus (onePair 1 SELF_IPI))) s fs = some t ∧
        t.main = .returned := by
  have h : (exec (step (onePair 1 SELF_IPI) (benchInit twoCpus (onePair 1 SELF_IPI))) State.load
      (idleWorkerRun.take 6)).map (fun s => decide (s.main = .wait 0 ∧ s.clock = 0)) =
        some true := by
    decide +kernel
  have hdiv : AllSteps (step (onePair 1 SELF_IPI) (benchInit twoCpus (onePair 1 SELF_IPI)))
      (NonzeroDivisors (onePair 1 SELF_IPI) (benchInit twoCpus (onePair 1 SELF_IPI)))
      State.load (idleWorkerRun.take 6) := by
    decide +kernel
  obtain ⟨s, hrun, hs⟩ := exists_exec_of_map h
  obtain ⟨hmain, hclock⟩ := of_decide_eq_true hs
  have helapsed : s.Elapsed (benchInit twoCpus (onePair 1 SELF_IPI)) :=
    .of_not_report (by simp [hmain])
  have hroom : s.clock.toNat + stepsFrom (benchInit twoCpus (onePair 1 SELF_IPI)) 0 < 2 ^ 64 := by
    rw [hclock]
    decide +kernel
  obtain ⟨fs, t, hown, hlen, hexec, hret, -⟩ :=
    (main_thread_returns hrun).2 (by decide) hdiv helapsed hroom
  exact ⟨s, hrun, hmain, fs, t, hown, hlen.trans (by decide +kernel), hexec, hret⟩

theorem arrays_are_paired_idleWorkerRun : ∃ js,
    outputs (step (onePair 1 SELF_IPI) (benchInit twoCpus (onePair 1 SELF_IPI))) heapCalls
      State.load idleWorkerRun = pairedCalls js := by
  obtain ⟨s, hrun, hret⟩ := exec_idleWorkerRun
  obtain ⟨js, -, -, -, hall⟩ := arrays_are_paired hrun
  exact ⟨js, (hall hret).1⟩

theorem reports_in_order_idleWorkerRun : ∃ s,
    exec (step (onePair 1 SELF_IPI) (benchInit twoCpus (onePair 1 SELF_IPI))) State.load
        idleWorkerRun = some s ∧
      s.reports.map Report.worker =
        (List.range (benchInit twoCpus (onePair 1 SELF_IPI)).length).flatMap
          (reportedBy (benchInit twoCpus (onePair 1 SELF_IPI)) s) := by
  obtain ⟨s, hrun, hret⟩ := exec_idleWorkerRun
  exact ⟨s, hrun, (reports_in_order hrun).2.2 hret⟩

end KvmUtils.IpiBench
