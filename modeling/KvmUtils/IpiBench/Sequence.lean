import KvmUtils.IpiBench.Paths

/-!
# Several benchmarks in one load

No benchmark resets `ready_to_run` or `complete_run`, so the wait of a later
benchmark compares its own `should_run` with workers of all benchmarks so far.

* As long as one benchmark of the load creates workers, the wait ends by its
  condition only after every one of them has stored its finish time.
* As soon as two can create workers, there is a run in which the later wait
  ends by its condition while a worker of that benchmark has not even stored
  `forked` (`early_return`).

`wait_condition_iff` puts the two together.
-/

namespace KvmUtils.IpiBench

open Function Machine

/-- The benchmark can create a worker. -/
def Job.Launches (job : Job) : Prop := 0 < job.shouldRun ∧ job.Feasible

/-- At most one benchmark of the load can create workers. -/
def AtMostOneLaunches (jobs : List Job) : Prop :=
  ∀ (a b : Nat) (joba jobb : Job), jobs[a]? = some joba → jobs[b]? = some jobb →
    joba.Launches → jobb.Launches → a = b

/-- Worker `w` has run its timed section and stored its finish time. -/
def State.Finished (s : State) (w : Worker) : Prop := .start ∈ s.stored w ∧ .finish ∈ s.stored w

section Sequence

variable {p : Params} {jobs : List Job} {s s' : State}

/-! ## At most one benchmark with workers -/

theorem Counted.finished_of_condition (h : Counted jobs s)
    (hone : AtMostOneLaunches jobs)
    (hst : step p jobs s (.waitReturn .condition) = some s') {w : Worker} (hw : w ∈ s.launched)
    (hcur : w.1 = s.job) : s.Finished w := by
  obtain ⟨startns, hmain, hcond⟩ : ∃ startns, s.main = .wait startns ∧ s.complete = s.should := by
    cases move_of_waitStep hst with
    | waitReturn hmain hcond _ => exact ⟨_, hmain, hcond rfl⟩
  obtain ⟨job, hjob, hshould, -⟩ := h.built (by rw [hmain]; trivial)
  have launches : ∀ v ∈ s.launched, ∃ job', jobs[v.1]? = some job' ∧ job'.Launches := by
    intro v hv
    obtain ⟨job', hjob', hlt, hfeasible⟩ := h.origin v hv
    exact ⟨job', hjob', by omega, hfeasible⟩
  obtain ⟨jobw, hjobw, hlaunchw⟩ := launches w hw
  have honly : ∀ v ∈ s.launched, v.1 = s.job := by
    intro v hv
    obtain ⟨jobv, hjobv, hlaunchv⟩ := launches v hv
    rw [← hcur]
    exact hone _ _ _ _ hjobv hjobw hlaunchv hlaunchw
  have hall := h.all_of_census hjob honly (P := Pc.HasCompleted)
    (by rw [← h.complete_eq, hcond, hshould])
  have hmem := mem_workers.mp (h.launched_subset hjob honly hw)
  have hdone : (s.pc w).HasCompleted := by
    have hww : w = (s.job, w.2) := Prod.ext hmem.1 rfl
    rw [hww]
    exact (hall w.2 hmem.2).2
  exact ⟨(h.stored w _ (by simp)).mpr (Pc.pastStore_of_hasCompleted hdone (by simp)),
    (h.stored w _ (by simp)).mpr (Pc.pastStore_of_hasCompleted hdone (by simp))⟩

/-! ## Two benchmarks with workers -/

/-- The first `n` workers of benchmark `j`. -/
def crew (j n : Nat) : List Worker := (List.range n).map fun i => (j, i)

theorem mem_crew {j n : Nat} {w : Worker} : w ∈ crew j n ↔ w.1 = j ∧ w.2 < n := by
  rw [crew, List.mem_map]
  constructor
  · rintro ⟨i, hi, rfl⟩
    exact ⟨rfl, List.mem_range.mp hi⟩
  · rintro ⟨rfl, hlt⟩
    exact ⟨w.2, List.mem_range.mpr hlt, rfl⟩

theorem length_crew (j n : Nat) : (crew j n).length = n := by
  simp [crew]

theorem nodup_crew (j n : Nat) : (crew j n).Nodup :=
  List.nodup_range.map fun _ _ h => (Prod.mk.inj h).2

/-- New workers that are enough to open the barrier get through their timed
sections. -/
theorem crew_pass (p : Params) {job : Job} {j n : Nat} (hjob : jobs[j]? = some job)
    (hnew : ∀ w ∈ crew j n, s.pc w = .sampleForked) (hopen : s.ready + n = s.should) :
    ∃ s', Advance p jobs (crew j n) .addComplete n 0 s s' := by
  obtain ⟨s₁, harrive⟩ := Advance.all (I := fun _ => True) (nodup_crew j n)
    (fun t w _ _ hpc => by
      obtain ⟨t', ht'⟩ := advance_arrive p jobs hpc
      exact ⟨t', ht', trivial⟩)
    trivial hnew
  have hopen₁ : s₁.ready = s₁.should := by
    rw [harrive.ready, harrive.should, length_crew, Int.mul_one, hopen]
  obtain ⟨s₂, hpass⟩ := Advance.all (I := fun t => t.ready = t.should) (nodup_crew j n)
    (fun t w hw ht hpc => by
      have hjobw : jobs[w.1]? = some job := by rw [(mem_crew.mp hw).1, hjob]
      obtain ⟨t', ht'⟩ := advance_pass p hjobw ht hpc
      exact ⟨t', ht', by rw [ht'.ready, ht'.should, ht, Int.add_zero]⟩)
    hopen₁ harrive.arrived
  have hboth := harrive.trans hpass
  simp only [length_crew, Int.mul_one, Int.mul_zero, Int.add_zero] at hboth
  exact ⟨s₂, hboth⟩

/-- Workers that are about to add one to `complete_run` do so. -/
theorem crew_complete (p : Params) (jobs : List Job) {j n : Nat}
    (hat : ∀ w ∈ crew j n, s.pc w = .addComplete) :
    ∃ s', Advance p jobs (crew j n) .wake 0 n s s' := by
  obtain ⟨s', h⟩ := Advance.all (I := fun _ => True) (nodup_crew j n)
    (fun t w _ _ hpc => by
      obtain ⟨t', ht'⟩ := advance_complete p jobs hpc
      exact ⟨t', ht', trivial⟩)
    trivial hat
  simp only [length_crew, Int.mul_one, Int.mul_zero] at h
  exact ⟨s', h⟩

/-- A worker of benchmark `b` has just been created, and the wait of `b` is
about to end by its condition. -/
def State.Early (b : Nat) (s : State) : Prop :=
  s.job = b ∧ (∃ startns, s.main = .wait startns) ∧ s.complete = s.should ∧
    ∃ w ∈ s.launched, w.1 = b ∧ s.pc w = .sampleForked

/-- The wait of `b` with `n` workers of an earlier benchmark that are about to
add one to `complete_run`. -/
theorem early_of_wait (p : Params) {a b n : Nat} {jobb : Job} (hab : a ≠ b) (hn : 0 < n)
    (hb : jobs[b]? = some jobb) (hpos : 0 < jobb.shouldRun) (hjob : s.job = b)
    (hmain : ∃ startns, s.main = .wait startns) (hshould : s.should = jobb.shouldRun)
    (hready : s.ready = n) (hcomplete : s.complete = 0)
    (hold : ∀ w ∈ crew a n, s.pc w = .addComplete)
    (hnew : ∀ i < jobb.shouldRun.toNat, (b, i) ∈ s.launched ∧ s.pc (b, i) = .sampleForked) :
    ∃ s', Reaches (step p jobs) s s' ∧ s'.Early b := by
  rcases Nat.le_total jobb.shouldRun.toNat n with hle | hle
  · -- enough old workers are left to make up `complete_run`
    obtain ⟨s₁, hdone⟩ := crew_complete p jobs
      (fun w hw => hold w (mem_crew.mpr ⟨(mem_crew.mp hw).1, by
        have hlt := (mem_crew.mp hw).2
        omega⟩) : ∀ w ∈ crew a jobb.shouldRun.toNat, s.pc w = .addComplete)
    have hworker := hnew 0 (by omega)
    refine ⟨s₁, hdone.reaches, hdone.job.trans hjob, hdone.main ▸ hmain, ?_, (b, 0),
      hdone.launched ▸ hworker.1, rfl, ?_⟩
    · rw [hdone.complete, hdone.should, hcomplete, hshould]
      omega
    · rw [hdone.others _ (by rw [mem_crew]; exact fun h => hab h.1.symm)]
      exact hworker.2
  · -- the old workers and the first new ones make up `complete_run`
    obtain ⟨s₁, hdone⟩ := crew_complete p jobs hold
    have hfirst : ∀ w ∈ crew b (jobb.shouldRun.toNat - n), s₁.pc w = .sampleForked := by
      intro w hw
      obtain ⟨hwb, hlt⟩ := mem_crew.mp hw
      rw [hdone.others w (by rw [mem_crew]; exact fun h => hab (h.1.symm.trans hwb))]
      have hww : w = (b, w.2) := Prod.ext hwb rfl
      rw [hww]
      exact (hnew w.2 (by omega)).2
    obtain ⟨s₂, hpass⟩ := crew_pass p hb hfirst
      (by rw [hdone.ready, hdone.should, hready, hshould]; omega)
    obtain ⟨s₃, hlast⟩ := crew_complete p jobs hpass.arrived
    have hboth := hpass.trans hlast
    have hworker := hnew (jobb.shouldRun.toNat - 1) (by omega)
    refine ⟨s₃, hdone.reaches.trans hboth.reaches, (hboth.job.trans hdone.job).trans hjob, ?_, ?_,
      (b, jobb.shouldRun.toNat - 1), ?_, rfl, ?_⟩
    · rw [hboth.main, hdone.main]
      exact hmain
    · rw [hboth.complete, hboth.should, hdone.complete, hdone.should, hcomplete, hshould]
      omega
    · rw [hboth.launched, hdone.launched]
      exact hworker.1
    · rw [hboth.others _ (by rw [mem_crew]; omega),
        hdone.others _ (by rw [mem_crew]; exact fun h => hab h.1.symm)]
      exact hworker.2

/-- Two benchmarks with workers, and a wait that ends too early.  The workers
of the first benchmark are held up at their last step until the second one
waits, and a signal ends the first wait. -/
theorem early_return (p : Params) {a b : Nat} {joba jobb : Job} (hab : a < b)
    (ha : jobs[a]? = some joba)
    (hb : jobs[b]? = some jobb) (hla : joba.Launches) (hlb : jobb.Launches) :
    ∃ s, Reaches (step p jobs) State.load s ∧ s.Early b := by
  obtain ⟨hposa, randoma, cpusa, hcpusa⟩ := hla
  obtain ⟨hposb, randomb, cpusb, hcpusb⟩ := hlb
  have hlta : a < jobs.length := (List.getElem?_eq_some_iff.mp ha).1
  have hltb : b < jobs.length := (List.getElem?_eq_some_iff.mp hb).1
  have hskip := reaches_skip p (s := State.load) rfl (Nat.zero_le a) hlta.le
  obtain ⟨s₁, hlaunch, hcreated, ⟨startns, hmain⟩, hshould⟩ :=
    reaches_launched p (s := { State.load with job := a }) ha rfl hposa hcpusa
  obtain ⟨s₂, hpass⟩ := crew_pass p (s := s₁) (n := joba.shouldRun.toNat) ha
    (fun w hw => by
      have hww : w = (a, w.2) := Prod.ext (mem_crew.mp hw).1 rfl
      rw [hww]
      exact (hcreated.worker w.2 (mem_crew.mp hw).2).2)
    (by rw [hcreated.ready, hshould]; simp [State.load]; omega)
  have hjob₂ : s₂.job = a := hpass.job.trans hcreated.job
  obtain ⟨s₃, reports, hsignal, hfreed⟩ := reaches_freed_of_wait p .signal
    (hjob₂ ▸ ha) (hpass.main.trans hmain) (fun hend => by cases hend)
  have hskip' := reaches_skip p (s := s₂.freed reports) rfl
    (by show s₂.job + 1 ≤ b; omega) hltb.le
  obtain ⟨s₄, hlaunch', hcreated', hmain', hshould'⟩ :=
    reaches_launched p (s := { s₂.freed reports with job := b }) hb rfl hposb hcpusb
  have hcomplete : s₄.complete = 0 := by
    rw [hcreated'.complete]
    exact hpass.complete.trans (by rw [hcreated.complete, Int.add_zero]; rfl)
  have hready : s₄.ready = joba.shouldRun.toNat := by
    rw [hcreated'.ready]
    exact hpass.ready.trans (by rw [hcreated.ready]; exact Int.zero_add _)
  have hold : ∀ w ∈ crew a joba.shouldRun.toNat, s₄.pc w = .addComplete := by
    intro w hw
    have hwa := (mem_crew.mp hw).1
    rw [hcreated'.others w (by show w.1 ≠ b; omega)]
    exact hpass.arrived w hw
  obtain ⟨s₅, hlast, hearly⟩ := early_of_wait p (by omega) (by omega) hb hposb
    hcreated'.job hmain' hshould' hready hcomplete hold hcreated'.worker
  have hfirst := (hskip.trans hlaunch).trans (hpass.reaches.trans (hfreed.head hsignal))
  exact ⟨s₅, (hfirst.trans hskip').trans (hlaunch'.trans hlast), hearly⟩

end Sequence

/-- The wait of a benchmark that ends by its condition, for any combination of
benchmarks, any parameters and any interleaving: every worker of the benchmark
has then stored its finish time if and only if at most one of the selected
benchmarks can create workers. -/
theorem wait_condition_iff (topo : Topology) (p : Params) :
    (∀ es s s', exec (step p (benchInit topo p)) State.load es = some s →
      step p (benchInit topo p) s (.waitReturn .condition) = some s' →
        ∀ w ∈ s.launched, w.1 = s.job → s.Finished w) ↔
      AtMostOneLaunches (benchInit topo p) := by
  constructor
  · intro h
    -- an earlier and a later benchmark cannot both create workers
    have hnot : ∀ {a b : Nat} {joba jobb : Job}, (benchInit topo p)[a]? = some joba →
        (benchInit topo p)[b]? = some jobb → joba.Launches → jobb.Launches → ¬ a < b := by
      intro a b joba jobb ha hb hla hlb hab
      obtain ⟨s, ⟨es, hrun⟩, hjob, ⟨startns, hmain⟩, hcond, w, hw, hwb, hpc⟩ :=
        early_return p hab ha hb hla hlb
      obtain ⟨s', _, hst, _⟩ := reaches_freed_of_wait p .condition
        (hjob ▸ hb) hmain (fun _ => hcond)
      have hstored := (h es s s' hrun hst w hw (hwb.trans hjob.symm)).2
      rw [(counted_of_exec (counted_load _) hrun).stored w _ (by simp), hpc] at hstored
      exact hstored
    intro a b joba jobb ha hb hla hlb
    have hab := hnot ha hb hla hlb
    have hba := hnot hb ha hlb hla
    omega
  · intro hone es s s' hrun hst w hw hcur
    exact (counted_of_exec (counted_load _) hrun).finished_of_condition hone hst hw hcur

/-- A load with `options=3`: `ipi_bench_self` runs to its end, and
`ipi_bench_single` has created its worker and waits. -/
def selfThenSingle : List Event :=
  ([.main, .alloc true, .main, .build fun _ => 0, .launch true, .main, .sample (0, 0) 1] :
      List Event) ++
    List.replicate 6 (.worker (0, 0)) ++ ([.sample (0, 0) 2] : List Event) ++
    List.replicate 2 (.worker (0, 0)) ++ ([.sample (0, 0) 3, .call (0, 0) 0 4] : List Event) ++
    List.replicate 2 (.worker (0, 0)) ++
    ([.sample (0, 0) 5, .worker (0, 0), .runDelay (0, 0) 0, .worker (0, 0),
      .waitReturn .condition] : List Event) ++
    List.replicate 8 .main ++
    ([.main, .alloc true, .main, .build fun _ => 0, .launch true, .main] : List Event)

/-- `complete_run` is one since `ipi_bench_self`, so `ipi_bench_single` does
not wait for its worker at all. -/
theorem single_returns_early : ∃ s s',
    exec (step ⟨1, 0, 1, 1, true, 1, true, 3⟩
      (benchInit ⟨2, fun _ => 0⟩ ⟨1, 0, 1, 1, true, 1, true, 3⟩)) State.load selfThenSingle =
        some s ∧
      step ⟨1, 0, 1, 1, true, 1, true, 3⟩
        (benchInit ⟨2, fun _ => 0⟩ ⟨1, 0, 1, 1, true, 1, true, 3⟩) s (.waitReturn .condition) =
          some s' ∧
      ∃ w ∈ s.launched, w.1 = s.job ∧ ¬ s.Finished w := by
  have h : (exec (step ⟨1, 0, 1, 1, true, 1, true, 3⟩
      (benchInit ⟨2, fun _ => 0⟩ ⟨1, 0, 1, 1, true, 1, true, 3⟩)) State.load selfThenSingle).map
      (fun s => decide ((step ⟨1, 0, 1, 1, true, 1, true, 3⟩
        (benchInit ⟨2, fun _ => 0⟩ ⟨1, 0, 1, 1, true, 1, true, 3⟩) s
          (.waitReturn .condition)).isSome ∧
        (1, 0) ∈ s.launched ∧ s.job = 1 ∧ .finish ∉ s.stored (1, 0))) = some true := by
    decide +kernel
  obtain ⟨s, hrun, hs⟩ := exists_exec_of_map h
  obtain ⟨hsome, hlaunched, hjob, hnot⟩ := of_decide_eq_true hs
  obtain ⟨s', hst⟩ := Option.isSome_iff_exists.mp hsome
  exact ⟨s, s', hrun, hst, (1, 0), hlaunched, hjob.symm, fun hfinished => hnot hfinished.2⟩

end KvmUtils.IpiBench
