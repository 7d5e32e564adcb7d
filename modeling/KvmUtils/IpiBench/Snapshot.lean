import KvmUtils.IpiBench.WorkDone

/-!
# The snapshot of a report

A report takes `finish` as the sign that the worker is through.  It reads
`start` before `finish`, and the worker stores `run_delay` after `finish`, so
a report on a worker that is still running may use a `start` and a `run_delay`
that have not been stored.
-/

namespace KvmUtils.IpiBench

open Machine

/-- The main thread has read the field `f` of worker `w` after the worker had
stored it. -/
def ReadAfterStore (p : Params) (jobs : List Job) (w : Worker) (es : List Event) (f : Field) :
    Prop :=
  ∃ rd ∈ readingsOf p jobs w State.load es, rd.field = f ∧ f ∈ rd.stored

section Snapshot

variable {p : Params} {jobs : List Job} {task : Task} {s : State} {w : Worker} {o : List Reading}

/-- A field other than `ipitime` is read with its final value exactly when it
has been stored or stays 0. -/
theorem Faithful.readOf_eq_iff (h : Faithful s w o)
    (hfields : o.map Reading.field = reportFields task) {f : Field} (hf : f ∈ reportFields task)
    (hne : f ≠ .ipitime) :
    readOf task (o.map Reading.value) f = (s.args w).field f ↔
      (∃ rd ∈ o, rd.field = f ∧ f ∈ rd.stored) ∨ (s.args w).field f = 0 := by
  constructor
  · intro heq
    obtain ⟨rd, hrd, rfl⟩ := exists_reading hfields hf
    by_cases hstored : rd.field ∈ rd.stored
    · exact Or.inl ⟨rd, hrd, rfl, hstored⟩
    · right
      rw [← heq, readOf_eq hfields hrd]
      exact h.stale rd hrd hne hstored
  · intro hor
    rcases hor with ⟨rd, hrd, rfl, hstored⟩ | hzero
    · rw [readOf_eq hfields hrd]
      exact h.fresh rd hrd hne hstored
    · obtain ⟨rd, hrd, rfl⟩ := exists_reading hfields hf
      rw [readOf_eq hfields hrd]
      by_cases hstored : rd.field ∈ rd.stored
      · exact h.fresh rd hrd hne hstored
      · rw [hzero]
        exact h.stale rd hrd hne hstored

/-- `ipitime` is read after `finish`, and it is final by then. -/
theorem Faithful.readOf_ipitime (h : Faithful s w o)
    (hfields : o.map Reading.field = reportFields .single)
    (hfinish : readOf .single (o.map Reading.value) .finish ≠ 0) :
    readOf .single (o.map Reading.value) .ipitime = (s.args w).field .ipitime := by
  have hlen : o.length = 5 := by
    rw [← List.length_map (f := Reading.field), hfields]
    rfl
  have hfield : ∀ k (hk : k < o.length) (hk' : k < (reportFields .single).length),
      o[k].field = (reportFields .single)[k] := by
    intro k hk hk'
    simp only [← hfields, List.getElem_map]
  -- `finish` is the third field, and `ipitime` the fourth
  have hstored : .finish ∈ o[2].stored :=
    h.finish_stored hfields hfinish (List.getElem_mem _) (hfield 2 (by omega) (by decide))
  have horder : o[2].stored ⊆ o[3].stored :=
    List.pairwise_iff_getElem.mp h.ordered 2 3 (by omega) (by omega) (by decide)
  have hipitime : o[3].field = .ipitime := hfield 3 (by omega) (by decide)
  rw [← h.ipitime o[3] (List.getElem_mem _) hipitime (horder hstored), ← hipitime]
  exact readOf_eq hfields (List.getElem_mem _)

/-- A report that prints its figures, in any run.  The `start`, the `ipitime`
and the `run_delay` that it has used are those in the `bench_args` at the end
of the run, when the worker may have got to its end, exactly when `start` and
`run_delay` were read after their stores, or are 0 at the end.

This is for runs without a stale store, in which the memory that the report
reads holds what `State.args` says.  It may otherwise hold what a late worker
of an earlier benchmark has stored. -/
theorem report_snapshot_iff {es : List Event} {r : Report} {job : Job}
    (hrun : exec (step p jobs) State.load es = some s) (hr : r ∈ s.reports)
    (hget : jobs[r.worker.1]? = some job) (hprint : report p job.task r.fields ≠ none) :
    AllSteps (step p jobs) NoStaleStore State.load es →
      ArgsInMemory p jobs es ∧
      ((∀ f ∈ reportFields job.task, f = .start ∨ f = .ipitime ∨ f = .runDelay →
        readOf job.task r.fields f = (s.args r.worker).field f) ↔
      ∀ f, f = .start ∨ f = .runDelay →
        ReadAfterStore p jobs r.worker es f ∨ (s.args r.worker).field f = 0) := by
  intro hstores
  refine ⟨argsInMemory_of_noStaleStore hrun hstores, ?_⟩
  have hrecorded := recorded_of_exec hget hrun
  obtain ⟨hfields, hvalues⟩ := hrecorded.of_mem_reports hr rfl
  rw [← hvalues] at hprint ⊢
  have hfinish : readOf job.task
      ((readingsOf p jobs r.worker State.load es).map Reading.value) .finish ≠ 0 := by
    intro hzero
    exact hprint (by simp [report, hzero])
  have hiff := fun f hf hne => hrecorded.faithful.readOf_eq_iff hfields (f := f) hf hne
  constructor
  · intro hread f hf
    have hmem : f ∈ reportFields job.task := by
      rcases hf with rfl | rfl <;> cases job.task <;> decide
    have hne : f ≠ .ipitime := by
      rcases hf with rfl | rfl <;> decide
    refine (hiff f hmem hne).mp (hread f hmem ?_)
    rcases hf with rfl | rfl
    · exact Or.inl rfl
    · exact Or.inr (Or.inr rfl)
  · intro hfresh f hmem hf
    rcases hf with rfl | rfl | rfl
    · exact (hiff _ hmem (by decide)).mpr (hfresh _ (Or.inl rfl))
    · cases htask : job.task with
      | single =>
        rw [htask] at hfields hfinish
        exact hrecorded.faithful.readOf_ipitime hfields hfinish
      | many =>
        rw [htask] at hmem
        exact absurd hmem (by decide)
    · exact (hiff _ hmem (by decide)).mpr (hfresh _ (Or.inr rfl))

end Snapshot

/-- `ipi_bench_self` whose worker is late.  The report reads `forked` and
`start` before `start` is stored, and the other fields between the stores of
`finish` and of `run_delay`. -/
def lateRun : List Event :=
  selfBarrierRun ++
    ([.sample (0, 0) 2, .main, .waitReturn .timeout, .main, .main, .worker (0, 0),
      .worker (0, 0), .sample (0, 0) 3, .call (0, 0) 0 4, .sample (0, 0) 5, .call (0, 0) 0 6,
      .worker (0, 0), .worker (0, 0), .sample (0, 0) 7, .worker (0, 0)] : List Event) ++
    List.replicate 4 .main ++ [.runDelay (0, 0) 5]

theorem exec_lateRun :
    ∃ s, exec (step (onePair 2 SELF_IPI) (benchInit twoCpus (onePair 2 SELF_IPI))) State.load
        lateRun = some s ∧
      s.reports = [⟨(0, 0), 0, [1, 0, 7, 2, 0]⟩] ∧
      (s.args (0, 0)).field .start = 2 ∧ (s.args (0, 0)).field .runDelay = 5 := by
  have h : (exec (step (onePair 2 SELF_IPI) (benchInit twoCpus (onePair 2 SELF_IPI))) State.load
      lateRun).map (fun s => decide (s.reports = [⟨(0, 0), 0, [1, 0, 7, 2, 0]⟩] ∧
        (s.args (0, 0)).field .start = 2 ∧ (s.args (0, 0)).field .runDelay = 5)) =
          some true := by
    decide +kernel
  obtain ⟨s, hrun, hs⟩ := exists_exec_of_map h
  exact ⟨s, hrun, of_decide_eq_true hs⟩

/-- The report on the late worker prints its figures with a `start` and a
`run_delay` of 0, which end as 2 and 5. -/
theorem report_of_late_worker :
    ∃ s r, exec (step (onePair 2 SELF_IPI) (benchInit twoCpus (onePair 2 SELF_IPI))) State.load
        lateRun = some s ∧ r ∈ s.reports ∧ r.worker = (0, 0) ∧
      (reportSingle (onePair 2 SELF_IPI) r.fields).map Line.avgCall = some 3 ∧
      readOf .single r.fields .start = 0 ∧ (s.args (0, 0)).field .start = 2 ∧
      readOf .single r.fields .runDelay = 0 ∧ (s.args (0, 0)).field .runDelay = 5 := by
  obtain ⟨s, hrun, hreports, hstart, hdelay⟩ := exec_lateRun
  exact ⟨s, ⟨(0, 0), 0, [1, 0, 7, 2, 0]⟩, hrun, by simp [hreports], rfl, by decide, by decide,
    hstart, by decide, hdelay⟩

/-- The report on the late worker has read `start` before its store. -/
theorem report_snapshot_iff_lateRun :
    ¬ ReadAfterStore (onePair 2 SELF_IPI) (benchInit twoCpus (onePair 2 SELF_IPI)) (0, 0) lateRun
      .start ∨
    ¬ ReadAfterStore (onePair 2 SELF_IPI) (benchInit twoCpus (onePair 2 SELF_IPI)) (0, 0) lateRun
      .runDelay := by
  obtain ⟨s, hrun, hreports, hstart, hdelay⟩ := exec_lateRun
  have hget : (benchInit twoCpus (onePair 2 SELF_IPI))[0]? = some (benchSelf 0) := rfl
  have hstores : AllSteps (step (onePair 2 SELF_IPI) [benchSelf 0]) NoStaleStore State.load
      lateRun := noStaleStore_of_single hrun
  have hiff := report_snapshot_iff (r := ⟨(0, 0), 0, [1, 0, 7, 2, 0]⟩) hrun
    (by simp [hreports]) hget (by decide) hstores
  by_contra hread
  rw [not_or, not_not, not_not] at hread
  have hsame := hiff.2.mpr (fun f hf => by
    rcases hf with rfl | rfl
    · exact Or.inl hread.1
    · exact Or.inl hread.2) .start (by decide) (Or.inl rfl)
  rw [hstart] at hsame
  exact absurd hsame (by decide)

end KvmUtils.IpiBench
