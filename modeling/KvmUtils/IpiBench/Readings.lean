import KvmUtils.IpiBench.Counters
import KvmUtils.IpiBench.Printing

/-!
# What the reports read

The main thread reads the fields of a `bench_args` one by one, and the worker
may still be running.  `readingsOf` is what it reads of the `bench_args` of one
worker in a run, with the fields that the worker had stored by then.

Two invariants tell what the readings are good for.

* `Reads`: the readings are the fields of the report on the worker, in order.
* `Faithful`: a field that had been stored is read with its final value, and
  as 0 otherwise.  `ipitime` is read with its final value once `finish` has
  been stored, whether or not it is ever stored.
-/

namespace KvmUtils.IpiBench

open Function Machine

/-- One field that the main thread has read.  `stored` holds the fields that
the worker had stored by then. -/
structure Reading where
  field : Field
  value : UInt64
  stored : List Field
  deriving DecidableEq, Repr

/-- What a step reads of the `bench_args` of worker `w`. -/
def readOutput (jobs : List Job) (w : Worker) (s : State) : Event → List Reading
  | .main =>
    match s.main, jobs[s.job]? with
    | .report _ i fields, some job =>
      if (s.job, i) = w ∧ (i : Int) < job.shouldRun then
        match (reportFields job.task)[fields.length]? with
        | some f => [⟨f, (s.args w).field f, s.stored w⟩]
        | none => []
      else []
    | _, _ => []
  | _ => []

/-- The readings of worker `w` in a run. -/
def readingsOf (p : Params) (jobs : List Job) (w : Worker) (s : State) (es : List Event) :
    List Reading :=
  outputs (step p jobs) (readOutput jobs w) s es

/-- How far the main thread is with its report on a worker. -/
inductive Progress where
  | before
  | reading (fields : List UInt64)
  | past

/-- How far the main thread, while it is at `pc` in its benchmark, is with the
report on the worker with index `k`. -/
def MainPc.progress (k : Nat) : MainPc → Progress
  | .report _ i fields => if i < k then .before else if i = k then .reading fields else .past
  | .free | .returned => .past
  | _ => .before

def State.progress (s : State) (w : Worker) : Progress :=
  if s.job < w.1 then .before
  else if s.job = w.1 then s.main.progress w.2
  else .past

/-- The readings `o` of worker `w` are the fields of the report on it. -/
def Reads (task : Task) (s : State) (w : Worker) (o : List Reading) : Prop :=
  match s.progress w with
  | .before => o = [] ∧ ∀ r ∈ s.reports, r.worker ≠ w
  | .reading fields =>
    o.map Reading.field = (reportFields task).take fields.length ∧
      o.map Reading.value = fields ∧ ∀ r ∈ s.reports, r.worker ≠ w
  | .past => ∀ r ∈ s.reports, r.worker = w →
      o.map Reading.field = reportFields task ∧ o.map Reading.value = r.fields

/-- The readings `o` of worker `w` tell the final values of what had been
stored. -/
structure Faithful (s : State) (w : Worker) (o : List Reading) : Prop where
  zero : ∀ f, f ≠ .ipitime → f ∉ s.stored w → (s.args w).field f = 0
  grows : ∀ r ∈ o, r.stored ⊆ s.stored w
  fresh : ∀ r ∈ o, r.field ≠ .ipitime → r.field ∈ r.stored → r.value = (s.args w).field r.field
  stale : ∀ r ∈ o, r.field ≠ .ipitime → r.field ∉ r.stored → r.value = 0
  ipitime : ∀ r ∈ o, r.field = .ipitime → .finish ∈ r.stored →
    r.value = (s.args w).field .ipitime
  ordered : o.Pairwise fun a b => a.stored ⊆ b.stored

section Invariants

variable {p : Params} {jobs : List Job} {s s' : State} {w : Worker} {o : List Reading}

/-! ## Steps of a worker -/

/-- A step of a worker stores nothing, or it stores a field for the first
time.  `ipitime` it stores before `finish`. -/
theorem WorkerMove.effect {v : Worker} (h : WorkerMove s v s') (hcounted : Counted jobs s) :
    (s'.args = s.args ∧ s'.stored = s.stored) ∨
      ∃ f x, s'.args = update s.args v { s.args v with field := update (s.args v).field f x } ∧
        s'.stored = update s.stored v (f :: s.stored v) ∧
        (f ≠ .ipitime → f ∉ s.stored v) ∧ (f = .ipitime → .finish ∉ s.stored v) := by
  have hnot : ∀ f, f ≠ .ipitime → ¬ (s.pc v).PastStore f → f ∉ s.stored v :=
    fun f hf hpast hmem => hpast ((hcounted.stored v f hf).mp hmem)
  cases h with
  | storeForked hpc =>
    exact Or.inr ⟨_, _, rfl, rfl, fun hf => hnot _ hf (by rw [hpc]; exact id), by simp⟩
  | storeStart hpc =>
    exact Or.inr ⟨_, _, rfl, rfl, fun hf => hnot _ hf (by rw [hpc]; exact id), by simp⟩
  | storeFinish hpc =>
    exact Or.inr ⟨_, _, rfl, rfl, fun hf => hnot _ hf (by rw [hpc]; exact id), by simp⟩
  | runDelay hpc =>
    exact Or.inr ⟨_, _, rfl, rfl, fun hf => hnot _ hf (by rw [hpc]; exact id), by simp⟩
  | storeIpitime hpc =>
    exact Or.inr ⟨_, _, rfl, rfl, fun hf => absurd rfl hf,
      fun _ => hnot .finish (by simp) (by rw [hpc]; exact id)⟩
  | sampleForked | addReady | spinReady | spin | leave | checkReady | bug | pass | sampleStart
  | body | sampleFinish | addComplete | wake => exact Or.inl ⟨rfl, rfl⟩

theorem WorkerMove.reports_eq {v : Worker} (h : WorkerMove s v s') : s'.reports = s.reports := by
  cases h <;> rfl

theorem WorkerMove.progress_eq {v : Worker} (h : WorkerMove s v s') (w : Worker) :
    s'.progress w = s.progress w := by
  rw [State.progress, State.progress, h.frame.job, h.frame.main]

/-- A step that leaves worker `w` and its `bench_args` alone. -/
theorem Faithful.of_frame (h : Faithful s w o) (hargs : s'.args w = s.args w)
    (hstored : s'.stored w = s.stored w) : Faithful s' w o := by
  obtain ⟨hzero, hgrows, hfresh, hstale, hipitime, hordered⟩ := h
  refine ⟨?_, ?_, ?_, hstale, ?_, hordered⟩
  · rw [hargs, hstored]
    exact hzero
  · rw [hstored]
    exact hgrows
  · rw [hargs]
    exact hfresh
  · rw [hargs]
    exact hipitime

/-- The worker stores a field that has not been read with its final value. -/
theorem Faithful.store {f : Field} {x : UInt64} (h : Faithful s w o)
    (hargs : (s'.args w).field = update (s.args w).field f x)
    (hstored : s'.stored w = f :: s.stored w) (hnew : f ≠ .ipitime → f ∉ s.stored w)
    (hbefore : f = .ipitime → .finish ∉ s.stored w) : Faithful s' w o := by
  refine ⟨?_, ?_, ?_, h.stale, ?_, h.ordered⟩
  · intro g hg hmem
    rw [hstored, List.mem_cons, not_or] at hmem
    rw [hargs, update_of_ne hmem.1]
    exact h.zero g hg hmem.2
  · intro r hr
    rw [hstored]
    exact List.subset_cons_of_subset _ (h.grows r hr)
  · intro r hr hfield hmem
    have hne : r.field ≠ f := by
      intro heq
      exact hnew (heq ▸ hfield) (heq ▸ h.grows r hr hmem)
    rw [hargs, update_of_ne hne]
    exact h.fresh r hr hfield hmem
  · intro r hr hfield hmem
    have hne : Field.ipitime ≠ f := by
      intro heq
      exact hbefore heq.symm (h.grows r hr hmem)
    rw [hargs, update_of_ne hne]
    exact h.ipitime r hr hfield hmem

theorem Faithful.worker {v : Worker} (h : Faithful s w o) (hcounted : Counted jobs s)
    (hmove : WorkerMove s v s') : Faithful s' w o := by
  obtain ⟨hargs, hstored⟩ | ⟨f, x, hargs, hstored, hnew, hbefore⟩ := hmove.effect hcounted
  · exact h.of_frame (congrFun hargs w) (congrFun hstored w)
  · by_cases hvw : w = v
    · subst hvw
      refine h.store (f := f) (x := x) ?_ ?_ hnew hbefore
      · rw [hargs, update_self]
      · rw [hstored, update_self]
    · refine h.of_frame ?_ ?_
      · rw [hargs, update_of_ne hvw]
      · rw [hstored, update_of_ne hvw]

theorem Reads.worker {task : Task} {v : Worker} (h : Reads task s w o)
    (hmove : WorkerMove s v s') : Reads task s' w o := by
  unfold Reads at h ⊢
  rw [hmove.progress_eq, hmove.reports_eq]
  exact h

/-! ## Steps of the main thread -/

/-- The main thread is not in its reports. -/
def MainPc.NoReport : MainPc → Prop
  | .report _ _ _ => False
  | _ => True

/-- What a step that reads nothing of worker `w` may do with the progress on
it. -/
def Progress.Passes (a b : Progress) : Prop := b = a ∨ a = .before ∧ b = .reading [] ∨ b = .past

/-- A step that neither reads of worker `w` nor ends its report. -/
theorem Reads.of_passes {task : Task} (h : Reads task s w o)
    (hreports : ∀ r, r.worker = w → (r ∈ s'.reports ↔ r ∈ s.reports))
    (hstep : (s.progress w).Passes (s'.progress w)) : Reads task s' w o := by
  unfold Reads at h ⊢
  have hnone : (∀ r ∈ s.reports, r.worker ≠ w) → ∀ r ∈ s'.reports, r.worker ≠ w :=
    fun hnone r hr hw => hnone r ((hreports r hw).mp hr) hw
  rcases hstep with hsame | ⟨hbefore, hread⟩ | hpast
  · rw [hsame]
    cases hprogress : s.progress w with
    | before =>
      rw [hprogress] at h
      exact ⟨h.1, hnone h.2⟩
    | reading fields =>
      rw [hprogress] at h
      exact ⟨h.1, h.2.1, hnone h.2.2⟩
    | past =>
      rw [hprogress] at h
      exact fun r hr hw => h r ((hreports r hw).mp hr) hw
  · rw [hbefore] at h
    rw [hread]
    obtain ⟨rfl, hempty⟩ := h
    exact ⟨rfl, rfl, hnone hempty⟩
  · rw [hpast]
    intro r hr hw
    have hr' := (hreports r hw).mp hr
    cases hprogress : s.progress w with
    | before =>
      rw [hprogress] at h
      exact absurd hw (h.2 r hr')
    | reading fields =>
      rw [hprogress] at h
      exact absurd hw (h.2.2 r hr')
    | past =>
      rw [hprogress] at h
      exact h r hr' hw

/-- Between two benchmarks, and before its reports, the main thread goes on. -/
theorem MainMove.progress {e : Event} (h : MainMove jobs s e s') (hnot : s.main.NoReport)
    (w : Worker) : (s.progress w).Passes (s'.progress w) := by
  unfold Progress.Passes
  cases h with
  | report hmain | endReport hmain =>
    rw [hmain] at hnot
    exact hnot.elim
  | noMemory hmain | free hmain =>
    simp only [State.progress, hmain, MainPc.progress]
    split_ifs <;> first | omega | simp
  | stop hmain | begin hmain | alloc hmain | setShould hmain | build hmain | buildFail hmain
  | launchFail hmain | sampleStart hmain =>
    simp only [State.progress, hmain, MainPc.progress]
    split_ifs <;> simp
  | launch hmain =>
    rw [State.progress, State.progress, hmain]
    exact Or.inl rfl
  | endLaunch hmain _ _ hp | waitReturn hmain _ hp =>
    rcases hp with rfl | rfl
    all_goals
      simp only [State.progress, hmain, MainPc.progress]
      split_ifs <;> simp
  | sampleEnd hmain =>
    simp only [State.progress, hmain, MainPc.progress]
    split_ifs <;> simp

theorem MainMove.reports_eq {e : Event} (h : MainMove jobs s e s') (hnot : s.main.NoReport) :
    s'.reports = s.reports := by
  cases h with
  | report hmain =>
    rw [hmain] at hnot
    exact hnot.elim
  | stop | begin | alloc | noMemory | setShould | build | buildFail | launch | launchFail
  | endLaunch | sampleStart | waitReturn | sampleEnd | endReport | free => rfl

/-- The step that chooses the CPUs resets the `bench_args` of workers on which
nothing has been read. -/
theorem Faithful.main {task : Task} {e : Event} (h : Faithful s w o) (hreads : Reads task s w o)
    (hmove : MainMove jobs s e s') : Faithful s' w o := by
  cases hmove with
  | build hmain =>
    by_cases hw : w.1 = s.job
    · have hempty : o = [] := by
        unfold Reads at hreads
        rw [State.progress, if_neg (by omega), if_pos hw.symm, hmain] at hreads
        exact hreads.1
      subst hempty
      refine ⟨?_, nofun, nofun, nofun, nofun, .nil⟩
      intro f hf hmem
      show (if w.1 = s.job then _ else s.args w).field f = 0
      rw [if_pos hw]
      rfl
    · exact h.of_frame (if_neg hw) rfl
  | stop | begin | alloc | noMemory | setShould | buildFail | launch | launchFail | endLaunch
  | sampleStart | waitReturn | sampleEnd | report | endReport | free => exact h.of_frame rfl rfl

/-- A field is read. -/
theorem Faithful.read {f : Field} (h : Faithful s w o) :
    Faithful s w (o ++ [⟨f, (s.args w).field f, s.stored w⟩]) := by
  refine ⟨h.zero, ?_, ?_, ?_, ?_, ?_⟩
  all_goals try
    intro r hr
    rcases List.mem_append.mp hr with hr | hr
  · exact h.grows r hr
  · obtain rfl := List.mem_singleton.mp hr
    exact List.Subset.refl _
  · exact h.fresh r hr
  · obtain rfl := List.mem_singleton.mp hr
    exact fun _ _ => rfl
  · exact h.stale r hr
  · obtain rfl := List.mem_singleton.mp hr
    exact h.zero f
  · exact h.ipitime r hr
  · obtain rfl := List.mem_singleton.mp hr
    rintro rfl -
    rfl
  · rw [List.pairwise_append]
    refine ⟨h.ordered, List.pairwise_singleton _ _, fun a ha b hb => ?_⟩
    obtain rfl := List.mem_singleton.mp hb
    exact h.grows a ha

/-- In its reports the main thread takes its steps alone. -/
theorem MainMove.eq_main {e : Event} {elapsed : UInt64} {i : Nat} {fields : List UInt64}
    (h : MainMove jobs s e s') (hmain : s.main = .report elapsed i fields) : e = .main := by
  cases h with
  | report | endReport => rfl
  | stop hother | begin hother | alloc hother | noMemory hother | setShould hother | build hother
  | buildFail hother | launch hother | launchFail hother | endLaunch hother | sampleStart hother
  | waitReturn hother | sampleEnd hother | free hother =>
    exact absurd (hmain.symm.trans hother) (by simp)

/-- A step in the reports that is not about worker `w`. -/
theorem Reads.reportOther {task : Task} {elapsed : UInt64} {i : Nat} {fields : List UInt64}
    (h : Reads task s w o) (hmain : s.main = .report elapsed i fields)
    (hmove : ReportMove jobs s elapsed i fields s') (hown : (s.job, i) ≠ w) :
    Reads task s' w o := by
  have hi : s.job = w.1 → i ≠ w.2 := fun hjob hi => hown (Prod.ext hjob hi)
  cases hmove with
  | read =>
    refine h.of_passes (fun _ _ => Iff.rfl) (Or.inl ?_)
    simp only [State.progress, hmain, MainPc.progress]
    split_ifs <;> first | rfl | exact absurd ‹i = w.2› (hi ‹s.job = w.1›)
  | line =>
    refine h.of_passes ?_ ?_
    · intro r hr
      rw [List.mem_append, List.mem_singleton, or_iff_left]
      rintro rfl
      exact hown hr
    · unfold Progress.Passes
      simp only [State.progress, hmain, MainPc.progress]
      split_ifs <;> first | omega | simp
  | last =>
    refine h.of_passes (fun _ _ => Iff.rfl) ?_
    unfold Progress.Passes
    simp only [State.progress, hmain, MainPc.progress]
    split_ifs <;> simp

/-- A step in the reports adds what it reads. -/
theorem Reads.report {job : Job} {elapsed : UInt64} {i : Nat} {fields : List UInt64}
    (h : Reads job.task s w o) (hget : jobs[w.1]? = some job)
    (hmain : s.main = .report elapsed i fields) (hmove : ReportMove jobs s elapsed i fields s') :
    Reads job.task s' w (o ++ readOutput jobs w s .main) := by
  by_cases hown : (s.job, i) = w
  · subst hown
    have hprogress : s.progress (s.job, i) = .reading fields := by
      simp [State.progress, hmain, MainPc.progress]
    have hreads := h
    unfold Reads at hreads
    rw [hprogress] at hreads
    obtain ⟨hfields, hvalues, hnone⟩ := hreads
    cases hmove with
    | @read job' f hjob hi hf =>
      obtain rfl : job = job' := Option.some.inj (hget.symm.trans hjob)
      have hout : readOutput jobs (s.job, i) s .main =
          [⟨f, (s.args (s.job, i)).field f, s.stored (s.job, i)⟩] := by
        simp only [readOutput, hmain, hjob, hi, hf, and_self, if_true]
      rw [hout]
      simp only [Reads, State.progress, MainPc.progress, lt_irrefl, if_false, if_true]
      refine ⟨?_, ?_, hnone⟩
      · rw [List.map_append, hfields, List.length_append, List.length_singleton,
          List.take_add_one, hf]
        rfl
      · rw [List.map_append, hvalues]
        rfl
    | @line job' hjob hi hfull =>
      obtain rfl : job = job' := Option.some.inj (hget.symm.trans hjob)
      have hout : readOutput jobs (s.job, i) s .main = [] := by
        simp only [readOutput, hmain, hjob, hi, List.getElem?_eq_none hfull, and_self, if_true]
      rw [hout, List.append_nil]
      simp only [Reads, State.progress, MainPc.progress, lt_irrefl, if_false, if_true,
        Nat.succ_ne_self, Nat.not_succ_lt_self]
      intro r hr hw
      rcases List.mem_append.mp hr with hr | hr
      · exact absurd hw (hnone r hr)
      · obtain rfl := List.mem_singleton.mp hr
        exact ⟨hfields.trans (List.take_of_length_le hfull), hvalues⟩
    | @last job' hjob hi =>
      have hout : readOutput jobs (s.job, i) s .main = [] := by
        simp only [readOutput, hmain, hjob, true_and, if_neg (not_lt.mpr hi)]
      rw [hout, List.append_nil]
      refine h.of_passes (fun _ _ => Iff.rfl) (Or.inr (Or.inr ?_))
      simp [State.progress, MainPc.progress]
  · have hout : readOutput jobs w s .main = [] := by
      simp only [readOutput, hmain]
      split
      · rename_i heq _
        cases heq
        rw [if_neg (fun h => hown h.1)]
      · rfl
    rw [hout, List.append_nil]
    exact h.reportOther hmain hmove hown

/-- A step in the reports reads what is there. -/
theorem Faithful.report {elapsed : UInt64} {i : Nat} {fields : List UInt64}
    (h : Faithful s w o) (hmain : s.main = .report elapsed i fields)
    (hmove : ReportMove jobs s elapsed i fields s') :
    Faithful s' w (o ++ readOutput jobs w s .main) := by
  have hframe : s'.args = s.args ∧ s'.stored = s.stored := by
    cases hmove <;> exact ⟨rfl, rfl⟩
  have hout : Faithful s w (o ++ readOutput jobs w s .main) := by
    simp only [readOutput, hmain]
    split
    · split_ifs
      · split
        · exact h.read
        · rwa [List.append_nil]
      · rwa [List.append_nil]
    · rwa [List.append_nil]
  exact hout.of_frame (congrFun hframe.1 w) (congrFun hframe.2 w)

/-! ## Runs -/

theorem readOutput_of_actor {e : Event} (h : e.actor ≠ none) : readOutput jobs w s e = [] := by
  cases e with
  | main | alloc | build | launch | mainSample | waitReturn => exact absurd rfl h
  | worker | sample | call | runDelay => rfl

theorem readOutput_of_noReport {e : Event} (h : s.main.NoReport) :
    readOutput jobs w s e = [] := by
  cases e with
  | main =>
    simp only [readOutput]
    split
    · rename_i hmain _
      rw [hmain] at h
      exact h.elim
    · rfl
  | alloc | build | launch | mainSample | waitReturn | worker | sample | call | runDelay => rfl

/-- The invariants of the readings of worker `w`. -/
structure Recorded (jobs : List Job) (task : Task) (s : State) (w : Worker) (o : List Reading) :
    Prop where
  counted : Counted jobs s
  reads : Reads task s w o
  faithful : Faithful s w o

theorem Recorded.step {job : Job} {e : Event} (h : Recorded jobs job.task s w o)
    (hget : jobs[w.1]? = some job) (hst : IpiBench.step p jobs s e = some s') :
    Recorded jobs job.task s' w (o ++ readOutput jobs w s e) := by
  have hcounted : Counted jobs s' := counted_of_exec h.counted (exec_one hst)
  cases he : e.actor with
  | some v =>
    have hmove := workerMove_of_step he hst
    rw [readOutput_of_actor (by simp [he]), List.append_nil]
    exact ⟨hcounted, h.reads.worker hmove, h.faithful.worker h.counted hmove⟩
  | none =>
    have hmove := mainMove_of_step he hst
    cases hmain : s.main with
    | report elapsed i fields =>
      obtain rfl := hmove.eq_main hmain
      have hreport := reportMove_of_mainStep hmain hst
      exact ⟨hcounted, h.reads.report hget hmain hreport, h.faithful.report hmain hreport⟩
    | next | alloc | setShould | build | launch | sampleStart | wait | sampleEnd | free
    | returned =>
      have hnot : s.main.NoReport := by
        rw [hmain]
        trivial
      rw [readOutput_of_noReport hnot, List.append_nil]
      refine ⟨hcounted, h.reads.of_passes ?_ (hmove.progress hnot w), h.faithful.main h.reads hmove⟩
      rw [hmove.reports_eq hnot]
      exact fun _ _ => Iff.rfl

theorem recorded_load (task : Task) : Recorded jobs task State.load w [] := by
  refine ⟨counted_load jobs, ?_, ⟨fun _ _ _ => rfl, nofun, nofun, nofun, nofun, .nil⟩⟩
  have hprogress : State.load.progress w = .before := by
    show (if 0 < w.1 then Progress.before else if 0 = w.1 then .before else .past) = .before
    split_ifs <;> first | rfl | omega
  unfold Reads
  rw [hprogress]
  exact ⟨rfl, nofun⟩

theorem recorded_of_exec {job : Job} {es : List Event} (hget : jobs[w.1]? = some job)
    (hrun : exec (IpiBench.step p jobs) State.load es = some s) :
    Recorded jobs job.task s w (readingsOf p jobs w State.load es) :=
  exec_invariant_outputs (f := readOutput jobs w) (P := fun _ _ => True)
    (I := fun s o => Recorded jobs job.task s w o)
    (fun _ _ _ _ hI _ hst => hI.step hget hst) (o := []) (recorded_load job.task)
    (allSteps_of_forall (fun _ _ => trivial) _ _) hrun

end Invariants

/-! ## Readings of a whole report -/

theorem nodup_reportFields (task : Task) : (reportFields task).Nodup := by
  cases task <;> decide

/-- The readings of a report tell what it has read of each field. -/
theorem readOf_eq {task : Task} {o : List Reading}
    (hfields : o.map Reading.field = reportFields task) {rd : Reading} (hrd : rd ∈ o) :
    readOf task (o.map Reading.value) rd.field = rd.value := by
  obtain ⟨k, hk, rfl⟩ := List.mem_iff_getElem.mp hrd
  have hk' : k < (reportFields task).length := by
    rwa [← hfields, List.length_map]
  have hfield : (reportFields task)[k] = o[k].field := by
    simp only [← hfields, List.getElem_map]
  rw [readOf, ← hfield, (nodup_reportFields task).idxOf_getElem k hk',
    List.getD_eq_getElem?_getD, List.getElem?_map, List.getElem?_eq_getElem hk]
  rfl

/-- The report has read the field. -/
theorem exists_reading {task : Task} {o : List Reading}
    (hfields : o.map Reading.field = reportFields task) {f : Field} (hf : f ∈ reportFields task) :
    ∃ rd ∈ o, rd.field = f := by
  rw [← hfields] at hf
  exact List.mem_map.mp hf

section Whole

variable {jobs : List Job} {task : Task} {s : State} {w : Worker} {o : List Reading}

/-- A report that has not read 0 as `finish` has read it when it had been
stored. -/
theorem Faithful.finish_stored (h : Faithful s w o)
    (hfields : o.map Reading.field = reportFields task)
    (hfinish : readOf task (o.map Reading.value) .finish ≠ 0) {rd : Reading} (hrd : rd ∈ o)
    (hfield : rd.field = .finish) : .finish ∈ rd.stored := by
  by_contra hnot
  rw [← hfield, readOf_eq hfields hrd] at hfinish
  exact hfinish (h.stale rd hrd (by simp [hfield]) (by rwa [hfield]))

/-- A field other than `ipitime` is read with its final value or as 0. -/
theorem Faithful.readOf_cases (h : Faithful s w o)
    (hfields : o.map Reading.field = reportFields task) {f : Field} (hf : f ∈ reportFields task)
    (hne : f ≠ .ipitime) :
    readOf task (o.map Reading.value) f = (s.args w).field f ∨
      readOf task (o.map Reading.value) f = 0 := by
  obtain ⟨rd, hrd, rfl⟩ := exists_reading hfields hf
  rw [readOf_eq hfields hrd]
  by_cases hstored : rd.field ∈ rd.stored
  · exact Or.inl (h.fresh rd hrd hne hstored)
  · exact Or.inr (h.stale rd hrd hne hstored)

/-- The readings of a report that the main thread has appended. -/
theorem Recorded.of_mem_reports (h : Recorded jobs task s w o) {r : Report} (hr : r ∈ s.reports)
    (hw : r.worker = w) :
    o.map Reading.field = reportFields task ∧ o.map Reading.value = r.fields := by
  have hreads := h.reads
  unfold Reads at hreads
  cases hprogress : s.progress w with
  | before =>
    rw [hprogress] at hreads
    exact absurd hw (hreads.2 r hr)
  | reading fields =>
    rw [hprogress] at hreads
    exact absurd hw (hreads.2.2 r hr)
  | past =>
    rw [hprogress] at hreads
    exact hreads r hr hw

/-- The readings of a report that the main thread is about to end. -/
theorem Recorded.of_atReport {job : Job} {fields : List UInt64}
    (h : Recorded jobs job.task s w o) (hat : s.AtReport jobs w job fields) :
    o.map Reading.field = reportFields job.task ∧ o.map Reading.value = fields := by
  obtain ⟨⟨elapsed, hmain⟩, hown, hget, hentry, hfull⟩ := hat
  have hreads := h.reads
  have hprogress : s.progress w = .reading fields := by
    simp [State.progress, hmain, MainPc.progress, hown]
  unfold Reads at hreads
  rw [hprogress] at hreads
  exact ⟨hreads.1.trans (List.take_of_length_le hfull.ge), hreads.2.1⟩

/-- The worker of a report that prints its figures has stored `finish`. -/
theorem Recorded.finish_of_atReport {job : Job} {fields : List UInt64}
    (h : Recorded jobs job.task s w o) (hat : s.AtReport jobs w job fields)
    (hfinish : readOf job.task fields .finish ≠ 0) : (s.pc w).PastStore .finish := by
  obtain ⟨hfields, rfl⟩ := h.of_atReport hat
  obtain ⟨rd, hrd, hfield⟩ := exists_reading (f := .finish) hfields (by cases job.task <;> decide)
  have hstored := h.faithful.finish_stored hfields hfinish hrd hfield
  exact (h.counted.stored w .finish (by simp)).mp (h.faithful.grows rd hrd hstored)

end Whole

end KvmUtils.IpiBench
