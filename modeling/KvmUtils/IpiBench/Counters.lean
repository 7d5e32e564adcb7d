import Mathlib.Data.Finset.Prod
import KvmUtils.Lib.Census
import KvmUtils.IpiBench.Bench

/-!
# What the counters count

`ready_to_run` is the number of workers that have added one to it, and
`complete_run` likewise, over all benchmarks of the load (`Counted`).  The
invariant also says where the created workers come from: worker `(j, i)` is
one of the `should_run` workers of benchmark `j`, and benchmark `j` is not
later than the current one.
-/

namespace KvmUtils.IpiBench

open Function Machine

/-- The worker has added one to `ready_to_run`. -/
def Pc.HasReadied : Pc → Prop
  | .absent | .sampleForked | .storeForked _ | .addReady => False
  | _ => True

instance : DecidablePred Pc.HasReadied := fun p => by
  cases p <;> unfold Pc.HasReadied <;> infer_instance

/-- The worker has added one to `complete_run`. -/
def Pc.HasCompleted : Pc → Prop
  | .wake | .done => True
  | _ => False

instance : DecidablePred Pc.HasCompleted := fun p => by
  cases p <;> unfold Pc.HasCompleted <;> infer_instance

/-- The worker is past its store of the field.  `ipitime` is left out, since
a failed call skips its store. -/
def Pc.PastStore : Field → Pc → Prop
  | .forked, .absent | .forked, .sampleForked | .forked, .storeForked _ => False
  | .forked, _ => True
  | .start, .enter | .start, .one _ _ _ | .start, .call _ _ _ _ | .start, .storeIpitime _
  | .start, .many _ | .start, .sampleFinish | .start, .storeFinish _ | .start, .storeRunDelay
  | .start, .addComplete | .start, .wake | .start, .done => True
  | .start, _ => False
  | .finish, .storeRunDelay | .finish, .addComplete | .finish, .wake | .finish, .done => True
  | .finish, _ => False
  | .runDelay, .addComplete | .runDelay, .wake | .runDelay, .done => True
  | .runDelay, _ => False
  | .ipitime, _ => False

/-- The main thread is past the creation of worker `i` of its benchmark, or
past the loop that creates the workers. -/
def MainPc.Passed (i : Nat) : MainPc → Prop
  | .launch k => i < k
  | .sampleStart | .wait _ | .sampleEnd _ | .report _ _ _ | .free => True
  | _ => False

/-- The main thread is between its store of `should_run` and its `kfree`, on
the path on which the CPUs are found. -/
def MainPc.Built : MainPc → Prop
  | .launch _ | .sampleStart | .wait _ | .sampleEnd _ | .report _ _ _ => True
  | _ => False

/-- The choice of the CPUs can succeed. -/
def Job.Feasible (job : Job) : Prop := ∃ random cpus, job.cpus random = some cpus

/-- What the counters and the set of created workers say. -/
structure Counted (jobs : List Job) (s : State) : Prop where
  ready_eq : s.ready = census s.launched Pc.HasReadied s.pc
  complete_eq : s.complete = census s.launched Pc.HasCompleted s.pc
  mem_launched : ∀ w, w ∈ s.launched ↔ s.pc w ≠ .absent
  job_le : ∀ w ∈ s.launched, w.1 ≤ s.job
  passed : ∀ w ∈ s.launched, w.1 = s.job → s.main.Passed w.2
  origin : ∀ w ∈ s.launched,
    ∃ job, jobs[w.1]? = some job ∧ (w.2 : Int) < job.shouldRun ∧ job.Feasible
  built : s.main.Built →
    ∃ job, jobs[s.job]? = some job ∧ s.should = job.shouldRun ∧ job.Feasible
  setting : s.main = .build → ∀ job, jobs[s.job]? = some job → s.should = job.shouldRun
  stored : ∀ w f, f ≠ .ipitime → (f ∈ s.stored w ↔ (s.pc w).PastStore f)

/-! ## Steps of a worker -/

/-- What a step of worker `w` leaves alone. -/
structure WorkerFrame (s : State) (w : Worker) (s' : State) : Prop where
  job : s'.job = s.job
  main : s'.main = s.main
  should : s'.should = s.should
  live : s'.live = s.live
  launched : s'.launched = s.launched
  present : s.pc w ≠ .absent
  pc : ∃ p, s'.pc = update s.pc w p ∧ p ≠ .absent

theorem WorkerMove.frame {s s' : State} {w : Worker} (h : WorkerMove s w s') :
    WorkerFrame s w s' := by
  cases h with
  | body hpc hp _ =>
    refine ⟨rfl, rfl, rfl, rfl, rfl, ?_, _, rfl, ?_⟩
    · intro habs
      rw [habs] at hpc
      exact hpc
    · rintro rfl
      exact hp
  | sampleForked hpc _ | storeForked hpc | addReady hpc | spinReady hpc | spin hpc _ | leave hpc _
  | checkReady hpc | bug hpc _ | pass hpc _ | sampleStart hpc _ | storeStart hpc
  | storeIpitime hpc | sampleFinish hpc _ | storeFinish hpc | runDelay hpc | addComplete hpc
  | wake hpc => exact ⟨rfl, rfl, rfl, rfl, rfl, by simp [hpc], _, rfl, by simp⟩

theorem Pc.InBody.hasReadied {p : Pc} (h : p.InBody) : p.HasReadied := by
  cases p <;> first | exact h.elim | trivial

theorem Pc.InBody.not_hasCompleted {p : Pc} (h : p.InBody) : ¬ p.HasCompleted := by
  cases p <;> first | exact h.elim | exact id

/-- In the timed section the stores of `forked` and `start` are past. -/
theorem Pc.InBody.pastStore_iff {p : Pc} (h : p.InBody) (f : Field) :
    Pc.PastStore f p ↔ f = .forked ∨ f = .start := by
  have hforked : Pc.PastStore .forked p := by
    cases p <;> first | exact h.elim | trivial
  have hstart : Pc.PastStore .start p := by
    cases p <;> first | exact h.elim | trivial
  cases f with
  | forked => exact iff_of_true hforked (Or.inl rfl)
  | start => exact iff_of_true hstart (Or.inr rfl)
  | ipitime | finish | runDelay =>
    cases p <;> first | exact h.elim | exact iff_of_false id (by simp)

/-- A worker that has added one to `complete_run` has stored everything. -/
theorem Pc.pastStore_of_hasCompleted {p : Pc} (h : p.HasCompleted) {f : Field}
    (hf : f ≠ .ipitime) : Pc.PastStore f p := by
  cases p <;> first | exact h.elim | (cases f <;> trivial)

/-- The worker adds one to `ready_to_run` exactly when it gets past it. -/
theorem WorkerMove.ready_eq {s s' : State} {w : Worker} (h : WorkerMove s w s')
    (hw : w ∈ s.launched) (hready : s.ready = census s.launched Pc.HasReadied s.pc) :
    s'.ready = census s'.launched Pc.HasReadied s'.pc := by
  cases h with
  | addReady hpc =>
    show s.ready + 1 = (census s.launched Pc.HasReadied (update s.pc w .spinReady) : Nat)
    rw [census.update_of_pass hw (by rw [hpc]; exact id) trivial, hready]
    rfl
  | body hpc hp _ =>
    exact hready.trans (congrArg Int.ofNat
      (census.update_of_iff (iff_of_true hp.hasReadied hpc.hasReadied)).symm)
  | sampleForked hpc _ | storeForked hpc | spinReady hpc | spin hpc _ | leave hpc _
  | checkReady hpc | bug hpc _ | pass hpc _ | sampleStart hpc _ | storeStart hpc
  | storeIpitime hpc | sampleFinish hpc _ | storeFinish hpc | runDelay hpc | addComplete hpc
  | wake hpc =>
    exact hready.trans (congrArg Int.ofNat
      (census.update_of_iff (by rw [hpc]; exact Iff.rfl)).symm)

/-- The worker adds one to `complete_run` exactly when it gets past it. -/
theorem WorkerMove.complete_eq {s s' : State} {w : Worker} (h : WorkerMove s w s')
    (hw : w ∈ s.launched) (hcomplete : s.complete = census s.launched Pc.HasCompleted s.pc) :
    s'.complete = census s'.launched Pc.HasCompleted s'.pc := by
  cases h with
  | addComplete hpc =>
    show s.complete + 1 = (census s.launched Pc.HasCompleted (update s.pc w .wake) : Nat)
    rw [census.update_of_pass hw (by rw [hpc]; exact id) trivial, hcomplete]
    rfl
  | body hpc hp _ =>
    exact hcomplete.trans (congrArg Int.ofNat
      (census.update_of_iff (iff_of_false hp.not_hasCompleted hpc.not_hasCompleted)).symm)
  | sampleForked hpc _ | storeForked hpc | addReady hpc | spinReady hpc | spin hpc _
  | leave hpc _ | checkReady hpc | bug hpc _ | pass hpc _ | sampleStart hpc _ | storeStart hpc
  | storeIpitime hpc | sampleFinish hpc _ | storeFinish hpc | runDelay hpc | wake hpc =>
    exact hcomplete.trans (congrArg Int.ofNat
      (census.update_of_iff (by rw [hpc]; exact Iff.rfl)).symm)

/-- The worker has stored the fields that it is past. -/
theorem WorkerMove.stored {s s' : State} {w : Worker} (h : WorkerMove s w s')
    (hstored : ∀ v f, f ≠ .ipitime → (f ∈ s.stored v ↔ (s.pc v).PastStore f)) (v : Worker)
    (f : Field) (hf : f ≠ .ipitime) : f ∈ s'.stored v ↔ (s'.pc v).PastStore f := by
  have hv := hstored v f hf
  by_cases hvw : v = w
  · subst hvw
    cases h with
    | body hpc hp _ =>
      show f ∈ s.stored v ↔ Pc.PastStore f (update s.pc v _ v)
      rw [update_self, hv, hpc.pastStore_iff, hp.pastStore_iff]
    | sampleForked hpc _ | addReady hpc | spinReady hpc | spin hpc _ | leave hpc _
    | checkReady hpc | bug hpc _ | pass hpc _ | sampleStart hpc _ | sampleFinish hpc _
    | addComplete hpc | wake hpc =>
      show f ∈ s.stored v ↔ Pc.PastStore f (update s.pc v _ v)
      rw [update_self, hv, hpc]
      cases f <;> exact Iff.rfl
    | storeForked hpc | storeStart hpc | storeIpitime hpc | storeFinish hpc | runDelay hpc =>
      show f ∈ update s.stored v (_ :: s.stored v) v ↔ Pc.PastStore f (update s.pc v _ v)
      rw [update_self, update_self, List.mem_cons, hv, hpc]
      cases f <;> first
        | exact absurd rfl hf
        | exact iff_of_true (Or.inl rfl) trivial
        | exact or_iff_right nofun
  · have hpc : s'.pc v = s.pc v := by
      obtain ⟨p, hp, -⟩ := h.frame.pc
      rw [hp, update_of_ne hvw]
    have hsame : s'.stored v = s.stored v := by
      cases h <;> simp [State.goto, State.store, hvw]
    rw [hpc, hsame, hv]

theorem Counted.worker {jobs : List Job} {s s' : State} {w : Worker} (h : Counted jobs s)
    (hmove : WorkerMove s w s') : Counted jobs s' := by
  have hf := hmove.frame
  have hw : w ∈ s.launched := (h.mem_launched w).mpr hf.present
  refine ⟨hmove.ready_eq hw h.ready_eq, hmove.complete_eq hw h.complete_eq, ?_, ?_, ?_, ?_, ?_,
    ?_, hmove.stored h.stored⟩
  · intro v
    obtain ⟨p, hp, hpresent⟩ := hf.pc
    rw [hf.launched, h.mem_launched v, hp]
    by_cases hvw : v = w
    · subst hvw
      rw [update_self]
      exact iff_of_true hf.present hpresent
    · rw [update_of_ne hvw]
  · rw [hf.launched, hf.job]
    exact h.job_le
  · rw [hf.launched, hf.job, hf.main]
    exact h.passed
  · rw [hf.launched]
    exact h.origin
  · rw [hf.main, hf.job, hf.should]
    exact h.built
  · rw [hf.main, hf.job, hf.should]
    exact h.setting

/-! ## Steps of the main thread -/

/-- A step of the main thread that stays in its benchmark, creates no worker
and stores in no counter. -/
theorem Counted.main_of_frame {jobs : List Job} {s s' : State} (h : Counted jobs s)
    (hready : s'.ready = s.ready) (hcomplete : s'.complete = s.complete)
    (hshould : s'.should = s.should) (hpc : s'.pc = s.pc) (hlaunched : s'.launched = s.launched)
    (hstored : s'.stored = s.stored) (hjob : s'.job = s.job)
    (hpassed : ∀ i, s.main.Passed i → s'.main.Passed i)
    (hbuilt : s'.main.Built →
      ∃ job, jobs[s.job]? = some job ∧ s.should = job.shouldRun ∧ job.Feasible)
    (hsetting : s'.main ≠ .build) : Counted jobs s' := by
  refine ⟨?_, ?_, ?_, ?_, ?_, ?_, ?_, fun hmain => absurd hmain hsetting, ?_⟩
  · rw [hready, hlaunched, hpc]
    exact h.ready_eq
  · rw [hcomplete, hlaunched, hpc]
    exact h.complete_eq
  · rw [hlaunched, hpc]
    exact h.mem_launched
  · rw [hlaunched, hjob]
    exact h.job_le
  · rw [hlaunched, hjob]
    exact fun w hw hcur => hpassed w.2 (h.passed w hw hcur)
  · rw [hlaunched]
    exact h.origin
  · rw [hjob, hshould]
    exact hbuilt
  · rw [hstored, hpc]
    exact h.stored

/-- The main thread leaves its benchmark. -/
theorem Counted.main_of_next {jobs : List Job} {s s' : State} (h : Counted jobs s)
    (hready : s'.ready = s.ready) (hcomplete : s'.complete = s.complete) (hpc : s'.pc = s.pc)
    (hlaunched : s'.launched = s.launched) (hstored : s'.stored = s.stored)
    (hjob : s'.job = s.job + 1) (hmain : s'.main = .next) : Counted jobs s' := by
  refine ⟨?_, ?_, ?_, ?_, ?_, ?_, ?_, ?_, ?_⟩
  · rw [hready, hlaunched, hpc]
    exact h.ready_eq
  · rw [hcomplete, hlaunched, hpc]
    exact h.complete_eq
  · rw [hlaunched, hpc]
    exact h.mem_launched
  · rw [hlaunched, hjob]
    exact fun w hw => le_trans (h.job_le w hw) (Nat.le_succ _)
  · rw [hlaunched, hjob]
    intro w hw hcur
    have hle := h.job_le w hw
    omega
  · rw [hlaunched]
    exact h.origin
  · rw [hmain]
    exact fun hfalse => hfalse.elim
  · rw [hmain]
    exact nofun
  · rw [hstored, hpc]
    exact h.stored

theorem Counted.launch {jobs : List Job} {s : State} {job : Job} {i : Nat}
    (h : Counted jobs s) (hmain : s.main = .launch i) (hjob : jobs[s.job]? = some job)
    (hi : (i : Int) < job.shouldRun) :
    Counted jobs ({ s with
      launched := insert (s.job, i) s.launched
      main := .launch (i + 1) }.goto (s.job, i) .sampleForked) := by
  have hnew : (s.job, i) ∉ s.launched := by
    intro hmem
    have hpassed := h.passed _ hmem rfl
    rw [hmain] at hpassed
    exact Nat.lt_irrefl i hpassed
  have hbuilt : ∃ job, jobs[s.job]? = some job ∧ s.should = job.shouldRun ∧ job.Feasible :=
    h.built (by rw [hmain]; trivial)
  refine ⟨?_, ?_, ?_, ?_, ?_, ?_, fun _ => hbuilt, nofun, ?_⟩
  · exact h.ready_eq.trans (congrArg Int.ofNat (census.insert_of_before hnew id).symm)
  · exact h.complete_eq.trans (congrArg Int.ofNat (census.insert_of_before hnew id).symm)
  · intro w
    show w ∈ insert (s.job, i) s.launched ↔ update s.pc (s.job, i) .sampleForked w ≠ .absent
    by_cases hw : w = (s.job, i)
    · subst hw
      simp
    · rw [Finset.mem_insert, update_of_ne hw, ← h.mem_launched w]
      simp [hw]
  · intro w hw
    rcases Finset.mem_insert.mp hw with rfl | hw
    · exact le_refl _
    · exact h.job_le w hw
  · intro w hw hcur
    show w.2 < i + 1
    rcases Finset.mem_insert.mp hw with rfl | hw
    · exact Nat.lt_succ_self i
    · have hpassed := h.passed w hw hcur
      rw [hmain] at hpassed
      exact Nat.lt_succ_of_lt hpassed
  · intro w hw
    rcases Finset.mem_insert.mp hw with rfl | hw
    · obtain ⟨job', hjob', -, hfeasible⟩ := hbuilt
      rw [hjob] at hjob'
      obtain rfl := Option.some.inj hjob'
      exact ⟨job, hjob, hi, hfeasible⟩
    · exact h.origin w hw
  · intro w f hf
    show f ∈ s.stored w ↔ Pc.PastStore f (update s.pc (s.job, i) .sampleForked w)
    rw [h.stored w f hf]
    by_cases hw : w = (s.job, i)
    · subst hw
      have habsent : s.pc (s.job, i) = .absent := by
        by_contra hne
        exact hnew ((h.mem_launched _).mpr hne)
      rw [update_self, habsent]
      cases f <;> exact Iff.rfl
    · rw [update_of_ne hw]

theorem Counted.main {jobs : List Job} {s s' : State} {e : Event} (h : Counted jobs s)
    (hmove : MainMove jobs s e s') : Counted jobs s' := by
  cases hmove with
  | stop hmain _ | begin hmain _ | alloc hmain _ _ =>
    exact h.main_of_frame rfl rfl rfl rfl rfl rfl rfl (by rw [hmain]; exact fun _ h => h.elim)
      (fun hb => hb.elim) (by simp)
  | noMemory hmain | free hmain => exact h.main_of_next rfl rfl rfl rfl rfl rfl rfl
  | setShould hmain hjob =>
    refine ⟨h.ready_eq, h.complete_eq, h.mem_launched, h.job_le, ?_, h.origin,
      fun hb => hb.elim, ?_, h.stored⟩
    · intro w hw hcur
      have hpassed := h.passed w hw hcur
      rw [hmain] at hpassed
      exact hpassed.elim
    · intro _ job hjob'
      rw [hjob] at hjob'
      exact congrArg Job.shouldRun (Option.some.inj hjob')
  | @build job random cpus hmain hjob hcpus =>
    exact h.main_of_frame rfl rfl rfl rfl rfl rfl rfl (by rw [hmain]; exact fun _ h => h.elim)
      (fun _ => ⟨job, hjob, h.setting hmain job hjob, random, cpus, hcpus⟩) (by simp)
  | buildFail hmain =>
    exact h.main_of_frame rfl rfl rfl rfl rfl rfl rfl (by rw [hmain]; exact fun _ h => h.elim)
      (fun hb => hb.elim) (by simp)
  | launch hmain hjob hi => exact h.launch hmain hjob hi
  | launchFail hmain _ _ =>
    exact h.main_of_frame rfl rfl rfl rfl rfl rfl rfl
      (fun i hi => by rw [hmain] at hi; exact Nat.lt_succ_of_lt hi)
      (fun _ => h.built (by rw [hmain]; trivial)) (by simp)
  | endLaunch hmain _ _ hp =>
    rcases hp with rfl | rfl <;>
      exact h.main_of_frame rfl rfl rfl rfl rfl rfl rfl (fun _ _ => trivial)
        (fun _ => h.built (by rw [hmain]; trivial)) (by simp)
  | waitReturn hmain _ hp =>
    rcases hp with rfl | rfl <;>
      exact h.main_of_frame rfl rfl rfl rfl rfl rfl rfl (fun _ _ => trivial)
        (fun _ => h.built (by rw [hmain]; trivial)) (by simp)
  | sampleStart hmain _ | sampleEnd hmain _ | report hmain =>
    exact h.main_of_frame rfl rfl rfl rfl rfl rfl rfl (fun _ _ => trivial)
      (fun _ => h.built (by rw [hmain]; trivial)) (by simp)
  | endReport hmain =>
    exact h.main_of_frame rfl rfl rfl rfl rfl rfl rfl (fun _ _ => trivial)
      (fun hb => hb.elim) (by simp)

/-! ## Runs -/

theorem counted_load (jobs : List Job) : Counted jobs State.load where
  ready_eq := rfl
  complete_eq := rfl
  mem_launched _ := by simp [State.load]
  job_le _ hw := by cases hw
  passed _ hw := by cases hw
  origin _ hw := by cases hw
  built hb := hb.elim
  setting hmain := by cases hmain
  stored _ f hf := by
    cases f <;> first | exact absurd rfl hf | exact iff_of_false List.not_mem_nil id

theorem counted_of_exec {p : Params} {jobs : List Job} {s s' : State} {es : List Event}
    (h : Counted jobs s) (hrun : exec (step p jobs) s es = some s') : Counted jobs s' := by
  refine exec_invariant' (fun s e s' hI hst => ?_) h hrun
  rcases move_of_step hst with ⟨w, hmove⟩ | hmove
  · exact hI.worker hmove
  · exact hI.main hmove

/-- The main thread has the array of its benchmark. -/
def MainPc.Allocated : MainPc → Prop
  | .next | .alloc | .free | .returned => False
  | _ => True

/-- An array has no negative length. -/
theorem shouldRun_nonneg {p : Params} {jobs : List Job} {s : State} {es : List Event}
    (hrun : exec (step p jobs) State.load es = some s) :
    s.main.Allocated → ∀ job, jobs[s.job]? = some job → 0 ≤ job.shouldRun := by
  refine exec_invariant' (I := fun s =>
    s.main.Allocated → ∀ job, jobs[s.job]? = some job → 0 ≤ job.shouldRun)
    (fun s e s' hI hst => ?_) (fun h => h.elim) hrun
  rcases move_of_step hst with ⟨w, hmove⟩ | hmove
  · rw [hmove.frame.main, hmove.frame.job]
    exact hI
  · cases hmove with
    | alloc _ hjob hlen =>
      intro _ job' hjob'
      obtain rfl := Option.some.inj (hjob.symm.trans hjob')
      exact hlen
    | stop | begin | noMemory | buildFail | endReport | free => exact fun h => h.elim
    | setShould hmain | build hmain | launch hmain | launchFail hmain | sampleStart hmain
    | sampleEnd hmain | report hmain | endLaunch hmain | waitReturn hmain =>
      rw [hmain] at hI
      exact fun _ => hI trivial

/-! ## What a step leaves of a worker -/

/-- A step of worker `v` leaves the other workers alone. -/
theorem WorkerMove.others {s s' : State} {v w : Worker} (h : WorkerMove s v s') (hne : w ≠ v) :
    s'.args w = s.args w ∧ s'.stored w = s.stored w ∧ s'.pc w = s.pc w := by
  cases h <;> simp [State.goto, State.store, hne]

/-- A step of the main thread leaves a worker alone, or the worker does not
exist yet. -/
theorem MainMove.worker {jobs : List Job} {s s' : State} {e : Event} (h : MainMove jobs s e s')
    (hcounted : Counted jobs s) (w : Worker) :
    (s'.args w = s.args w ∧ s'.pc w = s.pc w) ∨
      s.pc w = .absent ∧ (s'.pc w = .absent ∨ s'.pc w = .sampleForked) := by
  have habsent : w.1 = s.job → ¬ s.main.Passed w.2 → s.pc w = .absent := by
    intro hjob hnot
    by_contra hne
    exact hnot (hcounted.passed w ((hcounted.mem_launched w).mpr hne) hjob)
  cases h with
  | build hmain =>
    by_cases hw : w.1 = s.job
    · have hpc := habsent hw (by rw [hmain]; exact id)
      exact Or.inr ⟨hpc, Or.inl hpc⟩
    · exact Or.inl ⟨if_neg hw, rfl⟩
  | @launch job i hmain =>
    by_cases hw : w = (s.job, i)
    · subst hw
      exact Or.inr ⟨habsent rfl (by rw [hmain]; exact Nat.lt_irrefl i), Or.inr (update_self ..)⟩
    · exact Or.inl ⟨rfl, update_of_ne hw _ _⟩
  | stop | begin | alloc | noMemory | setShould | buildFail | launchFail | endLaunch
  | sampleStart | waitReturn | sampleEnd | report | endReport | free => exact Or.inl ⟨rfl, rfl⟩

theorem WorkerMove.clock_le {s s' : State} {w : Worker} (h : WorkerMove s w s') :
    s.clock ≤ s'.clock := by
  cases h with
  | sampleForked _ hclock | sampleStart _ hclock | sampleFinish _ hclock | body _ _ hclock =>
    exact hclock
  | storeForked | storeStart | storeIpitime | storeFinish | runDelay | addReady | spinReady | spin
  | leave | checkReady | bug | pass | addComplete | wake => exact UInt64.le_refl _

theorem MainMove.clock_le {jobs : List Job} {s s' : State} {e : Event}
    (h : MainMove jobs s e s') : s.clock ≤ s'.clock := by
  cases h with
  | sampleStart _ hclock | sampleEnd _ hclock => exact hclock
  | stop | begin | alloc | noMemory | setShould | build | buildFail | launch | launchFail
  | endLaunch | waitReturn | report | endReport | free => exact UInt64.le_refl _

theorem MainMove.stored_eq {jobs : List Job} {s s' : State} {e : Event}
    (h : MainMove jobs s e s') : s'.stored = s.stored := by
  cases h <;> rfl

/-! ## One benchmark with workers -/

/-- The workers of benchmark `j`, when it has `n`. -/
def workers (j n : Nat) : Finset Worker := {j} ×ˢ Finset.range n

theorem mem_workers {j n : Nat} {w : Worker} : w ∈ workers j n ↔ w.1 = j ∧ w.2 < n := by
  rw [workers, Finset.mem_product, Finset.mem_singleton, Finset.mem_range]

theorem card_workers (j n : Nat) : (workers j n).card = n := by
  simp [workers]

section Only

variable {jobs : List Job} {s : State} {j : Nat} {job : Job}

/-- If no other benchmark has created a worker, then the created workers are
among those of `j`. -/
theorem Counted.launched_subset (h : Counted jobs s) (hjob : jobs[j]? = some job)
    (honly : ∀ w ∈ s.launched, w.1 = j) : s.launched ⊆ workers j job.shouldRun.toNat := by
  intro w hw
  obtain ⟨job', hjob', hlt, -⟩ := h.origin w hw
  rw [honly w hw, hjob] at hjob'
  obtain rfl := Option.some.inj hjob'
  exact mem_workers.mpr ⟨honly w hw, by omega⟩

/-- With one benchmark, every worker is one of its workers. -/
theorem Counted.only_first (h : Counted [job] s) : ∀ w ∈ s.launched, w.1 = 0 := by
  intro w hw
  obtain ⟨job', hjob, -, -⟩ := h.origin w hw
  by_contra hne
  rw [List.getElem?_eq_none (by simp; omega)] at hjob
  cases hjob

/-- A counter that has then reached `should_run` counts every worker. -/
theorem Counted.all_of_census (h : Counted jobs s) (hjob : jobs[j]? = some job)
    (honly : ∀ w ∈ s.launched, w.1 = j) {P : Pc → Prop} [DecidablePred P]
    (hall : (census s.launched P s.pc : Int) = job.shouldRun) :
    ∀ i < job.shouldRun.toNat, (j, i) ∈ s.launched ∧ P (s.pc (j, i)) := by
  intro i hi
  refine census.all_of_card_le (h.launched_subset hjob honly) ?_ (j, i) (mem_workers.mpr ⟨rfl, hi⟩)
  rw [card_workers]
  omega

end Only

end KvmUtils.IpiBench
