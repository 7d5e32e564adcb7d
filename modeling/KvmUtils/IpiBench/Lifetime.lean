import KvmUtils.IpiBench.Paths

/-!
# The lifetime of the array

A worker works on its entry of the array that its benchmark has allocated, and
the benchmark frees the array after its wait.  What has ended the wait is not
looked at.

* If the wait ends because its condition holds, then every worker is past its
  last access: the two counters agree only when all workers have added one to
  `complete_run`.
* If it ends by its timeout or by a signal, then the array is freed under
  every worker that has not got that far.  `no_useAfterFree` says that this is
  the only way.
-/

namespace KvmUtils.IpiBench

open Function Machine

/-- The worker has a read or a write of its `bench_args` ahead of it. -/
def Pc.AccessAhead : Pc → Prop
  | .absent | .bug | .addComplete | .wake | .done => False
  | _ => True

/-- Every created worker is past its last access. -/
def State.Settled (s : State) : Prop := ∀ w ∈ s.launched, ¬ (s.pc w).AccessAhead

/-- An array is freed while one of its workers has an access ahead of it. -/
def State.UseAfterFree (s : State) : Prop :=
  ∃ w ∈ s.launched, s.live w.1 = false ∧ (s.pc w).AccessAhead

/-- A wait that ends by its timeout or by a signal ends after the last access
of every worker. -/
def WaitSettled (s : State) (e : Event) : Prop :=
  ∀ how, e = .waitReturn how → how ≠ .condition → s.Settled

/-- The main thread is past its wait and before its `kfree`. -/
def MainPc.PastWait : MainPc → Prop
  | .sampleEnd _ | .report _ _ _ | .free => True
  | _ => False

/-- The main thread has allocated the array and not left its wait. -/
def MainPc.Holds : MainPc → Prop
  | .setShould | .build | .launch _ | .sampleStart | .wait _ => True
  | _ => False

/-- The one benchmark is past its wait, and no worker needs the array. -/
def State.Released (s : State) : Prop := (s.main.PastWait ∨ 0 < s.job) ∧ s.Settled

/-- Up to its wait the main thread keeps the array, and past it no worker
needs it. -/
structure Owned (job : Job) (s : State) : Prop where
  counted : Counted [job] s
  phase : s.job = 0 ∧ ¬ s.main.PastWait ∧ (s.main.Holds → s.live 0 = true) ∨ s.Released

section Owned

variable {job : Job} {s s' : State}

theorem Counted.settled_of_not_passed (h : Counted [job] s) (hjob : s.job = 0)
    (hmain : ∀ i, ¬ s.main.Passed i) : s.Settled := by
  intro w hw
  have hcur : w.1 = s.job := (h.only_first w hw).trans hjob.symm
  exact absurd (h.passed w hw hcur) (hmain w.2)

/-- When the condition of the wait holds, no worker needs the array. -/
theorem Counted.settled_of_condition (h : Counted [job] s) {startns : UInt64}
    (hmain : s.main = .wait startns) (hcond : s.complete = s.should) : s.Settled := by
  obtain ⟨job', hjob, hshould, -⟩ := h.built (by rw [hmain]; trivial)
  have hfirst : job' = job := by
    cases hindex : s.job with
    | zero =>
      rw [hindex] at hjob
      exact (Option.some.inj hjob).symm
    | succ k =>
      rw [hindex] at hjob
      cases hjob
  subst hfirst
  have hall := h.all_of_census rfl h.only_first (P := Pc.HasCompleted)
    (by rw [← h.complete_eq, hcond, hshould])
  intro w hw hahead
  have hmem := mem_workers.mp (h.launched_subset rfl h.only_first hw)
  have hdone : (s.pc w).HasCompleted := by
    have hw0 : w = (0, w.2) := Prod.ext hmem.1 rfl
    rw [hw0]
    exact (hall w.2 hmem.2).2
  cases hpc : s.pc w <;> rw [hpc] at hdone hahead <;> first | exact hdone | exact hahead

/-- A worker does not come back to an access. -/
theorem WorkerMove.accessAhead {w : Worker} (h : WorkerMove s w s') (v : Worker)
    (hv : (s'.pc v).AccessAhead) : (s.pc v).AccessAhead := by
  by_cases hvw : v = w
  · subst hvw
    cases h with
    | body hpc hp _ =>
      generalize s.pc v = q at hpc
      cases q <;> first | exact hpc.elim | trivial
    | addComplete hpc | wake hpc =>
      simp only [State.goto, update_self] at hv
      exact hv.elim
    | sampleForked hpc _ | storeForked hpc | addReady hpc | spinReady hpc | spin hpc _
    | leave hpc _ | checkReady hpc | bug hpc _ | pass hpc _ | sampleStart hpc _ | storeStart hpc
    | storeIpitime hpc | sampleFinish hpc _ | storeFinish hpc | runDelay hpc =>
      rw [hpc]
      trivial
  · obtain ⟨q, hq, -⟩ := h.frame.pc
    rwa [hq, update_of_ne hvw] at hv

theorem State.Settled.worker {w : Worker} (h : s.Settled) (hmove : WorkerMove s w s') :
    s'.Settled := by
  intro v hv hahead
  rw [hmove.frame.launched] at hv
  exact h v hv (hmove.accessAhead v hahead)

theorem State.Released.worker {w : Worker} (h : s.Released) (hmove : WorkerMove s w s') :
    s'.Released := by
  refine ⟨?_, h.2.worker hmove⟩
  rw [hmove.frame.main, hmove.frame.job]
  exact h.1

/-- Past the one benchmark, the main thread creates no worker. -/
theorem State.Released.main {e : Event} (h : s.Released) (hmove : MainMove [job] s e s') :
    s'.Released := by
  have hnone : ∀ {job' : Job}, ¬ s.main.PastWait → [job][s.job]? = some job' → False := by
    intro job' hmain hjob
    rcases h.1 with hpast | hlater
    · exact hmain hpast
    · rw [List.getElem?_eq_none (by simp; omega)] at hjob
      cases hjob
  cases hmove with
  | begin hmain hjob | alloc hmain hjob | setShould hmain hjob | build hmain hjob
  | launch hmain hjob | launchFail hmain hjob | endLaunch hmain hjob =>
    exact (hnone (by rw [hmain]; exact id) hjob).elim
  | stop hmain | sampleStart hmain =>
    refine ⟨Or.inr (h.1.resolve_left ?_), h.2⟩
    rw [hmain]
    exact id
  | noMemory | free => exact ⟨Or.inr (Nat.succ_pos _), h.2⟩
  | buildFail | sampleEnd | report | endReport => exact ⟨Or.inl trivial, h.2⟩
  | waitReturn _ _ hp => rcases hp with rfl | rfl <;> exact ⟨Or.inl trivial, h.2⟩

theorem released_of_exec {p : Params} {es : List Event} (h : s.Released)
    (hrun : exec (step p [job]) s es = some s') : s'.Released := by
  refine exec_invariant' (fun s e s' hI hst => ?_) h hrun
  rcases move_of_step hst with ⟨w, hmove⟩ | hmove
  · exact hI.worker hmove
  · exact hI.main hmove

theorem Owned.worker {w : Worker} (h : Owned job s) (hmove : WorkerMove s w s') :
    Owned job s' := by
  refine ⟨h.counted.worker hmove, ?_⟩
  rcases h.phase with hheld | hreleased
  · left
    rw [hmove.frame.main, hmove.frame.job, hmove.frame.live]
    exact hheld
  · exact Or.inr (hreleased.worker hmove)

theorem Owned.main {e : Event} (h : Owned job s) (hmove : MainMove [job] s e s')
    (hwait : WaitSettled s e) : Owned job s' := by
  refine ⟨h.counted.main hmove, ?_⟩
  rcases h.phase with ⟨hjob, hmain, hlive⟩ | hreleased
  · cases hmove with
    | stop | begin => exact Or.inl ⟨hjob, id, fun hheld => hheld.elim⟩
    | alloc =>
      refine Or.inl ⟨hjob, id, fun _ => ?_⟩
      show update s.live s.job true 0 = true
      rw [hjob, update_self]
    | noMemory hmain' =>
      have hsettled := h.counted.settled_of_not_passed hjob (by rw [hmain']; exact fun _ => id)
      exact Or.inr ⟨Or.inr (Nat.succ_pos _), hsettled⟩
    | buildFail hmain' =>
      have hsettled := h.counted.settled_of_not_passed hjob (by rw [hmain']; exact fun _ => id)
      exact Or.inr ⟨Or.inl trivial, hsettled⟩
    | setShould hmain' | build hmain' | launch hmain' | launchFail hmain' | sampleStart hmain' =>
      exact Or.inl ⟨hjob, id, fun _ => hlive (by rw [hmain']; trivial)⟩
    | endLaunch hmain' _ _ hp =>
      rcases hp with rfl | rfl <;>
        exact Or.inl ⟨hjob, id, fun _ => hlive (by rw [hmain']; trivial)⟩
    | @waitReturn how startns _ hmain' hcond hp =>
      have hsettled : s.Settled := by
        by_cases hhow : how = .condition
        · exact h.counted.settled_of_condition hmain' (hcond hhow)
        · exact hwait how rfl hhow
      rcases hp with rfl | rfl <;> exact Or.inr ⟨Or.inl trivial, hsettled⟩
    | sampleEnd hmain' | report hmain' | endReport hmain' | free hmain' =>
      rw [hmain'] at hmain
      exact (hmain trivial).elim
  · exact Or.inr (hreleased.main hmove)

theorem owned_load (job : Job) : Owned job State.load :=
  ⟨counted_load [job], Or.inl ⟨rfl, id, fun hheld => hheld.elim⟩⟩

theorem Owned.not_useAfterFree (h : Owned job s) : ¬ s.UseAfterFree := by
  rintro ⟨w, hw, hfreed, hahead⟩
  rcases h.phase with ⟨hjob, hmain, hlive⟩ | hreleased
  · by_cases hheld : s.main.Holds
    · rw [h.counted.only_first w hw, hlive hheld] at hfreed
      cases hfreed
    · have hpassed : ∀ i, ¬ s.main.Passed i := by
        intro i hi
        cases hcases : s.main <;> rw [hcases] at hi hmain hheld <;>
          first | exact hi | exact hmain trivial | exact hheld trivial
      exact h.counted.settled_of_not_passed hjob hpassed w hw hahead
  · exact hreleased.2 w hw hahead

theorem owned_of_exec {p : Params} {es : List Event} (h : Owned job s)
    (hwait : AllSteps (step p [job]) WaitSettled s es)
    (hrun : exec (step p [job]) s es = some s') : Owned job s' := by
  refine exec_invariant (fun s e s' hI hP hst => ?_) h hwait hrun
  rcases move_of_step hst with ⟨w, hmove⟩ | hmove
  · exact hI.worker hmove
  · exact hI.main hmove hP

/-- The end of a wait with no worker in need of the array. -/
theorem released_of_waitReturn {p : Params} {how : WaitEnd}
    (hst : step p [job] s (.waitReturn how) = some s') (hsettled : s.Settled) :
    s'.Released := by
  cases move_of_waitStep hst with
  | waitReturn _ _ hp => rcases hp with rfl | rfl <;> exact ⟨Or.inl trivial, hsettled⟩

end Owned

/-- The array of a single benchmark, for any number of workers, any parameters
and any interleaving.

1. In every run in which each wait that ends by its timeout or by a signal
   ends after the last access of every worker, no array is ever freed under a
   worker.
2. If a wait can end by its timeout or by a signal earlier than that, then the
   array can be freed under a worker, and only then.  With a `loops` of 0 this
   is up to a fault: the report on a worker that has stored `finish` divides by
   `loops`, and that comes before the `kfree`. -/
theorem no_useAfterFree (p : Params) (job : Job) :
    (∀ es s, exec (step p [job]) State.load es = some s →
      AllSteps (step p [job]) WaitSettled State.load es → ¬ s.UseAfterFree) ∧
    (∀ es s startns how, exec (step p [job]) State.load es = some s → s.main = .wait startns →
      how ≠ .condition →
        ((∀ fs s', exec (step p [job]) s (.waitReturn how :: fs) = some s' →
          ¬ s'.UseAfterFree) ↔ s.Settled)) := by
  refine ⟨fun es s hrun hwait => ?_, fun es s startns how hrun hmain hhow => ?_⟩
  · exact (owned_of_exec (owned_load job) hwait hrun).not_useAfterFree
  · have hcounted := counted_of_exec (counted_load [job]) hrun
    constructor
    · intro hsafe w hw hahead
      obtain ⟨job', hjob, -, -⟩ := hcounted.built (by rw [hmain]; trivial)
      obtain ⟨s₁, reports, hst, fs, hfs⟩ :=
        reaches_freed_of_wait p how hjob hmain (fun hcond => absurd hcond hhow)
      -- the main thread alone frees the array, and the worker has not moved
      refine hsafe fs _ (exec_cons.mpr ⟨s₁, hst, hfs⟩) ⟨w, hw, ?_, hahead⟩
      have hcur : w.1 = s.job := by
        have hzero := hcounted.only_first w hw
        have hle := (List.getElem?_eq_some_iff.mp hjob).1
        simp only [List.length_singleton] at hle
        omega
      show update s.live s.job false w.1 = false
      rw [hcur, update_self]
    · intro hsettled fs s' hrun' ⟨w, hw, _, hahead⟩
      obtain ⟨s₁, hst, hfs⟩ := exec_cons.mp hrun'
      exact (released_of_exec (released_of_waitReturn hst hsettled) hfs).2 w hw hahead

/-- The worker of `ipi_bench_self` has stored `start` and is about to read
`dst`, when a signal ends the wait and the array is freed. -/
theorem array_freed_under_worker : ∃ s,
    exec (step ⟨1, 0, 1, 1, true, 1, true, SELF_IPI⟩ [benchSelf 0]) State.load
      ([.main, .alloc true, .main, .build fun _ => 0, .launch true, .main, .sample (0, 0) 1] ++
        List.replicate 6 (.worker (0, 0)) ++ [.sample (0, 0) 1, .worker (0, 0)] ++
        [.waitReturn .signal] ++ List.replicate 8 .main) = some s ∧
      s.pc (0, 0) = .enter ∧ s.UseAfterFree := by
  have h : (exec (step ⟨1, 0, 1, 1, true, 1, true, SELF_IPI⟩ [benchSelf 0]) State.load
      (([.main, .alloc true, .main, .build fun _ => 0, .launch true, .main, .sample (0, 0) 1] :
          List Event) ++
        List.replicate 6 (.worker (0, 0)) ++ ([.sample (0, 0) 1, .worker (0, 0)] : List Event) ++
        ([.waitReturn .signal] : List Event) ++ List.replicate 8 .main)).map
      (fun s => decide ((0, 0) ∈ s.launched ∧ s.live 0 = false ∧ s.pc (0, 0) = .enter)) =
        some true := by
    decide +kernel
  obtain ⟨s, hrun, hs⟩ := exists_exec_of_map h
  obtain ⟨hlaunched, hfreed, hpc⟩ := of_decide_eq_true hs
  refine ⟨s, hrun, hpc, (0, 0), hlaunched, hfreed, ?_⟩
  rw [hpc]
  trivial

end KvmUtils.IpiBench
