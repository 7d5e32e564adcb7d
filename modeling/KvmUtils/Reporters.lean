import KvmUtils.KvmExitReason.Reports
import KvmUtils.KvmWrmsr.Gate

/-!
# The reporters of the two probe modules

`kvmexitreason` and `kvmwrmsr` report in the same way: a time check against
`__ktime`, one try of `showing_lock`, the report, the new `__ktime`, the
unlock.  Both are a `TimedGate`, so both inherit its rules.

Neither keeps what the order of the steps seems to promise.  `probe_init`
initialises the lock after the probes are live, which frees it under a
handler that reports.  The time check is not repeated under the lock, so a
handler that waits between the two reports right after another one.  The two
theorems give the runs in which this does not happen.
-/

namespace KvmUtils

open Machine

/-! ## Runs of two CPUs -/

namespace KvmExitReason

variable {ι : Type*}

/-- CPU `i` counts an exit of reason `0`, samples `t` and passes its time
check. -/
def dueRun (i : ι) (t : Int) : List (Event ι) := [.hit i 0, .step i, .step i, .sample i t, .step i]

/-- CPU `i` takes the lock, reports and unlocks. -/
def sectionRun (i : ι) : List (Event ι) := List.replicate 74 (.step i)

/-- CPU `i` enters the section after the load. -/
def enterRun (i : ι) : List (Event ι) :=
  initEvents vmxHandleExitProbe 0 ++ dueRun i 1000000000 ++ [.step i]

/-- Two handlers pass the time check, the first one a nanosecond earlier, and
report in the other order. -/
def staleRun (i j : ι) : List (Event ι) :=
  dueRun i 1000000000 ++ dueRun j 1000000001 ++ sectionRun j ++ sectionRun i

/-- `probe_init` up to `spin_lock_init`, with CPU `i` in the section, then
`spin_lock_init` and CPU `j`. -/
def reinitRun (i j : ι) : List (Event ι) :=
  registerEvents vmxHandleExitProbe ++ [.initStep, .initStep] ++
    dueRun i 1000000000 ++ [.step i, .initStep] ++ dueRun j 1000000000 ++ [.step j]

end KvmExitReason

namespace KvmWrmsr

variable {ι : Type*}

/-- CPU `i` counts a write of `0x1b`, samples `t` and passes its time
check. -/
def dueRun (i : ι) (t : Int) : List (Event ι) :=
  [.hit i 0x1b, .sample i t, .step i, .step i, .step i]

/-- CPU `i` takes the lock, reports and unlocks. -/
def sectionRun (i : ι) : List (Event ι) := List.replicate 41 (.step i)

/-- CPU `i` enters the section after the load. -/
def enterRun (i : ι) : List (Event ι) := initEvents 0 ++ dueRun i 1000000001 ++ [.step i]

/-- Two handlers pass the time check, the first one a nanosecond earlier, and
report in the other order. -/
def staleRun (i j : ι) : List (Event ι) :=
  dueRun i 1000000001 ++ dueRun j 1000000002 ++ sectionRun j ++ sectionRun i

/-- `spin_lock_init` with CPU `i` in the section, and CPU `j`. -/
def reinitRun (i j : ι) : List (Event ι) :=
  [.register 0] ++ dueRun i 1000000001 ++ [.step i, .initStep] ++ dueRun j 1000000001 ++ [.step j]

end KvmWrmsr

/-! ## Mutual exclusion -/

section Exclusion

variable {ι : Type*} [DecidableEq ι]

/-- Mutual exclusion of the reporter over the whole life of a module.  From
the state in which it is loaded, whatever `probe_init` and the handlers do, at
most one CPU is between its `spin_trylock` and its `spin_unlock` as long as
`spin_lock_init` runs only while none is. -/
theorem reporter_exclusive_of_lockInitOutside :
    (∀ {table : List (Option String)} {s : KvmExitReason.State ι}
        {es : List (KvmExitReason.Event ι)},
      exec (KvmExitReason.step table) KvmExitReason.State.load es = some s →
      AllSteps (KvmExitReason.step table) KvmExitReason.LockInitOutside
        KvmExitReason.State.load es →
      ∀ i j, (s.pc i).InSection → (s.pc j).InSection → i = j) ∧
    (∀ {s : KvmWrmsr.State ι} {es : List (KvmWrmsr.Event ι)},
      exec KvmWrmsr.step KvmWrmsr.State.load es = some s →
      AllSteps KvmWrmsr.step KvmWrmsr.LockInitOutside KvmWrmsr.State.load es →
      ∀ i j, (s.pc i).InSection → (s.pc j).InSection → i = j) := by
  constructor
  · intro table s es hrun hinit i j hi hj
    have hexcl := KvmExitReason.exclusive_of_lockInitOutside KvmExitReason.load_outside hinit
      hrun
    exact hexcl.unique i j hi hj
  · intro s es hrun hinit i j hi hj
    have hexcl := KvmWrmsr.exclusive_of_lockInitOutside KvmWrmsr.load_outside hinit hrun
    exact hexcl.unique i j hi hj

end Exclusion

/-- CPU `0` enters after the load and is the only one inside. -/
theorem reporter_exclusive_of_enterRun :
    (∃ s : KvmExitReason.State (Fin 2),
      exec (KvmExitReason.step KvmExitReason.vmxHandleExitProbe) KvmExitReason.State.load
          (KvmExitReason.enterRun 0) = some s ∧
        (s.pc 0).InSection ∧ ∀ i, (s.pc i).InSection → i = 0) ∧
    (∃ s : KvmWrmsr.State (Fin 2),
      exec KvmWrmsr.step KvmWrmsr.State.load (KvmWrmsr.enterRun 0) = some s ∧
        (s.pc 0).InSection ∧ ∀ i, (s.pc i).InSection → i = 0) := by
  constructor
  · have h : (exec (KvmExitReason.step KvmExitReason.vmxHandleExitProbe)
        (KvmExitReason.State.load : KvmExitReason.State (Fin 2)) (KvmExitReason.enterRun 0)).map
          (fun s => decide (s.pc 0).InSection) = some true := by
      decide
    obtain ⟨s, hrun, hs⟩ := exists_exec_of_map h
    have h0 := of_decide_eq_true hs
    exact ⟨s, hrun, h0, fun i hi =>
      reporter_exclusive_of_lockInitOutside.1 hrun (by decide +kernel) i 0 hi h0⟩
  · have h : (exec KvmWrmsr.step (KvmWrmsr.State.load : KvmWrmsr.State (Fin 2))
        (KvmWrmsr.enterRun 0)).map (fun s => decide (s.pc 0).InSection) = some true := by
      decide
    obtain ⟨s, hrun, hs⟩ := exists_exec_of_map h
    have h0 := of_decide_eq_true hs
    exact ⟨s, hrun, h0, fun i hi =>
      reporter_exclusive_of_lockInitOutside.2 hrun (by decide) i 0 hi h0⟩

/-- `spin_lock_init` frees the lock under CPU `0`, and CPU `1` takes it. -/
theorem reporters_overlap :
    (∃ s : KvmExitReason.State (Fin 2),
      exec (KvmExitReason.step KvmExitReason.vmxHandleExitProbe) KvmExitReason.State.load
          (KvmExitReason.reinitRun 0 1) = some s ∧
        (s.pc 0).InSection ∧ (s.pc 1).InSection) ∧
    (∃ s : KvmWrmsr.State (Fin 2),
      exec KvmWrmsr.step KvmWrmsr.State.load (KvmWrmsr.reinitRun 0 1) = some s ∧
        (s.pc 0).InSection ∧ (s.pc 1).InSection) := by
  constructor
  · have h : (exec (KvmExitReason.step KvmExitReason.vmxHandleExitProbe)
        (KvmExitReason.State.load : KvmExitReason.State (Fin 2))
        (KvmExitReason.reinitRun 0 1)).map
          (fun s => decide ((s.pc 0).InSection ∧ (s.pc 1).InSection)) = some true := by
      decide
    simpa using exists_exec_of_map h
  · have h : (exec KvmWrmsr.step (KvmWrmsr.State.load : KvmWrmsr.State (Fin 2))
        (KvmWrmsr.reinitRun 0 1)).map
          (fun s => decide ((s.pc 0).InSection ∧ (s.pc 1).InSection)) = some true := by
      decide
    simpa using exists_exec_of_map h

/-! ## The rate limit -/

section RateLimit

variable {ι : Type*} [DecidableEq ι]

/-- The rate limit after `probe_init` has returned `0`.  When every
`spin_trylock` that succeeds does so with a reading that is still a second
after `__ktime`, any two reports are a second apart and `__ktime` never
decreases.  In a run that starts with no handler past a stale time check and
ends with none in the section, this is also the only way. -/
theorem rateLimited_iff_freshEntry :
    (∀ {table : List (Option String)} {s s' : KvmExitReason.State ι}
        {es : List (KvmExitReason.Event ι)},
      s.init = .returned 0 → (∀ i, ¬ (s.pc i).InSection) → s.reports = [] →
      exec (KvmExitReason.step table) s es = some s' →
      (AllSteps (KvmExitReason.step table) KvmExitReason.FreshEntry s es →
        KvmExitReason.RateLimited table s es s') ∧
      ((∀ i now, s.pc i = .trylock now → s.ktime + 1000 * 1000 * 1000 ≤ now) →
        (∀ i, ¬ (s'.pc i).InSection) → KvmExitReason.RateLimited table s es s' →
        AllSteps (KvmExitReason.step table) KvmExitReason.FreshEntry s es)) ∧
    (∀ {s s' : KvmWrmsr.State ι} {es : List (KvmWrmsr.Event ι)},
      s.init = .returned 0 → (∀ i, ¬ (s.pc i).InSection) → s.reports = [] →
      exec KvmWrmsr.step s es = some s' →
      (AllSteps KvmWrmsr.step KvmWrmsr.FreshEntry s es → KvmWrmsr.RateLimited s es s') ∧
      ((∀ i now, s.pc i = .trylock now → s.statics.ktime + 1000 * 1000 * 1000 ≤ now) →
        (∀ i, ¬ (s'.pc i).InSection) → KvmWrmsr.RateLimited s es s' →
        AllSteps KvmWrmsr.step KvmWrmsr.FreshEntry s es)) := by
  constructor
  · intro table s s' es hinit hout hreports hrun
    exact ⟨fun hfresh => KvmExitReason.rateLimited_of_freshEntry hinit hout hreports hfresh hrun,
      fun hdue hout' h => KvmExitReason.freshEntry_of_rateLimited hinit hout hdue hrun hout' h⟩
  · intro s s' es hinit hout hreports hrun
    exact ⟨fun hfresh => KvmWrmsr.rateLimited_of_freshEntry hinit hout hreports hfresh hrun,
      fun hdue hout' h => KvmWrmsr.freshEntry_of_rateLimited hinit hout hdue hrun hout' h⟩

end RateLimit

/-- One report after the load keeps the rate limit. -/
theorem rateLimited_of_one_report :
    (∃ s : KvmExitReason.State (Fin 2),
      KvmExitReason.RateLimited KvmExitReason.vmxHandleExitProbe
        (KvmExitReason.State.started KvmExitReason.vmxHandleExitProbe 0)
        (KvmExitReason.dueRun 0 1000000000 ++ KvmExitReason.sectionRun 0) s) ∧
    (∃ s : KvmWrmsr.State (Fin 2),
      KvmWrmsr.RateLimited (KvmWrmsr.State.started 0)
        (KvmWrmsr.dueRun 0 1000000001 ++ KvmWrmsr.sectionRun 0) s) := by
  constructor
  · have h : (exec (KvmExitReason.step KvmExitReason.vmxHandleExitProbe)
        (KvmExitReason.State.started KvmExitReason.vmxHandleExitProbe 0 :
          KvmExitReason.State (Fin 2))
        (KvmExitReason.dueRun 0 1000000000 ++ KvmExitReason.sectionRun 0)).map
          (fun _ => true) = some true := by
      decide
    obtain ⟨s, hrun, -⟩ := exists_exec_of_map h
    have hlimit := rateLimited_iff_freshEntry.1 rfl KvmExitReason.started_outside rfl hrun
    exact ⟨s, hlimit.1 (by decide +kernel)⟩
  · have h : (exec KvmWrmsr.step (KvmWrmsr.State.started 0 : KvmWrmsr.State (Fin 2))
        (KvmWrmsr.dueRun 0 1000000001 ++ KvmWrmsr.sectionRun 0)).map (fun _ => true) =
          some true := by
      decide
    obtain ⟨s, hrun, -⟩ := exists_exec_of_map h
    have hlimit := rateLimited_iff_freshEntry.2 rfl KvmWrmsr.started_outside rfl hrun
    exact ⟨s, hlimit.1 (by decide +kernel)⟩

/-- Two handlers pass the time check together and report a nanosecond
apart. -/
theorem rateLimit_broken :
    (∃ s s' : KvmExitReason.State (Fin 2),
      exec (KvmExitReason.step KvmExitReason.vmxHandleExitProbe) KvmExitReason.State.load
          (KvmExitReason.initEvents KvmExitReason.vmxHandleExitProbe 0) = some s ∧
        s.init = .returned 0 ∧
        exec (KvmExitReason.step KvmExitReason.vmxHandleExitProbe) s
          (KvmExitReason.staleRun 0 1) = some s' ∧
        ¬ KvmExitReason.RateLimited KvmExitReason.vmxHandleExitProbe s
          (KvmExitReason.staleRun 0 1) s') ∧
    (∃ s s' : KvmWrmsr.State (Fin 2),
      exec KvmWrmsr.step KvmWrmsr.State.load (KvmWrmsr.initEvents 0) = some s ∧
        s.init = .returned 0 ∧ exec KvmWrmsr.step s (KvmWrmsr.staleRun 0 1) = some s' ∧
        ¬ KvmWrmsr.RateLimited s (KvmWrmsr.staleRun 0 1) s') := by
  constructor
  · have h : (exec (KvmExitReason.step KvmExitReason.vmxHandleExitProbe)
        (KvmExitReason.State.started KvmExitReason.vmxHandleExitProbe 0 :
          KvmExitReason.State (Fin 2)) (KvmExitReason.staleRun 0 1)).map
          (fun s => decide (s.reports = [1000000000, 1000000001])) = some true := by
      decide +kernel
    obtain ⟨s', hrun, hs'⟩ := exists_exec_of_map h
    refine ⟨_, s', KvmExitReason.exec_initEvents _ (le_refl 0), rfl, hrun, fun hlim => ?_⟩
    have hapart := hlim.apart
    rw [of_decide_eq_true hs'] at hapart
    exact absurd hapart (by decide)
  · have h : (exec KvmWrmsr.step (KvmWrmsr.State.started 0 : KvmWrmsr.State (Fin 2))
        (KvmWrmsr.staleRun 0 1)).map (fun s => decide (s.reports = [1000000001, 1000000002])) =
          some true := by
      decide +kernel
    obtain ⟨s', hrun, hs'⟩ := exists_exec_of_map h
    refine ⟨_, s', KvmWrmsr.exec_initEvents (le_refl 0), rfl, hrun, fun hlim => ?_⟩
    have hapart := hlim.apart
    rw [of_decide_eq_true hs'] at hapart
    exact absurd hapart (by decide)

end KvmUtils
