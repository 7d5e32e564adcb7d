import KvmUtils.Lib.TimedGate
import KvmUtils.KvmWrmsr.Interleaved

/-!
# The handlers of `kvmwrmsr` as a rate-limited gate

The lock, the time stamp and the clock of `kvmwrmsr` are a
`TimedGate.Gate`, as they are in `kvmexitreason`.  The handler reads the
clock before it counts the write, so it is `sampled` from its first step on,
and its time check asks for more than a second.
-/

namespace KvmUtils.KvmWrmsr

open Function Machine

/-- Where a handler is, as the gate sees it. -/
def phaseOf : Pc → TimedGate.Phase
  | .idle | .sample _ => .out
  | .inc now _ | .record now _ | .check now => .sampled now
  | .trylock now => .due now
  | .printTotal now | .setTotal now | .showItem now _ | .otherGuard now | .otherLoop now _
  | .reset now | .storeKtime now => .inside now
  | .unlock => .stamped

/-- The handler is between a successful `spin_trylock` and its
`spin_unlock`. -/
def Pc.InSection (p : Pc) : Prop := (phaseOf p).InSection

instance (p : Pc) : Decidable p.InSection := inferInstanceAs (Decidable (phaseOf p).InSection)

section Gate

variable {ι : Type*} [DecidableEq ι]

omit [DecidableEq ι] in
theorem load_outside (i : ι) : ¬ ((State.load : State ι).pc i).InSection := fun h => h

omit [DecidableEq ι] in
theorem started_outside {t : Int} (i : ι) : ¬ ((State.started t : State ι).pc i).InSection :=
  fun h => h

/-- The gate of a state. -/
def State.gate (s : State ι) : TimedGate.Gate ι where
  held := s.statics.showingLock
  stamp := s.statics.ktime
  clock := s.clock
  phase i := phaseOf (s.pc i)
  entered := s.reports

/-- The gate events of one event. -/
def gateEvents (s : State ι) : Event ι → List (TimedGate.Event ι)
  | .sample i t => [.sample i t]
  | .step i =>
    match s.pc i with
    | .check _ => [.test i]
    | .trylock _ => [.tryEnter i]
    | .storeKtime _ => [.storeStamp i]
    | .unlock => [.leave i]
    | _ => []
  | .initSample t => [.tick t]
  | .initStep =>
    match s.init with
    | .lockInit => [.reinit]
    | .storeKtime now => [.restamp now]
    | _ => []
  | .hit _ _ | .register _ => []

omit [DecidableEq ι] in
theorem gate_phase {s : State ι} {i : ι} {p : Pc} (h : s.pc i = p) :
    s.gate.phase i = phaseOf p :=
  congrArg phaseOf h

omit [DecidableEq ι] in
/-- A handler is past its time check exactly at `spin_trylock`. -/
theorem pc_of_due {s : State ι} {i : ι} {now : Int} (h : s.gate.phase i = .due now) :
    s.pc i = .trylock now := by
  cases hpc : s.pc i with
  | trylock n =>
    rw [gate_phase hpc] at h
    obtain rfl : n = now := by simpa [phaseOf] using h
    rfl
  | _ =>
    rw [gate_phase hpc] at h
    simp [phaseOf] at h

theorem gate_goto (s : State ι) (i : ι) (p : Pc) :
    (s.goto i p).gate = { s.gate with phase := update s.gate.phase i (phaseOf p) } := by
  have hphase : (s.goto i p).gate.phase = update s.gate.phase i (phaseOf p) := by
    funext j
    exact apply_update (fun _ => phaseOf) s.pc i p j
  rw [← hphase]
  rfl

/-- A handler that stays in its phase does not move the gate. -/
theorem gate_goto_of_eq {s : State ι} {i : ι} {p : Pc} (h : phaseOf p = phaseOf (s.pc i)) :
    (s.goto i p).gate = s.gate := by
  rw [gate_goto, h]
  show { s.gate with phase := update s.gate.phase i (s.gate.phase i) } = s.gate
  rw [update_eq_self]

/-- Each event of the module is a run of its gate events. -/
theorem gate_simulates {s s' : State ι} {e : Event ι} (h : step s e = some s') :
    exec (TimedGate.step isDue) s.gate (gateEvents s e) = some s'.gate := by
  cases move_of_step h with
  | hit hpc _ => exact congrArg some (gate_goto_of_eq (by rw [hpc]; rfl)).symm
  | sample hpc hclock =>
    have hclock' : s.gate.clock ≤ _ := hclock
    simp only [gateEvents, exec, TimedGate.step, gate_phase hpc, phaseOf, hclock', if_true,
      Option.bind_some, gate_goto]
    rfl
  | inc hpc | record hpc | printTotal hpc | setTotal hpc | showItem hpc _ | endItems hpc _
  | noOthers hpc _ | others hpc _ | otherLine hpc _ _ | endOthers hpc _ | reset hpc =>
    simp only [gateEvents, hpc]
    exact congrArg some (gate_goto_of_eq (show _ = phaseOf (s.pc _) by rw [hpc]; rfl)).symm
  | due hpc hdue | early hpc hdue =>
    have hdue' : isDue _ s.gate.stamp = _ := hdue
    simp only [gateEvents, hpc, exec, TimedGate.step, gate_phase hpc, phaseOf, hdue', if_true,
      Bool.false_eq_true, if_false, Option.bind_some, gate_goto]
  | busy hpc hlock =>
    have hlock' : s.gate.held = true := hlock
    simp only [gateEvents, hpc, exec, TimedGate.step, gate_phase hpc, phaseOf, hlock', if_true,
      Option.bind_some, gate_goto]
  | lock hpc hlock =>
    have hlock' : s.gate.held = false := hlock
    simp only [gateEvents, hpc, exec, TimedGate.step, gate_phase hpc, phaseOf, hlock',
      Bool.false_eq_true, if_false, Option.bind_some, gate_goto]
    rfl
  | storeKtime hpc | unlock hpc =>
    simp only [gateEvents, hpc, exec, TimedGate.step, gate_phase hpc, phaseOf, Option.bind_some,
      gate_goto]
    rfl
  | registerOk _ _ | registerFail _ _ => rfl
  | lockInit hinit | initKtime hinit =>
    simp only [gateEvents, exec, TimedGate.step, hinit, Option.bind_some]
    rfl
  | initTotal hinit | initWrmsr hinit =>
    simp only [gateEvents, hinit]
    rfl
  | initSample hinit hclock =>
    have hclock' : s.gate.clock ≤ _ := hclock
    simp only [gateEvents, exec, TimedGate.step, hclock', if_true, Option.bind_some]
    rfl

/-- The module as a gate. -/
def gateView : View (@step ι _) (@TimedGate.step ι _ isDue) where
  Inv _ := True
  state := State.gate
  events := gateEvents
  inv_step _ _ := trivial
  simulates _ h := gate_simulates h

omit [DecidableEq ι] in
theorem length_gateEvents (s : State ι) (e : Event ι) : (gateEvents s e).length ≤ 1 := by
  unfold gateEvents
  split
  case h_2 | h_4 => split <;> simp
  all_goals simp

/-! ## The conditions of the gate, read on the module -/

/-- `spin_lock_init` runs only while no handler is between its
`spin_trylock` and its `spin_unlock`. -/
def LockInitOutside (s : State ι) : Event ι → Prop
  | .initStep => s.init = .lockInit → ∀ i, ¬ (s.pc i).InSection
  | _ => True

instance [Fintype ι] (s : State ι) (e : Event ι) : Decidable (LockInitOutside s e) := by
  unfold LockInitOutside
  split <;> infer_instance

theorem lift_reinitOutside_iff (s : State ι) (e : Event ι) :
    gateView.Lift TimedGate.ReinitOutside s e ↔ LockInitOutside s e := by
  unfold View.Lift gateView
  cases e with
  | step i =>
    cases hpc : s.pc i <;> simp [gateEvents, hpc, LockInitOutside, TimedGate.ReinitOutside]
  | initStep =>
    cases hinit : s.init with
    | lockInit =>
      simp [gateEvents, hinit, LockInitOutside, TimedGate.ReinitOutside, State.gate, Pc.InSection]
    | _ => simp [gateEvents, hinit, LockInitOutside, TimedGate.ReinitOutside]
  | _ => simp [gateEvents, LockInitOutside, TimedGate.ReinitOutside]

/-- A `spin_trylock` that succeeds does so while the reading of its handler
is still a second after `__ktime`. -/
def FreshEntry (s : State ι) : Event ι → Prop
  | .step i =>
    match s.pc i with
    | .trylock now =>
      s.statics.showingLock = false → s.statics.ktime + 1000 * 1000 * 1000 ≤ now
    | _ => True
  | _ => True

instance (s : State ι) (e : Event ι) : Decidable (FreshEntry s e) := by
  unfold FreshEntry
  split
  · split <;> infer_instance
  · infer_instance

theorem lift_fresh_iff {s : State ι} {ret : Int} (h : s.init = .returned ret) (e : Event ι) :
    gateView.Lift (TimedGate.Fresh (1000 * 1000 * 1000)) s e ↔ FreshEntry s e := by
  unfold View.Lift gateView
  cases e with
  | step i =>
    cases hpc : s.pc i <;>
      simp [gateEvents, hpc, FreshEntry, TimedGate.Fresh, State.gate, phaseOf]
  | _ => simp [gateEvents, FreshEntry, TimedGate.Fresh, h]

/-- Nothing sets the lock or the stamp from outside once `probe_init` has
returned. -/
theorem lift_fromInside {s : State ι} {ret : Int} (h : s.init = .returned ret) (e : Event ι) :
    gateView.Lift (fun _ g => TimedGate.FromInside g) s e := by
  unfold View.Lift gateView
  cases e with
  | step i => cases hpc : s.pc i <;> simp [gateEvents, hpc, TimedGate.FromInside]
  | _ => simp [gateEvents, TimedGate.FromInside, h]

theorem isDue_iff {now ktime : Int} :
    isDue now ktime = true ↔ ktime + 1000 * 1000 * 1000 < now := by
  unfold isDue
  simp only [gt_iff_lt, decide_eq_true_eq]
  omega

/-! ## Mutual exclusion and the rate limit -/

/-- At most one handler is in the section, as long as the lock is initialised
only while none is. -/
theorem exclusive_of_lockInitOutside {s s' : State ι} {es : List (Event ι)}
    (hout : ∀ i, ¬ (s.pc i).InSection) (hinit : AllSteps step LockInitOutside s es)
    (hrun : exec step s es = some s') : TimedGate.Exclusive s'.gate :=
  TimedGate.exclusive_of_view (V := gateView) trivial
    (TimedGate.exclusive_of_forall_not_inSection hout)
    ((allSteps_congr lift_reinitOutside_iff s es).mpr hinit) hrun

/-- The step does not take `__ktime` back. -/
def KtimeRises (s : State ι) (e : Event ι) : Prop :=
  ∀ s', step s e = some s' → s.statics.ktime ≤ s'.statics.ktime

/-- The rate limit over the run of `es` from `s` to `s'`: any two reports are
made by handlers whose readings are a second apart, and `__ktime` never
decreases. -/
structure RateLimited (s : State ι) (es : List (Event ι)) (s' : State ι) : Prop where
  apart : s'.reports.Pairwise fun a b => 1000 * 1000 * 1000 ≤ |a - b|
  rises : AllSteps step KtimeRises s es

theorem rateLimited_of_freshEntry {s s' : State ι} {es : List (Event ι)} {ret : Int}
    (hinit : s.init = .returned ret) (hout : ∀ i, ¬ (s.pc i).InSection)
    (hreports : s.reports = []) (hfresh : AllSteps step FreshEntry s es)
    (hrun : exec step s es = some s') : RateLimited s es s' := by
  have hlift : AllSteps step
      (gateView.Lift (TimedGate.Fresh (1000 * 1000 * 1000))) s es :=
    allSteps_imp (I := fun t => t.init = .returned ret)
      (fun _ _ _ hI _ hst => init_of_step hI hst)
      (fun _ e _ hI hP _ => (lift_fresh_iff hI e).mpr hP) hinit hrun hfresh
  have hspaced := TimedGate.spaced_of_view (by decide) trivial length_gateEvents
    (TimedGate.spaced_of_entered_nil hreports hout) hlift hrun
  exact ⟨hspaced.1, hspaced.2⟩

/-- In a run that starts with no handler past a stale time check and ends with
none in the section, the rate limit holds only if every entry is fresh. -/
theorem freshEntry_of_rateLimited {s s' : State ι} {es : List (Event ι)} {ret : Int}
    (hinit : s.init = .returned ret) (hout : ∀ i, ¬ (s.pc i).InSection)
    (hdue : ∀ i now, s.pc i = .trylock now → s.statics.ktime + 1000 * 1000 * 1000 ≤ now)
    (hrun : exec step s es = some s') (hout' : ∀ i, ¬ (s'.pc i).InSection)
    (h : RateLimited s es s') : AllSteps step FreshEntry s es := by
  have horigin : TimedGate.StampOrigin (1000 * 1000 * 1000) s.gate :=
    TimedGate.stampOrigin_of_outside hout fun i now hi => hdue i now (pc_of_due hi)
  have hfrom : AllSteps step (gateView.Lift fun _ g => TimedGate.FromInside g) s es :=
    allSteps_imp (I := fun t => t.init = .returned ret) (P := fun _ _ => True)
      (fun _ _ _ hI _ hst => init_of_step hI hst)
      (fun _ e _ hI _ _ => lift_fromInside hI e) hinit hrun
      (allSteps_of_forall (fun _ _ => trivial) s es)
  have hlift := TimedGate.fresh_of_view (V := gateView) (by decide)
    (fun _ _ h => le_of_lt (isDue_iff.mp h)) trivial length_gateEvents horigin hfrom hrun hout'
    h.apart h.rises
  exact allSteps_imp (I := fun t => t.init = .returned ret)
    (fun _ _ _ hI _ hst => init_of_step hI hst)
    (fun _ e _ hI hP _ => (lift_fresh_iff hI e).mp hP) hinit hrun hlift

end Gate

end KvmUtils.KvmWrmsr
