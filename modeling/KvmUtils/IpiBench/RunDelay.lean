import KvmUtils.IpiBench.Memory
import KvmUtils.IpiBench.Readings

/-!
# The correction by the run delay

`current->sched_info.run_delay` grows while a thread is runnable and does not
run.  `Timed` adds that counter and the time to the machine: time passes for
all threads alike, and some of them wait meanwhile.  The clock and the counter
are in nanoseconds.

A worker reads the counter once, after `finish`, so what its report subtracts
is the delay since the thread was created.  The invariant `Timing` says how the
counter stands to the times that the worker has read.
`run_delay_correction_iff` gives the histories in which the report comes out
right.
-/

namespace KvmUtils.IpiBench

open Function Machine

/-- The time, and what the run delay of a thread has come to. -/
structure Moment where
  time : Nat
  delay : Nat
  deriving DecidableEq, Repr

/-- `b` is not earlier than `a`.  The delay grows no faster than the time. -/
structure Moment.Before (a b : Moment) : Prop where
  time : a.time ≤ b.time
  delay : a.delay ≤ b.delay
  slower : b.delay - a.delay ≤ b.time - a.time

namespace Moment.Before

variable {a b c : Moment}

theorem refl (a : Moment) : a.Before a := by
  refine ⟨le_refl _, le_refl _, ?_⟩
  omega

theorem trans (hab : a.Before b) (hbc : b.Before c) : a.Before c := by
  obtain ⟨htime, hdelay, hslower⟩ := hab
  obtain ⟨htime', hdelay', hslower'⟩ := hbc
  exact ⟨by omega, by omega, by omega⟩

end Moment.Before

/-- The machine with the time and the run delay of each worker.  `started` and
`finished` are the moments in which a worker has read its `start` and its
`finish`. -/
structure Timed where
  st : State
  now : Nat
  delay : Worker → Nat
  started : Worker → Moment
  finished : Worker → Moment

inductive TimedEvent where
  /-- a step of a thread, which takes no time -/
  | act (e : Event)
  /-- time passes, and some workers wait for their CPU -/
  | pass (dt : Nat) (waiting : Worker → Bool)

def Timed.moment (x : Timed) (w : Worker) : Moment := ⟨x.now, x.delay w⟩

/-- The clock reads the time, and `run_delay` the counter. -/
def Event.OnTime (x : Timed) : Event → Prop
  | .mainSample t | .sample _ t | .call _ _ t => t.toNat = x.now
  | .runDelay w d => d.toNat = x.delay w
  | _ => True

instance (x : Timed) (e : Event) : Decidable (e.OnTime x) := by
  cases e <;> unfold Event.OnTime <;> infer_instance

/-- The moments that a step marks. -/
def Timed.advance (x : Timed) (e : Event) (st : State) : Timed :=
  match e with
  | .sample w _ =>
    if x.st.pc w = .sampleStart then
      { x with st := st, started := update x.started w (x.moment w) }
    else if x.st.pc w = .sampleFinish then
      { x with st := st, finished := update x.finished w (x.moment w) }
    else { x with st := st }
  | _ => { x with st := st }

section Step

variable (p : Params) (jobs : List Job)

def timedStep (x : Timed) : TimedEvent → Option Timed
  | .act e => if e.OnTime x then (step p jobs x.st e).map (x.advance e) else none
  | .pass dt waiting =>
    some { x with
      now := x.now + dt
      delay := fun w => if x.st.pc w ≠ .absent ∧ waiting w then x.delay w + dt else x.delay w }

end Step

/-- The step does not store into an array that has been freed while another one
is allocated. -/
def TimedEvent.NoStaleStore (x : Timed) : TimedEvent → Prop
  | .act e => IpiBench.NoStaleStore x.st e
  | .pass _ _ => True

/-- The module as it is loaded. -/
def Timed.load : Timed where
  st := State.load
  now := 0
  delay _ := 0
  started _ := ⟨0, 0⟩
  finished _ := ⟨0, 0⟩

/-- How the times and the fields of a worker that is at `pc` stand to the
moments `started` and `finished`, when the present one is `m`. -/
def Timing (m started finished : Moment) (ba : BenchArgs) : Pc → Prop
  | .storeStart t => t.toNat = started.time ∧ started.Before m
  | .enter | .one _ _ _ | .call _ _ _ _ | .storeIpitime _ | .many _ | .sampleFinish =>
    (ba.field .start).toNat = started.time ∧ started.Before m
  | .storeFinish t =>
    (ba.field .start).toNat = started.time ∧ t.toNat = finished.time ∧
      started.Before finished ∧ finished.Before m
  | .storeRunDelay =>
    (ba.field .start).toNat = started.time ∧ (ba.field .finish).toNat = finished.time ∧
      started.Before finished ∧ finished.Before m
  | .addComplete | .wake | .done =>
    (ba.field .start).toNat = started.time ∧ (ba.field .finish).toNat = finished.time ∧
      started.Before finished ∧ finished.delay ≤ (ba.field .runDelay).toNat
  | .absent | .sampleForked | .storeForked _ | .addReady | .spinReady | .spinShould _
  | .checkReady | .checkShould _ | .bug | .sampleStart => True

def Timed.Clocked (x : Timed) (w : Worker) : Prop :=
  Timing (x.moment w) (x.started w) (x.finished w) (x.st.args w) (x.st.pc w)

section Timing

variable {p : Params} {jobs : List Job} {x x' : Timed} {s' : State} {w : Worker}
  {m m' started finished : Moment} {ba : BenchArgs}

/-- Time may pass. -/
theorem Timing.mono {pc : Pc} (h : Timing m started finished ba pc) (hm : m.Before m') :
    Timing m' started finished ba pc := by
  cases pc with
  | storeStart | enter | one | call | storeIpitime | many | sampleFinish =>
    exact ⟨h.1, h.2.trans hm⟩
  | storeFinish | storeRunDelay => exact ⟨h.1, h.2.1, h.2.2.1, h.2.2.2.trans hm⟩
  | addComplete | wake | done | absent | sampleForked | storeForked | addReady | spinReady
  | spinShould | checkReady | checkShould | bug | sampleStart => exact h

/-- What an untimed step of the worker leaves. -/
theorem timing_goto {s : State} {q : Pc} :
    Timing m started finished ((s.goto w q).args w) ((s.goto w q).pc w) ↔
      Timing m started finished (s.args w) q := by
  simp only [State.goto, update_self]

theorem timing_store {s : State} {f : Field} {v : UInt64} {q : Pc} :
    Timing m started finished (((s.store w f v).goto w q).args w)
        (((s.store w f v).goto w q).pc w) ↔
      Timing m started finished { s.args w with field := update (s.args w).field f v } q := by
  simp only [State.goto, State.store, update_self]

/-- A step of the worker that does not read the clock.  A run delay that it
reads is the one of the present moment. -/
theorem Timing.act {s : State} {e : Event} (h : Timing m started finished (s.args w) (s.pc w))
    (hact : WorkerAct p jobs s w e s') (hsample : ∀ t, e ≠ .sample w t)
    (hdelay : ∀ d, e = .runDelay w d → d.toNat = m.delay) :
    Timing m started finished (s'.args w) (s'.pc w) := by
  cases hact with
  | sampleForked | sampleStart | sampleCall | sampleFinish => exact absurd rfl (hsample _)
  | storeForked => exact timing_store.mpr trivial
  | addReady | spinReady | spin | leave | checkReady | bug | pass =>
    exact timing_goto.mpr trivial
  | @storeStart t hpc =>
    rw [hpc] at h
    refine timing_store.mpr ⟨?_, h.2⟩
    show (update (s.args w).field .start t .start).toNat = _
    rw [update_self]
    exact h.1
  | enterSingle hpc _ _ | enterMany hpc _ _ | callFailed hpc _ _ | callWaited hpc _ _ _
  | callSent hpc _ _ _ | endOne hpc | many hpc _ | endMany hpc | addComplete hpc | wake hpc =>
    rw [hpc] at h
    exact timing_goto.mpr h
  | storeIpitime hpc =>
    rw [hpc] at h
    exact timing_store.mpr h
  | @storeFinish t hpc =>
    rw [hpc] at h
    refine timing_store.mpr ⟨h.1, ?_, h.2.2⟩
    show (update (s.args w).field .finish t .finish).toNat = _
    rw [update_self]
    exact h.2.1
  | @runDelay d hpc =>
    rw [hpc] at h
    obtain ⟨hstart, hfinish, hsection, hafter⟩ := h
    refine timing_store.mpr ⟨hstart, hfinish, hsection, ?_⟩
    show finished.delay ≤ (update (s.args w).field .runDelay d .runDelay).toNat
    rw [update_self, hdelay d rfl]
    exact hafter.delay

/-! ## Steps that mark a moment, and other steps -/

@[simp] theorem Timed.advance_st {e : Event} : (x.advance e s').st = s' := by
  unfold Timed.advance
  split
  · split_ifs <;> rfl
  · rfl

@[simp] theorem Timed.advance_moment {e : Event} : (x.advance e s').moment = x.moment := by
  unfold Timed.advance
  split
  · split_ifs <;> rfl
  · rfl

/-- Only a worker that reads the clock marks a moment. -/
theorem Timed.advance_marks {e : Event} (h : ∀ t, e ≠ .sample w t) :
    (x.advance e s').started w = x.started w ∧ (x.advance e s').finished w = x.finished w := by
  unfold Timed.advance
  split
  · rename_i v t
    have hne : w ≠ v := by
      rintro rfl
      exact h t rfl
    split_ifs
    · exact ⟨update_of_ne hne _ _, rfl⟩
    · exact ⟨rfl, update_of_ne hne _ _⟩
    · exact ⟨rfl, rfl⟩
  · exact ⟨rfl, rfl⟩

theorem act_of_timedStep {e : Event} (h : timedStep p jobs x (.act e) = some x') :
    e.OnTime x ∧ ∃ s', step p jobs x.st e = some s' ∧ x' = x.advance e s' := by
  simp only [timedStep, Option.ite_none_right_eq_some, Option.map_eq_some_iff] at h
  obtain ⟨htime, s', hst, rfl⟩ := h
  exact ⟨htime, s', hst, rfl⟩

theorem Timed.advance_start {t : UInt64} (hpc : x.st.pc w = .sampleStart) :
    (x.advance (.sample w t) s').started w = x.moment w := by
  simp [Timed.advance, hpc]

theorem Timed.advance_finish {t : UInt64} (hpc : x.st.pc w = .sampleFinish) :
    (x.advance (.sample w t) s').started w = x.started w ∧
      (x.advance (.sample w t) s').finished w = x.moment w := by
  simp [Timed.advance, hpc]

theorem Timed.advance_one {t : UInt64} {dst : Int} {loop : Nat} {ipitime : UInt64}
    (hpc : x.st.pc w = .one dst loop ipitime) :
    (x.advance (.sample w t) s').started w = x.started w ∧
      (x.advance (.sample w t) s').finished w = x.finished w := by
  simp [Timed.advance, hpc]

/-- The worker reads the clock. -/
theorem Timed.Clocked.sample {t : UInt64} (h : x.Clocked w) (htime : t.toNat = x.now)
    (hact : WorkerAct p jobs x.st w (.sample w t) s') :
    (x.advance (.sample w t) s').Clocked w := by
  unfold Timed.Clocked at h ⊢
  rw [Timed.advance_moment, Timed.advance_st]
  cases hact with
  | sampleForked => exact timing_goto.mpr trivial
  | sampleStart hpc _ =>
    refine timing_goto.mpr ?_
    rw [Timed.advance_start hpc]
    exact ⟨htime, .refl _⟩
  | sampleCall hpc _ _ =>
    rw [(Timed.advance_one hpc).1, (Timed.advance_one hpc).2]
    rw [hpc] at h
    exact timing_goto.mpr h
  | sampleFinish hpc _ =>
    rw [(Timed.advance_finish hpc).1, (Timed.advance_finish hpc).2]
    rw [hpc] at h
    exact timing_goto.mpr ⟨h.1, htime, h.2, .refl _⟩

/-- A step that is not one of worker `w`. -/
theorem Timing.other {s : State} {e : Event} (h : Timing m started finished (s.args w) (s.pc w))
    (hcounted : Counted jobs s) (he : e.actor ≠ some w)
    (hst : IpiBench.step p jobs s e = some s') :
    Timing m started finished (s'.args w) (s'.pc w) := by
  cases hactor : e.actor with
  | some v =>
    have hwv : w ≠ v := by
      rintro rfl
      exact he hactor
    obtain ⟨hargs, -, hpc⟩ := (workerMove_of_step hactor hst).others hwv
    rwa [hargs, hpc]
  | none =>
    obtain ⟨hargs, hpc⟩ | ⟨-, hpc⟩ := (mainMove_of_step hactor hst).worker hcounted w
    · rwa [hargs, hpc]
    · rcases hpc with hpc | hpc
      · rw [hpc]
        trivial
      · rw [hpc]
        trivial

theorem Timed.Clocked.act {e : Event} (h : x.Clocked w) (hcounted : Counted jobs x.st)
    (hst : timedStep p jobs x (.act e) = some x') : x'.Clocked w := by
  obtain ⟨htime, s', hbase, rfl⟩ := act_of_timedStep hst
  by_cases hsample : ∃ t, e = .sample w t
  · obtain ⟨t, rfl⟩ := hsample
    exact h.sample htime (act_of_step rfl hbase)
  · have hnot : ∀ t, e ≠ .sample w t := fun t heq => hsample ⟨t, heq⟩
    obtain ⟨hstarted, hfinished⟩ :
        (x.advance e s').started w = x.started w ∧ (x.advance e s').finished w = x.finished w :=
      Timed.advance_marks hnot
    unfold Timed.Clocked at h ⊢
    rw [Timed.advance_moment, Timed.advance_st, hstarted, hfinished]
    by_cases he : e.actor = some w
    · refine h.act (act_of_step he hbase) hnot ?_
      rintro d rfl
      exact htime
    · exact h.other hcounted he hbase

theorem Timed.Clocked.step {e : TimedEvent} (h : x.Clocked w) (hcounted : Counted jobs x.st)
    (hst : timedStep p jobs x e = some x') : x'.Clocked w := by
  cases e with
  | act e => exact h.act hcounted hst
  | pass dt waiting =>
    cases hst
    refine h.mono ⟨Nat.le_add_right _ _, ?_, ?_⟩
    · simp only [Timed.moment]
      split_ifs <;> omega
    · simp only [Timed.moment]
      split_ifs <;> omega

/-- Without the time and the counters, a run is one of the machine. -/
def timedView (p : Params) (jobs : List Job) : View (timedStep p jobs) (step p jobs) where
  Inv _ := True
  state := Timed.st
  events _ e :=
    match e with
    | .act e => [e]
    | .pass _ _ => []
  inv_step _ _ := trivial
  simulates := by
    intro x e x' _ hst
    cases e with
    | act e =>
      obtain ⟨-, s', hbase, rfl⟩ := act_of_timedStep hst
      rw [Timed.advance_st]
      exact exec_one hbase
    | pass dt waiting =>
      cases hst
      rfl

theorem clocked_of_exec {es : List TimedEvent}
    (hrun : exec (timedStep p jobs) Timed.load es = some x) (w : Worker) : x.Clocked w := by
  have hrun' := exec_invariant' (I := fun x : Timed => Counted jobs x.st ∧ x.Clocked w)
    (fun x e x' hI hst => by
      refine ⟨?_, hI.2.step hI.1 hst⟩
      exact counted_of_exec hI.1 ((timedView p jobs).simulates trivial hst))
    (s := Timed.load) ⟨counted_load jobs, trivial⟩ hrun
  exact hrun'.2

/-- The stale stores are those of the machine without the time. -/
theorem noStaleStore_trace_iff {es : List TimedEvent}
    (hrun : exec (timedStep p jobs) Timed.load es = some x) :
    AllSteps (step p jobs) NoStaleStore State.load ((timedView p jobs).trace Timed.load es) ↔
      AllSteps (timedStep p jobs) TimedEvent.NoStaleStore Timed.load es := by
  refine ((timedView p jobs).allSteps_trace trivial hrun).trans ?_
  refine allSteps_congr (fun x e => ?_) _ _
  cases e with
  | act e => exact allSteps_one
  | pass dt waiting => exact Iff.rfl

theorem exec_base {es : List TimedEvent} (hrun : exec (timedStep p jobs) Timed.load es = some x) :
    exec (step p jobs) State.load ((timedView p jobs).trace Timed.load es) = some x.st :=
  (timedView p jobs).exec_trace trivial hrun

/-- A worker that has stored `finish`. -/
theorem Timed.Clocked.of_finish (h : x.Clocked w) (hcounted : Counted jobs x.st)
    (hfinish : .finish ∈ x.st.stored w) :
    ((x.st.args w).field .start).toNat = (x.started w).time ∧
      ((x.st.args w).field .finish).toNat = (x.finished w).time ∧
      (x.started w).Before (x.finished w) ∧
      (.runDelay ∈ x.st.stored w →
        (x.finished w).delay ≤ ((x.st.args w).field .runDelay).toNat) := by
  have hpast := (hcounted.stored w .finish (by simp)).mp hfinish
  have hdelay := hcounted.stored w .runDelay (by simp)
  unfold Timed.Clocked at h
  cases hpc : x.st.pc w with
  | storeRunDelay =>
    rw [hpc] at h hdelay
    exact ⟨h.1, h.2.1, h.2.2.1, fun hmem => (hdelay.mp hmem).elim⟩
  | addComplete | wake | done =>
    rw [hpc] at h
    exact ⟨h.1, h.2.1, h.2.2.1, fun _ => h.2.2.2⟩
  | absent | sampleForked | storeForked | addReady | spinReady | spinShould | checkReady
  | checkShould | bug | sampleStart | storeStart | enter | one | call | storeIpitime | many
  | sampleFinish | storeFinish =>
    rw [hpc] at hpast
    exact hpast.elim

end Timing

/-! ## The elapsed time of a report -/

theorem reportElapsed_toNat {start finish runDelay : UInt64} (h : start.toNat ≤ finish.toNat) :
    (reportElapsed start finish runDelay).toNat =
      if runDelay.toNat < finish.toNat - start.toNat then
        finish.toNat - start.toNat - runDelay.toNat
      else finish.toNat - start.toNat := by
  have hsub : (finish - start).toNat = finish.toNat - start.toNat := UInt64.toNat_sub_of_le _ _ h
  show (if finish - start > runDelay then finish - start - runDelay else finish - start).toNat = _
  by_cases hlt : runDelay < finish - start
  · have hlt' : runDelay.toNat < (finish - start).toNat := hlt
    rw [if_pos hlt, UInt64.toNat_sub_of_le _ _ (UInt64.le_of_lt hlt), hsub,
      if_pos (by rwa [← hsub])]
  · have hge : (finish - start).toNat ≤ runDelay.toNat := UInt64.not_lt.mp hlt
    rw [if_neg hlt, hsub, if_neg (by omega)]

/-- The delays with which the report comes out right.  `total` is the counter
as the worker stores it, and the report has read `start` and `runDelay`.

* The usual report has read what is stored.  If it takes the counter into
  account, then all of it must have accrued between the two readings of the
  clock.  If it does not, then nothing must have accrued there.
* A report that is too early for `run_delay` is right if nothing has accrued
  between the two readings.
* A report that is too early for `start` is right only by chance. -/
def DelaysFit (started finished : Moment) (total start runDelay : Nat) : Prop :=
  if start = started.time then
    if runDelay < finished.time - started.time then
      (runDelay = total ∧ started.delay = 0 ∧ total = finished.delay) ∨
        (runDelay = 0 ∧ finished.delay = started.delay)
    else finished.delay = started.delay
  else
    runDelay = total ∧ finished.delay ≤ total ∧ total < finished.time ∧
      started.delay + (total - finished.delay) = started.time

/-- The delays fit exactly when the two elapsed times agree. -/
theorem reportElapsed_eq_iff {started finished : Moment} {start finish runDelay : UInt64}
    {total : Nat} (hsection : started.Before finished) (hfinish : finish.toNat = finished.time)
    (hstart : start.toNat = started.time ∨ start.toNat = 0)
    (hdelay : runDelay.toNat = total ∨ runDelay.toNat = 0)
    (htotal : finished.delay ≤ total ∨ total = 0) :
    (reportElapsed start finish runDelay).toNat =
        (finished.time - started.time) - (finished.delay - started.delay) ↔
      DelaysFit started finished total start.toNat runDelay.toNat := by
  obtain ⟨htime, hmore, hslower⟩ := hsection
  have hle : start.toNat ≤ finish.toNat := by omega
  rw [reportElapsed_toNat hle, hfinish]
  unfold DelaysFit
  clear hle hfinish
  by_cases hread : start.toNat = started.time
  · rw [if_pos hread, hread]
    by_cases hlt : runDelay.toNat < finished.time - started.time
    · -- the counter that was read must be what accrued between the readings
      have hexact : finished.time - started.time - runDelay.toNat =
          finished.time - started.time - (finished.delay - started.delay) ↔
            runDelay.toNat = finished.delay - started.delay := by omega
      rw [if_pos hlt, if_pos hlt, hexact]
      clear hexact hlt hread hstart hslower htime
      omega
    · rw [if_neg hlt, if_neg hlt]
      clear hdelay htotal hlt hstart
      omega
  · -- the report has taken the start for 0
    have hzero : start.toNat = 0 := hstart.resolve_left hread
    rw [if_neg hread, hzero, Nat.sub_zero]
    clear hstart
    by_cases hlt : runDelay.toNat < finished.time
    · rw [if_pos hlt]
      omega
    · rw [if_neg hlt]
      omega

/-- A report that prints its figures, in any run, with any history of delays.
The time that it divides by `loops` is the time between the two readings of
the worker, less the run delay accrued between them, exactly when the delays
fit.

This is for runs without a stale store, in which the memory that the report
reads holds what `State.args` says.  It may otherwise hold what a late worker
of an earlier benchmark has stored. -/
theorem run_delay_correction_iff {p : Params} {jobs : List Job} {es : List TimedEvent} {x : Timed}
    {r : Report} {job : Job} (hrun : exec (timedStep p jobs) Timed.load es = some x)
    (hr : r ∈ x.st.reports) (hget : jobs[r.worker.1]? = some job)
    (hprint : report p job.task r.fields ≠ none) :
    AllSteps (timedStep p jobs) TimedEvent.NoStaleStore Timed.load es →
      ArgsInMemory p jobs ((timedView p jobs).trace Timed.load es) ∧
      ((reportElapsed (readOf job.task r.fields .start) (readOf job.task r.fields .finish)
          (readOf job.task r.fields .runDelay)).toNat =
        ((x.finished r.worker).time - (x.started r.worker).time) -
          ((x.finished r.worker).delay - (x.started r.worker).delay) ↔
      DelaysFit (x.started r.worker) (x.finished r.worker)
        ((x.st.args r.worker).field .runDelay).toNat (readOf job.task r.fields .start).toNat
        (readOf job.task r.fields .runDelay).toNat) := by
  intro hstores
  refine ⟨argsInMemory_of_noStaleStore (exec_base hrun) ((noStaleStore_trace_iff hrun).mpr hstores),
    ?_⟩
  have hrecorded := recorded_of_exec hget (exec_base hrun)
  obtain ⟨hfields, hvalues⟩ := hrecorded.of_mem_reports hr rfl
  have hfaithful := hrecorded.faithful
  have hread := fun f hf hne => hfaithful.readOf_cases hfields (f := f) hf hne
  rw [hvalues] at hread
  have hmem : .start ∈ reportFields job.task ∧ .finish ∈ reportFields job.task ∧
      .runDelay ∈ reportFields job.task := by
    cases job.task <;> decide
  have hne : readOf job.task r.fields .finish ≠ 0 := by
    intro hzero
    exact hprint (by simp [report, hzero])
  have hfinish := (hread .finish hmem.2.1 (by decide)).resolve_right hne
  -- `finish` has been read after its store, so the worker is through its section
  have hstored : .finish ∈ x.st.stored r.worker := by
    by_contra hnot
    exact hne (hfinish.trans (hfaithful.zero .finish (by decide) hnot))
  obtain ⟨hstarted, hfinished, hsection, htotal⟩ :=
    (clocked_of_exec hrun r.worker).of_finish hrecorded.counted hstored
  rw [← hfinish] at hfinished
  refine reportElapsed_eq_iff hsection hfinished ?_ ?_ ?_
  · rcases hread .start hmem.1 (by decide) with hstart | hstart
    · exact Or.inl ((congrArg UInt64.toNat hstart).trans hstarted)
    · exact Or.inr (congrArg UInt64.toNat hstart)
  · rcases hread .runDelay hmem.2.2 (by decide) with hdelay | hdelay
    · exact Or.inl (congrArg UInt64.toNat hdelay)
    · exact Or.inr (congrArg UInt64.toNat hdelay)
  · by_cases hmemDelay : .runDelay ∈ x.st.stored r.worker
    · exact Or.inl (htotal hmemDelay)
    · exact Or.inr (congrArg UInt64.toNat (hfaithful.zero .runDelay (by decide) hmemDelay))

/-- `ipi_bench_self` with one loop.  The worker waits 5 nanoseconds before it
first runs, and its call takes 10. -/
def waitedRun : List TimedEvent :=
  ([.act .main, .act (.alloc true), .act .main, .act (.build fun _ => 0), .act (.launch true),
      .pass 5 fun _ => true, .act (.sample (0, 0) 5)] : List TimedEvent) ++
    List.replicate 6 (.act (.worker (0, 0))) ++
    ([.act (.sample (0, 0) 5), .act (.worker (0, 0)), .act (.worker (0, 0)),
      .act (.sample (0, 0) 5), .pass 10 fun _ => false, .act (.call (0, 0) 0 15),
      .act (.worker (0, 0)), .act (.worker (0, 0)), .act (.sample (0, 0) 15),
      .act (.worker (0, 0)), .act (.runDelay (0, 0) 5), .act (.worker (0, 0)), .act .main,
      .act (.waitReturn .condition)] : List TimedEvent) ++
    List.replicate 6 (.act .main)

theorem exec_waitedRun :
    ∃ x, exec (timedStep (onePair 1 SELF_IPI) (benchInit twoCpus (onePair 1 SELF_IPI))) Timed.load
        waitedRun = some x ∧
      x.st.reports = [⟨(0, 0), 0, [5, 5, 15, 10, 5]⟩] ∧
      x.started (0, 0) = ⟨5, 5⟩ ∧ x.finished (0, 0) = ⟨15, 5⟩ := by
  have h : (exec (timedStep (onePair 1 SELF_IPI) (benchInit twoCpus (onePair 1 SELF_IPI)))
      Timed.load waitedRun).map (fun x => decide (
        x.st.reports = [⟨(0, 0), 0, [5, 5, 15, 10, 5]⟩] ∧
        x.started (0, 0) = ⟨5, 5⟩ ∧ x.finished (0, 0) = ⟨15, 5⟩)) = some true := by
    decide +kernel
  obtain ⟨x, hrun, hx⟩ := exists_exec_of_map h
  exact ⟨x, hrun, of_decide_eq_true hx⟩

/-- Nothing has accrued between the two readings, but the report takes off the
5 nanoseconds before them. -/
theorem delay_before_start_subtracted :
    ∃ x r, exec (timedStep (onePair 1 SELF_IPI) (benchInit twoCpus (onePair 1 SELF_IPI)))
        Timed.load waitedRun = some x ∧ r ∈ x.st.reports ∧ r.worker = (0, 0) ∧
      (x.finished (0, 0)).time - (x.started (0, 0)).time = 10 ∧
      (x.finished (0, 0)).delay - (x.started (0, 0)).delay = 0 ∧
      (reportSingle (onePair 1 SELF_IPI) r.fields).map Line.avgCall = some 5 := by
  obtain ⟨x, hrun, hreports, hstarted, hfinished⟩ := exec_waitedRun
  refine ⟨x, ⟨(0, 0), 0, [5, 5, 15, 10, 5]⟩, hrun, by simp [hreports], rfl, ?_, ?_, by decide⟩
  · rw [hstarted, hfinished]
    rfl
  · rw [hstarted, hfinished]
    rfl

/-- The delays of that run do not fit. -/
theorem run_delay_correction_iff_waitedRun :
    ∃ x : Timed, exec (timedStep (onePair 1 SELF_IPI) (benchInit twoCpus (onePair 1 SELF_IPI)))
        Timed.load waitedRun = some x ∧
      ¬ DelaysFit (x.started (0, 0)) (x.finished (0, 0))
        ((x.st.args (0, 0)).field .runDelay).toNat 5 5 := by
  obtain ⟨x, hrun, hreports, hstarted, hfinished⟩ := exec_waitedRun
  have hget : (benchInit twoCpus (onePair 1 SELF_IPI))[0]? = some (benchSelf 0) := rfl
  have hbase : AllSteps (step (onePair 1 SELF_IPI) [benchSelf 0]) NoStaleStore State.load
      ((timedView (onePair 1 SELF_IPI) [benchSelf 0]).trace Timed.load waitedRun) :=
    noStaleStore_of_single (exec_base hrun)
  have hiff := run_delay_correction_iff (r := ⟨(0, 0), 0, [5, 5, 15, 10, 5]⟩) hrun
    (by simp [hreports]) hget (by decide) ((noStaleStore_trace_iff hrun).mp hbase)
  refine ⟨x, hrun, fun hfit => ?_⟩
  have helapsed := hiff.2.mpr hfit
  rw [hstarted, hfinished] at helapsed
  exact absurd helapsed (by decide)

end KvmUtils.IpiBench
