import Mathlib.Algebra.GroupWithZero.Nat
import KvmUtils.IpiBench.Counters

/-!
# The time of the calls

With `wait` set, `ipi_bench_one` uses its local `now` first for the time
before the call.  The callback overwrites it with the difference to the time
on the target, and that difference is added to `ipitime`.

The invariant `Accounts` follows one worker through its timed section.  The
calls are disjoint intervals that lie between the start of the section and the
last reading of the clock, so their sum neither wraps nor exceeds the time
that has passed since the start.
-/

namespace KvmUtils.IpiBench

open Function Machine

/-- What a call of worker `w` that succeeds puts out: the time that it has
read before the call, and the time that the callback reads. -/
def callOutput (w : Worker) (s : State) : Event → List (UInt64 × UInt64)
  | .call v ret t =>
    if v = w ∧ 0 ≤ ret then
      match s.pc w with
      | .call _ _ _ now => [(now, t)]
      | _ => []
    else []
  | _ => []

/-- The calls of worker `w` in a run. -/
def callsOf (p : Params) (jobs : List Job) (w : Worker) (s : State) (es : List Event) :
    List (UInt64 × UInt64) :=
  outputs (step p jobs) (callOutput w) s es

/-- The sum of the times of the calls, without any wrap. -/
def totalTime (calls : List (UInt64 × UInt64)) : Nat :=
  (calls.map fun call => call.2.toNat - call.1.toNat).sum

theorem totalTime_concat (calls : List (UInt64 × UInt64)) (call : UInt64 × UInt64) :
    totalTime (calls ++ [call]) = totalTime calls + (call.2.toNat - call.1.toNat) := by
  simp [totalTime]

/-- If `ipitime` has been stored, then it is the sum of all calls. -/
def Kept (loops : Nat) (calls : List (UInt64 × UInt64)) (ba : BenchArgs)
    (stored : List Field) : Prop :=
  .ipitime ∈ stored → (ba.field .ipitime).toNat = totalTime calls ∧ calls.length = loops

/-- What a worker that is at `pc` and has made the calls `calls` has in its
locals and in its `bench_args`. -/
def Accounts (loops : Nat) (calls : List (UInt64 × UInt64)) (clock : UInt64) (ba : BenchArgs)
    (stored : List Field) (pc : Pc) : Prop :=
  match pc with
  | .one _ loop ipitime =>
    .ipitime ∉ stored ∧ ipitime.toNat = totalTime calls ∧ calls.length + loop = loops ∧
      (ba.field .start).toNat + totalTime calls ≤ clock.toNat
  | .call _ loop ipitime now =>
    .ipitime ∉ stored ∧ ipitime.toNat = totalTime calls ∧ calls.length + loop = loops ∧
      0 < loop ∧ (ba.field .start).toNat + totalTime calls ≤ now.toNat ∧ now ≤ clock
  | .storeIpitime ipitime =>
    .ipitime ∉ stored ∧ ipitime.toNat = totalTime calls ∧ calls.length = loops ∧
      (ba.field .start).toNat + totalTime calls ≤ clock.toNat
  | .enter | .many _ =>
    .ipitime ∉ stored ∧ calls = [] ∧ (ba.field .start).toNat ≤ clock.toNat
  | .storeStart t => .ipitime ∉ stored ∧ calls = [] ∧ t ≤ clock
  | .sampleFinish =>
    Kept loops calls ba stored ∧ (ba.field .start).toNat + totalTime calls ≤ clock.toNat
  | .storeFinish t =>
    Kept loops calls ba stored ∧ (ba.field .start).toNat + totalTime calls ≤ t.toNat
  | .storeRunDelay | .addComplete | .wake | .done =>
    Kept loops calls ba stored ∧
      (ba.field .start).toNat + totalTime calls ≤ (ba.field .finish).toNat
  | .absent | .sampleForked | .storeForked _ | .addReady | .spinReady | .spinShould _
  | .checkReady | .checkShould _ | .bug | .sampleStart => .ipitime ∉ stored ∧ calls = []

/-- `Accounts` for worker `w` in the state `s`. -/
def State.Tallied (s : State) (p : Params) (w : Worker) (calls : List (UInt64 × UInt64)) : Prop :=
  Accounts p.loops.toNat calls s.clock (s.args w) (s.stored w) (s.pc w)

section Accounts

variable {p : Params} {jobs : List Job} {s s' : State} {w : Worker}
  {calls : List (UInt64 × UInt64)}

/-- The clock may go on. -/
theorem Accounts.mono {loops : Nat} {clock clock' : UInt64} {ba : BenchArgs}
    {stored : List Field} {pc : Pc} (h : Accounts loops calls clock ba stored pc)
    (hclock : clock ≤ clock') : Accounts loops calls clock' ba stored pc := by
  have hle : clock.toNat ≤ clock'.toNat := hclock
  cases pc with
  | one | storeIpitime =>
    exact ⟨h.1, h.2.1, h.2.2.1, le_trans h.2.2.2 hle⟩
  | call =>
    obtain ⟨hstored, hsum, hlen, hpos, hstart, hnow⟩ := h
    exact ⟨hstored, hsum, hlen, hpos, hstart, UInt64.le_trans hnow hclock⟩
  | enter | many => exact ⟨h.1, h.2.1, le_trans h.2.2 hle⟩
  | storeStart => exact ⟨h.1, h.2.1, UInt64.le_trans h.2.2 hclock⟩
  | sampleFinish => exact ⟨h.1, le_trans h.2 hle⟩
  | absent | sampleForked | storeForked | addReady | spinReady | spinShould | checkReady
  | checkShould | bug | sampleStart | storeFinish | storeRunDelay | addComplete | wake | done =>
    exact h

theorem tallied_goto (q : Pc) :
    (s.goto w q).Tallied p w calls ↔
      Accounts p.loops.toNat calls s.clock (s.args w) (s.stored w) q := by
  simp only [State.Tallied, State.goto, update_self]

theorem tallied_store (f : Field) (v : UInt64) (q : Pc) :
    ((s.store w f v).goto w q).Tallied p w calls ↔
      Accounts p.loops.toNat calls s.clock
        { s.args w with field := update (s.args w).field f v } (f :: s.stored w) q := by
  simp only [State.Tallied, State.goto, State.store, update_self]

theorem not_mem_cons_stored {f : Field} {stored : List Field} (h : .ipitime ∉ stored)
    (hf : f ≠ .ipitime) : .ipitime ∉ f :: stored := by
  rw [List.mem_cons, not_or]
  exact ⟨hf.symm, h⟩

theorem Kept.store {loops : Nat} {ba : BenchArgs} {stored : List Field} {f : Field} {v : UInt64}
    (h : Kept loops calls ba stored) (hf : f ≠ .ipitime) :
    Kept loops calls { ba with field := update ba.field f v } (f :: stored) := by
  intro hmem
  show (update ba.field f v .ipitime).toNat = _ ∧ _
  rw [update_of_ne hf.symm]
  exact h (List.mem_of_ne_of_mem hf.symm hmem)

/-- A step of the worker that is no call. -/
theorem State.Tallied.act {e : Event} (h : s.Tallied p w calls)
    (hact : WorkerAct p jobs s w e s') (hcall : ∀ ret t, e ≠ .call w ret t) :
    s'.Tallied p w calls := by
  unfold State.Tallied at h
  cases hact with
  | callFailed | callWaited | callSent => exact absurd rfl (hcall _ _)
  | sampleForked hpc _ | addReady hpc | spinReady hpc | spin hpc _ | leave hpc _
  | checkReady hpc | bug hpc _ | pass hpc _ | addComplete hpc | wake hpc =>
    rw [hpc] at h
    exact (tallied_goto _).mpr h
  | storeForked hpc =>
    rw [hpc] at h
    exact (tallied_store _ _ _).mpr ⟨not_mem_cons_stored h.1 (by simp), h.2⟩
  | sampleStart hpc _ =>
    rw [hpc] at h
    exact (tallied_goto _).mpr ⟨h.1, h.2, UInt64.le_refl _⟩
  | @storeStart t hpc =>
    rw [hpc] at h
    refine (tallied_store _ _ _).mpr ⟨not_mem_cons_stored h.1 (by simp), h.2.1, ?_⟩
    show (update (s.args w).field .start t .start).toNat ≤ s.clock.toNat
    rw [update_self]
    exact h.2.2
  | enterSingle hpc _ _ =>
    rw [hpc] at h
    obtain ⟨hstored, rfl, hstart⟩ := h
    exact (tallied_goto _).mpr ⟨hstored, rfl, Nat.zero_add _, hstart⟩
  | enterMany hpc _ _ | many hpc _ =>
    rw [hpc] at h
    exact (tallied_goto _).mpr h
  | sampleCall hpc hloop hclock =>
    rw [hpc] at h
    obtain ⟨hstored, hsum, hlen, hstart⟩ := h
    exact (tallied_goto _).mpr
      ⟨hstored, hsum, hlen, Nat.pos_of_ne_zero hloop, le_trans hstart hclock, UInt64.le_refl _⟩
  | endOne hpc =>
    rw [hpc] at h
    exact (tallied_goto _).mpr h
  | @storeIpitime ipitime hpc =>
    rw [hpc] at h
    obtain ⟨-, hsum, hlen, hstart⟩ := h
    refine (tallied_store _ _ _).mpr ⟨fun _ => ⟨?_, hlen⟩, ?_⟩
    · show (update (s.args w).field .ipitime ipitime .ipitime).toNat = _
      rw [update_self, hsum]
    · exact hstart
  | endMany hpc =>
    rw [hpc] at h
    obtain ⟨hstored, rfl, hstart⟩ := h
    exact (tallied_goto _).mpr ⟨fun hmem => absurd hmem hstored, hstart⟩
  | sampleFinish hpc hclock =>
    rw [hpc] at h
    exact (tallied_goto _).mpr ⟨h.1, le_trans h.2 hclock⟩
  | @storeFinish t hpc =>
    rw [hpc] at h
    refine (tallied_store _ _ _).mpr ⟨h.1.store (by simp), ?_⟩
    show ((s.args w).field .start).toNat + totalTime calls ≤
      (update (s.args w).field .finish t .finish).toNat
    rw [update_self]
    exact h.2
  | runDelay hpc =>
    rw [hpc] at h
    exact (tallied_store _ _ _).mpr ⟨h.1.store (by simp), h.2⟩

/-- The callback leaves the difference of the two times. -/
theorem ipiBenchGettime_toNat {now t : UInt64} (h : now ≤ t) :
    (ipiBenchGettime now t).toNat = t.toNat - now.toNat := by
  have hle : now.toNat ≤ t.toNat := h
  unfold ipiBenchGettime
  split
  · exact UInt64.toNat_sub_of_le _ _ h
  · rename_i hnot
    have hge : t.toNat ≤ now.toNat := UInt64.not_lt.mp hnot
    show 0 = _
    omega

/-- A call that succeeds and is waited for. -/
theorem State.Tallied.call {ret : Int} {t : UInt64} (h : s.Tallied p w calls)
    (hwait : p.wait = true) (hret : 0 ≤ ret) (hact : WorkerAct p jobs s w (.call w ret t) s') :
    s'.Tallied p w (calls ++ callOutput w s (.call w ret t)) := by
  unfold State.Tallied at h
  cases hact with
  | callFailed _ hfailed _ => omega
  | callSent _ _ hsent _ =>
    rw [hwait] at hsent
    cases hsent
  | @callWaited dst loop ipitime now _ _ hpc _ _ hclock =>
    have hout : callOutput w s (.call w ret t) = [(now, t)] := by
      rw [callOutput, if_pos ⟨rfl, hret⟩, hpc]
    rw [hpc] at h
    obtain ⟨hstored, hsum, hlen, hpos, hstart, hnow⟩ := h
    have hnowt : now ≤ t := UInt64.le_trans hnow hclock
    have hle : now.toNat ≤ t.toNat := hnowt
    have hlt : t.toNat < 2 ^ 64 := t.toNat_lt
    rw [hout]
    refine (tallied_goto _).mpr ⟨hstored, ?_, ?_, ?_⟩
    · -- the calls so far fit below `now`, so the sum does not wrap
      rw [totalTime_concat, UInt64.toNat_add, ipiBenchGettime_toNat hnowt, hsum]
      exact Nat.mod_eq_of_lt (by omega)
    · rw [List.length_append, List.length_singleton]
      omega
    · show ((s.args w).field .start).toNat + totalTime (calls ++ [(now, t)]) ≤ t.toNat
      rw [totalTime_concat]
      show _ + (_ + (t.toNat - now.toNat)) ≤ t.toNat
      omega

/-- A step that leaves worker `w` and its `bench_args` alone. -/
theorem State.Tallied.of_frame (h : s.Tallied p w calls) (hclock : s.clock ≤ s'.clock)
    (hargs : s'.args w = s.args w) (hstored : s'.stored w = s.stored w)
    (hpc : s'.pc w = s.pc w) : s'.Tallied p w calls := by
  unfold State.Tallied
  rw [hargs, hstored, hpc]
  exact h.mono hclock

/-- A step of another worker. -/
theorem State.Tallied.other {v : Worker} (h : s.Tallied p w calls) (hvw : w ≠ v)
    (hmove : WorkerMove s v s') : s'.Tallied p w calls := by
  obtain ⟨hargs, hstored, hpc⟩ := hmove.others hvw
  exact h.of_frame hmove.clock_le hargs hstored hpc

/-- The main thread writes the `bench_args` of workers that do not exist
yet. -/
theorem State.Tallied.main {e : Event} (h : s.Tallied p w calls) (hcounted : Counted jobs s)
    (hmove : MainMove jobs s e s') : s'.Tallied p w calls := by
  have hstored : s'.stored w = s.stored w := congrFun hmove.stored_eq w
  obtain ⟨hargs, hpc⟩ | ⟨habsent, hpc⟩ := hmove.worker hcounted w
  · exact h.of_frame hmove.clock_le hargs hstored hpc
  · unfold State.Tallied at h ⊢
    rw [habsent] at h
    rw [hstored]
    rcases hpc with hpc | hpc
    · rw [hpc]
      exact h
    · rw [hpc]
      exact h

/-- The call, if the event is one of worker `w`, succeeds. -/
def CallSucceeds (w : Worker) (_ : State) (e : Event) : Prop :=
  ∀ ret t, e = .call w ret t → 0 ≤ ret

theorem callOutput_of_not_call {e : Event} (h : ∀ ret t, e ≠ .call w ret t) :
    callOutput w s e = [] := by
  cases e with
  | call v ret t =>
    rw [callOutput, if_neg]
    rintro ⟨rfl, -⟩
    exact h ret t rfl
  | main | alloc | build | launch | mainSample | waitReturn | worker | sample | runDelay => rfl

theorem callOutput_of_actor {e : Event} (h : e.actor ≠ some w) : callOutput w s e = [] := by
  refine callOutput_of_not_call fun ret t heq => h ?_
  rw [heq]
  rfl

theorem State.Tallied.step {e : Event} (h : s.Tallied p w calls) (hcounted : Counted jobs s)
    (hwait : p.wait = true) (hcall : CallSucceeds w s e)
    (hst : IpiBench.step p jobs s e = some s') :
    s'.Tallied p w (calls ++ callOutput w s e) := by
  cases he : e.actor with
  | none =>
    rw [callOutput_of_actor (by simp [he]), List.append_nil]
    exact h.main hcounted (mainMove_of_step he hst)
  | some v =>
    by_cases hvw : w = v
    · subst hvw
      by_cases hany : ∃ ret t, e = .call w ret t
      · obtain ⟨ret, t, rfl⟩ := hany
        exact h.call hwait (hcall ret t rfl) (act_of_step he hst)
      · have hnot : ∀ ret t, e ≠ .call w ret t := fun ret t heq => hany ⟨ret, t, heq⟩
        rw [callOutput_of_not_call hnot, List.append_nil]
        exact h.act (act_of_step he hst) hnot
    · have hne : e.actor ≠ some w := by
        rw [he]
        exact fun heq => hvw (Option.some.inj heq).symm
      rw [callOutput_of_actor hne, List.append_nil]
      exact h.other hvw (workerMove_of_step he hst)

/-- The callback reads its time after the caller. -/
theorem State.Tallied.callOutput_le {e : Event} (h : s.Tallied p w calls)
    (hst : IpiBench.step p jobs s e = some s') : ∀ c ∈ callOutput w s e, c.1 ≤ c.2 := by
  cases e with
  | main | alloc | build | launch | mainSample | waitReturn | worker | sample | runDelay => nofun
  | call v ret t =>
    intro c hc
    rw [callOutput] at hc
    split_ifs at hc with hown
    · split at hc
      · rename_i hpc
        obtain rfl := List.mem_singleton.mp hc
        unfold State.Tallied at h
        rw [hpc] at h
        simp only [IpiBench.step, Option.ite_none_right_eq_some] at hst
        exact UInt64.le_trans h.2.2.2.2.2 hst.1
      · cases hc
    · cases hc

/-- Once `ipitime` is stored, it is the sum of the calls. -/
theorem State.Tallied.kept (h : s.Tallied p w calls) :
    Kept p.loops.toNat calls (s.args w) (s.stored w) := by
  unfold State.Tallied at h
  cases hpc : s.pc w <;> rw [hpc] at h <;> first
    | exact h.1
    | exact fun hmem => absurd hmem h.1

/-- Once `finish` is stored, the calls fit between `start` and `finish`. -/
theorem State.Tallied.finish (h : s.Tallied p w calls)
    (hpast : Pc.PastStore .finish (s.pc w)) :
    ((s.args w).field .start).toNat + totalTime calls ≤ ((s.args w).field .finish).toNat := by
  unfold State.Tallied at h
  cases hpc : s.pc w <;> rw [hpc] at h hpast <;> first
    | exact h.2
    | exact hpast.elim

/-- A worker whose calls all succeed, in any run of the module.

1. It makes one call for each turn of its loop before it stores `ipitime`, and
   each callback reads its time after the caller.
2. What it stores is the sum of the times of the calls, which does not wrap.
3. Once it has stored `finish`, its start time and `ipitime` add up to no more
   than `finish`. -/
theorem ipitime_eq_totalTime {es : List Event} (hwait : p.wait = true)
    (hcalls : ∀ ret t, Event.call w ret t ∈ es → 0 ≤ ret)
    (hrun : exec (IpiBench.step p jobs) State.load es = some s)
    (hstored : .ipitime ∈ s.stored w) :
    (callsOf p jobs w State.load es).length = p.loops.toNat ∧
    (∀ c ∈ callsOf p jobs w State.load es, c.1 ≤ c.2) ∧
    ((s.args w).field .ipitime).toNat = totalTime (callsOf p jobs w State.load es) ∧
    (.finish ∈ s.stored w →
      ((s.args w).field .start).toNat + ((s.args w).field .ipitime).toNat ≤
        ((s.args w).field .finish).toNat) := by
  have hsucceed : AllSteps (IpiBench.step p jobs) (CallSucceeds w) State.load es :=
    (allSteps_iff_forall (Q := fun e => ∀ ret t, e = .call w ret t → 0 ≤ ret) hrun).mpr
      fun e he ret t heq => hcalls ret t (heq ▸ he)
  have hrun' := exec_invariant_outputs (f := callOutput w) (P := CallSucceeds w)
    (I := fun s calls => Counted jobs s ∧ s.Tallied p w calls ∧ ∀ c ∈ calls, c.1 ≤ c.2)
    (fun s e s' calls hI hP hst =>
      ⟨counted_of_exec hI.1 (exec_one hst), hI.2.1.step hI.1 hwait hP hst, fun c hc =>
        (List.mem_append.mp hc).elim (hI.2.2 c) (hI.2.1.callOutput_le hst c)⟩)
    (s := State.load) (o := []) ⟨counted_load jobs, ⟨nofun, rfl⟩, nofun⟩ hsucceed hrun
  obtain ⟨hcounted, htallied, hordered⟩ := hrun'
  rw [List.nil_append] at htallied hordered
  obtain ⟨hsum, hlen⟩ := htallied.kept hstored
  refine ⟨hlen, hordered, hsum, fun hfinish => ?_⟩
  rw [hsum]
  exact htallied.finish ((hcounted.stored w .finish (by simp)).mp hfinish)

end Accounts

/-- `ipi_bench_self` with two loops: its worker calls at the times 3 and 5. -/
def selfRun : List Event :=
  [.main, .alloc true, .main, .build fun _ => 0, .launch true, .sample (0, 0) 1] ++
    List.replicate 6 (.worker (0, 0)) ++
    [.sample (0, 0) 2, .worker (0, 0), .worker (0, 0), .sample (0, 0) 3, .call (0, 0) 0 5,
      .sample (0, 0) 5, .call (0, 0) 0 9, .worker (0, 0), .worker (0, 0), .sample (0, 0) 10,
      .worker (0, 0)]

/-- Its calls take 2 and 4, which fits between its start and its finish. -/
theorem ipitime_of_two_calls : ∃ s : State,
    exec (step ⟨2, 0, 1, 0, true, 0, true, SELF_IPI⟩ [benchSelf 0]) State.load selfRun = some s ∧
      ((s.args (0, 0)).field .ipitime).toNat =
        totalTime (callsOf ⟨2, 0, 1, 0, true, 0, true, SELF_IPI⟩ [benchSelf 0] (0, 0) State.load
          selfRun) ∧
      ((s.args (0, 0)).field .start).toNat + ((s.args (0, 0)).field .ipitime).toNat ≤
        ((s.args (0, 0)).field .finish).toNat ∧
      (s.args (0, 0)).field .ipitime = 6 := by
  have h : (exec (step ⟨2, 0, 1, 0, true, 0, true, SELF_IPI⟩ [benchSelf 0]) State.load
      selfRun).map (fun s => decide (.ipitime ∈ s.stored (0, 0) ∧ .finish ∈ s.stored (0, 0) ∧
        (s.args (0, 0)).field .ipitime = 6)) = some true := by
    decide +kernel
  obtain ⟨s, hrun, hs⟩ := exists_exec_of_map h
  obtain ⟨hipitime, hfinish, hsix⟩ := of_decide_eq_true hs
  have hcalls : ∀ ret t, Event.call (0, 0) ret t ∈ selfRun → 0 ≤ ret := by
    intro ret t hmem
    simp only [selfRun, List.mem_append, List.mem_cons, List.mem_replicate] at hmem
    simp at hmem
    omega
  have haccount := ipitime_eq_totalTime (w := (0, 0)) rfl hcalls hrun hipitime
  exact ⟨s, hrun, haccount.2.2.1, haccount.2.2.2 hfinish, hsix⟩

end KvmUtils.IpiBench
