import KvmUtils.IpiBench.Broadcast

/-!
# The callbacks of a broadcast

`broadcastView` takes a worker of `Broadcast` for `ipi_bench_many` as it is in
`Callbacks`, where a callback is one step, and `manyView` takes that for an
asynchronous call.  So the account of the messages of an asynchronous call is
one of the callbacks of each worker, whatever the other workers do.

`broadcasts_are_delivered` says that no callback is lost and none runs twice.
-/

namespace KvmUtils.IpiBench

open Function Machine AsyncCall

/-! ## The messages of `ipi_bench_many` -/

section Delivery

variable {p : Params} {lock : Bool} {online : List Int}

/-- The callback that runs in a step of `ipi_bench_many`. -/
def manyDelivered (s : ManyState) : ManyEvent → List Message
  | .deliver i => (s.flight[i]?.map Prod.snd).toList
  | _ => []

/-- The callbacks that a step of `ipi_bench_many` sends. -/
def manySends (lock : Bool) (cpu : Int) (online : List Int) (s : ManyState) :
    ManyEvent → List Message
  | .test =>
    match s.pc with
    | .head loop => if loop = 0 then [] else manyMessages lock cpu online
    | _ => []
  | _ => []

/-- The calls that `ipi_bench_many` has made out of `loops`. -/
def ManyPc.calls (loops : Nat) : ManyPc → Nat
  | .head loop => loops - loop
  | .inCall loop => loops - loop + 1
  | .returned => loops

/-- What `ipi_bench_many` has sent are the callbacks of the calls that it has
made. -/
structure SentCalls (p : Params) (lock : Bool) (cpu : Int) (online : List Int) (s : ManyState)
    (msgs : List Message) : Prop where
  sent : msgs = (List.replicate (s.pc.calls p.loops.toNat) (manyMessages lock cpu online)).flatten
  head_le : ∀ loop, s.pc = .head loop → loop ≤ p.loops.toNat
  inCall_le : ∀ loop, s.pc = .inCall loop → 0 < loop ∧ loop ≤ p.loops.toNat

theorem SentCalls.step {cpu : Int} {s s' : ManyState} {e : ManyEvent} {msgs : List Message}
    (h : SentCalls p lock cpu online s msgs) (hst : manyStep p lock cpu online s e = some s') :
    SentCalls p lock cpu online s' (msgs ++ manySends lock cpu online s e) := by
  have hsent := h.sent
  cases move_of_manyStep hst with
  | leave hpc =>
    refine ⟨?_, nofun, nofun⟩
    rw [hpc] at hsent
    simpa [manySends, hpc, ManyPc.calls] using hsent
  | @post loop hpc hloop =>
    have hle := h.head_le _ hpc
    refine ⟨?_, nofun, fun loop' hpc' => ?_⟩
    · rw [hpc] at hsent
      simp only [manySends, hpc, if_neg hloop, ManyPc.calls] at hsent ⊢
      rw [hsent, List.replicate_succ', List.flatten_append, List.flatten_singleton]
    · obtain rfl : loop = loop' := ManyPc.inCall.inj hpc'
      exact ⟨Nat.pos_of_ne_zero hloop, hle⟩
  | deliver _ => exact ⟨by simpa [manySends] using hsent, h.head_le, h.inCall_le⟩
  | @goOn loop hpc _ =>
    obtain ⟨hpos, hle⟩ := h.inCall_le _ hpc
    refine ⟨?_, fun loop' hpc' => ?_, nofun⟩
    · have hcalls : p.loops.toNat - loop + 1 = p.loops.toNat - (loop - 1) := by omega
      rw [hpc] at hsent
      simpa [manySends, ManyPc.calls, hcalls] using hsent
    · obtain rfl : loop - 1 = loop' := ManyPc.head.inj hpc'
      omega

theorem sent_manyActs {cpu : Int} {s s' : ManyState} {e : ManyEvent}
    (hst : manyStep p lock cpu online s e = some s') :
    outputs (AsyncCall.step p.wait) sent ((manyView p lock cpu online).state s)
      (manyActs lock cpu online s e) = manySends lock cpu online s e := by
  have hsim := (manyView p lock cpu online).simulates trivial hst
  change exec _ _ (manyActs lock cpu online s e) = _ at hsim
  cases move_of_manyStep hst with
  | leave hpc =>
    simp only [manyActs, hpc, if_true] at hsim ⊢
    rw [outputs_one _ hsim]
    simp [manySends, hpc, sent]
  | post hpc hloop =>
    simp only [manyActs, hpc, if_neg hloop] at hsim ⊢
    rw [outputs_one _ hsim]
    simp [manySends, hpc, hloop, sent]
  | deliver _ | goOn _ _ => exact outputs_one _ hsim

theorem delivered_manyActs {cpu : Int} {s s' : ManyState} {e : ManyEvent}
    (hst : manyStep p lock cpu online s e = some s') :
    outputs (AsyncCall.step p.wait) delivered ((manyView p lock cpu online).state s)
      (manyActs lock cpu online s e) = manyDelivered s e := by
  have hsim := (manyView p lock cpu online).simulates trivial hst
  change exec _ _ (manyActs lock cpu online s e) = _ at hsim
  cases move_of_manyStep hst with
  | leave hpc =>
    simp only [manyActs, hpc, if_true] at hsim ⊢
    exact outputs_one _ hsim
  | post hpc hloop =>
    simp only [manyActs, hpc, if_neg hloop] at hsim ⊢
    exact outputs_one _ hsim
  | deliver _ | goOn _ _ => exact outputs_one _ hsim

/-- The callbacks that have run and those in flight are those of the calls
that `ipi_bench_many` has made. -/
theorem many_accounts {cpu : Int} {s : ManyState} {es : List ManyEvent}
    (hrun : exec (manyStep p lock cpu online) (ManyState.enter p) es = some s) :
    s.pc.calls p.loops.toNat ≤ p.loops.toNat ∧
      (outputs (manyStep p lock cpu online) manyDelivered (ManyState.enter p) es ++
        s.flight.map Prod.snd).Perm
        (List.replicate (s.pc.calls p.loops.toNat) (manyMessages lock cpu online)).flatten := by
  have henter : SentCalls p lock cpu online (ManyState.enter p) [] := by
    refine ⟨?_, fun loop hpc => ?_, nofun⟩
    · simp [ManyState.enter, ManyPc.calls]
    · exact Nat.le_of_eq (ManyPc.head.inj hpc).symm
  have hsent := exec_invariant_outputs (P := fun _ _ => True)
    (fun _ _ _ _ h _ hst => SentCalls.step h hst) henter
    (allSteps_of_forall (fun _ _ => trivial) _ es) hrun
  have htrace := (manyView p lock cpu online).exec_trace trivial hrun
  have haccounts := run_accounts htrace
  rw [(manyView p lock cpu online).outputs_trace (f := manySends lock cpu online) ?_ trivial hrun,
    (manyView p lock cpu online).outputs_trace (f := manyDelivered) ?_ trivial hrun] at haccounts
  · refine ⟨?_, ?_⟩
    · cases hpc : s.pc with
      | head loop => exact Nat.sub_le _ _
      | inCall loop =>
        obtain ⟨hpos, hle⟩ := hsent.inCall_le _ hpc
        rw [ManyPc.calls]
        omega
      | returned => exact Nat.le_refl _
    · rw [← hsent.sent]
      exact haccounts.symm
  · exact fun _ hst => delivered_manyActs hst
  · exact fun _ hst => sent_manyActs hst

end Delivery

/-! ## One worker among the others -/

section BroadcastView

variable {ι : Type*} [DecidableEq ι]

/-- The callback as a message in flight. -/
def Pending.inFlight (m : Pending) : Nat × Message := (m.loop, m.message)

theorem map_inFlight_set {ms : List Pending} {i : Nat} {m : Pending} (hm : ms[i]? = some m)
    (stage : CallbackStage) :
    (ms.set i { m with stage := stage }).map Pending.inFlight = ms.map Pending.inFlight := by
  obtain ⟨hi, rfl⟩ := List.getElem?_eq_some_iff.mp hm
  rw [List.map_set]
  have hset := @List.set_getElem_self _ (ms.map Pending.inFlight) i (by rwa [List.length_map])
  rw [List.getElem_map] at hset
  exact hset

/-- What a step is for worker `w` as one of `ipi_bench_many`. -/
def manyEvents (w : ι) (s : BroadcastState ι) : BroadcastEvent ι → List ManyEvent
  | .test v => if v = w then [.test] else []
  | .callReturns v => if v = w then [.callReturns] else []
  | .enter _ _ => []
  | .callback v i =>
    if v = w ∧ (s.pending w)[i]?.any (fun m => decide m.AtEnd) = true then [.deliver i] else []

/-- The callback of worker `w` that returns in the step, if one does. -/
def callbackReturned (w : ι) (s : BroadcastState ι) : BroadcastEvent ι → List Message
  | .callback v i =>
    if v = w then (((s.pending w)[i]?.filter fun m => decide m.AtEnd).map Pending.message).toList
    else []
  | _ => []

variable [Fintype ι] (p : Params) (lock : Bool) (cpu : ι → Int) (online : List Int)

/-- One worker is in `ipi_bench_many`, whatever the others do. -/
def broadcastView (w : ι) :
    View (broadcastStep p lock cpu online) (manyStep p lock (cpu w) online) where
  Inv _ := True
  state s := ⟨s.pc w, (s.pending w).map Pending.inFlight⟩
  events := manyEvents w
  inv_step _ _ := trivial
  simulates := by
    intro s e s' _ hst
    obtain ⟨v, hmove⟩ := move_of_broadcastStep hst
    by_cases hwv : w = v
    · subst hwv
      cases hmove with
      | leave hpc => simp [manyEvents, exec, manyStep, hpc, BroadcastState.goto]
      | post hpc hloop =>
        simp [manyEvents, exec, manyStep, hpc, hloop, BroadcastState.goto,
          BroadcastState.setPending, Pending.inFlight, Function.comp_def]
      | @goOn loop hpc hdone =>
        have hmine : ¬ (p.wait = true ∧
            ∃ m ∈ (s.pending w).map Pending.inFlight, m.1 = loop) := by
          rintro ⟨hwait, _, hflight, hloop⟩
          obtain ⟨m, hm, rfl⟩ := List.mem_map.mp hflight
          exact hdone ⟨hwait, m, hm, hloop⟩
        simp only [manyEvents, if_true, exec, manyStep, hpc, if_neg hmine, BroadcastState.goto,
          update_self, Option.bind_some]
      | enter hm =>
        simp [manyEvents, BroadcastState.setStage, BroadcastState.setPending,
          map_inFlight_set hm]
      | lock hm hstage hcallback =>
        simp [manyEvents, hm, hstage, hcallback, Pending.AtEnd, BroadcastState.setStage,
          BroadcastState.setPending, BroadcastState.hold, map_inFlight_set hm]
      | unlock hm hstage =>
        simp [manyEvents, hm, hstage, Pending.AtEnd, BroadcastState.setStage,
          BroadcastState.setPending, BroadcastState.hold, map_inFlight_set hm]
      | @finish i m hm hend =>
        have hi := (List.getElem?_eq_some_iff.mp hm).1
        have hevents : manyEvents w s (.callback w i) = [.deliver i] := by
          simp [manyEvents, hm, hend]
        rw [hevents]
        simp [exec, manyStep, hi, BroadcastState.endCallback, BroadcastState.setPending,
          List.eraseIdx_map]
    · obtain ⟨hpc, -, hpending⟩ := hmove.frame hwv
      have hother : manyEvents w s e = [] := by
        cases hmove <;> simp [manyEvents, Ne.symm hwv]
      rw [hother, hpc, hpending]
      rfl

end BroadcastView

section Delivered

variable {ι : Type*} [DecidableEq ι] [Fintype ι] {p : Params} {lock : Bool} {cpu : ι → Int}
  {online : List Int} {s s' : BroadcastState ι} {e : BroadcastEvent ι}

/-- A callback that returns is one that is delivered. -/
theorem delivered_manyEvents (w : ι) (hst : broadcastStep p lock cpu online s e = some s') :
    outputs (manyStep p lock (cpu w) online) manyDelivered
      ((broadcastView p lock cpu online w).state s) (manyEvents w s e) =
        callbackReturned w s e := by
  have hsim := (broadcastView p lock cpu online w).simulates trivial hst
  change exec _ _ (manyEvents w s e) = _ at hsim
  cases e with
  | test v | callReturns v =>
    by_cases hvw : v = w
    · simp only [manyEvents, if_pos hvw] at hsim ⊢
      exact outputs_one _ hsim
    · simp only [manyEvents, if_neg hvw]
      rfl
  | enter => rfl
  | callback v i =>
    by_cases hvw : v = w
    · subst hvw
      cases hm : (s.pending v)[i]? with
      | none => simp [manyEvents, callbackReturned, hm, outputs]
      | some m =>
        by_cases hend : m.AtEnd
        · have hevents : manyEvents v s (.callback v i) = [.deliver i] := by
            simp [manyEvents, hm, hend]
          rw [hevents] at hsim ⊢
          rw [outputs_one _ hsim]
          simp [manyDelivered, callbackReturned, broadcastView, hm, hend, Option.filter_some,
            Pending.inFlight]
        · simp [manyEvents, callbackReturned, hm, hend, Option.filter_some, outputs]
    · simp [manyEvents, callbackReturned, hvw, outputs]

/-- Without `lock` no callback comes to a spinlock, and with `wait` set none
outlives the worker whose spinlock it comes to. -/
theorem spinlock_in_frame {es : List (BroadcastEvent ι)}
    (hframe : p.wait = true ∨ lock = false)
    (hrun : exec (broadcastStep p lock cpu online) (.enter p) es = some s) (w : ι) :
    ∀ m ∈ s.pending w, m.message.callback = .spinlock → s.pc w ≠ .returned := by
  intro m hm hcallback hret
  have htrace := (broadcastView p lock cpu online w).exec_trace trivial hrun
  have hsafe : ManySafe p lock (cpu w) online :=
    manySafe_iff.mpr (hframe.imp_right fun hlock => Or.inr (Or.inl hlock))
  exact hsafe _ _ htrace hret m.inFlight (List.mem_map_of_mem hm) hcallback

/-- No callback is lost, and none runs twice.  In every run, the callbacks of a
worker that have returned and those that are pending are the callbacks of the
calls that it has made so far, one for each other online CPU and call.  A
worker that has returned has made all its calls, and with `wait` set all
callbacks have returned before it. -/
theorem broadcasts_are_delivered {es : List (BroadcastEvent ι)}
    (hrun : exec (broadcastStep p lock cpu online) (.enter p) es = some s) (w : ι) :
    (s.pc w).calls p.loops.toNat ≤ p.loops.toNat ∧
      (outputs (broadcastStep p lock cpu online) (callbackReturned w) (.enter p) es ++
        (s.pending w).map Pending.message).Perm
        (List.replicate ((s.pc w).calls p.loops.toNat)
          (manyMessages lock (cpu w) online)).flatten ∧
      (s.pc w = .returned → (s.pc w).calls p.loops.toNat = p.loops.toNat ∧
        (p.wait = true → s.pending w = [])) := by
  have htrace := (broadcastView p lock cpu online w).exec_trace trivial hrun
  obtain ⟨hle, hperm⟩ := many_accounts htrace
  have houtputs := (broadcastView p lock cpu online w).outputs_trace
    (fun _ hst => delivered_manyEvents w hst) trivial hrun
  have hmessages : (s.pending w).map Pending.message =
      ((s.pending w).map Pending.inFlight).map Prod.snd := by
    rw [List.map_map]
    rfl
  refine ⟨hle, ?_, fun hret => ⟨?_, fun hwait => ?_⟩⟩
  · rw [hmessages, ← houtputs]
    exact hperm
  · rw [hret]
    rfl
  · have hleft := (manyView p lock (cpu w) online).exec_trace trivial htrace
    have hempty := flight_empty_of_wait hwait hleft (by
      change (s.pc w).alive = false
      rw [hret]
      rfl)
    exact List.map_eq_nil_iff.mp hempty

/-- The first callback releases the lock and returns, then the second one takes
it, releases it and returns, and so does the worker. -/
def drained {ι : Type*} (w : ι) : List (BroadcastEvent ι) :=
  [.callback w 0, .callback w 0, .callback w 0, .callback w 0, .callback w 0,
    .callReturns w, .test w]

theorem broadcasts_are_delivered_drained : ∃ s : BroadcastState (Fin 2),
    exec (broadcastStep oneCall true (fun w => w.val) [0, 1, 2]) (.enter oneCall)
      (contended 0 ++ drained 0) = some s ∧
    s.pending 0 = [] ∧
    (outputs (broadcastStep oneCall true (fun w : Fin 2 => w.val) [0, 1, 2])
      (callbackReturned 0) (.enter oneCall) (contended 0 ++ drained 0)).Perm
        [⟨1, .spinlock⟩, ⟨2, .spinlock⟩] := by
  have h : (exec (broadcastStep oneCall true (fun w : Fin 2 => w.val) [0, 1, 2])
      (.enter oneCall) (contended 0 ++ drained 0)).map
      (fun s => decide (s.pc 0 = .returned)) = some true := by
    decide +kernel
  obtain ⟨s, hrun, hs⟩ := exists_exec_of_map h
  obtain ⟨-, hperm, hret⟩ := broadcasts_are_delivered hrun 0
  obtain ⟨hcalls, hempty⟩ := hret (of_decide_eq_true hs)
  have hnone := hempty rfl
  rw [hcalls, hnone, List.map_nil, List.append_nil] at hperm
  exact ⟨s, hrun, hnone, hperm⟩

end Delivered

end KvmUtils.IpiBench
