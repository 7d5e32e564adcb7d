import Mathlib.Algebra.BigOperators.Group.Finset.Piecewise
import Mathlib.Algebra.Order.BigOperators.Group.Finset
import Mathlib.Algebra.GroupWithZero.Nat
import KvmUtils.Lib.Progress
import KvmUtils.IpiBench.Delivery

/-!
# All broadcasts end

The workers of `ipi_bench_all` wait for their callbacks, and a callback waits
for its target to leave another one and for the spinlock of its worker.  As
long as the spinlocks that the callbacks come to are in frames that are still
there, nobody waits for ever.

* `callbacks_get_through`: the callbacks under way come to their ends without
  any step of a worker, so no choice of steps deadlocks them.
* `broadcasts_end`: all runs end, with all workers returned and no callback
  left.
-/

namespace KvmUtils.IpiBench

open Function Machine AsyncCall

/-! ## The steps that are left -/

/-- The steps that a callback has left. -/
def CallbackStage.left : CallbackStage → Nat
  | .posted => 4
  | .entered => 3
  | .locked => 2
  | .leaving => 1

/-- The steps that callbacks have left. -/
def callbacksLeft (ms : List Pending) : Nat := (ms.map fun m => m.stage.left).sum

/-- The steps that a worker has left, and the callbacks that it has still to
send.  Each of its calls has `others` of them. -/
def ManyPc.left (others : Nat) : ManyPc → Nat
  | .head loop => loop * (4 * others + 2) + 1
  | .inCall loop => (loop - 1) * (4 * others + 2) + 2
  | .returned => 0

theorem callbacksLeft_set {ms : List Pending} {i : Nat} {m : Pending} (hm : ms[i]? = some m)
    (stage : CallbackStage) :
    callbacksLeft (ms.set i { m with stage := stage }) + m.stage.left =
      callbacksLeft ms + stage.left := by
  unfold callbacksLeft
  rw [((perm_of_getElem? hm).map _).sum_eq, ((set_perm_of_getElem? hm _).map _).sum_eq]
  simp only [List.map_cons, List.sum_cons]
  omega

theorem callbacksLeft_eraseIdx {ms : List Pending} {i : Nat} {m : Pending}
    (hm : ms[i]? = some m) :
    callbacksLeft (ms.eraseIdx i) + m.stage.left = callbacksLeft ms := by
  unfold callbacksLeft
  rw [((perm_of_getElem? hm).map _).sum_eq, List.map_cons, List.sum_cons, Nat.add_comm]

/-- A call sends its callbacks. -/
theorem callbacksLeft_append (ms : List Pending) (loop : Nat) (msgs : List Message) :
    callbacksLeft (ms ++ msgs.map (⟨loop, ·, .posted⟩)) =
      callbacksLeft ms + 4 * msgs.length := by
  simp [callbacksLeft, CallbackStage.left, Function.comp_def, Nat.mul_comm]

theorem callbacksLeft_eq_zero {ms : List Pending} : callbacksLeft ms = 0 ↔ ms = [] := by
  constructor
  · intro h
    cases ms with
    | nil => rfl
    | cons m rest =>
      rw [callbacksLeft, List.map_cons, List.sum_cons] at h
      have hpos : 0 < m.stage.left := by cases m.stage <;> decide
      omega
  · rintro rfl
    rfl

theorem callbacksLeft_le (ms : List Pending) : callbacksLeft ms ≤ 4 * ms.length := by
  induction ms with
  | nil => exact Nat.le_refl 0
  | cons m rest ih =>
    have hle : m.stage.left ≤ 4 := by cases m.stage <;> decide
    rw [callbacksLeft] at ih ⊢
    rw [List.map_cons, List.sum_cons, List.length_cons]
    omega

section Progress

variable {ι : Type*} [DecidableEq ι] {p : Params} {lock : Bool} {cpu : ι → Int}
  {online : List Int} {s s' : BroadcastState ι} {e : BroadcastEvent ι}

/-- The event is a step of a callback, or of a target that takes one. -/
def BroadcastEvent.ofCallback : BroadcastEvent ι → Bool
  | .enter _ _ | .callback _ _ => true
  | .test _ | .callReturns _ => false

/-- The steps that worker `w` and its callbacks have left. -/
def BroadcastState.left (lock : Bool) (cpu : ι → Int) (online : List Int)
    (s : BroadcastState ι) (w : ι) : Nat :=
  (s.pc w).left (manyMessages lock (cpu w) online).length + callbacksLeft (s.pending w)

/-- A later stage has less left. -/
theorem callbacksLeft_setStage_lt {w : ι} {i : Nat} {m : Pending} {stage : CallbackStage}
    (hm : (s.pending w)[i]? = some m) (hlt : stage.left < m.stage.left) :
    callbacksLeft ((s.setStage w i m stage).pending w) < callbacksLeft (s.pending w) := by
  have hset := callbacksLeft_set hm stage
  rw [BroadcastState.pending_setStage]
  omega

/-- A step of a callback brings it nearer to its end and moves no worker. -/
theorem BroadcastMove.callbacksLeft_lt {w : ι} (h : BroadcastMove p lock cpu online s w e s')
    (he : e.ofCallback = true) :
    callbacksLeft (s'.pending w) < callbacksLeft (s.pending w) ∧ s'.pc = s.pc := by
  cases h with
  | leave | post | goOn => cases he
  | enter hm hstage => exact ⟨callbacksLeft_setStage_lt hm (by rw [hstage]; decide), rfl⟩
  | lock hm hstage => exact ⟨callbacksLeft_setStage_lt hm (by rw [hstage]; decide), rfl⟩
  | unlock hm hstage => exact ⟨callbacksLeft_setStage_lt hm (by rw [hstage]; decide), rfl⟩
  | @finish i m hm =>
    have herase := callbacksLeft_eraseIdx hm
    have hpos : 0 < m.stage.left := by cases m.stage <;> decide
    refine ⟨?_, rfl⟩
    rw [BroadcastState.pending_endCallback]
    omega

/-- Every step takes down what its worker has left. -/
theorem BroadcastMove.left_lt {w : ι} (h : BroadcastMove p lock cpu online s w e s') :
    s'.left lock cpu online w < s.left lock cpu online w := by
  by_cases he : e.ofCallback = true
  · obtain ⟨hlt, hpc⟩ := h.callbacksLeft_lt he
    unfold BroadcastState.left
    rw [hpc]
    omega
  · unfold BroadcastState.left
    cases h with
    | leave hpc =>
      simp only [BroadcastState.goto, update_self, hpc, ManyPc.left]
      omega
    | @post loop hpc hloop =>
      obtain ⟨n, rfl⟩ := Nat.exists_eq_succ_of_ne_zero hloop
      simp only [BroadcastState.goto, BroadcastState.setPending, update_self, hpc, ManyPc.left,
        callbacksLeft_append, Nat.succ_sub_one, Nat.succ_mul]
      omega
    | goOn hpc =>
      simp only [BroadcastState.goto, update_self, hpc, ManyPc.left]
      omega
    | enter | lock | unlock | finish => exact absurd rfl he

variable [Fintype ι]

theorem canStep_callback {w : ι} {i : Nat} {m : Pending} (hm : (s.pending w)[i]? = some m)
    (h : (callbackStep s w i m).isSome) :
    ∃ e s', e.ofCallback = true ∧ broadcastStep p lock cpu online s e = some s' := by
  refine ⟨.callback w i, (callbackStep s w i m).get h, rfl, ?_⟩
  simp [broadcastStep, hm]

/-- As long as there are callbacks, one of them can make a step. -/
theorem exists_callbackStep (hone : s.OneHolder) {w : ι} (hw : s.pending w ≠ []) :
    ∃ e s', e.ofCallback = true ∧ broadcastStep p lock cpu online s e = some s' := by
  by_cases hrunning : ∃ v, ∃ m ∈ s.pending v, m.stage ≠ .posted
  · obtain ⟨v, m, hmem, hstage⟩ := hrunning
    obtain ⟨i, hm⟩ := List.mem_iff_getElem?.mp hmem
    by_cases hspins : m.stage = .entered ∧ m.message.callback = .spinlock ∧ s.spinlock v = true
    · -- the holder of the lock goes on
      have hcount := hone v
      rw [hspins.2.2] at hcount
      have hpos : 0 < holders (s.pending v) := by rw [hcount]; decide
      obtain ⟨m', hmem', hlocked⟩ := List.countP_pos_iff.mp hpos
      obtain ⟨i', hm'⟩ := List.mem_iff_getElem?.mp hmem'
      refine canStep_callback hm' ?_
      simp [callbackStep, of_decide_eq_true hlocked]
    · refine canStep_callback hm ?_
      unfold callbackStep
      cases hm' : m.stage with
      | posted => exact absurd hm' hstage
      | entered =>
        by_cases hcallback : m.message.callback = .spinlock
        · have hfree : s.spinlock v = false := by
            simpa [hm', hcallback] using hspins
          simp [hcallback, hfree]
        · simp [hcallback]
      | locked | leaving => rfl
  · -- no target is in a callback
    have hposted : ∀ v, ∀ m ∈ s.pending v, m.stage = .posted := by
      simpa using hrunning
    obtain ⟨m, rest, hcons⟩ := List.exists_cons_of_ne_nil hw
    have hm : (s.pending w)[0]? = some m := by rw [hcons]; rfl
    have hstage := hposted w m (hcons ▸ List.mem_cons_self)
    have hidle : s.Idle m.message.target := fun v m' hm' _ => hposted v m' hm'
    refine ⟨.enter w 0, s.setStage w 0 m .entered, rfl, ?_⟩
    simp [broadcastStep, hm, hstage, hidle]

/-- A step of a callback takes down what all callbacks have left. -/
theorem sum_callbacksLeft_lt (he : e.ofCallback = true)
    (hst : broadcastStep p lock cpu online s e = some s') :
    ∑ w, callbacksLeft (s'.pending w) < ∑ w, callbacksLeft (s.pending w) := by
  obtain ⟨v, hmove⟩ := move_of_broadcastStep hst
  have hlt := (hmove.callbacksLeft_lt he).1
  refine Finset.sum_lt_sum (fun w _ => ?_) ⟨v, Finset.mem_univ v, hlt⟩
  by_cases hwv : w = v
  · exact hwv ▸ Nat.le_of_lt hlt
  · rw [(hmove.frame hwv).2.2]

/-- Every step takes down what all workers have left. -/
theorem sum_left_lt (hst : broadcastStep p lock cpu online s e = some s') :
    ∑ w, s'.left lock cpu online w < ∑ w, s.left lock cpu online w := by
  obtain ⟨v, hmove⟩ := move_of_broadcastStep hst
  refine Finset.sum_lt_sum (fun w _ => ?_) ⟨v, Finset.mem_univ v, hmove.left_lt⟩
  by_cases hwv : w = v
  · exact hwv ▸ Nat.le_of_lt hmove.left_lt
  · obtain ⟨hpc, -, hpending⟩ := hmove.frame hwv
    unfold BroadcastState.left
    rw [hpc, hpending]

/-- With `wait` set, or without `lock`, each callback that comes to a spinlock
finds the frame of its worker, and from any state that is reached the callbacks
under way come to their ends by steps of their own, within four steps each,
while no worker makes any. -/
theorem callbacks_get_through {es : List (BroadcastEvent ι)}
    (hframe : p.wait = true ∨ lock = false)
    (hrun : exec (broadcastStep p lock cpu online) (.enter p) es = some s) :
    (∀ w, ∀ m ∈ s.pending w, m.message.callback = .spinlock → s.pc w ≠ .returned) ∧
      ∃ fs s', (∀ e ∈ fs, e.ofCallback = true) ∧
        fs.length ≤ ∑ w, 4 * (s.pending w).length ∧
        exec (broadcastStep p lock cpu online) s fs = some s' ∧
        s'.pc = s.pc ∧ ∀ w, s'.pending w = [] := by
  have hdown : ∀ {t : BroadcastState ι}, t.OneHolder → ∑ w, callbacksLeft (t.pending w) ≠ 0 →
      ∃ e t', e.ofCallback = true ∧ broadcastStep p lock cpu online t e = some t' ∧
        t'.OneHolder ∧ ∑ w, callbacksLeft (t'.pending w) < ∑ w, callbacksLeft (t.pending w) := by
    intro t hone hsum
    obtain ⟨w, -, hw⟩ := Finset.exists_ne_zero_of_sum_ne_zero hsum
    obtain ⟨e, t', he, hst⟩ := exists_callbackStep hone (mt callbacksLeft_eq_zero.mpr hw)
    exact ⟨e, t', he, hst, oneHolder_of_step hone hst, sum_callbacksLeft_lt he hst⟩
  obtain ⟨fs, s', hall, hlen, hexec, hzero⟩ :=
    exists_zero (fun t : BroadcastState ι => ∑ w, callbacksLeft (t.pending w)) hdown
      (oneHolder_of_exec hrun)
  refine ⟨spinlock_in_frame hframe hrun, fs, s', hall, hlen.trans ?_, hexec, ?_, fun w => ?_⟩
  · exact Finset.sum_le_sum fun w _ => callbacksLeft_le _
  · refine exec_invariant (I := fun t => t.pc = s.pc)
      (P := fun _ e => BroadcastEvent.ofCallback e = true) (fun t e t' hpc he hst => ?_) rfl
      ((allSteps_iff_forall hexec).mpr hall) hexec
    obtain ⟨v, hmove⟩ := move_of_broadcastStep hst
    exact (hmove.callbacksLeft_lt he).2.trans hpc
  · exact callbacksLeft_eq_zero.mp (Finset.sum_eq_zero_iff.mp hzero w (Finset.mem_univ w))

theorem callbacks_get_through_contended : ∃ (s s' : BroadcastState (Fin 2))
    (fs : List (BroadcastEvent (Fin 2))),
    exec (broadcastStep oneCall true (fun w => w.val) [0, 1, 2]) (.enter oneCall)
      (contended 0) = some s ∧
    exec (broadcastStep oneCall true (fun w => w.val) [0, 1, 2]) s fs = some s' ∧
    s'.pc 0 = .inCall 1 ∧ s'.pending 0 = [] := by
  obtain ⟨s, hrun, -, hpc⟩ := exec_contended
  obtain ⟨-, fs, s', -, -, hexec, hpcs, hnone⟩ := callbacks_get_through (Or.inl rfl) hrun
  exact ⟨s, s', fs, hrun, hexec, by rw [hpcs, hpc], hnone 0⟩

/-- With `wait` set, or without `lock`, every run ends, and no callback comes to
a spinlock whose worker has returned.  The length of a run is bounded by the
calls of the workers and their callbacks, and no step is left exactly when all
workers have returned and all callbacks have, so there is no deadlock. -/
theorem broadcasts_end {es : List (BroadcastEvent ι)} (hframe : p.wait = true ∨ lock = false)
    (hrun : exec (broadcastStep p lock cpu online) (.enter p) es = some s) :
    (∀ w, ∀ m ∈ s.pending w, m.message.callback = .spinlock → s.pc w ≠ .returned) ∧
      es.length ≤
        ∑ w, (p.loops.toNat * (4 * (manyMessages lock (cpu w) online).length + 2) + 1) ∧
      ((∀ e, broadcastStep p lock cpu online s e = none) ↔
        ∀ w, s.pc w = .returned ∧ s.pending w = []) := by
  refine ⟨spinlock_in_frame hframe hrun, ?_, ?_⟩
  · have hlen := length_le (I := fun _ => True)
      (fun t : BroadcastState ι => ∑ w, t.left lock cpu online w) (fun _ _ => trivial)
      (fun _ hst => sum_left_lt hst) trivial hrun
    exact (Nat.le_of_add_right_le hlen).trans (Nat.le_of_eq rfl)
  · constructor
    · intro hnone
      have hpending : ∀ w, s.pending w = [] := by
        intro w
        by_contra hw
        obtain ⟨e, s', -, hst⟩ := exists_callbackStep (oneHolder_of_exec hrun) hw
        rw [hnone e] at hst
        cases hst
      intro w
      refine ⟨?_, hpending w⟩
      cases hpc : s.pc w with
      | returned => rfl
      | head loop =>
        have htest := hnone (.test w)
        simp only [broadcastStep, hpc] at htest
        split at htest <;> cases htest
      | inCall loop =>
        have hreturns := hnone (.callReturns w)
        simp [broadcastStep, hpc, hpending w] at hreturns
    · intro hend e
      cases e with
      | test w | callReturns w => simp [broadcastStep, (hend w).1]
      | enter w i | callback w i => simp [broadcastStep, (hend w).2]

theorem broadcasts_end_contended : ∃ s : BroadcastState (Fin 2),
    exec (broadcastStep oneCall true (fun w => w.val) [0, 1, 2]) (.enter oneCall)
      (contended 0) = some s ∧
    ¬ ∀ e, broadcastStep oneCall true (fun w => w.val) [0, 1, 2] s e = none := by
  obtain ⟨s, hrun, -, hpc⟩ := exec_contended
  refine ⟨s, hrun, fun hnone => ?_⟩
  have hret := ((broadcasts_end (Or.inl rfl) hrun).2.2.mp hnone 0).1
  rw [hpc] at hret
  cases hret

end Progress

end KvmUtils.IpiBench
