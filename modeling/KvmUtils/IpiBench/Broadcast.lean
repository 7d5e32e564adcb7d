import Mathlib.Data.Fintype.Basic
import KvmUtils.IpiBench.Callbacks

/-!
# Broadcasts and their spinlocks

Each worker of `ipi_bench_all` runs `ipi_bench_many`, and several of them run
at once.  Their callbacks come to the same CPUs, and with `lock` set all
callbacks of a worker take the one spinlock in its frame.

Here a callback is made in steps: its target takes it, unless the target is in
another one, then it spins until the lock is free, takes the lock, releases it
and returns.  `spinlock_has_one_holder` says that at most one callback holds a
spinlock.

Without `wait` a callback may come when its worker has returned.  The spinlock
is then a piece of memory in a frame that is gone, and the machine keeps the
last value that it had.  Where a result needs to know that a callback gets past
its spinlock, it assumes `wait` or no `lock` (`spinlock_in_frame`).
-/

namespace KvmUtils.IpiBench

open Function Machine AsyncCall

/-! ## The workers and the callbacks -/

/-- How far a target is with a callback. -/
inductive CallbackStage where
  /-- the target has not taken it -/
  | posted
  /-- at its first step -/
  | entered
  /-- between `spin_lock` and `spin_unlock` -/
  | locked
  /-- past `spin_unlock` -/
  | leaving
  deriving DecidableEq, Repr

/-- A callback of a worker, with the value of `loop` for its call. -/
structure Pending where
  loop : Nat
  message : Message
  stage : CallbackStage
  deriving DecidableEq, Repr

/-- The workers `ι` in `ipi_bench_many`.  `spinlock` and `pending` hold the
spinlock of each worker and its callbacks that have not returned. -/
structure BroadcastState (ι : Type*) where
  pc : ι → ManyPc
  spinlock : ι → Bool
  pending : ι → List Pending

inductive BroadcastEvent (ι : Type*) where
  /-- the test of the loop of worker `w`, and then the call or the end -/
  | test (w : ι)
  /-- `smp_call_function_many` of worker `w` returns -/
  | callReturns (w : ι)
  /-- the target of the `i`-th callback of worker `w` takes it -/
  | enter (w : ι) (i : Nat)
  /-- the next step of the `i`-th callback of worker `w` -/
  | callback (w : ι) (i : Nat)

section Machine

variable {ι : Type*} [DecidableEq ι]

/-- The CPU is in no callback. -/
def BroadcastState.Idle (s : BroadcastState ι) (target : Int) : Prop :=
  ∀ w, ∀ m ∈ s.pending w, m.message.target = target → m.stage = .posted

instance [Fintype ι] (s : BroadcastState ι) (target : Int) : Decidable (s.Idle target) :=
  inferInstanceAs (Decidable (∀ w, ∀ m ∈ s.pending w, _ → _))

def BroadcastState.goto (s : BroadcastState ι) (w : ι) (q : ManyPc) : BroadcastState ι :=
  { s with pc := update s.pc w q }

def BroadcastState.hold (s : BroadcastState ι) (w : ι) (held : Bool) : BroadcastState ι :=
  { s with spinlock := update s.spinlock w held }

def BroadcastState.setPending (s : BroadcastState ι) (w : ι) (ms : List Pending) :
    BroadcastState ι :=
  { s with pending := update s.pending w ms }

/-- The callback `m`, which is the `i`-th one of worker `w`, is at `stage`. -/
def BroadcastState.setStage (s : BroadcastState ι) (w : ι) (i : Nat) (m : Pending)
    (stage : CallbackStage) : BroadcastState ι :=
  s.setPending w ((s.pending w).set i { m with stage := stage })

/-- The `i`-th callback of worker `w` returns. -/
def BroadcastState.endCallback (s : BroadcastState ι) (w : ι) (i : Nat) : BroadcastState ι :=
  s.setPending w ((s.pending w).eraseIdx i)

@[simp] theorem BroadcastState.pending_setPending (s : BroadcastState ι) (w : ι)
    (ms : List Pending) : (s.setPending w ms).pending w = ms :=
  update_self ..

@[simp] theorem BroadcastState.pending_setStage (s : BroadcastState ι) (w : ι) (i : Nat)
    (m : Pending) (stage : CallbackStage) :
    (s.setStage w i m stage).pending w = (s.pending w).set i { m with stage := stage } :=
  update_self ..

@[simp] theorem BroadcastState.pending_endCallback (s : BroadcastState ι) (w : ι) (i : Nat) :
    (s.endCallback w i).pending w = (s.pending w).eraseIdx i :=
  update_self ..

@[simp] theorem BroadcastState.spinlock_hold (s : BroadcastState ι) (w : ι) (held : Bool) :
    (s.hold w held).spinlock w = held :=
  update_self ..

/-- A step of the callback `m`, the `i`-th one of worker `w`:
`ipi_bench_spinlock` or `ipi_bench_empty`.  The spinlock of a worker that has
returned keeps its last value here, see `spinlock_in_frame`. -/
def callbackStep (s : BroadcastState ι) (w : ι) (i : Nat) (m : Pending) :
    Option (BroadcastState ι) :=
  match m.stage with
  | .posted => none
  | .entered =>
    if m.message.callback = .spinlock then
      -- `spin_lock` spins while the lock is taken
      if s.spinlock w then none else some ((s.hold w true).setStage w i m .locked)
    else some (s.endCallback w i)
  | .locked => some ((s.hold w false).setStage w i m .leaving)
  | .leaving => some (s.endCallback w i)

/-- A step of `ipi_bench_many` on CPU `cpu w`, or of the target of one of its
callbacks. -/
def broadcastStep [Fintype ι] (p : Params) (lock : Bool) (cpu : ι → Int) (online : List Int)
    (s : BroadcastState ι) : BroadcastEvent ι → Option (BroadcastState ι)
  | .test w =>
    match s.pc w with
    | .head loop =>
      if loop = 0 then some (s.goto w .returned)
      else some ((s.goto w (.inCall loop)).setPending w
        (s.pending w ++ (manyMessages lock (cpu w) online).map (⟨loop, ·, .posted⟩)))
    | _ => none
  | .callReturns w =>
    match s.pc w with
    | .inCall loop =>
      if p.wait = true ∧ ∃ m ∈ s.pending w, m.loop = loop then none
      else some (s.goto w (.head (loop - 1)))
    | _ => none
  | .enter w i =>
    match (s.pending w)[i]? with
    | none => none
    | some m =>
      if m.stage = .posted ∧ s.Idle m.message.target then some (s.setStage w i m .entered)
      else none
  | .callback w i =>
    match (s.pending w)[i]? with
    | none => none
    | some m => callbackStep s w i m

/-- All workers enter `ipi_bench_many`. -/
def BroadcastState.enter (p : Params) : BroadcastState ι where
  pc _ := .head p.loops.toNat
  spinlock _ := false
  pending _ := []

/-! ## The moves -/

/-- The next step of the callback is its last one. -/
def Pending.AtEnd (m : Pending) : Prop :=
  m.stage = .leaving ∨ m.stage = .entered ∧ m.message.callback ≠ .spinlock

instance (m : Pending) : Decidable m.AtEnd :=
  inferInstanceAs (Decidable (_ ∨ _ ∧ _))

/-- What one event can do.  `w` is the worker whose step it is, or whose
callback. -/
inductive BroadcastMove (p : Params) (lock : Bool) (cpu : ι → Int) (online : List Int)
    (s : BroadcastState ι) (w : ι) : BroadcastEvent ι → BroadcastState ι → Prop where
  | leave (hpc : s.pc w = .head 0) :
      BroadcastMove p lock cpu online s w (.test w) (s.goto w .returned)
  | post {loop} (hpc : s.pc w = .head loop) (hloop : loop ≠ 0) :
      BroadcastMove p lock cpu online s w (.test w) ((s.goto w (.inCall loop)).setPending w
        (s.pending w ++ (manyMessages lock (cpu w) online).map (⟨loop, ·, .posted⟩)))
  | goOn {loop} (hpc : s.pc w = .inCall loop)
      (hdone : ¬ (p.wait = true ∧ ∃ m ∈ s.pending w, m.loop = loop)) :
      BroadcastMove p lock cpu online s w (.callReturns w) (s.goto w (.head (loop - 1)))
  | enter {i m} (hm : (s.pending w)[i]? = some m) (hstage : m.stage = .posted)
      (hidle : s.Idle m.message.target) :
      BroadcastMove p lock cpu online s w (.enter w i) (s.setStage w i m .entered)
  | lock {i m} (hm : (s.pending w)[i]? = some m) (hstage : m.stage = .entered)
      (hcallback : m.message.callback = .spinlock) (hfree : s.spinlock w = false) :
      BroadcastMove p lock cpu online s w (.callback w i)
        ((s.hold w true).setStage w i m .locked)
  | unlock {i m} (hm : (s.pending w)[i]? = some m) (hstage : m.stage = .locked) :
      BroadcastMove p lock cpu online s w (.callback w i)
        ((s.hold w false).setStage w i m .leaving)
  | finish {i m} (hm : (s.pending w)[i]? = some m) (hend : m.AtEnd) :
      BroadcastMove p lock cpu online s w (.callback w i) (s.endCallback w i)

variable {p : Params} {lock : Bool} {cpu : ι → Int} {online : List Int}
  {s s' : BroadcastState ι} {e : BroadcastEvent ι}

theorem move_of_callbackStep {w : ι} {i : Nat} {m : Pending} (hm : (s.pending w)[i]? = some m)
    (hst : callbackStep s w i m = some s') :
    BroadcastMove p lock cpu online s w (.callback w i) s' := by
  unfold callbackStep at hst
  cases hstage : m.stage with
  | posted => simp [hstage] at hst
  | entered =>
    simp only [hstage] at hst
    by_cases hcallback : m.message.callback = .spinlock
    · rw [if_pos hcallback] at hst
      cases hheld : s.spinlock w with
      | true => simp [hheld] at hst
      | false =>
        simp only [hheld, Bool.false_eq_true, if_false, Option.some.injEq] at hst
        subst hst
        exact .lock hm hstage hcallback hheld
    · rw [if_neg hcallback] at hst
      obtain rfl := Option.some.inj hst
      exact .finish hm (Or.inr ⟨hstage, hcallback⟩)
  | locked =>
    simp only [hstage, Option.some.injEq] at hst
    subst hst
    exact .unlock hm hstage
  | leaving =>
    simp only [hstage, Option.some.injEq] at hst
    subst hst
    exact .finish hm (Or.inl hstage)

theorem move_of_broadcastStep [Fintype ι] (hst : broadcastStep p lock cpu online s e = some s') :
    ∃ w, BroadcastMove p lock cpu online s w e s' := by
  cases e with
  | test w =>
    refine ⟨w, ?_⟩
    simp only [broadcastStep] at hst
    cases hpc : s.pc w with
    | head loop =>
      simp only [hpc] at hst
      by_cases hloop : loop = 0
      · rw [if_pos hloop] at hst
        obtain rfl := Option.some.inj hst
        exact .leave (hpc.trans (by rw [hloop]))
      · rw [if_neg hloop] at hst
        obtain rfl := Option.some.inj hst
        exact .post hpc hloop
    | inCall loop | returned => simp [hpc] at hst
  | callReturns w =>
    refine ⟨w, ?_⟩
    simp only [broadcastStep] at hst
    cases hpc : s.pc w with
    | inCall loop =>
      simp only [hpc, Option.ite_none_left_eq_some, Option.some.injEq] at hst
      obtain ⟨hdone, rfl⟩ := hst
      exact .goOn hpc hdone
    | head loop | returned => simp [hpc] at hst
  | enter w i =>
    refine ⟨w, ?_⟩
    simp only [broadcastStep] at hst
    cases hm : (s.pending w)[i]? with
    | none => simp [hm] at hst
    | some m =>
      simp only [hm, Option.ite_none_right_eq_some, Option.some.injEq] at hst
      obtain ⟨⟨hstage, hidle⟩, rfl⟩ := hst
      exact .enter hm hstage hidle
  | callback w i =>
    refine ⟨w, ?_⟩
    simp only [broadcastStep] at hst
    cases hm : (s.pending w)[i]? with
    | none => simp [hm] at hst
    | some m =>
      simp only [hm] at hst
      exact move_of_callbackStep hm hst

/-- A step of one worker, or of its callbacks, leaves the others alone. -/
theorem BroadcastMove.frame {v w : ι} (h : BroadcastMove p lock cpu online s v e s')
    (hne : w ≠ v) :
    s'.pc w = s.pc w ∧ s'.spinlock w = s.spinlock w ∧ s'.pending w = s.pending w := by
  cases h <;>
    simp [BroadcastState.goto, BroadcastState.hold, BroadcastState.setStage,
      BroadcastState.endCallback, BroadcastState.setPending, hne]

end Machine

/-! ## A run of two workers -/

/-- One call with `wait` set. -/
def oneCall : Params := ⟨1, 0, 1, -1, true, 2, true, ALL_IPI⟩

/-- Worker `w` sends its callbacks, the first one takes the lock, and the
second one spins. -/
def contended {ι : Type*} (w : ι) : List (BroadcastEvent ι) :=
  [.test w, .enter w 0, .enter w 1, .callback w 0]

theorem exec_contended : ∃ s : BroadcastState (Fin 2),
    exec (broadcastStep oneCall true (fun w => w.val) [0, 1, 2]) (.enter oneCall)
      (contended 0) = some s ∧ s.spinlock 0 = true ∧ s.pc 0 = .inCall 1 := by
  have h : (exec (broadcastStep oneCall true (fun w : Fin 2 => w.val) [0, 1, 2])
      (.enter oneCall) (contended 0)).map
      (fun s => decide (s.spinlock 0 = true ∧ s.pc 0 = .inCall 1)) = some true := by
    decide +kernel
  obtain ⟨s, hrun, hs⟩ := exists_exec_of_map h
  exact ⟨s, hrun, of_decide_eq_true hs⟩

/-! ## One holder -/

section Lists

variable {α : Type*} {l : List α} {i : Nat} {x : α}

theorem perm_of_getElem? (h : l[i]? = some x) : l.Perm (x :: l.eraseIdx i) := by
  obtain ⟨hi, rfl⟩ := List.getElem?_eq_some_iff.mp h
  exact (List.getElem_cons_eraseIdx_perm hi).symm

theorem set_perm_of_getElem? (h : l[i]? = some x) (y : α) :
    (l.set i y).Perm (y :: l.eraseIdx i) :=
  List.set_perm_cons_eraseIdx (List.getElem?_eq_some_iff.mp h).1 y

end Lists

/-- The number of callbacks between `spin_lock` and `spin_unlock`. -/
def holders (ms : List Pending) : Nat := ms.countP fun m => decide (m.stage = .locked)

section Holder

variable {ι : Type*} [DecidableEq ι] {p : Params} {lock : Bool} {cpu : ι → Int}
  {online : List Int} {s s' : BroadcastState ι} {e : BroadcastEvent ι}

/-- Each spinlock that is taken has one holder, and each other one has none. -/
def BroadcastState.OneHolder (s : BroadcastState ι) : Prop :=
  ∀ w, holders (s.pending w) = (s.spinlock w).toNat

/-- A callback goes on to another stage. -/
theorem holders_set {ms : List Pending} {i : Nat} {m : Pending} (hm : ms[i]? = some m)
    (stage : CallbackStage) : holders (ms.set i { m with stage := stage }) +
        (if m.stage = .locked then 1 else 0) =
      holders ms + if stage = .locked then 1 else 0 := by
  unfold holders
  rw [(perm_of_getElem? hm).countP_eq, (set_perm_of_getElem? hm _).countP_eq,
    List.countP_cons, List.countP_cons]
  simp only [decide_eq_true_eq]
  omega

theorem holders_eraseIdx {ms : List Pending} {i : Nat} {m : Pending} (hm : ms[i]? = some m) :
    holders (ms.eraseIdx i) + (if m.stage = .locked then 1 else 0) = holders ms := by
  unfold holders
  rw [(perm_of_getElem? hm).countP_eq, List.countP_cons]
  simp only [decide_eq_true_eq]

/-- A call adds no holder. -/
theorem holders_append_posted (ms : List Pending) (loop : Nat) (msgs : List Message) :
    holders (ms ++ msgs.map (⟨loop, ·, .posted⟩)) = holders ms := by
  simp [holders]

theorem BroadcastMove.holders_eq {w : ι} (h : BroadcastMove p lock cpu online s w e s')
    (hone : holders (s.pending w) = (s.spinlock w).toNat) :
    holders (s'.pending w) = (s'.spinlock w).toNat := by
  cases h with
  | leave | goOn => exact hone
  | post =>
    rw [BroadcastState.pending_setPending, holders_append_posted]
    exact hone
  | enter hm hstage =>
    have hset := holders_set hm .entered
    simp only [hstage, reduceCtorEq, if_false, Nat.add_zero] at hset
    rw [BroadcastState.pending_setStage, hset]
    exact hone
  | lock hm hstage _ hfree =>
    have hset := holders_set hm .locked
    simp only [hstage, reduceCtorEq, if_false, if_true, Nat.add_zero] at hset
    rw [hone, hfree] at hset
    rw [BroadcastState.pending_setStage]
    change holders _ = ((s.hold w true).spinlock w).toNat
    rw [BroadcastState.spinlock_hold]
    exact hset
  | @unlock i m hm hstage =>
    have hset := holders_set hm .leaving
    simp only [hstage, reduceCtorEq, if_false, if_true, Nat.add_zero] at hset
    have hle := Bool.toNat_le (s.spinlock w)
    have hnone : holders ((s.pending w).set i { m with stage := .leaving }) = 0 := by
      omega
    rw [BroadcastState.pending_setStage]
    change holders _ = ((s.hold w false).spinlock w).toNat
    rw [BroadcastState.spinlock_hold]
    exact hnone
  | @finish i m hm hend =>
    have herase := holders_eraseIdx hm
    have hlocked : m.stage ≠ .locked := by
      rcases hend with hend | ⟨hend, -⟩ <;> simp [hend]
    rw [if_neg hlocked, Nat.add_zero] at herase
    rw [BroadcastState.pending_endCallback, herase]
    exact hone

theorem oneHolder_of_step [Fintype ι] (h : s.OneHolder)
    (hst : broadcastStep p lock cpu online s e = some s') : s'.OneHolder := by
  intro w
  obtain ⟨v, hmove⟩ := move_of_broadcastStep hst
  by_cases hwv : w = v
  · subst hwv
    exact hmove.holders_eq (h w)
  · obtain ⟨-, hlock, hpending⟩ := hmove.frame hwv
    rw [hlock, hpending]
    exact h w

theorem oneHolder_of_exec [Fintype ι] {es : List (BroadcastEvent ι)}
    (hrun : exec (broadcastStep p lock cpu online) (.enter p) es = some s) : s.OneHolder :=
  exec_invariant' (fun _ _ _ h hst => oneHolder_of_step h hst) (fun _ => rfl) hrun

/-- A spinlock is taken exactly while a callback of its worker is between
`spin_lock` and `spin_unlock`, and there is never more than one. -/
theorem spinlock_has_one_holder [Fintype ι] {es : List (BroadcastEvent ι)}
    (hrun : exec (broadcastStep p lock cpu online) (.enter p) es = some s) (w : ι) :
    holders (s.pending w) ≤ 1 ∧
      (s.spinlock w = true ↔ ∃ m ∈ s.pending w, m.stage = .locked) := by
  have hone := oneHolder_of_exec hrun w
  refine ⟨hone ▸ Bool.toNat_le _, ?_⟩
  have hpos : 0 < holders (s.pending w) ↔ ∃ m ∈ s.pending w, m.stage = .locked := by
    simp [holders, List.countP_pos_iff]
  rw [← hpos, hone]
  cases s.spinlock w <;> simp

end Holder

end KvmUtils.IpiBench
