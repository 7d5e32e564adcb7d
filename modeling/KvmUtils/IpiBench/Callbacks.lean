import KvmUtils.Lib.AsyncCall
import KvmUtils.IpiBench.Bench

/-!
# The callbacks and the frames they point into

`ipi_bench_one` gives a pointer to its local `now` to every call, and
`ipi_bench_many` one to its local spinlock.  Here a call is a message in
flight to each of its targets.  A call on the own CPU is no message: it runs
the callback at once, and `smp_call_function_many` leaves the own CPU out.  A
call on a CPU that is not online is none either: `smp_call_function_single`
fails there, and `smp_call_function_many` leaves it out.

Both functions are asynchronous calls in the sense of `AsyncCall`.
`callbacks_return_first_iff` says when no callback outlives the frame that it
points into, and `benchView` connects `ipi_bench_one` to the worker of the
machine.
-/

namespace KvmUtils.IpiBench

open Machine AsyncCall

/-- The callbacks.  `ipi_bench_gettime` carries `&now`, `ipi_bench_spinlock`
carries `&spinlock`, and `ipi_bench_empty` carries `NULL`. -/
inductive Callback where
  | gettime
  | spinlock
  | empty
  deriving DecidableEq, Repr

/-- A callback on its way to its target. -/
structure Message where
  target : Int
  callback : Callback
  deriving DecidableEq, Repr

/-! ## The two functions -/

/-- The next step of `ipi_bench_one`.  `inCall` is in
`smp_call_function_single`. -/
inductive OnePc where
  | head (loop : Nat) (ipitime : UInt64)
  | send (loop : Nat) (ipitime : UInt64)
  | inCall (loop : Nat) (ipitime : UInt64)
  | returned (ret : Int)
  deriving DecidableEq, Repr

/-- `ipi_bench_one`: `now` is the memory of its local, also after its frame is
gone, and `ipitime` the field of its `bench_args`.  A message in flight is kept
with the value of `loop` for its call. -/
structure OneState where
  pc : OnePc
  now : UInt64
  ipitime : UInt64
  clock : UInt64
  flight : List (Nat × Message)

inductive OneEvent where
  /-- the test of the loop, and what follows it if it fails -/
  | test
  /-- the test of the loop, and `gettime` if it succeeds -/
  | sample (t : UInt64)
  /-- `smp_call_function_single` starts; its result, and the time that the
  callback reads if it runs at once -/
  | send (ret : Int) (t : UInt64)
  /-- the `i`-th message is delivered, and the callback reads `t` -/
  | deliver (i : Nat) (t : UInt64)
  /-- `smp_call_function_single` returns 0 -/
  | callReturns

/-- A step of `ipi_bench_one` on CPU `cpu`, or of the target of a message.  A
call that fails sends nothing, and one on another CPU succeeds only if that CPU
is online. -/
def oneStep (p : Params) (cpu dst : Int) (online : List Int) (s : OneState) :
    OneEvent → Option OneState
  | .test =>
    match s.pc with
    | .head loop ipitime =>
      if loop = 0 then some { s with pc := .returned 0, ipitime := ipitime } else none
    | _ => none
  | .sample t =>
    match s.pc with
    | .head loop ipitime =>
      if loop ≠ 0 ∧ s.clock ≤ t then
        some { s with pc := .send loop ipitime, now := t, clock := t }
      else none
    | _ => none
  | .send ret t =>
    match s.pc with
    | .send loop ipitime =>
      if ret < 0 then some { s with pc := .returned ret }
      else if dst = cpu then
        if s.clock ≤ t then
          some { s with
            pc := .inCall loop ipitime, now := ipiBenchGettime s.now t, clock := t }
        else none
      else if dst ∈ online then
        some { s with
          pc := .inCall loop ipitime, flight := s.flight ++ [(loop, ⟨dst, .gettime⟩)] }
      else none
    | _ => none
  | .deliver i t =>
    if i < s.flight.length ∧ s.clock ≤ t then
      some { s with
        now := ipiBenchGettime s.now t, clock := t, flight := s.flight.eraseIdx i }
    else none
  | .callReturns =>
    match s.pc with
    | .inCall loop ipitime =>
      if p.wait = true then
        if ∃ m ∈ s.flight, m.1 = loop then none
        else some { s with pc := .head (loop - 1) (ipitime + s.now) }
      else some { s with pc := .head (loop - 1) ipitime }
    | _ => none

/-- `ipi_bench_one` as it is entered.  Its local `now` is not initialized. -/
def OneState.enter (p : Params) (now clock : UInt64) : OneState where
  pc := .head p.loops.toNat 0
  now := now
  ipitime := 0
  clock := clock
  flight := []

/-- The next step of `ipi_bench_many`.  `inCall` is in
`smp_call_function_many`. -/
inductive ManyPc where
  | head (loop : Nat)
  | inCall (loop : Nat)
  | returned
  deriving DecidableEq, Repr

structure ManyState where
  pc : ManyPc
  flight : List (Nat × Message)

inductive ManyEvent where
  /-- the test of the loop, and then the call or the end -/
  | test
  /-- the `i`-th message is delivered -/
  | deliver (i : Nat)
  /-- `smp_call_function_many` returns -/
  | callReturns

/-- The callback of `ipi_bench_many`. -/
def manyCallback (lock : Bool) : Callback := if lock then .spinlock else .empty

/-- The messages of one call of `ipi_bench_many` on CPU `cpu`. -/
def manyMessages (lock : Bool) (cpu : Int) (online : List Int) : List Message :=
  (online.filter (· ≠ cpu)).map (⟨·, manyCallback lock⟩)

/-- A step of `ipi_bench_many` on CPU `cpu`, or of the target of a message. -/
def manyStep (p : Params) (lock : Bool) (cpu : Int) (online : List Int) (s : ManyState) :
    ManyEvent → Option ManyState
  | .test =>
    match s.pc with
    | .head loop =>
      if loop = 0 then some { s with pc := .returned }
      else some { s with
        pc := .inCall loop
        flight := s.flight ++ (manyMessages lock cpu online).map (loop, ·) }
    | _ => none
  | .deliver i =>
    if i < s.flight.length then some { s with flight := s.flight.eraseIdx i } else none
  | .callReturns =>
    match s.pc with
    | .inCall loop =>
      if p.wait = true ∧ ∃ m ∈ s.flight, m.1 = loop then none
      else some { s with pc := .head (loop - 1) }
    | _ => none

def ManyState.enter (p : Params) : ManyState where
  pc := .head p.loops.toNat
  flight := []

/-! ## The moves of the two functions -/

/-- What one event can do to `ipi_bench_one`. -/
inductive OneMove (p : Params) (cpu dst : Int) (online : List Int) (s : OneState) :
    OneEvent → OneState → Prop where
  | leave {ipitime} (hpc : s.pc = .head 0 ipitime) :
      OneMove p cpu dst online s .test { s with pc := .returned 0, ipitime := ipitime }
  | sample {loop ipitime t} (hpc : s.pc = .head loop ipitime) (hloop : loop ≠ 0)
      (hclock : s.clock ≤ t) :
      OneMove p cpu dst online s (.sample t)
        { s with pc := .send loop ipitime, now := t, clock := t }
  | fail {loop ipitime ret t} (hpc : s.pc = .send loop ipitime) (hret : ret < 0) :
      OneMove p cpu dst online s (.send ret t) { s with pc := .returned ret }
  | inPlace {loop ipitime ret t} (hpc : s.pc = .send loop ipitime) (hret : ¬ ret < 0)
      (hown : dst = cpu) (hclock : s.clock ≤ t) :
      OneMove p cpu dst online s (.send ret t) { s with
        pc := .inCall loop ipitime, now := ipiBenchGettime s.now t, clock := t }
  | post {loop ipitime ret t} (hpc : s.pc = .send loop ipitime) (hret : ¬ ret < 0)
      (hother : dst ≠ cpu) (honline : dst ∈ online) :
      OneMove p cpu dst online s (.send ret t) { s with
        pc := .inCall loop ipitime, flight := s.flight ++ [(loop, ⟨dst, .gettime⟩)] }
  | deliver {i t} (hi : i < s.flight.length) (hclock : s.clock ≤ t) :
      OneMove p cpu dst online s (.deliver i t) { s with
        now := ipiBenchGettime s.now t, clock := t, flight := s.flight.eraseIdx i }
  | waited {loop ipitime} (hpc : s.pc = .inCall loop ipitime) (hwait : p.wait = true)
      (hdelivered : ¬ ∃ m ∈ s.flight, m.1 = loop) :
      OneMove p cpu dst online s .callReturns { s with pc := .head (loop - 1) (ipitime + s.now) }
  | goOn {loop ipitime} (hpc : s.pc = .inCall loop ipitime) (hwait : p.wait ≠ true) :
      OneMove p cpu dst online s .callReturns { s with pc := .head (loop - 1) ipitime }

/-- What one event can do to `ipi_bench_many`. -/
inductive ManyMove (p : Params) (lock : Bool) (cpu : Int) (online : List Int) (s : ManyState) :
    ManyEvent → ManyState → Prop where
  | leave (hpc : s.pc = .head 0) :
      ManyMove p lock cpu online s .test { s with pc := .returned }
  | post {loop} (hpc : s.pc = .head loop) (hloop : loop ≠ 0) :
      ManyMove p lock cpu online s .test { s with
        pc := .inCall loop
        flight := s.flight ++ (manyMessages lock cpu online).map (loop, ·) }
  | deliver {i} (hi : i < s.flight.length) :
      ManyMove p lock cpu online s (.deliver i) { s with flight := s.flight.eraseIdx i }
  | goOn {loop} (hpc : s.pc = .inCall loop)
      (hdelivered : ¬ (p.wait = true ∧ ∃ m ∈ s.flight, m.1 = loop)) :
      ManyMove p lock cpu online s .callReturns { s with pc := .head (loop - 1) }

section Moves

variable {p : Params} {lock : Bool} {cpu dst : Int} {online : List Int}

theorem move_of_oneStep {s s' : OneState} {e : OneEvent}
    (hst : oneStep p cpu dst online s e = some s') : OneMove p cpu dst online s e s' := by
  cases e with
  | test =>
    simp only [oneStep] at hst
    split at hst
    · rename_i loop ipitime hpc
      split at hst <;> rename_i hloop <;> cases hst
      rw [hloop] at hpc
      exact .leave hpc
    · cases hst
  | sample t =>
    simp only [oneStep] at hst
    split at hst
    · rename_i hpc
      split at hst <;> rename_i hloop <;> cases hst
      exact .sample hpc hloop.1 hloop.2
    · cases hst
  | send ret t =>
    simp only [oneStep] at hst
    split at hst
    · rename_i hpc
      split at hst
      · rename_i hret
        cases hst
        exact .fail hpc hret
      · rename_i hret
        split at hst
        · rename_i hown
          split at hst <;> rename_i hclock <;> cases hst
          exact .inPlace hpc hret hown hclock
        · rename_i hother
          split at hst <;> rename_i honline <;> cases hst
          exact .post hpc hret hother honline
    · cases hst
  | deliver i t =>
    simp only [oneStep] at hst
    split at hst <;> rename_i hi <;> cases hst
    exact .deliver hi.1 hi.2
  | callReturns =>
    simp only [oneStep] at hst
    split at hst
    · rename_i hpc
      split at hst
      · rename_i hwait
        split at hst <;> rename_i hdelivered <;> cases hst
        exact .waited hpc hwait hdelivered
      · rename_i hwait
        cases hst
        exact .goOn hpc hwait
    · cases hst

theorem move_of_manyStep {s s' : ManyState} {e : ManyEvent}
    (hst : manyStep p lock cpu online s e = some s') : ManyMove p lock cpu online s e s' := by
  cases e with
  | test =>
    simp only [manyStep] at hst
    split at hst
    · rename_i loop hpc
      split at hst <;> rename_i hloop <;> cases hst
      · rw [hloop] at hpc
        exact .leave hpc
      · exact .post hpc hloop
    · cases hst
  | deliver i =>
    simp only [manyStep] at hst
    split at hst <;> rename_i hi <;> cases hst
    exact .deliver hi
  | callReturns =>
    simp only [manyStep] at hst
    split at hst
    · rename_i hpc
      split at hst <;> rename_i hdelivered <;> cases hst
      exact .goOn hpc hdelivered
    · cases hst

end Moves

/-! ## With `wait` set -/

/-- The call that `ipi_bench_one` is in. -/
def OnePc.current : OnePc → Option Nat
  | .inCall loop _ => some loop
  | _ => none

def OnePc.alive : OnePc → Bool
  | .returned _ => false
  | _ => true

def ManyPc.current : ManyPc → Option Nat
  | .inCall loop => some loop
  | _ => none

def ManyPc.alive : ManyPc → Bool
  | .returned => false
  | _ => true

section Views

variable (p : Params) (lock : Bool) (cpu dst : Int) (online : List Int)

/-- What a step of `ipi_bench_one` is as one of an asynchronous call. -/
def oneActs (s : OneState) : OneEvent → List (Act Nat Message)
  | .test => [.leave]
  | .sample _ => []
  | .send ret _ =>
    match s.pc with
    | .send loop _ =>
      if ret < 0 then [.leave]
      else if dst = cpu then [.send loop []] else [.send loop [⟨dst, .gettime⟩]]
    | _ => []
  | .deliver i _ => [.deliver i]
  | .callReturns => [.callReturns]

/-- `ipi_bench_one` as a function that makes asynchronous calls. -/
def oneView : View (oneStep p cpu dst online) (@AsyncCall.step Nat Message _ p.wait) where
  Inv _ := True
  state s := ⟨s.pc.alive, s.pc.current, s.flight⟩
  events := oneActs cpu dst
  inv_step _ _ := trivial
  simulates := by
    intro s e s' _ hst
    cases move_of_oneStep hst with
    | leave hpc => simp [oneActs, exec, AsyncCall.step, hpc, OnePc.alive, OnePc.current]
    | sample hpc _ _ => simp [oneActs, hpc, OnePc.alive, OnePc.current]
    | fail hpc hret =>
      simp [oneActs, exec, AsyncCall.step, hpc, hret, OnePc.alive, OnePc.current]
    | inPlace hpc hret hown _ =>
      simp [oneActs, exec, AsyncCall.step, hpc, hret, hown, OnePc.alive, OnePc.current]
    | post hpc hret hother _ =>
      simp [oneActs, exec, AsyncCall.step, hpc, hret, hother, OnePc.alive, OnePc.current]
    | deliver hi _ => simp [oneActs, exec, AsyncCall.step, hi]
    | waited hpc _ hdelivered =>
      simp only [oneActs, exec, AsyncCall.step, hpc, OnePc.current, OnePc.alive]
      rw [if_neg fun h => hdelivered h.2]
      rfl
    | goOn hpc hwait =>
      simp [oneActs, exec, AsyncCall.step, hpc, hwait, OnePc.alive, OnePc.current]

/-- What a step of `ipi_bench_many` is as one of an asynchronous call. -/
def manyActs (s : ManyState) : ManyEvent → List (Act Nat Message)
  | .test =>
    match s.pc with
    | .head loop => if loop = 0 then [.leave] else [.send loop (manyMessages lock cpu online)]
    | _ => []
  | .deliver i => [.deliver i]
  | .callReturns => [.callReturns]

/-- `ipi_bench_many` as a function that makes asynchronous calls. -/
def manyView :
    View (manyStep p lock cpu online) (@AsyncCall.step Nat Message _ p.wait) where
  Inv _ := True
  state s := ⟨s.pc.alive, s.pc.current, s.flight⟩
  events := manyActs lock cpu online
  inv_step _ _ := trivial
  simulates := by
    intro s e s' _ hst
    cases move_of_manyStep hst with
    | leave hpc => simp [manyActs, exec, AsyncCall.step, hpc, ManyPc.alive, ManyPc.current]
    | post hpc hloop =>
      simp [manyActs, exec, AsyncCall.step, hpc, hloop, ManyPc.alive, ManyPc.current]
    | deliver hi => simp [manyActs, exec, AsyncCall.step, hi]
    | goOn hpc hdelivered =>
      simp only [manyActs, exec, AsyncCall.step, hpc, ManyPc.current, ManyPc.alive]
      rw [if_neg hdelivered]
      rfl

end Views

/-! ## What is in flight -/

section Flight

variable {p : Params} {lock : Bool} {cpu dst : Int} {online : List Int}

/-- `ipi_bench_one` sends to another CPU only, which is online, and only if it
loops. -/
structure OneSent (p : Params) (cpu dst : Int) (online : List Int) (s : OneState) : Prop where
  loops : ∀ loop ipitime, s.pc = .head loop ipitime → loop ≠ 0 → 0 < p.loops
  sends : ∀ loop ipitime, s.pc = .send loop ipitime ∨ s.pc = .inCall loop ipitime → 0 < p.loops
  flight : ∀ m ∈ s.flight, dst ≠ cpu ∧ dst ∈ online ∧ 0 < p.loops

theorem OneSent.step {s s' : OneState} {e : OneEvent} (h : OneSent p cpu dst online s)
    (hst : oneStep p cpu dst online s e = some s') : OneSent p cpu dst online s' := by
  cases move_of_oneStep hst with
  | leave _ | fail _ _ => exact ⟨nofun, nofun, h.flight⟩
  | sample hpc hloop _ => exact ⟨nofun, fun _ _ _ => h.loops _ _ hpc hloop, h.flight⟩
  | inPlace hpc _ _ _ => exact ⟨nofun, fun _ _ _ => h.sends _ _ (Or.inl hpc), h.flight⟩
  | post hpc _ hother honline =>
    have hpos := h.sends _ _ (Or.inl hpc)
    refine ⟨nofun, fun _ _ _ => hpos, fun m hm => ?_⟩
    rcases List.mem_append.mp hm with hold | hnew
    · exact h.flight m hold
    · exact ⟨hother, honline, hpos⟩
  | deliver _ _ =>
    exact ⟨h.loops, h.sends, fun m hm => h.flight m (List.mem_of_mem_eraseIdx hm)⟩
  | waited hpc _ _ | goOn hpc _ =>
    exact ⟨fun _ _ _ _ => h.sends _ _ (Or.inr hpc), nofun, h.flight⟩

theorem oneSent_of_exec {s : OneState} {now clock : UInt64} {es : List OneEvent}
    (hrun : exec (oneStep p cpu dst online) (OneState.enter p now clock) es = some s) :
    OneSent p cpu dst online s := by
  refine exec_invariant' (fun _ _ _ hI hst => hI.step hst) ⟨fun loop ipitime hpc hloop => ?_,
    fun loop ipitime hpc => ?_, fun m hm => absurd hm List.not_mem_nil⟩ hrun
  · have heq : p.loops.toNat = loop := (OnePc.head.inj hpc).1
    omega
  · rcases hpc with hpc | hpc <;> cases hpc

/-- `ipi_bench_many` sends its callback to other CPUs, if it loops. -/
structure ManySent (p : Params) (lock : Bool) (cpu : Int) (online : List Int) (s : ManyState) :
    Prop where
  loops : ∀ loop, s.pc = .head loop → loop ≠ 0 → 0 < p.loops
  calls : ∀ loop, s.pc = .inCall loop → 0 < p.loops
  flight : ∀ m ∈ s.flight, m.2 ∈ manyMessages lock cpu online ∧ 0 < p.loops

theorem ManySent.step {s s' : ManyState} {e : ManyEvent} (h : ManySent p lock cpu online s)
    (hst : manyStep p lock cpu online s e = some s') : ManySent p lock cpu online s' := by
  cases move_of_manyStep hst with
  | leave _ => exact ⟨nofun, nofun, h.flight⟩
  | post hpc hloop =>
    have hpos := h.loops _ hpc hloop
    refine ⟨nofun, fun _ _ => hpos, fun m hm => ?_⟩
    rcases List.mem_append.mp hm with hold | hnew
    · exact h.flight m hold
    · obtain ⟨msg, hmsg, rfl⟩ := List.mem_map.mp hnew
      exact ⟨hmsg, hpos⟩
  | deliver _ => exact ⟨h.loops, h.calls, fun m hm => h.flight m (List.mem_of_mem_eraseIdx hm)⟩
  | goOn hpc _ => exact ⟨fun _ _ _ => h.calls _ hpc, nofun, h.flight⟩

theorem manySent_of_exec {s : ManyState} {es : List ManyEvent}
    (hrun : exec (manyStep p lock cpu online) (ManyState.enter p) es = some s) :
    ManySent p lock cpu online s := by
  refine exec_invariant' (fun _ _ _ hI hst => hI.step hst) ⟨fun loop hpc hloop => ?_,
    fun loop hpc => ?_, fun m hm => absurd hm List.not_mem_nil⟩ hrun
  · have heq : p.loops.toNat = loop := ManyPc.head.inj hpc
    omega
  · cases hpc

/-! ## Runs without `wait` -/

/-- Without `wait`, `ipi_bench_one` can return while all of its messages are
in flight. -/
theorem exists_one_in_flight (hwait : p.wait = false) (hother : dst ≠ cpu)
    (honline : dst ∈ online) (s : OneState) {loop : Nat} {ipitime : UInt64}
    (hpc : s.pc = .head loop ipitime) :
    ∃ es s', exec (oneStep p cpu dst online) s es = some s' ∧ s'.pc = .returned 0 ∧
      s.flight ⊆ s'.flight ∧ (loop ≠ 0 → ∃ m ∈ s'.flight, m.2.callback = .gettime) := by
  induction loop generalizing s ipitime with
  | zero =>
    refine ⟨[.test], { s with pc := .returned 0, ipitime := ipitime }, ?_, rfl,
      fun m hm => hm, fun h => absurd rfl h⟩
    simp [exec, oneStep, hpc]
  | succ loop ih =>
    obtain ⟨s₁, hs₁⟩ : ∃ s₁ : OneState, s₁ = { s with
        pc := .head loop ipitime
        now := s.clock
        flight := s.flight ++ [(loop + 1, ⟨dst, .gettime⟩)] } := ⟨_, rfl⟩
    have hturn : exec (oneStep p cpu dst online) s [.sample s.clock, .send 0 0, .callReturns] =
        some s₁ := by
      simp [exec, oneStep, hpc, hother, honline, hwait, hs₁]
    have hpc₁ : s₁.pc = .head loop ipitime := by rw [hs₁]
    obtain ⟨es, s', hrun, hret, hsub, -⟩ := ih s₁ hpc₁
    have hflight : s₁.flight = s.flight ++ [(loop + 1, ⟨dst, .gettime⟩)] := by rw [hs₁]
    rw [hflight] at hsub
    refine ⟨_, s', exec_trans hturn hrun, hret, fun m hm => ?_, fun _ =>
      ⟨(loop + 1, ⟨dst, .gettime⟩), ?_, rfl⟩⟩
    · exact hsub (List.mem_append_left _ hm)
    · exact hsub (List.mem_append_right _ (List.mem_singleton.mpr rfl))

/-- Without `wait`, `ipi_bench_many` can return while all of its messages are
in flight. -/
theorem exists_many_in_flight (lock : Bool) (cpu : Int) (online : List Int) (hwait : p.wait = false)
    (s : ManyState) {loop : Nat} (hpc : s.pc = .head loop) :
    ∃ es s', exec (manyStep p lock cpu online) s es = some s' ∧ s'.pc = .returned ∧
      s.flight ⊆ s'.flight ∧
      (loop ≠ 0 → ∀ msg ∈ manyMessages lock cpu online, (loop, msg) ∈ s'.flight) := by
  induction loop generalizing s with
  | zero =>
    refine ⟨[.test], { s with pc := .returned }, ?_, rfl, fun m hm => hm, fun h => absurd rfl h⟩
    simp [exec, manyStep, hpc]
  | succ loop ih =>
    obtain ⟨s₁, hs₁⟩ : ∃ s₁ : ManyState, s₁ = { s with
        pc := .head loop
        flight := s.flight ++ (manyMessages lock cpu online).map (loop + 1, ·) } := ⟨_, rfl⟩
    have hturn : exec (manyStep p lock cpu online) s [.test, .callReturns] = some s₁ := by
      simp [exec, manyStep, hpc, hwait, hs₁]
    have hpc₁ : s₁.pc = .head loop := by rw [hs₁]
    obtain ⟨es, s', hrun, hret, hsub, -⟩ := ih s₁ hpc₁
    have hflight : s₁.flight =
        s.flight ++ (manyMessages lock cpu online).map (loop + 1, ·) := by rw [hs₁]
    rw [hflight] at hsub
    refine ⟨_, s', exec_trans hturn hrun, hret, fun m hm => ?_, fun _ msg hmsg => ?_⟩
    · exact hsub (List.mem_append_left _ hm)
    · exact hsub (List.mem_append_right _ (List.mem_map_of_mem hmsg))

end Flight

/-! ## When the callbacks come first -/

/-- In no reachable state `ipi_bench_one` has returned while a callback with a
pointer to its `now` is in flight. -/
def OneSafe (p : Params) (cpu dst : Int) (online : List Int) : Prop :=
  ∀ now clock es s, exec (oneStep p cpu dst online) (OneState.enter p now clock) es = some s →
    ∀ ret, s.pc = .returned ret → ∀ m ∈ s.flight, m.2.callback ≠ .gettime

/-- In no reachable state `ipi_bench_many` has returned while a callback with
a pointer to its spinlock is in flight. -/
def ManySafe (p : Params) (lock : Bool) (cpu : Int) (online : List Int) : Prop :=
  ∀ es s, exec (manyStep p lock cpu online) (ManyState.enter p) es = some s →
    s.pc = .returned → ∀ m ∈ s.flight, m.2.callback ≠ .spinlock

section Safe

variable {p : Params} {lock : Bool} {cpu dst : Int} {online : List Int}

theorem oneSafe_of_wait (hwait : p.wait = true) : OneSafe p cpu dst online := by
  intro now clock es s hrun ret hret m hm
  have htrace := (oneView p cpu dst online).exec_trace trivial hrun
  have hleft : ((oneView p cpu dst online).state s).alive = false := by
    show s.pc.alive = false
    rw [hret]
    rfl
  have hempty : s.flight = [] := flight_empty_of_wait hwait htrace hleft
  rw [hempty] at hm
  cases hm

theorem manySafe_of_wait (hwait : p.wait = true) : ManySafe p lock cpu online := by
  intro es s hrun hret m hm
  have htrace := (manyView p lock cpu online).exec_trace trivial hrun
  have hleft : ((manyView p lock cpu online).state s).alive = false := by
    show s.pc.alive = false
    rw [hret]
    rfl
  have hempty : s.flight = [] := flight_empty_of_wait hwait htrace hleft
  rw [hempty] at hm
  cases hm

/-- `ipi_bench_one` waits, or it sends no message. -/
theorem oneSafe_iff : OneSafe p cpu dst online ↔
    p.wait = true ∨ p.loops ≤ 0 ∨ dst = cpu ∨ dst ∉ online := by
  constructor
  · intro h
    by_contra hbad
    rw [not_or, not_or, not_or, Bool.not_eq_true, not_not] at hbad
    obtain ⟨hwait, hloops, hother, honline⟩ := hbad
    obtain ⟨es, s, hrun, hret, -, hflight⟩ :=
      exists_one_in_flight hwait hother honline (OneState.enter p 0 0) rfl
    have hne : p.loops.toNat ≠ 0 := by omega
    obtain ⟨m, hm, hcallback⟩ := hflight hne
    exact h 0 0 es s hrun 0 hret m hm hcallback
  · intro h
    by_cases hwait : p.wait = true
    · exact oneSafe_of_wait hwait
    · intro now clock es s hrun ret hret m hm
      obtain ⟨hother, honline, hpos⟩ := (oneSent_of_exec hrun).flight m hm
      rcases h.resolve_left hwait with hloops | hown | hoffline
      · omega
      · exact absurd hown hother
      · exact absurd honline hoffline

/-- `ipi_bench_many` waits, or it sends no message with a pointer. -/
theorem manySafe_iff : ManySafe p lock cpu online ↔
    p.wait = true ∨ p.loops ≤ 0 ∨ lock = false ∨ ∀ c ∈ online, c = cpu := by
  constructor
  · intro h
    by_contra hbad
    rw [not_or, not_or, not_or, Bool.not_eq_true, Bool.not_eq_false] at hbad
    obtain ⟨hwait, hloops, hlock, hothers⟩ := hbad
    push Not at hothers
    obtain ⟨c, hc, hother⟩ := hothers
    obtain ⟨es, s, hrun, hret, -, hflight⟩ :=
      exists_many_in_flight lock cpu online hwait (ManyState.enter p) rfl
    have hmsg : (⟨c, manyCallback lock⟩ : Message) ∈ manyMessages lock cpu online :=
      List.mem_map.mpr ⟨c, List.mem_filter.mpr ⟨hc, by simpa using hother⟩, rfl⟩
    have hne : p.loops.toNat ≠ 0 := by omega
    refine h es s hrun hret _ (hflight hne _ hmsg) ?_
    show manyCallback lock = .spinlock
    rw [hlock]
    rfl
  · intro h
    by_cases hwait : p.wait = true
    · exact manySafe_of_wait hwait
    · intro es s hrun hret m hm hcallback
      obtain ⟨hmsg, hpos⟩ := (manySent_of_exec hrun).flight m hm
      obtain ⟨c, hc, hm⟩ := List.mem_map.mp hmsg
      rcases h.resolve_left hwait with hloops | hlock | hothers
      · omega
      · rw [← hm, hlock] at hcallback
        cases hcallback
      · rw [List.mem_filter] at hc
        exact absurd (hothers c hc.1) (by simpa using hc.2)

/-- No callback outlives the frame that it points into exactly when the calls
wait, or the loops are empty, or no call with a pointer comes to another CPU:
`dst` is the own CPU, or not online, so that each call on it fails, and the
lock is not set or no other CPU is online. -/
theorem callbacks_return_first_iff :
    OneSafe p cpu dst online ∧ ManySafe p lock cpu online ↔
      p.wait = true ∨ p.loops ≤ 0 ∨
        (dst = cpu ∨ dst ∉ online) ∧ (lock = false ∨ ∀ c ∈ online, c = cpu) := by
  rw [oneSafe_iff, manySafe_iff, ← or_and_left, ← or_and_left]

end Safe

/-- One call from CPU 0 to CPU 1 without `wait`. -/
theorem callback_outlives_now :
    ¬ ∀ (p : Params) (lock : Bool) (cpu dst : Int) (online : List Int),
      OneSafe p cpu dst online ∧ ManySafe p lock cpu online := by
  intro h
  have hsafe := (h ⟨1, 0, 1, -1, true, -1, false, SINGLE_IPI⟩ true 0 1 [0, 1]).1
  have hlate : (exec (oneStep ⟨1, 0, 1, -1, true, -1, false, SINGLE_IPI⟩ 0 1 [0, 1])
      (OneState.enter ⟨1, 0, 1, -1, true, -1, false, SINGLE_IPI⟩ 0 0)
      [.sample 5, .send 0 0, .callReturns, .test]).map (fun s =>
        decide (s.pc = .returned 0 ∧ (1, ⟨1, .gettime⟩) ∈ s.flight)) = some true := by
    decide
  obtain ⟨s, hrun, hlast⟩ := exists_exec_of_map hlate
  rw [decide_eq_true_eq] at hlast
  exact hsafe 0 0 _ s hrun 0 hlast.1 _ hlast.2 rfl

/-! ## The same function in the machine

With `wait` set, the machine has one event for a call, which reads the clock
when the callback runs. -/

section Bench

variable (p : Params) (jobs : List Job) (cpu dst : Int) (online : List Int) (w : Worker)
  (b : State)

/-- The messages in flight, when calls wait. -/
def OneState.Waiting (s : OneState) : Prop :=
  match s.pc with
  | .inCall loop _ => s.flight = [] ∨ s.flight = [(loop, ⟨dst, .gettime⟩)]
  | _ => s.flight = []

/-- Where the worker of the machine is.  It is past its call as soon as the
callback has run. -/
def OneState.benchPc (s : OneState) : Pc :=
  match s.pc with
  | .head loop ipitime => .one dst loop ipitime
  | .send loop ipitime => .call dst loop ipitime s.now
  | .inCall loop ipitime =>
    if s.flight = [] then .one dst (loop - 1) (ipitime + s.now) else .call dst loop ipitime s.now
  | .returned _ => .sampleFinish

/-- The state of the machine, with the rest of it as in `b`. -/
def OneState.toBench (s : OneState) : State :=
  if s.pc = .returned 0 then
    ({ b with clock := s.clock }.store w .ipitime s.ipitime).goto w .sampleFinish
  else { b with clock := s.clock }.goto w (s.benchPc dst)

/-- The events of the machine for a step of `ipi_bench_one`. -/
def oneBenchEvents (s : OneState) : OneEvent → List Event
  | .test => [.worker w, .worker w]
  | .sample t => [.sample w t]
  | .send ret t =>
    if ret < 0 then [.call w ret s.clock] else if dst = cpu then [.call w 0 t] else []
  | .deliver _ t => [.call w 0 t]
  | .callReturns => []

/-- With `wait` set, a run of `ipi_bench_one` is a run of a worker of the
machine. -/
def benchView (hwait : p.wait = true) : View (oneStep p cpu dst online) (IpiBench.step p jobs) where
  Inv s := s.Waiting dst
  state s := s.toBench dst w b
  events := oneBenchEvents cpu dst w
  inv_step := by
    intro s e s' hI hst
    unfold OneState.Waiting at hI ⊢
    cases move_of_oneStep hst with
    | leave hpc | sample hpc _ _ | fail hpc _ =>
      rw [hpc] at hI
      exact hI
    | inPlace hpc _ _ _ =>
      rw [hpc] at hI
      exact Or.inl hI
    | post hpc _ _ _ =>
      rw [hpc] at hI
      exact Or.inr (by rw [hI]; rfl)
    | deliver hi _ =>
      split at hI
      · rename_i loop ipitime hpc
        rcases hI with hnone | hone
        · simp [hnone] at hi
        · simp only [hone, List.length_singleton, Nat.lt_one_iff] at hi
          simp only [hpc, hone, hi]
          exact Or.inl rfl
      · simp [hI] at hi
    | waited hpc _ hdelivered =>
      rw [hpc] at hI
      rcases hI with hnone | hone
      · exact hnone
      · exact absurd ⟨_, by rw [hone]; exact List.mem_singleton.mpr rfl, rfl⟩ hdelivered
    | goOn _ hnowait => exact absurd hwait hnowait
  simulates := by
    intro s e s' hI hst
    unfold OneState.Waiting at hI
    cases move_of_oneStep hst with
    | leave hpc =>
      simp [oneBenchEvents, exec, IpiBench.step, workerStep, OneState.toBench, OneState.benchPc,
        State.goto, State.store, hpc]
    | sample hpc hloop hclock =>
      simp [oneBenchEvents, exec, IpiBench.step, sampleStep, OneState.toBench, OneState.benchPc,
        State.goto, hpc, hloop, hclock]
    | @fail _ _ ret _ hpc hret =>
      have hne : ret ≠ 0 := by omega
      simp [oneBenchEvents, exec, IpiBench.step, callStep, OneState.toBench, OneState.benchPc,
        State.goto, hpc, hret, hne]
    | inPlace hpc hret hown hclock =>
      rw [hpc] at hI
      simp [oneBenchEvents, exec, IpiBench.step, callStep, OneState.toBench, OneState.benchPc,
        State.goto, hpc, hret, hown, hclock, hwait, hI]
    | post hpc hret hother _ =>
      simp [oneBenchEvents, OneState.toBench, OneState.benchPc, hpc, hret, hother]
    | deliver hi hclock =>
      split at hI
      · rename_i loop ipitime hpc
        rcases hI with hnone | hone
        · simp [hnone] at hi
        · simp only [hone, List.length_singleton, Nat.lt_one_iff] at hi
          simp [oneBenchEvents, exec, IpiBench.step, callStep, OneState.toBench, OneState.benchPc,
            State.goto, hpc, hone, hi, hclock, hwait]
      · simp [hI] at hi
    | waited hpc _ hdelivered =>
      rw [hpc] at hI
      rcases hI with hnone | hone
      · simp [oneBenchEvents, OneState.toBench, OneState.benchPc, hpc, hnone]
      · exact absurd ⟨_, by rw [hone]; exact List.mem_singleton.mpr rfl, rfl⟩ hdelivered
    | goOn _ hnowait => exact absurd hwait hnowait

end Bench

end KvmUtils.IpiBench
