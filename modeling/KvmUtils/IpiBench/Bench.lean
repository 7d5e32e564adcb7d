import Mathlib.Data.Finset.Insert
import Mathlib.Data.Prod.Basic
import Mathlib.Logic.Function.Basic
import KvmUtils.Lib.Machine
import KvmUtils.IpiBench.Jobs

/-!
# The main thread and the workers

`ipi_bench_init` runs its benchmarks in one thread, and each benchmark starts
its workers as kernel threads.  All of them share the counters `ready_to_run`,
`should_run` and `complete_run`, which no benchmark resets.

The module is embedded as an event machine in the sense of `Machine`.  The
main thread and every worker have a program counter, and each operation on an
`atomic64_t` is a step of its own.  The operands of `<` and `!=` at the start
barrier are read from left to right.  The environment chooses who steps, what
the clock and `current->sched_info` read, what the calls into the kernel
return, and how `wait_event_interruptible_timeout` ends.

The counters stay far below `2 ^ 63`, since a load starts fewer than `2 ^ 33`
workers, and are kept as integers.
-/

namespace KvmUtils.IpiBench

open Function Machine

/-- The fields of `bench_args` that a worker stores. -/
inductive Field where
  | forked
  | start
  | ipitime
  | finish
  | runDelay
  deriving DecidableEq, Repr

/-- `struct bench_args`, without the name of the thread. -/
structure BenchArgs where
  src : Int
  dst : Int
  field : Field → UInt64

/-- A worker: the index of its benchmark and its own index there. -/
abbrev Worker := Nat × Nat

/-- The next step of a worker.  `absent` is a worker that has not been
created.  The steps from `enter` to `sampleFinish` are the timed section:
`ipi_bench_one` with its locals `dst`, `loop` and `ipitime`, or
`ipi_bench_many` with `loop`. -/
inductive Pc where
  | absent
  | sampleForked
  | storeForked (t : UInt64)
  | addReady
  | spinReady
  | spinShould (ready : Int)
  | checkReady
  | checkShould (ready : Int)
  | bug
  | sampleStart
  | storeStart (t : UInt64)
  | enter
  | one (dst : Int) (loop : Nat) (ipitime : UInt64)
  | call (dst : Int) (loop : Nat) (ipitime : UInt64) (now : UInt64)
  | storeIpitime (ipitime : UInt64)
  | many (loop : Nat)
  | sampleFinish
  | storeFinish (t : UInt64)
  | storeRunDelay
  | addComplete
  | wake
  | done
  deriving DecidableEq, Repr

/-- The next step of the main thread.  `next` is between two benchmarks,
`launch i` at the head of the loop that starts the workers, and
`report elapsed i fields` reads the fields of entry `i` one by one. -/
inductive MainPc where
  | next
  | alloc
  | setShould
  | build
  | launch (i : Nat)
  | sampleStart
  | wait (startns : UInt64)
  | sampleEnd (startns : UInt64)
  | report (elapsed : UInt64) (i : Nat) (fields : List UInt64)
  | free
  | returned
  deriving DecidableEq, Repr

/-- How `wait_event_interruptible_timeout` ends. -/
inductive WaitEnd where
  | condition
  | timeout
  | signal
  deriving DecidableEq, Repr

/-- The fields that a report has read, in the order in which it reads them. -/
structure Report where
  worker : Worker
  elapsed : UInt64
  fields : List UInt64
  deriving DecidableEq, Repr

/-- The state of the module. `job` is the index of the current benchmark, and
`live` says which arrays of `bench_args` are allocated.

`args` holds what has been stored for each worker, also after the `kfree` of
its array.  The memory of a freed array may be handed out again, so what `args`
says is in memory only as long as no late worker stores into another array
(`NoStaleStore`, `ArgsInMemory`). -/
structure State where
  job : Nat
  main : MainPc
  ready : Int
  should : Int
  complete : Int
  clock : UInt64
  live : Nat → Bool
  args : Worker → BenchArgs
  pc : Worker → Pc
  /-- the workers that have been created -/
  launched : Finset Worker
  /-- the fields that each worker has stored, the last one first -/
  stored : Worker → List Field
  reports : List Report
  /-- what each benchmark returns: `-1` until it is through its reports -/
  ret : Nat → Int

inductive Event where
  /-- the next step of the main thread -/
  | main
  /-- `kzalloc` -/
  | alloc (ok : Bool)
  /-- the choice of the CPUs, with the values of `__random` -/
  | build (random : Nat → UInt64)
  /-- `kthread_create_on_node` -/
  | launch (ok : Bool)
  /-- `getns` in the main thread -/
  | mainSample (t : UInt64)
  | waitReturn (how : WaitEnd)
  /-- the next step of worker `w` -/
  | worker (w : Worker)
  /-- `gettime` in worker `w` -/
  | sample (w : Worker) (t : UInt64)
  /-- `smp_call_function_single` in worker `w`: its result, and the time that
  `ipi_bench_gettime` reads on the target -/
  | call (w : Worker) (ret : Int) (t : UInt64)
  /-- `current->sched_info.run_delay` of worker `w` -/
  | runDelay (w : Worker) (d : UInt64)

/-- The worker `w` goes on to `p`. -/
def State.goto (s : State) (w : Worker) (p : Pc) : State := { s with pc := update s.pc w p }

/-- The worker `w` stores `v` in a field of its `bench_args`. -/
def State.store (s : State) (w : Worker) (f : Field) (v : UInt64) : State :=
  { s with
    args := update s.args w { s.args w with field := update (s.args w).field f v }
    stored := update s.stored w (f :: s.stored w) }

/-- `ipi_bench_gettime`: what the callback leaves in `now`, when it reads
`t`. -/
def ipiBenchGettime (now t : UInt64) : UInt64 := if t > now then t - now else 0

/-- The fields that `ipi_bench_report_single` and `ipi_bench_report_all` read,
in order. -/
def reportFields : Task → List Field
  | .single => [.forked, .start, .finish, .ipitime, .runDelay]
  | .many => [.forked, .start, .finish, .runDelay]

section Step

variable (p : Params) (jobs : List Job)

/-- A step of a worker that asks nothing of the environment. -/
def workerStep (s : State) (w : Worker) : Option State :=
  match s.pc w with
  | .absent | .sampleForked | .bug | .sampleStart | .call _ _ _ _ | .sampleFinish
  | .storeRunDelay | .done => none
  | .storeForked t => some ((s.store w .forked t).goto w .addReady)
  | .addReady => some ({ s with ready := s.ready + 1 }.goto w .spinReady)
  | .spinReady => some (s.goto w (.spinShould s.ready))
  | .spinShould ready =>
    if ready < s.should then some (s.goto w .spinReady) else some (s.goto w .checkReady)
  | .checkReady => some (s.goto w (.checkShould s.ready))
  | .checkShould ready =>
    if ready ≠ s.should then some (s.goto w .bug) else some (s.goto w .sampleStart)
  | .storeStart t => some ((s.store w .start t).goto w .enter)
  | .enter =>
    match jobs[w.1]? with
    | none => none
    | some job =>
      match job.task with
      | .single => some (s.goto w (.one (s.args w).dst p.loops.toNat 0))
      | .many => some (s.goto w (.many p.loops.toNat))
  | .one _ loop ipitime => if loop = 0 then some (s.goto w (.storeIpitime ipitime)) else none
  | .storeIpitime ipitime => some ((s.store w .ipitime ipitime).goto w .sampleFinish)
  | .many loop =>
    if loop = 0 then some (s.goto w .sampleFinish) else some (s.goto w (.many (loop - 1)))
  | .storeFinish t => some ((s.store w .finish t).goto w .storeRunDelay)
  | .addComplete => some ({ s with complete := s.complete + 1 }.goto w .wake)
  | .wake => some (s.goto w .done)

/-- `gettime` in a worker that has read `t`. -/
def sampleStep (s : State) (w : Worker) (t : UInt64) : Option State :=
  match s.pc w with
  | .sampleForked => some ({ s with clock := t }.goto w (.storeForked t))
  | .sampleStart => some ({ s with clock := t }.goto w (.storeStart t))
  | .one dst loop ipitime =>
    if loop = 0 then none else some ({ s with clock := t }.goto w (.call dst loop ipitime t))
  | .sampleFinish => some ({ s with clock := t }.goto w (.storeFinish t))
  | _ => none

/-- `smp_call_function_single` in a worker has returned `ret`. -/
def callStep (s : State) (w : Worker) (ret : Int) (t : UInt64) : Option State :=
  match s.pc w with
  | .call dst loop ipitime now =>
    if ret < 0 then some ({ s with clock := t }.goto w .sampleFinish)
    else if p.wait then
      some ({ s with clock := t }.goto w (.one dst (loop - 1) (ipitime + ipiBenchGettime now t)))
    else some ({ s with clock := t }.goto w (.one dst (loop - 1) ipitime))
  | _ => none

/-- A step of the main thread that asks nothing of the environment.  Where the
code divides by zero the machine goes on: the steps that do not are those with
`NonzeroDivisors`. -/
def mainStep (s : State) : Option State :=
  match s.main with
  | .next =>
    match jobs[s.job]? with
    | none => some { s with main := .returned }
    | some _ => some { s with main := .alloc }
  | .setShould =>
    match jobs[s.job]? with
    | none => none
    | some job => some { s with should := job.shouldRun, main := .build }
  | .launch i =>
    match jobs[s.job]? with
    | none => none
    | some job =>
      if (i : Int) < job.shouldRun then none
      else if job.timed then some { s with main := .sampleStart }
      else some { s with main := .wait 0 }
  | .report elapsed i fields =>
    match jobs[s.job]? with
    | none => none
    | some job =>
      if (i : Int) < job.shouldRun then
        match (reportFields job.task)[fields.length]? with
        | some f =>
          some { s with
            main := .report elapsed i (fields ++ [(s.args (s.job, i)).field f]) }
        | none =>
          some { s with
            reports := s.reports ++ [⟨(s.job, i), elapsed, fields⟩]
            main := .report elapsed (i + 1) [] }
      else some { s with ret := update s.ret s.job 0, main := .free }
  | .free =>
    some { s with live := update s.live s.job false, job := s.job + 1, main := .next }
  | .alloc | .build | .sampleStart | .wait _ | .sampleEnd _ | .returned => none

/-- `kzalloc` of the array.  A negative length is no size that `kzalloc` can
serve. -/
def allocStep (s : State) (ok : Bool) : Option State :=
  match s.main, jobs[s.job]? with
  | .alloc, some job =>
    if ok then
      if 0 ≤ job.shouldRun then
        some { s with live := update s.live s.job true, main := .setShould }
      else none
    else some { s with job := s.job + 1, main := .next }
  | _, _ => none

/-- The entry of a worker with the given CPUs, as `kzalloc` and the choice of
the CPUs leave it. -/
def BenchArgs.fresh (cpus : Int × Int) : BenchArgs where
  src := cpus.1
  dst := cpus.2
  field _ := 0

/-- The choice of the CPUs. -/
def buildStep (s : State) (random : Nat → UInt64) : Option State :=
  match s.main, jobs[s.job]? with
  | .build, some job =>
    match job.cpus random with
    | none => some { s with main := .free }
    | some cpus =>
      some { s with
        args := fun w =>
          if w.1 = s.job then BenchArgs.fresh (cpus.getD w.2 (0, 0)) else s.args w
        main := .launch 0 }
  | _, _ => none

/-- `kthread_create_on_node`, `kthread_bind` and `wake_up_process`. -/
def launchStep (s : State) (ok : Bool) : Option State :=
  match s.main, jobs[s.job]? with
  | .launch i, some job =>
    if (i : Int) < job.shouldRun then
      if ok then
        some ({ s with
          launched := insert (s.job, i) s.launched
          main := .launch (i + 1) }.goto (s.job, i) .sampleForked)
      else some { s with main := .launch (i + 1) }
    else none
  | _, _ => none

/-- `getns` around the wait. -/
def mainSampleStep (s : State) (t : UInt64) : Option State :=
  match s.main with
  | .sampleStart => some { s with clock := t, main := .wait t }
  | .sampleEnd startns => some { s with clock := t, main := .report (t - startns) 0 [] }
  | _ => none

/-- `ipi_bench_wait_all` returns.  It may return for its condition only while
that holds. -/
def waitStep (s : State) (how : WaitEnd) : Option State :=
  match s.main, jobs[s.job]? with
  | .wait startns, some job =>
    if how = .condition ∧ s.complete ≠ s.should then none
    else if job.timed then some { s with main := .sampleEnd startns }
    else some { s with main := .report 0 0 [] }
  | _, _ => none

/-- One event of the machine.  A worker may go on when the main thread has
returned, though the module is then gone. -/
def step (s : State) : Event → Option State
  | .main => mainStep jobs s
  | .alloc ok => allocStep jobs s ok
  | .build random => buildStep jobs s random
  | .launch ok => launchStep jobs s ok
  | .mainSample t => if s.clock ≤ t then mainSampleStep s t else none
  | .waitReturn how => waitStep jobs s how
  | .worker w => workerStep p jobs s w
  | .sample w t => if s.clock ≤ t then sampleStep s w t else none
  | .call w ret t => if s.clock ≤ t then callStep p s w ret t else none
  | .runDelay w d =>
    match s.pc w with
    | .storeRunDelay => some ((s.store w .runDelay d).goto w .addComplete)
    | _ => none

end Step

/-- The module as it is loaded, at the first benchmark. -/
def State.load : State where
  job := 0
  main := .next
  ready := 0
  should := 0
  complete := 0
  clock := 0
  live _ := false
  args _ := BenchArgs.fresh (0, 0)
  pc _ := .absent
  launched := ∅
  stored _ := []
  reports := []
  ret _ := -1

/-! ## The moves of the machine -/

/-- The worker is in its timed section, with its next store that of `ipitime`
or of `finish`. -/
def Pc.InBody : Pc → Prop
  | .enter | .one _ _ _ | .call _ _ _ _ | .storeIpitime _ | .many _ | .sampleFinish => True
  | _ => False

/-- What a step of worker `w` can do, and the event that it is. -/
inductive WorkerAct (p : Params) (jobs : List Job) (s : State) (w : Worker) :
    Event → State → Prop where
  | sampleForked {t} (hpc : s.pc w = .sampleForked) (hclock : s.clock ≤ t) :
      WorkerAct p jobs s w (.sample w t) ({ s with clock := t }.goto w (.storeForked t))
  | storeForked {t} (hpc : s.pc w = .storeForked t) :
      WorkerAct p jobs s w (.worker w) ((s.store w .forked t).goto w .addReady)
  | addReady (hpc : s.pc w = .addReady) :
      WorkerAct p jobs s w (.worker w) ({ s with ready := s.ready + 1 }.goto w .spinReady)
  | spinReady (hpc : s.pc w = .spinReady) :
      WorkerAct p jobs s w (.worker w) (s.goto w (.spinShould s.ready))
  | spin {ready} (hpc : s.pc w = .spinShould ready) (hlt : ready < s.should) :
      WorkerAct p jobs s w (.worker w) (s.goto w .spinReady)
  | leave {ready} (hpc : s.pc w = .spinShould ready) (hge : s.should ≤ ready) :
      WorkerAct p jobs s w (.worker w) (s.goto w .checkReady)
  | checkReady (hpc : s.pc w = .checkReady) :
      WorkerAct p jobs s w (.worker w) (s.goto w (.checkShould s.ready))
  | bug {ready} (hpc : s.pc w = .checkShould ready) (hne : ready ≠ s.should) :
      WorkerAct p jobs s w (.worker w) (s.goto w .bug)
  | pass {ready} (hpc : s.pc w = .checkShould ready) (heq : ready = s.should) :
      WorkerAct p jobs s w (.worker w) (s.goto w .sampleStart)
  | sampleStart {t} (hpc : s.pc w = .sampleStart) (hclock : s.clock ≤ t) :
      WorkerAct p jobs s w (.sample w t) ({ s with clock := t }.goto w (.storeStart t))
  | storeStart {t} (hpc : s.pc w = .storeStart t) :
      WorkerAct p jobs s w (.worker w) ((s.store w .start t).goto w .enter)
  | enterSingle {job} (hpc : s.pc w = .enter) (hjob : jobs[w.1]? = some job)
      (htask : job.task = .single) :
      WorkerAct p jobs s w (.worker w) (s.goto w (.one (s.args w).dst p.loops.toNat 0))
  | enterMany {job} (hpc : s.pc w = .enter) (hjob : jobs[w.1]? = some job)
      (htask : job.task = .many) :
      WorkerAct p jobs s w (.worker w) (s.goto w (.many p.loops.toNat))
  | sampleCall {dst loop ipitime t} (hpc : s.pc w = .one dst loop ipitime) (hloop : loop ≠ 0)
      (hclock : s.clock ≤ t) :
      WorkerAct p jobs s w (.sample w t)
        ({ s with clock := t }.goto w (.call dst loop ipitime t))
  | callFailed {dst loop ipitime now ret t} (hpc : s.pc w = .call dst loop ipitime now)
      (hret : ret < 0) (hclock : s.clock ≤ t) :
      WorkerAct p jobs s w (.call w ret t) ({ s with clock := t }.goto w .sampleFinish)
  | callWaited {dst loop ipitime now ret t} (hpc : s.pc w = .call dst loop ipitime now)
      (hret : 0 ≤ ret) (hwait : p.wait = true) (hclock : s.clock ≤ t) :
      WorkerAct p jobs s w (.call w ret t) ({ s with clock := t }.goto w
        (.one dst (loop - 1) (ipitime + ipiBenchGettime now t)))
  | callSent {dst loop ipitime now ret t} (hpc : s.pc w = .call dst loop ipitime now)
      (hret : 0 ≤ ret) (hwait : p.wait = false) (hclock : s.clock ≤ t) :
      WorkerAct p jobs s w (.call w ret t)
        ({ s with clock := t }.goto w (.one dst (loop - 1) ipitime))
  | endOne {dst ipitime} (hpc : s.pc w = .one dst 0 ipitime) :
      WorkerAct p jobs s w (.worker w) (s.goto w (.storeIpitime ipitime))
  | storeIpitime {v} (hpc : s.pc w = .storeIpitime v) :
      WorkerAct p jobs s w (.worker w) ((s.store w .ipitime v).goto w .sampleFinish)
  | many {loop} (hpc : s.pc w = .many loop) (hloop : loop ≠ 0) :
      WorkerAct p jobs s w (.worker w) (s.goto w (.many (loop - 1)))
  | endMany (hpc : s.pc w = .many 0) :
      WorkerAct p jobs s w (.worker w) (s.goto w .sampleFinish)
  | sampleFinish {t} (hpc : s.pc w = .sampleFinish) (hclock : s.clock ≤ t) :
      WorkerAct p jobs s w (.sample w t) ({ s with clock := t }.goto w (.storeFinish t))
  | storeFinish {t} (hpc : s.pc w = .storeFinish t) :
      WorkerAct p jobs s w (.worker w) ((s.store w .finish t).goto w .storeRunDelay)
  | runDelay {d} (hpc : s.pc w = .storeRunDelay) :
      WorkerAct p jobs s w (.runDelay w d) ((s.store w .runDelay d).goto w .addComplete)
  | addComplete (hpc : s.pc w = .addComplete) :
      WorkerAct p jobs s w (.worker w) ({ s with complete := s.complete + 1 }.goto w .wake)
  | wake (hpc : s.pc w = .wake) : WorkerAct p jobs s w (.worker w) (s.goto w .done)

/-- What a step of worker `w` can do.  The steps of the timed section that
store nothing are one case. -/
inductive WorkerMove (s : State) (w : Worker) : State → Prop where
  | sampleForked {t} (hpc : s.pc w = .sampleForked) (hclock : s.clock ≤ t) :
      WorkerMove s w ({ s with clock := t }.goto w (.storeForked t))
  | storeForked {t} (hpc : s.pc w = .storeForked t) :
      WorkerMove s w ((s.store w .forked t).goto w .addReady)
  | addReady (hpc : s.pc w = .addReady) :
      WorkerMove s w ({ s with ready := s.ready + 1 }.goto w .spinReady)
  | spinReady (hpc : s.pc w = .spinReady) : WorkerMove s w (s.goto w (.spinShould s.ready))
  | spin {ready} (hpc : s.pc w = .spinShould ready) (hlt : ready < s.should) :
      WorkerMove s w (s.goto w .spinReady)
  | leave {ready} (hpc : s.pc w = .spinShould ready) (hge : s.should ≤ ready) :
      WorkerMove s w (s.goto w .checkReady)
  | checkReady (hpc : s.pc w = .checkReady) : WorkerMove s w (s.goto w (.checkShould s.ready))
  | bug {ready} (hpc : s.pc w = .checkShould ready) (hne : ready ≠ s.should) :
      WorkerMove s w (s.goto w .bug)
  | pass {ready} (hpc : s.pc w = .checkShould ready) (heq : ready = s.should) :
      WorkerMove s w (s.goto w .sampleStart)
  | sampleStart {t} (hpc : s.pc w = .sampleStart) (hclock : s.clock ≤ t) :
      WorkerMove s w ({ s with clock := t }.goto w (.storeStart t))
  | storeStart {t} (hpc : s.pc w = .storeStart t) :
      WorkerMove s w ((s.store w .start t).goto w .enter)
  | body {t p} (hpc : (s.pc w).InBody) (hp : p.InBody) (hclock : s.clock ≤ t) :
      WorkerMove s w ({ s with clock := t }.goto w p)
  | storeIpitime {v} (hpc : s.pc w = .storeIpitime v) :
      WorkerMove s w ((s.store w .ipitime v).goto w .sampleFinish)
  | sampleFinish {t} (hpc : s.pc w = .sampleFinish) (hclock : s.clock ≤ t) :
      WorkerMove s w ({ s with clock := t }.goto w (.storeFinish t))
  | storeFinish {t} (hpc : s.pc w = .storeFinish t) :
      WorkerMove s w ((s.store w .finish t).goto w .storeRunDelay)
  | runDelay {d} (hpc : s.pc w = .storeRunDelay) :
      WorkerMove s w ((s.store w .runDelay d).goto w .addComplete)
  | addComplete (hpc : s.pc w = .addComplete) :
      WorkerMove s w ({ s with complete := s.complete + 1 }.goto w .wake)
  | wake (hpc : s.pc w = .wake) : WorkerMove s w (s.goto w .done)

/-- What a step of the main thread can do. -/
inductive MainMove (jobs : List Job) (s : State) : Event → State → Prop where
  | stop (hmain : s.main = .next) (hjob : jobs[s.job]? = none) :
      MainMove jobs s .main { s with main := .returned }
  | begin {job} (hmain : s.main = .next) (hjob : jobs[s.job]? = some job) :
      MainMove jobs s .main { s with main := .alloc }
  | alloc {job} (hmain : s.main = .alloc) (hjob : jobs[s.job]? = some job)
      (hlen : 0 ≤ job.shouldRun) :
      MainMove jobs s (.alloc true)
        { s with live := update s.live s.job true, main := .setShould }
  | noMemory (hmain : s.main = .alloc) :
      MainMove jobs s (.alloc false) { s with job := s.job + 1, main := .next }
  | setShould {job} (hmain : s.main = .setShould) (hjob : jobs[s.job]? = some job) :
      MainMove jobs s .main { s with should := job.shouldRun, main := .build }
  | build {job random cpus} (hmain : s.main = .build) (hjob : jobs[s.job]? = some job)
      (hcpus : job.cpus random = some cpus) :
      MainMove jobs s (.build random) { s with
        args := fun w =>
          if w.1 = s.job then BenchArgs.fresh (cpus.getD w.2 (0, 0)) else s.args w
        main := .launch 0 }
  | buildFail {random} (hmain : s.main = .build) :
      MainMove jobs s (.build random) { s with main := .free }
  | launch {job i} (hmain : s.main = .launch i) (hjob : jobs[s.job]? = some job)
      (hi : (i : Int) < job.shouldRun) :
      MainMove jobs s (.launch true) ({ s with
        launched := insert (s.job, i) s.launched
        main := .launch (i + 1) }.goto (s.job, i) .sampleForked)
  | launchFail {job i} (hmain : s.main = .launch i) (hjob : jobs[s.job]? = some job)
      (hi : (i : Int) < job.shouldRun) :
      MainMove jobs s (.launch false) { s with main := .launch (i + 1) }
  | endLaunch {job i p} (hmain : s.main = .launch i) (hjob : jobs[s.job]? = some job)
      (hi : job.shouldRun ≤ i) (hp : p = .sampleStart ∨ p = .wait 0) :
      MainMove jobs s .main { s with main := p }
  | sampleStart {t} (hmain : s.main = .sampleStart) (hclock : s.clock ≤ t) :
      MainMove jobs s (.mainSample t) { s with clock := t, main := .wait t }
  | waitReturn {how startns p} (hmain : s.main = .wait startns)
      (hcond : how = .condition → s.complete = s.should)
      (hp : p = .sampleEnd startns ∨ p = .report 0 0 []) :
      MainMove jobs s (.waitReturn how) { s with main := p }
  | sampleEnd {t startns} (hmain : s.main = .sampleEnd startns) (hclock : s.clock ≤ t) :
      MainMove jobs s (.mainSample t)
        { s with clock := t, main := .report (t - startns) 0 [] }
  | report {elapsed i fields i' fields' reports} (hmain : s.main = .report elapsed i fields) :
      MainMove jobs s .main { s with reports := reports, main := .report elapsed i' fields' }
  | endReport {elapsed i fields} (hmain : s.main = .report elapsed i fields) :
      MainMove jobs s .main { s with ret := update s.ret s.job 0, main := .free }
  | free (hmain : s.main = .free) :
      MainMove jobs s .main
        { s with live := update s.live s.job false, job := s.job + 1, main := .next }

section Inversion

variable {p : Params} {jobs : List Job} {s s' : State}

theorem act_of_workerStep {w : Worker} (h : workerStep p jobs s w = some s') :
    WorkerAct p jobs s w (.worker w) s' := by
  unfold workerStep at h
  split at h
  case h_1 | h_2 | h_3 | h_4 | h_5 | h_6 | h_7 | h_8 => cases h
  case h_9 t hpc => cases h; exact .storeForked hpc
  case h_10 hpc => cases h; exact .addReady hpc
  case h_11 hpc => cases h; exact .spinReady hpc
  case h_12 ready hpc =>
    split at h <;> rename_i hlt <;> cases h
    · exact .spin hpc hlt
    · exact .leave hpc (by omega)
  case h_13 hpc => cases h; exact .checkReady hpc
  case h_14 ready hpc =>
    split at h <;> rename_i hne <;> cases h
    · exact .bug hpc hne
    · exact .pass hpc (by omega)
  case h_15 t hpc => cases h; exact .storeStart hpc
  case h_16 hpc =>
    split at h
    · cases h
    · rename_i job hjob
      split at h <;> rename_i htask <;> cases h
      · exact .enterSingle hpc hjob htask
      · exact .enterMany hpc hjob htask
  case h_17 dst loop ipitime hpc =>
    split at h <;> rename_i hloop <;> cases h
    subst hloop
    exact .endOne hpc
  case h_18 ipitime hpc => cases h; exact .storeIpitime hpc
  case h_19 loop hpc =>
    split at h <;> rename_i hloop <;> cases h
    · subst hloop
      exact .endMany hpc
    · exact .many hpc hloop
  case h_20 t hpc => cases h; exact .storeFinish hpc
  case h_21 hpc => cases h; exact .addComplete hpc
  case h_22 hpc => cases h; exact .wake hpc

theorem act_of_sampleStep {w : Worker} {t : UInt64} (hclock : s.clock ≤ t)
    (h : sampleStep s w t = some s') : WorkerAct p jobs s w (.sample w t) s' := by
  unfold sampleStep at h
  split at h
  case h_1 hpc => cases h; exact .sampleForked hpc hclock
  case h_2 hpc => cases h; exact .sampleStart hpc hclock
  case h_3 dst loop ipitime hpc =>
    split at h <;> rename_i hloop <;> cases h
    exact .sampleCall hpc hloop hclock
  case h_4 hpc => cases h; exact .sampleFinish hpc hclock
  case h_5 => cases h

theorem act_of_callStep {w : Worker} {ret : Int} {t : UInt64} (hclock : s.clock ≤ t)
    (h : callStep p s w ret t = some s') : WorkerAct p jobs s w (.call w ret t) s' := by
  unfold callStep at h
  split at h
  case h_1 dst loop ipitime now hpc =>
    split at h <;> rename_i hret
    · cases h
      exact .callFailed hpc hret hclock
    · split at h <;> rename_i hwait <;> cases h
      · exact .callWaited hpc (by omega) hwait hclock
      · exact .callSent hpc (by omega) (by simpa using hwait) hclock
  case h_2 => cases h

/-- The steps of the timed section that store nothing are one move. -/
theorem WorkerAct.move {e : Event} {w : Worker} (h : WorkerAct p jobs s w e s') :
    WorkerMove s w s' := by
  have hbody : ∀ {pc q : Pc} {t : UInt64}, s.pc w = pc → pc.InBody → q.InBody → s.clock ≤ t →
      WorkerMove s w ({ s with clock := t }.goto w q) := by
    rintro pc q t rfl hpc hq hclock
    exact .body hpc hq hclock
  cases h with
  | sampleForked hpc hclock => exact .sampleForked hpc hclock
  | storeForked hpc => exact .storeForked hpc
  | addReady hpc => exact .addReady hpc
  | spinReady hpc => exact .spinReady hpc
  | spin hpc hlt => exact .spin hpc hlt
  | leave hpc hge => exact .leave hpc hge
  | checkReady hpc => exact .checkReady hpc
  | bug hpc hne => exact .bug hpc hne
  | pass hpc heq => exact .pass hpc heq
  | sampleStart hpc hclock => exact .sampleStart hpc hclock
  | storeStart hpc => exact .storeStart hpc
  | enterSingle hpc _ _ | enterMany hpc _ _ | endOne hpc | endMany hpc | many hpc _ =>
    exact hbody hpc trivial trivial (UInt64.le_refl s.clock)
  | sampleCall hpc _ hclock | callFailed hpc _ hclock | callWaited hpc _ _ hclock
  | callSent hpc _ _ hclock => exact hbody hpc trivial trivial hclock
  | storeIpitime hpc => exact .storeIpitime hpc
  | sampleFinish hpc hclock => exact .sampleFinish hpc hclock
  | storeFinish hpc => exact .storeFinish hpc
  | runDelay hpc => exact .runDelay hpc
  | addComplete hpc => exact .addComplete hpc
  | wake hpc => exact .wake hpc

theorem move_of_mainStep (h : mainStep jobs s = some s') : MainMove jobs s .main s' := by
  unfold mainStep at h
  split at h
  case h_1 hmain =>
    split at h <;> rename_i hjob <;> cases h
    · exact .stop hmain hjob
    · exact .begin hmain hjob
  case h_2 hmain =>
    split at h <;> rename_i hjob <;> cases h
    exact .setShould hmain hjob
  case h_3 i hmain =>
    split at h
    · cases h
    · rename_i job hjob
      split at h
      · cases h
      · rename_i hi
        split at h <;> cases h
        · exact .endLaunch hmain hjob (by omega) (Or.inl rfl)
        · exact .endLaunch hmain hjob (by omega) (Or.inr rfl)
  case h_4 elapsed i fields hmain =>
    split at h
    · cases h
    · split at h
      · split at h <;> cases h
        · exact .report hmain
        · exact .report hmain
      · cases h
        exact .endReport hmain
  case h_5 hmain => cases h; exact .free hmain
  case h_6 | h_7 | h_8 | h_9 | h_10 | h_11 => cases h

theorem move_of_waitStep {how : WaitEnd} (h : waitStep jobs s how = some s') :
    MainMove jobs s (.waitReturn how) s' := by
  unfold waitStep at h
  split at h
  · rename_i startns job hmain hjob
    split at h
    · cases h
    · rename_i hcond
      have hcond' : how = .condition → s.complete = s.should := by
        intro hhow
        by_contra hne
        exact hcond ⟨hhow, hne⟩
      split at h <;> cases h
      · exact .waitReturn hmain hcond' (Or.inl rfl)
      · exact .waitReturn hmain hcond' (Or.inr rfl)
  · cases h

/-- The worker that takes the step, if it is not the main thread. -/
def Event.actor : Event → Option Worker
  | .worker w | .sample w _ | .call w _ _ | .runDelay w _ => some w
  | .main | .alloc _ | .build _ | .launch _ | .mainSample _ | .waitReturn _ => none

/-- An event of the main thread is a step of it. -/
theorem mainMove_of_step {e : Event} (he : e.actor = none) (h : step p jobs s e = some s') :
    MainMove jobs s e s' := by
  cases e with
  | main => exact move_of_mainStep h
  | alloc ok =>
    simp only [step, allocStep] at h
    split at h
    · rename_i job hmain hjob
      cases ok with
      | true =>
        simp only [if_true, Option.ite_none_right_eq_some, Option.some.injEq] at h
        obtain ⟨hlen, rfl⟩ := h
        exact .alloc hmain hjob hlen
      | false =>
        cases h
        exact .noMemory hmain
    · cases h
  | build random =>
    simp only [step, buildStep] at h
    split at h
    · rename_i job hmain hjob
      split at h <;> rename_i hcpus <;> cases h
      · exact .buildFail hmain
      · exact .build hmain hjob hcpus
    · cases h
  | launch ok =>
    simp only [step, launchStep] at h
    split at h
    · rename_i i job hmain hjob
      split at h
      · rename_i hi
        cases ok with
        | true =>
          cases h
          exact .launch hmain hjob hi
        | false =>
          cases h
          exact .launchFail hmain hjob hi
      · cases h
    · cases h
  | mainSample t =>
    simp only [step, Option.ite_none_right_eq_some] at h
    obtain ⟨hclock, h⟩ := h
    unfold mainSampleStep at h
    split at h
    case h_1 hmain => cases h; exact .sampleStart hmain hclock
    case h_2 startns hmain => cases h; exact .sampleEnd hmain hclock
    case h_3 => cases h
  | waitReturn how => exact move_of_waitStep h
  | worker | sample | call | runDelay => cases he

/-- An event of a worker is a step of it. -/
theorem act_of_step {e : Event} {w : Worker} (he : e.actor = some w)
    (h : step p jobs s e = some s') : WorkerAct p jobs s w e s' := by
  cases e with
  | main | alloc | build | launch | mainSample | waitReturn => cases he
  | worker v =>
    obtain rfl := Option.some.inj he
    exact act_of_workerStep h
  | sample v t =>
    obtain rfl := Option.some.inj he
    simp only [step, Option.ite_none_right_eq_some] at h
    exact act_of_sampleStep h.1 h.2
  | call v ret t =>
    obtain rfl := Option.some.inj he
    simp only [step, Option.ite_none_right_eq_some] at h
    exact act_of_callStep h.1 h.2
  | runDelay v d =>
    obtain rfl := Option.some.inj he
    simp only [step] at h
    split at h
    · rename_i hpc
      cases h
      exact .runDelay hpc
    · cases h

theorem workerMove_of_step {e : Event} {w : Worker} (he : e.actor = some w)
    (h : step p jobs s e = some s') : WorkerMove s w s' :=
  (act_of_step he h).move

/-- What an event can do: a step of a worker or of the main thread. -/
theorem move_of_step {e : Event} (h : step p jobs s e = some s') :
    (∃ w, WorkerMove s w s') ∨ MainMove jobs s e s' := by
  cases he : e.actor with
  | none => exact Or.inr (mainMove_of_step he h)
  | some w => exact Or.inl ⟨w, workerMove_of_step he h⟩

end Inversion

end KvmUtils.IpiBench
