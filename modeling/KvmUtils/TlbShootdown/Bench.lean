import Mathlib.Logic.Function.Basic
import KvmUtils.Lib.AddressSpace
import KvmUtils.Lib.Machine

/-!
# The TLB shootdown benchmark

`main` creates `num_threads` threads and joins them.  Each thread runs
`__routine`: it maps a buffer, and in every turn of its loop it stores to each
page of the buffer and then either advises the kernel that it does not need
the pages, or unmaps the buffer and maps another one.

The program is embedded as an event machine in the sense of `Machine`.  The
environment chooses which thread steps, where a successful `mmap` places the
buffer, what the other calls return and what the clock reads.  A store to an
address that is not mapped, and every failure that the program exits for, ends
the process.
-/

namespace KvmUtils.TlbShootdown

open Function Machine AddressSpace

/-- `buf_size`. -/
def BUF_SIZE : Nat := 256 * 1024 * 1024

/-- The step of `index`, and the length of one `madvise`. -/
def PAGE : Nat := 4096

/-- The options of the command line. -/
structure Config where
  numThreads : Int
  benchLoops : Int
  useUnmap : Bool

/-- The next step of a thread in `__routine`.  `fill` and `advise` are the
loops over the pages, `remap` is the second `mmap`, and `endLeak` is at the
last `gettimeofday` of a turn. -/
inductive Pc where
  | absent
  | setAffinity
  | getAffinity
  | mmap
  | head
  | startFill
  | fill (index : Nat)
  | startLeak
  | munmap
  | remap
  | advise (index : Nat)
  | endLeak
  | done
  deriving DecidableEq, Repr

/-- A thread: the locals of `__routine` and its `thread_info`.  `p` is the
pointer of the function's own scope.  The clock and the sums are integers where
the code has a `suseconds_t` of 64 bits: they count microseconds, of which a day
has fewer than `2 ^ 37`, so nothing comes near an overflow. -/
structure Thread where
  pc : Pc
  p : Nat
  loop : Nat
  start : Int
  usecFill : Int
  usecLeak : Int
  ret : Int
  /-- what its most recent `mmap` has returned -/
  last : Nat
  deriving DecidableEq, Repr

/-- The next step of `main`, with the sums that it keeps. -/
inductive MainPc where
  | create (tnum : Nat)
  | join (tnum : Nat) (fill leak : Int)
  | returned (fill leak : Int)
  deriving DecidableEq, Repr

structure State where
  exited : Bool
  main : MainPc
  threads : Nat → Thread
  space : Space Nat

inductive Event where
  /-- the next step of `main` -/
  | main
  /-- `pthread_create` -/
  | create (ok : Bool)
  /-- the next step of thread `t` -/
  | thread (t : Nat)
  /-- `pthread_setaffinity_np` or `pthread_getaffinity_np` -/
  | affinity (t : Nat) (ok : Bool)
  /-- `gettimeofday`, in microseconds -/
  | time (t : Nat) (usec : Int)
  /-- `mmap` returns `base` -/
  | mmap (t : Nat) (base : Nat)
  | munmap (t : Nat) (ok : Bool)
  | madvise (t : Nat) (ret : Int)

/-- Thread `t` goes on with `th`. -/
def State.set (s : State) (t : Nat) (th : Thread) : State :=
  { s with threads := update s.threads t th }

@[simp] theorem set_threads (s : State) (t : Nat) (th : Thread) : (s.set t th).threads t = th := by
  simp [State.set]

def State.exit (s : State) : State := { s with exited := true }

/-- The buffer at `base`, as thread `t` owns it. -/
def buffer (t base : Nat) : Range Nat where
  owner := t
  lo := base
  hi := base + BUF_SIZE
  lt := Nat.lt_add_of_pos_right (by decide)

/-- Nothing is mapped where the buffer at `base` is to be. -/
def State.Free (s : State) (base : Nat) : Prop :=
  ∀ m ∈ s.space.ranges, m.Avoids base (base + BUF_SIZE)

instance (s : State) (base : Nat) : Decidable (s.Free base) :=
  inferInstanceAs (Decidable (∀ m ∈ s.space.ranges, _))

/-- The buffer at `base` is mapped for thread `t`. -/
def State.mapBuffer (s : State) (t base : Nat) (h : s.Free base) : State :=
  { s with space := s.space.map (buffer t base) h }

/-- The addresses of a buffer at `base` are unmapped. -/
def State.unmapBuffer (s : State) (base : Nat) : State :=
  { s with space := s.space.unmap base (base + BUF_SIZE) (buffer 0 base).lt }

section Step

variable (c : Config)

/-- A step of a thread that asks nothing of the environment. -/
def threadStep (s : State) (t : Nat) : Option State :=
  let th := s.threads t
  match th.pc with
  | .head =>
    if (th.loop : Int) < c.benchLoops then some (s.set t { th with pc := .startFill })
    else some (s.set t { th with pc := .done })
  | .fill index =>
    if index < BUF_SIZE then
      if s.space.Mapped (th.p + index) then
        some (s.set t { th with pc := .fill (index + PAGE) })
      else some s.exit
    else none
  | _ => none

/-- `gettimeofday` in a thread.  After the loops over the pages it comes with
the test that ends them. -/
def timeStep (s : State) (t : Nat) (usec : Int) : Option State :=
  let th := s.threads t
  let endTurn := s.set t
    { th with pc := .head, usecLeak := th.usecLeak + (usec - th.start), loop := th.loop + 1 }
  match th.pc with
  | .startFill => some (s.set t { th with pc := .fill 0, start := usec })
  | .fill index =>
    if index < BUF_SIZE then none
    else some (s.set t
      { th with pc := .startLeak, usecFill := th.usecFill + (usec - th.start) })
  | .startLeak =>
    some (s.set t { th with pc := if c.useUnmap then .munmap else .advise 0, start := usec })
  | .advise index => if index < BUF_SIZE then none else some endTurn
  | .endLeak => some endTurn
  | _ => none

def affinityStep (s : State) (t : Nat) (ok : Bool) : Option State :=
  let th := s.threads t
  match th.pc with
  | .setAffinity => if ok then some (s.set t { th with pc := .getAffinity }) else some s.exit
  | .getAffinity => if ok then some (s.set t { th with pc := .mmap }) else some s.exit
  | _ => none

/-- A successful `mmap`.  The result of the second one goes to a variable `p`
of the block that it stands in.  The machine has no `mmap` that fails: the code
does not look for `MAP_FAILED`, and the process would die of its first store. -/
def mmapStep (s : State) (t base : Nat) : Option State :=
  let th := s.threads t
  if h : base % PAGE = 0 ∧ s.Free base then
    match th.pc with
    | .mmap => some ((s.mapBuffer t base h.2).set t
        { th with pc := .head, p := base, loop := 0, last := base })
    | .remap => some ((s.mapBuffer t base h.2).set t { th with pc := .endLeak, last := base })
    | _ => none
  else none

def munmapStep (s : State) (t : Nat) (ok : Bool) : Option State :=
  let th := s.threads t
  match th.pc with
  | .munmap =>
    if ok then some ((s.unmapBuffer th.p).set t { th with pc := .remap })
    else some s.exit
  | _ => none

/-- `madvise` on one page.  A failure ends the loop. -/
def madviseStep (s : State) (t : Nat) (ret : Int) : Option State :=
  let th := s.threads t
  match th.pc with
  | .advise index =>
    if index < BUF_SIZE then
      if ret ≠ 0 then some (s.set t { th with pc := .endLeak, ret := ret })
      else some (s.set t { th with pc := .advise (index + PAGE) })
    else none
  | _ => none

def createStep (s : State) (ok : Bool) : Option State :=
  match s.main with
  | .create tnum =>
    if (tnum : Int) < c.numThreads then
      if ok then some ({ s with main := .create (tnum + 1) }.set tnum
        { s.threads tnum with pc := .setAffinity })
      else some s.exit
    else none
  | _ => none

def mainStep (s : State) : Option State :=
  match s.main with
  | .create tnum =>
    if (tnum : Int) < c.numThreads then none else some { s with main := .join 0 0 0 }
  | .join tnum fill leak =>
    if (tnum : Int) < c.numThreads then
      let th := s.threads tnum
      if th.pc = .done then
        some { s with main := .join (tnum + 1) (fill + th.usecFill) (leak + th.usecLeak) }
      else none
    else some { s.exit with main := .returned fill leak }
  | .returned _ _ => none

/-- One event.  A process that has ended takes no step. -/
def step (s : State) (e : Event) : Option State :=
  if s.exited then none
  else
    match e with
    | .main => mainStep c s
    | .create ok => createStep c s ok
    | .thread t => threadStep c s t
    | .affinity t ok => affinityStep s t ok
    | .time t usec => timeStep c s t usec
    | .mmap t base => mmapStep s t base
    | .munmap t ok => munmapStep s t ok
    | .madvise t ret => madviseStep s t ret

end Step

/-- A thread that has not been created, with its `thread_info` as `calloc`
leaves it. -/
def Thread.absent : Thread where
  pc := .absent
  p := 0
  loop := 0
  start := 0
  usecFill := 0
  usecLeak := 0
  ret := 0
  last := 0

/-- The program before it creates its threads. -/
def State.start : State where
  exited := false
  main := .create 0
  threads _ := Thread.absent
  space := Space.empty

end KvmUtils.TlbShootdown
