import KvmUtils.Lib.CFormat
import KvmUtils.Lib.TimedGate
import KvmUtils.KvmExitReason.ExitReason

/-!
# The probe handlers and the load of the module

`kvmexitreason` puts a probe on every exit handler of the kernel.  A hit on
a CPU counts the exit and calls `show_exitreason`, which reports and clears
the counters once the last report is a second old.  Hits on several CPUs
overlap, and they overlap with `probe_init`, since a probe is live as soon as
it is registered.

The module is embedded as an event machine in the sense of `Machine`.  Each
CPU has a program counter (`Pc`) and so has the load (`InitPc`); a step of
either is one of the atomic steps of the source.  The environment chooses who
steps, when a probe is hit, what the clock reads and what `register_kprobe`
returns.

The fields from `recorded` on are history: nothing reads them.
-/

namespace KvmUtils.KvmExitReason

open Function Machine

/-- A line of the kernel log.  `reason idx name value` is the line of
`reasons_num[idx]`. -/
inductive Line where
  | header
  | total (value : Int)
  | reason (idx : Nat) (name : String) (value : Int)
  deriving DecidableEq, Repr

/-- The next step of a handler.  `record` and `inc` are the probe function of
`DECLEAR_PROBE_FUNC`; the others are `show_exitreason`, whose local `now` is
carried along. -/
inductive Pc where
  | idle
  | record (r : Nat)
  | inc
  | sample
  | check (now : Int)
  | trylock (now : Int)
  | header (now : Int)
  | printTotal (now : Int)
  | printLine (now : Int) (idx : Nat)
  | setTotal (now : Int)
  | resetReason (now : Int)
  | storeKtime (now : Int)
  | unlock
  deriving DecidableEq, Repr

/-- The next step of `probe_init`.  `register idx` and `unregister idx` are
at the heads of the two loops over the probe table. -/
inductive InitPc where
  | register (idx : Nat)
  | unregister (idx : Nat)
  | initReasons
  | lockInit
  | setTotal
  | sampleKtime
  | storeKtime (now : Int)
  | returned (ret : Int)
  deriving DecidableEq, Repr

/-- The state of the module on a machine whose CPUs are `ι`. -/
structure State (ι : Type*) where
  ktime : Int
  showingLock : Bool
  totalExit : UInt64
  reasonsNum : ReasonsNum
  clock : Int
  pc : ι → Pc
  init : InitPc
  registered : Nat → Bool
  log : List Line
  /-- the number of `record_reason(r)` steps -/
  recorded : Nat → Nat
  /-- the number of `atomic_long_inc` steps -/
  incs : Nat
  /-- `now` of each handler that took the lock, the last one first -/
  reports : List Int

inductive Event (ι : Type*) where
  /-- the probe of reason `r` fires on CPU `i` -/
  | hit (i : ι) (r : Nat)
  /-- `ktime_get` in the handler on CPU `i` -/
  | sample (i : ι) (t : Int)
  /-- the next step of the handler on CPU `i` -/
  | step (i : ι)
  /-- `register_kprobe` in `probe_init` -/
  | register (ret : Int)
  /-- `ktime_get` in `probe_init` -/
  | initSample (t : Int)
  /-- the next step of `probe_init` -/
  | initStep

section Machine

variable {ι : Type*} [DecidableEq ι]

/-- The handler on CPU `i` goes on to `p`. -/
def State.goto (s : State ι) (i : ι) (p : Pc) : State ι := { s with pc := update s.pc i p }

/-- The time check of `show_exitreason`, which returns early when it fails. -/
def isDue (now ktime : Int) : Bool := !decide (now - ktime < 1000 * 1000 * 1000)

/-- The body of the loop over the reasons: a line for a reason that has been
counted.  The name is the one in the filled table.  While `init_reasons` still
fills it, the name may be `EXIT_REASON_UNKNOWN` instead, see `Names`. -/
def reasonLines (num : ReasonsNum) (idx : Nat) : List Line :=
  if reportReason num idx ≠ 0 then
    [.reason idx (reason2str idx) (CFormat.ld (reportReason num idx))]
  else []

/-- A step of a handler that reads no clock. -/
def handlerStep (s : State ι) (i : ι) : Option (State ι) :=
  match s.pc i with
  | .idle | .sample => none
  | .record r =>
    some ({ s with
      reasonsNum := recordReason s.reasonsNum r
      recorded := update s.recorded r (s.recorded r + 1) }.goto i .inc)
  | .inc =>
    some ({ s with totalExit := s.totalExit + 1, incs := s.incs + 1 }.goto i .sample)
  | .check now =>
    if isDue now s.ktime then some (s.goto i (.trylock now)) else some (s.goto i .idle)
  | .trylock now =>
    if s.showingLock then some (s.goto i .idle)
    else some ({ s with
      showingLock := true, reports := now :: s.reports }.goto i (.header now))
  | .header now => some ({ s with log := s.log ++ [Line.header] }.goto i (.printTotal now))
  | .printTotal now =>
    some ({ s with
      log := s.log ++ [Line.total (CFormat.ld s.totalExit)] }.goto i (.printLine now 0))
  | .printLine now idx =>
    if idx < REASON_NUM then
      some ({ s with
        log := s.log ++ reasonLines s.reasonsNum idx }.goto i (.printLine now (idx + 1)))
    else some (s.goto i (.setTotal now))
  | .setTotal now => some ({ s with totalExit := 0 }.goto i (.resetReason now))
  | .resetReason now =>
    some ({ s with reasonsNum := resetReason }.goto i (.storeKtime now))
  | .storeKtime now => some ({ s with ktime := now }.goto i .unlock)
  | .unlock => some ({ s with showingLock := false }.goto i .idle)

variable (table : List (Option String))

/-- A step of `probe_init` that neither registers a probe nor reads the
clock.  `table` holds the symbol names of `vmx_handle_exit_probe`, and a slot
without one is skipped.  The line that `probe_init` prints for such a slot, and
the one for a failed registration, are not kept in `log`. -/
def initStep (s : State ι) : Option (State ι) :=
  match s.init with
  | .register idx =>
    match table[idx]? with
    | some none => some { s with init := .register (idx + 1) }
    | some (some _) => none
    | none => some { s with init := .initReasons }
  | .unregister idx =>
    match table[idx]? with
    | some none => some { s with init := .unregister (idx + 1) }
    | some (some _) =>
      some { s with
        registered := update s.registered idx false, init := .unregister (idx + 1) }
    | none => some { s with init := .returned (-1) }
  | .initReasons => some { s with init := .lockInit }
  | .lockInit => some { s with showingLock := false, init := .setTotal }
  | .setTotal => some { s with totalExit := 0, init := .sampleKtime }
  | .storeKtime now => some { s with ktime := now, init := .returned 0 }
  | .sampleKtime | .returned _ => none

/-- One event of the machine. -/
def step (s : State ι) : Event ι → Option (State ι)
  | .hit i r =>
    match s.pc i with
    | .idle => if s.registered r then some (s.goto i (.record r)) else none
    | _ => none
  | .sample i t =>
    match s.pc i with
    | .sample => if s.clock ≤ t then some ({ s with clock := t }.goto i (.check t)) else none
    | _ => none
  | .step i => handlerStep s i
  | .register ret =>
    match s.init with
    | .register idx =>
      match table[idx]? with
      | some (some _) =>
        if ret < 0 then some { s with init := .unregister 0 }
        else some { s with
          registered := update s.registered idx true, init := .register (idx + 1) }
      | _ => none
    | _ => none
  | .initSample t =>
    match s.init with
    | .sampleKtime =>
      if s.clock ≤ t then some { s with clock := t, init := .storeKtime t } else none
    | _ => none
  | .initStep => initStep table s

/-- The module as it is loaded, before the first step of `probe_init`. -/
def State.load : State ι where
  ktime := 0
  showingLock := false
  totalExit := 0
  reasonsNum := resetReason
  clock := 0
  pc _ := .idle
  init := .register 0
  registered _ := false
  log := []
  recorded _ := 0
  incs := 0
  reports := []

/-! ## The moves of the machine -/

/-- What one event can do.  `move_of_step` is the inversion of `step`. -/
inductive Move (table : List (Option String)) (s : State ι) : Event ι → State ι → Prop where
  | hit {i r} (hpc : s.pc i = .idle) (hreg : s.registered r = true) :
      Move table s (.hit i r) (s.goto i (.record r))
  | sample {i t} (hpc : s.pc i = .sample) (hclock : s.clock ≤ t) :
      Move table s (.sample i t) ({ s with clock := t }.goto i (.check t))
  | record {i r} (hpc : s.pc i = .record r) :
      Move table s (.step i) ({ s with
        reasonsNum := recordReason s.reasonsNum r
        recorded := update s.recorded r (s.recorded r + 1) }.goto i .inc)
  | inc {i} (hpc : s.pc i = .inc) :
      Move table s (.step i)
        ({ s with totalExit := s.totalExit + 1, incs := s.incs + 1 }.goto i .sample)
  | due {i now} (hpc : s.pc i = .check now) (hdue : isDue now s.ktime = true) :
      Move table s (.step i) (s.goto i (.trylock now))
  | early {i now} (hpc : s.pc i = .check now) (hdue : isDue now s.ktime = false) :
      Move table s (.step i) (s.goto i .idle)
  | busy {i now} (hpc : s.pc i = .trylock now) (hlock : s.showingLock = true) :
      Move table s (.step i) (s.goto i .idle)
  | lock {i now} (hpc : s.pc i = .trylock now) (hlock : s.showingLock = false) :
      Move table s (.step i)
        ({ s with showingLock := true, reports := now :: s.reports }.goto i (.header now))
  | header {i now} (hpc : s.pc i = .header now) :
      Move table s (.step i) ({ s with log := s.log ++ [Line.header] }.goto i (.printTotal now))
  | printTotal {i now} (hpc : s.pc i = .printTotal now) :
      Move table s (.step i) ({ s with
        log := s.log ++ [Line.total (CFormat.ld s.totalExit)] }.goto i (.printLine now 0))
  | printLine {i now idx} (hpc : s.pc i = .printLine now idx) (hidx : idx < REASON_NUM) :
      Move table s (.step i) ({ s with
        log := s.log ++ reasonLines s.reasonsNum idx }.goto i (.printLine now (idx + 1)))
  | endLines {i now idx} (hpc : s.pc i = .printLine now idx) (hidx : REASON_NUM ≤ idx) :
      Move table s (.step i) (s.goto i (.setTotal now))
  | setTotal {i now} (hpc : s.pc i = .setTotal now) :
      Move table s (.step i) ({ s with totalExit := 0 }.goto i (.resetReason now))
  | resetReason {i now} (hpc : s.pc i = .resetReason now) :
      Move table s (.step i)
        ({ s with reasonsNum := KvmExitReason.resetReason }.goto i (.storeKtime now))
  | storeKtime {i now} (hpc : s.pc i = .storeKtime now) :
      Move table s (.step i) ({ s with ktime := now }.goto i .unlock)
  | unlock {i} (hpc : s.pc i = .unlock) :
      Move table s (.step i) ({ s with showingLock := false }.goto i .idle)
  | registerSkip {idx} (hinit : s.init = .register idx) (hslot : table[idx]? = some none) :
      Move table s .initStep { s with init := .register (idx + 1) }
  | registerOk {idx ret name} (hinit : s.init = .register idx)
      (hslot : table[idx]? = some (some name)) (hret : 0 ≤ ret) :
      Move table s (.register ret)
        { s with registered := update s.registered idx true, init := .register (idx + 1) }
  | registerFail {idx ret name} (hinit : s.init = .register idx)
      (hslot : table[idx]? = some (some name)) (hret : ret < 0) :
      Move table s (.register ret) { s with init := .unregister 0 }
  | registerEnd {idx} (hinit : s.init = .register idx) (hslot : table[idx]? = none) :
      Move table s .initStep { s with init := .initReasons }
  | unregisterSkip {idx} (hinit : s.init = .unregister idx) (hslot : table[idx]? = some none) :
      Move table s .initStep { s with init := .unregister (idx + 1) }
  | unregister {idx name} (hinit : s.init = .unregister idx)
      (hslot : table[idx]? = some (some name)) :
      Move table s .initStep
        { s with registered := update s.registered idx false, init := .unregister (idx + 1) }
  | unregisterEnd {idx} (hinit : s.init = .unregister idx) (hslot : table[idx]? = none) :
      Move table s .initStep { s with init := .returned (-1) }
  | initReasons (hinit : s.init = .initReasons) :
      Move table s .initStep { s with init := .lockInit }
  | lockInit (hinit : s.init = .lockInit) :
      Move table s .initStep { s with showingLock := false, init := .setTotal }
  | initTotal (hinit : s.init = .setTotal) :
      Move table s .initStep { s with totalExit := 0, init := .sampleKtime }
  | initSample {t} (hinit : s.init = .sampleKtime) (hclock : s.clock ≤ t) :
      Move table s (.initSample t) { s with clock := t, init := .storeKtime t }
  | initKtime {now} (hinit : s.init = .storeKtime now) :
      Move table s .initStep { s with ktime := now, init := .returned 0 }

theorem move_of_handlerStep {s s' : State ι} {i : ι} (h : handlerStep s i = some s') :
    Move table s (.step i) s' := by
  unfold handlerStep at h
  split at h
  case h_1 | h_2 => cases h
  case h_3 r hpc => cases h; exact .record hpc
  case h_4 hpc => cases h; exact .inc hpc
  case h_5 now hpc =>
    split at h
    · rename_i hdue
      cases h
      exact .due hpc hdue
    · rename_i hdue
      cases h
      exact .early hpc (by simpa using hdue)
  case h_6 now hpc =>
    split at h
    · rename_i hlock
      cases h
      exact .busy hpc hlock
    · rename_i hlock
      cases h
      exact .lock hpc (by simpa using hlock)
  case h_7 now hpc => cases h; exact .header hpc
  case h_8 now hpc => cases h; exact .printTotal hpc
  case h_9 now idx hpc =>
    split at h
    · rename_i hidx
      cases h
      exact .printLine hpc hidx
    · rename_i hidx
      cases h
      exact .endLines hpc (by omega)
  case h_10 now hpc => cases h; exact .setTotal hpc
  case h_11 now hpc => cases h; exact .resetReason hpc
  case h_12 now hpc => cases h; exact .storeKtime hpc
  case h_13 hpc => cases h; exact .unlock hpc

theorem move_of_initStep {s s' : State ι} (h : initStep table s = some s') :
    Move table s .initStep s' := by
  unfold initStep at h
  split at h
  case h_1 idx hinit =>
    split at h <;> rename_i hslot <;> cases h
    · exact .registerSkip hinit hslot
    · exact .registerEnd hinit hslot
  case h_2 idx hinit =>
    split at h <;> rename_i hslot <;> cases h
    · exact .unregisterSkip hinit hslot
    · exact .unregister hinit hslot
    · exact .unregisterEnd hinit hslot
  case h_3 hinit => cases h; exact .initReasons hinit
  case h_4 hinit => cases h; exact .lockInit hinit
  case h_5 hinit => cases h; exact .initTotal hinit
  case h_6 now hinit => cases h; exact .initKtime hinit
  case h_7 | h_8 => cases h

theorem move_of_step {s s' : State ι} {e : Event ι} (h : step table s e = some s') :
    Move table s e s' := by
  cases e with
  | hit i r =>
    simp only [step] at h
    split at h
    · rename_i hpc
      simp only [Option.ite_none_right_eq_some, Option.some.injEq] at h
      obtain ⟨hreg, rfl⟩ := h
      exact .hit hpc hreg
    · cases h
  | sample i t =>
    simp only [step] at h
    split at h
    · rename_i hpc
      simp only [Option.ite_none_right_eq_some, Option.some.injEq] at h
      obtain ⟨hclock, rfl⟩ := h
      exact .sample hpc hclock
    · cases h
  | step i => exact move_of_handlerStep table h
  | register ret =>
    simp only [step] at h
    split at h
    · rename_i idx hinit
      split at h
      · rename_i name hslot
        split at h <;> rename_i hret <;> cases h
        · exact .registerFail hinit hslot hret
        · exact .registerOk hinit hslot (by omega)
      · cases h
    · cases h
  | initSample t =>
    simp only [step] at h
    split at h
    · rename_i hinit
      simp only [Option.ite_none_right_eq_some, Option.some.injEq] at h
      obtain ⟨hclock, rfl⟩ := h
      exact .initSample hinit hclock
    · cases h
  | initStep => exact move_of_initStep table h

/-- `probe_init` takes no step once it has returned, and only it registers and
unregisters probes. -/
theorem frame_of_returned {s s' : State ι} {e : Event ι} {ret : Int}
    (h : s.init = .returned ret) (hst : step table s e = some s') :
    s'.init = .returned ret ∧ s'.registered = s.registered := by
  cases move_of_step table hst with
  | registerSkip hi _ | registerOk hi _ _ | registerFail hi _ _ | registerEnd hi _
  | unregisterSkip hi _ | unregister hi _ | unregisterEnd hi _ | initReasons hi | lockInit hi
  | initTotal hi | initSample hi _ | initKtime hi => cases h.symm.trans hi
  | _ => exact ⟨h, rfl⟩

theorem init_of_step {s s' : State ι} {e : Event ι} {ret : Int} (h : s.init = .returned ret)
    (hst : step table s e = some s') : s'.init = .returned ret :=
  (frame_of_returned table h hst).1

end Machine

end KvmUtils.KvmExitReason
