import KvmUtils.Lib.TimedGate
import KvmUtils.KvmWrmsr.Handler

/-!
# Handlers on many CPUs

The probe of `kvmwrmsr` may hit on several CPUs at once, and it may hit while
`probe_init` still runs, since it is live as soon as it is registered.  This
module embeds the handler and the load as an event machine in the sense of
`Machine`.  A step is one of the atomic steps of the source: a clock reading,
an atomic operation, a call of `record_wrmsr`, `report_other_wrmsr` or
`reset_wrmsr`, a printed line.

The fields from `incs` on are history: nothing reads them.
-/

namespace KvmUtils.KvmWrmsr

open Function Machine

/-- The next step of a handler.  `msr` is its `idx` and `now` its reading of
the clock.  `showItem k` is at the `k`-th unconditional `pr_info` of
`show_wrmsr`, and `otherLoop idx` at the head of its loop over the table. -/
inductive Pc where
  | idle
  | sample (msr : UInt32)
  | inc (now : Int) (msr : UInt32)
  | record (now : Int) (msr : UInt32)
  | check (now : Int)
  | trylock (now : Int)
  | printTotal (now : Int)
  | setTotal (now : Int)
  | showItem (now : Int) (k : Nat)
  | otherGuard (now : Int)
  | otherLoop (now : Int) (idx : Nat)
  | reset (now : Int)
  | storeKtime (now : Int)
  | unlock
  deriving DecidableEq, Repr

/-- The next step of `probe_init`. -/
inductive InitPc where
  | register
  | lockInit
  | setTotal
  | initWrmsr
  | sampleKtime
  | storeKtime (now : Int)
  | returned (ret : Int)
  deriving DecidableEq, Repr

/-- The state of the module on a machine whose CPUs are `ι`.  `registered`
says whether the probe is live. -/
structure State (ι : Type*) where
  statics : Statics
  clock : Int
  pc : ι → Pc
  init : InitPc
  registered : Bool
  log : List Line
  /-- the number of `atomic_long_inc` steps -/
  incs : Nat
  /-- `now` of each handler that took the lock, the last one first -/
  reports : List Int

inductive Event (ι : Type*) where
  /-- the guest writes `msr` on CPU `i` -/
  | hit (i : ι) (msr : UInt32)
  /-- `ktime_get` in the handler on CPU `i` -/
  | sample (i : ι) (t : Int)
  /-- the next step of the handler on CPU `i` -/
  | step (i : ι)
  /-- `register_kprobe` in `probe_init` -/
  | register (ret : Int)
  /-- `ktime_get` in `probe_init` -/
  | initSample (t : Int)
  /-- the next step of `probe_init` -/
  | initStep

section Machine

variable {ι : Type*} [DecidableEq ι]

/-- The handler on CPU `i` goes on to `p`. -/
def State.goto (s : State ι) (i : ι) (p : Pc) : State ι := { s with pc := update s.pc i p }

/-- A handler or the load writes the statics. -/
def State.store (s : State ι) (statics : Statics) : State ι := { s with statics := statics }

/-- A handler prints. -/
def State.print (s : State ι) (lines : List Line) : State ι := { s with log := s.log ++ lines }

/-- A step of a handler that reads no clock.  A call on the table of other MSRs
is one step, without its lock: `TableLock` has the calls access by access, and
`Unload` the CPUs that wait for the lock. -/
def handlerStep (s : State ι) (i : ι) : Option (State ι) :=
  match s.pc i with
  | .idle | .sample _ => none
  | .inc now msr =>
    some (({ s with incs := s.incs + 1 }.store
      { s.statics with totalWrmsr := s.statics.totalWrmsr + 1 }).goto i (.record now msr))
  | .record now msr =>
    some ((s.store { s.statics with msrs := recordWrmsr s.statics.msrs msr }).goto i (.check now))
  | .check now =>
    if isDue now s.statics.ktime then some (s.goto i (.trylock now)) else some (s.goto i .idle)
  | .trylock now =>
    if s.statics.showingLock then some (s.goto i .idle)
    else some (({ s with reports := now :: s.reports }.store
      { s.statics with showingLock := true }).goto i (.printTotal now))
  | .printTotal now =>
    some ((s.print [.total (CFormat.ld s.statics.totalWrmsr)]).goto i (.setTotal now))
  | .setTotal now =>
    some ((s.store { s.statics with totalWrmsr := 0 }).goto i (.showItem now 0))
  | .showItem now k =>
    match showItems[k]? with
    | some item => some ((s.print [itemLine s.statics.msrs item]).goto i (.showItem now (k + 1)))
    | none => some (s.goto i (.otherGuard now))
  | .otherGuard now =>
    match reportOtherWrmsr s.statics.msrs.otherMsrs 0 with
    | none => some (s.goto i (.reset now))
    | some _ => some ((s.print [.text "OTHER MSRS STATISTIC"]).goto i (.otherLoop now 0))
  | .otherLoop now idx =>
    if idx < OTHER_MSRS then
      match reportOtherWrmsr s.statics.msrs.otherMsrs idx with
      | none => some (s.goto i (.reset now))
      | some line => some ((s.print [otherLine line]).goto i (.otherLoop now (idx + 1)))
    else some (s.goto i (.reset now))
  | .reset now =>
    some ((s.store { s.statics with msrs := resetWrmsr s.statics.msrs }).goto i (.storeKtime now))
  | .storeKtime now => some ((s.store { s.statics with ktime := now }).goto i .unlock)
  | .unlock => some ((s.store { s.statics with showingLock := false }).goto i .idle)

/-- A step of `probe_init` that neither registers the probe nor reads the
clock.  Its line in the kernel log is left out, and so is that `init_wrmsr`
initialises `other_msrs_lock`: statements about the log and about the table
begin after it. -/
def initStep (s : State ι) : Option (State ι) :=
  match s.init with
  | .lockInit =>
    some { s.store { s.statics with showingLock := false } with init := .setTotal }
  | .setTotal => some { s.store { s.statics with totalWrmsr := 0 } with init := .initWrmsr }
  | .initWrmsr =>
    some { s.store { s.statics with msrs := initWrmsr s.statics.msrs } with
      init := .sampleKtime }
  | .storeKtime now => some { s.store { s.statics with ktime := now } with init := .returned 0 }
  | .register | .sampleKtime | .returned _ => none

/-- One event of the machine. -/
def step (s : State ι) : Event ι → Option (State ι)
  | .hit i msr =>
    match s.pc i with
    | .idle => if s.registered then some (s.goto i (.sample msr)) else none
    | _ => none
  | .sample i t =>
    match s.pc i with
    | .sample msr =>
      if s.clock ≤ t then some ({ s with clock := t }.goto i (.inc t msr)) else none
    | _ => none
  | .step i => handlerStep s i
  | .register ret =>
    match s.init with
    | .register =>
      if ret < 0 then some { s with init := .returned (-1) }
      else some { s with registered := true, init := .lockInit }
    | _ => none
  | .initSample t =>
    match s.init with
    | .sampleKtime =>
      if s.clock ≤ t then some { s with clock := t, init := .storeKtime t } else none
    | _ => none
  | .initStep => initStep s

/-- The module as it is loaded, before the first step of `probe_init`. -/
def State.load : State ι where
  statics := Statics.load
  clock := 0
  pc _ := .idle
  init := .register
  registered := false
  log := []
  incs := 0
  reports := []

/-- The events of `probe_init`, undisturbed, with `t` as its clock reading. -/
def initEvents (t : Int) : List (Event ι) :=
  [.register 0, .initStep, .initStep, .initStep, .initSample t, .initStep]

/-- The module right after `probe_init` has returned `0`, undisturbed. -/
def State.started (t : Int) : State ι :=
  { (State.load : State ι) with
    statics := { Statics.load with ktime := t }
    clock := t
    init := .returned 0
    registered := true }

theorem exec_initEvents {t : Int} (ht : 0 ≤ t) :
    exec step (State.load : State ι) (initEvents t) = some (State.started t) := by
  simp only [initEvents, exec, step, initStep, State.load, State.store, Int.lt_irrefl, if_false,
    Option.bind_some]
  rw [if_pos ht]
  rfl

/-! ## The moves of the machine -/

/-- What one event can do.  `move_of_step` is the inversion of `step`. -/
inductive Move (s : State ι) : Event ι → State ι → Prop where
  | hit {i msr} (hpc : s.pc i = .idle) (hreg : s.registered = true) :
      Move s (.hit i msr) (s.goto i (.sample msr))
  | sample {i t msr} (hpc : s.pc i = .sample msr) (hclock : s.clock ≤ t) :
      Move s (.sample i t) ({ s with clock := t }.goto i (.inc t msr))
  | inc {i now msr} (hpc : s.pc i = .inc now msr) :
      Move s (.step i) (({ s with incs := s.incs + 1 }.store
        { s.statics with totalWrmsr := s.statics.totalWrmsr + 1 }).goto i (.record now msr))
  | record {i now msr} (hpc : s.pc i = .record now msr) :
      Move s (.step i)
        ((s.store { s.statics with msrs := recordWrmsr s.statics.msrs msr }).goto i (.check now))
  | due {i now} (hpc : s.pc i = .check now) (hdue : isDue now s.statics.ktime = true) :
      Move s (.step i) (s.goto i (.trylock now))
  | early {i now} (hpc : s.pc i = .check now) (hdue : isDue now s.statics.ktime = false) :
      Move s (.step i) (s.goto i .idle)
  | busy {i now} (hpc : s.pc i = .trylock now) (hlock : s.statics.showingLock = true) :
      Move s (.step i) (s.goto i .idle)
  | lock {i now} (hpc : s.pc i = .trylock now) (hlock : s.statics.showingLock = false) :
      Move s (.step i) (({ s with reports := now :: s.reports }.store
        { s.statics with showingLock := true }).goto i (.printTotal now))
  | printTotal {i now} (hpc : s.pc i = .printTotal now) :
      Move s (.step i)
        ((s.print [.total (CFormat.ld s.statics.totalWrmsr)]).goto i (.setTotal now))
  | setTotal {i now} (hpc : s.pc i = .setTotal now) :
      Move s (.step i) ((s.store { s.statics with totalWrmsr := 0 }).goto i (.showItem now 0))
  | showItem {i now k item} (hpc : s.pc i = .showItem now k) (hitem : showItems[k]? = some item) :
      Move s (.step i)
        ((s.print [itemLine s.statics.msrs item]).goto i (.showItem now (k + 1)))
  | endItems {i now k} (hpc : s.pc i = .showItem now k) (hitem : showItems[k]? = none) :
      Move s (.step i) (s.goto i (.otherGuard now))
  | noOthers {i now} (hpc : s.pc i = .otherGuard now)
      (hrep : reportOtherWrmsr s.statics.msrs.otherMsrs 0 = none) :
      Move s (.step i) (s.goto i (.reset now))
  | others {i now line} (hpc : s.pc i = .otherGuard now)
      (hrep : reportOtherWrmsr s.statics.msrs.otherMsrs 0 = some line) :
      Move s (.step i) ((s.print [.text "OTHER MSRS STATISTIC"]).goto i (.otherLoop now 0))
  | otherLine {i now idx line} (hpc : s.pc i = .otherLoop now idx) (hidx : idx < OTHER_MSRS)
      (hrep : reportOtherWrmsr s.statics.msrs.otherMsrs idx = some line) :
      Move s (.step i) ((s.print [otherLine line]).goto i (.otherLoop now (idx + 1)))
  | endOthers {i now idx} (hpc : s.pc i = .otherLoop now idx)
      (hrep : OTHER_MSRS ≤ idx ∨ reportOtherWrmsr s.statics.msrs.otherMsrs idx = none) :
      Move s (.step i) (s.goto i (.reset now))
  | reset {i now} (hpc : s.pc i = .reset now) :
      Move s (.step i)
        ((s.store { s.statics with msrs := resetWrmsr s.statics.msrs }).goto i (.storeKtime now))
  | storeKtime {i now} (hpc : s.pc i = .storeKtime now) :
      Move s (.step i) ((s.store { s.statics with ktime := now }).goto i .unlock)
  | unlock {i} (hpc : s.pc i = .unlock) :
      Move s (.step i) ((s.store { s.statics with showingLock := false }).goto i .idle)
  | registerOk {ret} (hinit : s.init = .register) (hret : 0 ≤ ret) :
      Move s (.register ret) { s with registered := true, init := .lockInit }
  | registerFail {ret} (hinit : s.init = .register) (hret : ret < 0) :
      Move s (.register ret) { s with init := .returned (-1) }
  | lockInit (hinit : s.init = .lockInit) :
      Move s .initStep
        { s.store { s.statics with showingLock := false } with init := .setTotal }
  | initTotal (hinit : s.init = .setTotal) :
      Move s .initStep { s.store { s.statics with totalWrmsr := 0 } with init := .initWrmsr }
  | initWrmsr (hinit : s.init = .initWrmsr) :
      Move s .initStep { s.store { s.statics with msrs := initWrmsr s.statics.msrs } with
        init := .sampleKtime }
  | initSample {t} (hinit : s.init = .sampleKtime) (hclock : s.clock ≤ t) :
      Move s (.initSample t) { s with clock := t, init := .storeKtime t }
  | initKtime {now} (hinit : s.init = .storeKtime now) :
      Move s .initStep { s.store { s.statics with ktime := now } with init := .returned 0 }

theorem move_of_handlerStep {s s' : State ι} {i : ι} (h : handlerStep s i = some s') :
    Move s (.step i) s' := by
  unfold handlerStep at h
  split at h
  case h_1 | h_2 => cases h
  case h_3 now msr hpc => cases h; exact .inc hpc
  case h_4 now msr hpc => cases h; exact .record hpc
  case h_5 now hpc =>
    split at h
    · rename_i hdue
      cases h
      exact .due hpc hdue
    · rename_i hdue
      cases h
      exact .early hpc (by simpa using hdue)
  case h_6 now hpc =>
    split at h
    · rename_i hlock
      cases h
      exact .busy hpc hlock
    · rename_i hlock
      cases h
      exact .lock hpc (by simpa using hlock)
  case h_7 now hpc => cases h; exact .printTotal hpc
  case h_8 now hpc => cases h; exact .setTotal hpc
  case h_9 now k hpc =>
    split at h <;> rename_i hitem <;> cases h
    · exact .showItem hpc hitem
    · exact .endItems hpc hitem
  case h_10 now hpc =>
    split at h <;> rename_i hrep <;> cases h
    · exact .noOthers hpc hrep
    · exact .others hpc hrep
  case h_11 now idx hpc =>
    split at h
    · rename_i hidx
      split at h <;> rename_i hrep <;> cases h
      · exact .endOthers hpc (Or.inr hrep)
      · exact .otherLine hpc hidx hrep
    · rename_i hidx
      cases h
      exact .endOthers hpc (Or.inl (by omega))
  case h_12 now hpc => cases h; exact .reset hpc
  case h_13 now hpc => cases h; exact .storeKtime hpc
  case h_14 hpc => cases h; exact .unlock hpc

theorem move_of_initStep {s s' : State ι} (h : initStep s = some s') : Move s .initStep s' := by
  unfold initStep at h
  split at h
  case h_1 hinit => cases h; exact .lockInit hinit
  case h_2 hinit => cases h; exact .initTotal hinit
  case h_3 hinit => cases h; exact .initWrmsr hinit
  case h_4 now hinit => cases h; exact .initKtime hinit
  case h_5 | h_6 | h_7 => cases h

theorem move_of_step {s s' : State ι} {e : Event ι} (h : step s e = some s') : Move s e s' := by
  cases e with
  | hit i msr =>
    simp only [step] at h
    split at h
    · rename_i hpc
      simp only [Option.ite_none_right_eq_some, Option.some.injEq] at h
      obtain ⟨hreg, rfl⟩ := h
      exact .hit hpc hreg
    · cases h
  | sample i t =>
    simp only [step] at h
    split at h
    · rename_i msr hpc
      simp only [Option.ite_none_right_eq_some, Option.some.injEq] at h
      obtain ⟨hclock, rfl⟩ := h
      exact .sample hpc hclock
    · cases h
  | step i => exact move_of_handlerStep h
  | register ret =>
    simp only [step] at h
    split at h
    · rename_i hinit
      split at h <;> rename_i hret <;> cases h
      · exact .registerFail hinit hret
      · exact .registerOk hinit (by omega)
    · cases h
  | initSample t =>
    simp only [step] at h
    split at h
    · rename_i hinit
      simp only [Option.ite_none_right_eq_some, Option.some.injEq] at h
      obtain ⟨hclock, rfl⟩ := h
      exact .initSample hinit hclock
    · cases h
  | initStep => exact move_of_initStep h

/-- `probe_init` takes no step once it has returned. -/
theorem init_of_step {s s' : State ι} {e : Event ι} {ret : Int} (h : s.init = .returned ret)
    (hst : step s e = some s') : s'.init = .returned ret := by
  cases move_of_step hst with
  | registerOk hi _ | registerFail hi _ | lockInit hi | initTotal hi | initWrmsr hi
  | initSample hi _ | initKtime hi =>
    rw [h] at hi
    cases hi
  | _ => exact h

end Machine

end KvmUtils.KvmWrmsr
