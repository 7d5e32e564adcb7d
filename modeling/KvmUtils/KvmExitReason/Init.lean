import KvmUtils.KvmExitReason.Handlers

/-!
# The load of the module

The probe table of `kvmexitreason`, and the run of `probe_init` in which every
registration succeeds and no probe is hit.  `exec_initEvents` computes its
last state, so the states that the results about reports start from are
reached.
-/

namespace KvmUtils.KvmExitReason

open Function Machine

/-- The symbol that `vmx_handle_exit_probe` gives to a reason.  The entry of
`EXIT_REASON_VMFUNC`, which is `59`, is there from Linux 4.14 on. -/
def probeSymbol : Nat → Option String
  | 0 => "handle_exception"
  | 1 => "handle_external_interrupt"
  | 2 => "handle_triple_fault"
  | 7 => "handle_interrupt_window"
  | 8 => "handle_nmi_window"
  | 9 => "handle_task_switch"
  | 10 => "handle_cpuid"
  | 12 => "handle_halt"
  | 13 => "handle_invd"
  | 14 => "handle_invlpg"
  | 15 => "handle_rdpmc"
  | 18 => "handle_vmcall"
  | 19 => "handle_vmclear"
  | 20 => "handle_vmlaunch"
  | 21 => "handle_vmptrld"
  | 22 => "handle_vmptrst"
  | 23 => "handle_vmread"
  | 24 => "handle_vmresume"
  | 25 => "handle_vmwrite"
  | 26 => "handle_vmoff"
  | 27 => "handle_vmon"
  | 28 => "handle_cr"
  | 29 => "handle_dr"
  | 30 => "handle_io"
  | 31 => "handle_rdmsr"
  | 32 => "handle_wrmsr"
  | 36 => "handle_mwait"
  | 37 => "handle_monitor_trap"
  | 39 => "handle_monitor"
  | 40 => "handle_pause"
  | 41 => "handle_machine_check"
  | 43 => "handle_tpr_below_threshold"
  | 44 => "handle_apic_access"
  | 45 => "handle_apic_eoi_induced"
  | 48 => "handle_ept_violation"
  | 49 => "handle_ept_misconfig"
  | 50 => "handle_invept"
  | 52 => "handle_preemption_timer"
  | 53 => "handle_invvpid"
  | 54 => "handle_wbinvd"
  | 55 => "handle_xsetbv"
  | 56 => "handle_apic_write"
  | 59 => "handle_vmfunc"
  | 62 => "handle_pml_full"
  | 63 => "handle_xsaves"
  | 64 => "handle_xrstors"
  | _ => none

/-- The symbol names of `vmx_handle_exit_probe`. -/
def vmxHandleExitProbe : List (Option String) := (List.range REASON_NUM).map probeSymbol

variable {ι : Type*}

/-- The slots of the table below `n` that have a symbol. -/
def filledBelow (table : List (Option String)) (n idx : Nat) : Bool :=
  decide (idx < n) && (table[idx]?.join).isSome

/-- The events of the first loop of `probe_init` over `slots`. -/
def registerEvents (slots : List (Option String)) : List (Event ι) :=
  slots.map fun
    | none => .initStep
    | some _ => .register 0

/-- The events of `probe_init`, undisturbed, with `t` as its clock reading. -/
def initEvents (table : List (Option String)) (t : Int) : List (Event ι) :=
  registerEvents table ++
    [.initStep, .initStep, .initStep, .initStep, .initSample t, .initStep]

/-- The module right after `probe_init` has returned `0`, undisturbed. -/
def State.started (table : List (Option String)) (t : Int) : State ι :=
  { (State.load : State ι) with
    ktime := t
    clock := t
    init := .returned 0
    registered := filledBelow table table.length }

variable [DecidableEq ι]

theorem filledBelow_succ (table : List (Option String)) (n : Nat) :
    filledBelow table (n + 1) =
      update (filledBelow table n) n (table[n]?.join).isSome := by
  funext idx
  by_cases h : idx = n
  · subst h
    simp [filledBelow]
  · have hiff : idx < n + 1 ↔ idx < n := by omega
    simp [filledBelow, h, hiff]

theorem update_filledBelow_of_none {table : List (Option String)} {n : Nat}
    (h : table[n]?.join = none) : filledBelow table (n + 1) = filledBelow table n := by
  rw [filledBelow_succ, h]
  refine update_eq_self_iff.mpr ?_
  simp [filledBelow]

/-- The first loop registers the filled slots from `n` on. -/
theorem exec_registerEvents {table : List (Option String)} :
    ∀ {slots : List (Option String)} {n : Nat} {s : State ι}, slots = table.drop n →
      s.init = .register n → s.registered = filledBelow table n →
      exec (step table) s (registerEvents slots) =
        some { s with
          init := .register (n + slots.length)
          registered := filledBelow table (n + slots.length) }
  | [], n, s, _, hinit, hreg => by
    simp [registerEvents, ← hinit, ← hreg]
  | slot :: slots, n, s, hslots, hinit, hreg => by
    have hget : table[n]? = some slot := by
      rw [← List.head?_drop, ← hslots]
      rfl
    have hrest : slots = table.drop (n + 1) := by
      rw [← List.tail_drop, ← hslots]
      rfl
    have hlen : n + (slots.length + 1) = n + 1 + slots.length := by omega
    cases slot with
    | none =>
      have hstep : step table s .initStep = some { s with init := .register (n + 1) } := by
        simp only [step, initStep, hinit, hget]
      have hnext : filledBelow table (n + 1) = filledBelow table n :=
        update_filledBelow_of_none (by rw [hget]; rfl)
      simp only [registerEvents, List.map_cons, exec, hstep, Option.bind_some,
        List.length_cons, hlen]
      exact exec_registerEvents hrest rfl (hreg.trans hnext.symm)
    | some name =>
      have hstep : step table s (.register 0) = some { s with
          registered := update s.registered n true, init := .register (n + 1) } := by
        simp only [step, hinit, hget, Int.lt_irrefl, if_false]
      have hnext : filledBelow table (n + 1) = update (filledBelow table n) n true := by
        rw [filledBelow_succ, hget]
        rfl
      simp only [registerEvents, List.map_cons, exec, hstep, Option.bind_some,
        List.length_cons, hlen]
      exact exec_registerEvents hrest rfl (by rw [hreg, hnext])

/-- The undisturbed load. -/
theorem exec_initEvents (table : List (Option String)) {t : Int} (ht : 0 ≤ t) :
    exec (step table) (State.load : State ι) (initEvents table t) =
      some (State.started table t) := by
  have hnone : filledBelow table 0 = fun _ => false := by
    funext idx
    simp [filledBelow]
  have hloop : exec (step table) (State.load : State ι) (registerEvents table) =
      some { (State.load : State ι) with
        init := .register table.length, registered := filledBelow table table.length } := by
    simpa using exec_registerEvents (s := (State.load : State ι)) (List.drop_zero).symm rfl
      hnone.symm
  rw [initEvents, exec_append, hloop]
  simp [exec, step, initStep, State.started, State.load, ht]

end KvmUtils.KvmExitReason
