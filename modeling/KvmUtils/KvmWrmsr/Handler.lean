import KvmUtils.Lib.CFormat
import KvmUtils.KvmWrmsr.OtherListing

/-!
# The probe handler, one hit at a time

`kp_vmx_set_msr` runs on every MSR write of a guest.  It counts the write,
and once the last report is more than a second old it prints the counters
and clears them.  This module embeds the handler as a function on the
statics, for hits that do not overlap.  `KvmWrmsr.Interleaved` embeds the
same code as a machine of single steps.

The printed lines are kept as data: `Line` has one constructor for each
`pr_info` of the module.
-/

namespace KvmUtils.KvmWrmsr

/-- The statics of `kvmwrmsr.c`, with those of `msr.h`.  `ktime` is
`__ktime` in nanoseconds and `showingLock` is whether `showing_lock` is
held. -/
structure Statics where
  ktime : Int
  showingLock : Bool
  totalWrmsr : UInt64
  msrs : Msrs

/-- The statics as they are loaded: all zero, and an unlocked spinlock. -/
def Statics.load : Statics where
  ktime := 0
  showingLock := false
  totalWrmsr := 0
  msrs := Msrs.load

/-- A line of the kernel log. -/
inductive Line where
  | text (s : String)
  | total (value : Int)
  | wrmsr (label : String) (value : Int)
  | other (msr : UInt32) (count : Int)
  deriving DecidableEq, Repr

/-! ## `show_wrmsr` -/

/-- The values of `idx` under `WRMSR STATISTIC`. -/
def shownMsrs : List UInt32 :=
  [MSR_IA32_APICBASE, MSR_IA32_TSC_ADJUST, MSR_IA32_TSCDEADLINE, MSR_IA32_MISC_ENABLE,
    MSR_IA32_MCG_STATUS, MSR_IA32_MCG_CTL, MSR_IA32_MCG_EXT_CTL, MSR_IA32_SMBASE,
    MSR_PLATFORM_INFO, MSR_MISC_FEATURES_ENABLES, MSR_KVM_WALL_CLOCK, MSR_KVM_SYSTEM_TIME,
    MSR_CORE_PERF_FIXED_CTR0, MSR_CORE_PERF_FIXED_CTR1, MSR_CORE_PERF_FIXED_CTR2,
    MSR_CORE_PERF_FIXED_CTR_CTRL, MSR_CORE_PERF_GLOBAL_STATUS, MSR_CORE_PERF_GLOBAL_CTRL,
    MSR_CORE_PERF_GLOBAL_OVF_CTRL, 0]

/-- The values of `idx` under `APIC STATISTIC`. -/
def shownApic : List UInt32 :=
  [APIC_BASE_MSR + APIC_TASKPRI >>> 4, APIC_BASE_MSR + APIC_EOI >>> 4,
    APIC_BASE_MSR + APIC_LDR >>> 4, APIC_BASE_MSR + APIC_DFR >>> 4,
    APIC_BASE_MSR + APIC_SPIV >>> 4, APIC_BASE_MSR + APIC_ICR >>> 4,
    APIC_BASE_MSR + APIC_ICR2 >>> 4, APIC_BASE_MSR + APIC_LVT0 >>> 4,
    APIC_BASE_MSR + APIC_LVTT >>> 4, APIC_BASE_MSR + APIC_SELF_IPI >>> 4,
    APIC_BASE_MSR + (0 : UInt32) >>> 4]

/-- A `pr_info` of the part of `show_wrmsr` that prints unconditionally: a
heading, or the line of an MSR number. -/
inductive ShowItem where
  | heading (s : String)
  | wrmsr (idx : UInt32)
  deriving DecidableEq, Repr

/-- That part of `show_wrmsr`, in order. -/
def showItems : List ShowItem :=
  .heading "WRMSR STATISTIC" :: shownMsrs.map .wrmsr ++
    .heading "APIC STATISTIC" :: shownApic.map .wrmsr

def itemLine (s : Msrs) : ShowItem → Line
  | .heading text => .text text
  | .wrmsr idx => .wrmsr (msr2str idx) (CFormat.ld (reportWrmsr s idx))

/-- `pr_info("\t[OTHER MSR 0x%x] %d\n", msr, count)`. -/
def otherLine (line : UInt32 × UInt32) : Line :=
  .other line.1 (CFormat.d line.2)

/-- The part of `show_wrmsr` under `other msrs`. -/
def showOthers (t : OtherMsrs) : List Line :=
  match reportOtherWrmsr t 0 with
  | none => []
  | some _ => .text "OTHER MSRS STATISTIC" :: (listOtherMsrs t).map otherLine

/-- `show_wrmsr`. -/
def showWrmsr (s : Msrs) : List Line := showItems.map (itemLine s) ++ showOthers s.otherMsrs

/-! ## `kp_vmx_set_msr` and `probe_init` -/

/-- The time check of the handler: `now` is more than a second after
`__ktime`. -/
def isDue (now ktime : Int) : Bool := now - ktime > 1000 * 1000 * 1000

/-- `kp_vmx_set_msr`, when no other handler runs.  The lock is free again
when the handler returns. -/
def kpVmxSetMsr (s : Statics) (now : Int) (idx : UInt32) : Statics × List Line :=
  let s := { s with totalWrmsr := s.totalWrmsr + 1, msrs := recordWrmsr s.msrs idx }
  if isDue now s.ktime then
    -- `spin_trylock`
    if s.showingLock then (s, [])
    else
      ({ ktime := now, showingLock := false, totalWrmsr := 0, msrs := resetWrmsr s.msrs },
        .total (CFormat.ld s.totalWrmsr) :: showWrmsr s.msrs)
  else (s, [])

/-- `probe_init`, when no handler runs.  `ret` is the result of registering
the probe, and `none` is the return value `-1`. -/
def probeInit (s : Statics) (ret now : Int) : Option Statics :=
  if ret < 0 then none
  else some { ktime := now, showingLock := false, totalWrmsr := 0, msrs := initWrmsr s.msrs }

end KvmUtils.KvmWrmsr
