import Mathlib.Data.Fintype.Basic
import KvmUtils.KvmWrmsr.MsrIndex
import KvmUtils.KvmWrmsr.OtherMsrs

/-!
# The counters of written MSRs

`msr.h` counts MSR writes in 31 static counters and a table.  Three switches
over the MSR number have to agree: `record_wrmsr` picks the counter to bump,
`report_wrmsr` the counter to read, and `msr2str` the label to print.  Each
switch is embedded case by case.

`counterOf` is the partition that `record_wrmsr` makes.  The three switches
are related to it by one lemma each, and later proofs use these lemmas only:
`recordWrmsr_eq`, `msr2str_eq` and `reportWrmsr_eq`.  The last one reads the
counter of `counterOf` for every number apart from
`MSR_MISC_FEATURES_ENABLES`.
-/

namespace KvmUtils.KvmWrmsr

open Function

/-- The static counters `wrmsr_exits_*`, in the order of their declaration. -/
inductive Counter where
  | setApicBase
  | setTscadjust
  | setTscdeadline
  | setMiscEnable
  | setMcgStatus
  | setMcgCtl
  | setMcgExtCtl
  | setSmbase
  | setPlatformInfo
  | setMiscFeaturesEnables
  | setWallClock
  | setSystemTime
  | setLapicTpr
  | setLapicEoi
  | setLapicLdr
  | setLapicDfr
  | setLapicSpiv
  | setLapicIcr
  | setLapicIcr2
  | setLapicLvt
  | setLapicLvtt
  | setLapicSelfIpi
  | setLapicOthers
  | others
  | setPerfFixedCtr0
  | setPerfFixedCtr1
  | setPerfFixedCtr2
  | setPerfFixedCtrCtrl
  | setPerfGlobalStatus
  | setPerfGlobalCtrl
  | setPerfGlobalOvfCtrl
  deriving DecidableEq, Repr

/-- The static state of `msr.h`. -/
structure Msrs where
  exits : Counter → UInt64
  otherMsrs : OtherMsrs

/-- `wrmsr_exits_c++`. -/
def Msrs.bump (s : Msrs) (c : Counter) : Msrs :=
  { s with exits := update s.exits c (s.exits c + 1) }

/-- `record_wrmsr`. -/
def recordWrmsr (s : Msrs) (msr : UInt32) : Msrs :=
  if msr = MSR_IA32_APICBASE then s.bump .setApicBase
  else if msr = MSR_IA32_TSC_ADJUST then s.bump .setTscadjust
  else if msr = MSR_IA32_TSCDEADLINE then s.bump .setTscdeadline
  else if msr = MSR_IA32_MISC_ENABLE then s.bump .setMiscEnable
  else if msr = MSR_IA32_MCG_STATUS then s.bump .setMcgStatus
  else if msr = MSR_IA32_MCG_CTL then s.bump .setMcgCtl
  else if msr = MSR_IA32_MCG_EXT_CTL then s.bump .setMcgExtCtl
  else if msr = MSR_IA32_SMBASE then s.bump .setSmbase
  else if msr = MSR_PLATFORM_INFO then s.bump .setPlatformInfo
  else if msr = MSR_MISC_FEATURES_ENABLES then s.bump .setMiscFeaturesEnables
  else if msr = MSR_KVM_WALL_CLOCK_NEW ∨ msr = MSR_KVM_WALL_CLOCK then s.bump .setWallClock
  else if msr = MSR_KVM_SYSTEM_TIME_NEW ∨ msr = MSR_KVM_SYSTEM_TIME then s.bump .setSystemTime
  else if APIC_BASE_MSR ≤ msr ∧ msr ≤ APIC_BASE_MSR + 0x3ff then
    let reg := (msr - APIC_BASE_MSR) <<< 4
    if reg = APIC_TASKPRI then s.bump .setLapicTpr
    else if reg = APIC_EOI then s.bump .setLapicEoi
    else if reg = APIC_LDR then s.bump .setLapicLdr
    else if reg = APIC_DFR then s.bump .setLapicDfr
    else if reg = APIC_SPIV then s.bump .setLapicSpiv
    else if reg = APIC_ICR then s.bump .setLapicIcr
    else if reg = APIC_ICR2 then s.bump .setLapicIcr2
    else if reg = APIC_LVT0 ∨ reg = APIC_LVTTHMR ∨ reg = APIC_LVTPC ∨ reg = APIC_LVT1 ∨
        reg = APIC_LVTERR then s.bump .setLapicLvt
    else if reg = APIC_LVTT then s.bump .setLapicLvtt
    else if reg = APIC_SELF_IPI then s.bump .setLapicSelfIpi
    else s.bump .setLapicOthers
  else if msr = MSR_CORE_PERF_FIXED_CTR0 then s.bump .setPerfFixedCtr0
  else if msr = MSR_CORE_PERF_FIXED_CTR1 then s.bump .setPerfFixedCtr1
  else if msr = MSR_CORE_PERF_FIXED_CTR2 then s.bump .setPerfFixedCtr2
  else if msr = MSR_CORE_PERF_FIXED_CTR_CTRL then s.bump .setPerfFixedCtrCtrl
  else if msr = MSR_CORE_PERF_GLOBAL_STATUS then s.bump .setPerfGlobalStatus
  else if msr = MSR_CORE_PERF_GLOBAL_CTRL then s.bump .setPerfGlobalCtrl
  else if msr = MSR_CORE_PERF_GLOBAL_OVF_CTRL then s.bump .setPerfGlobalOvfCtrl
  else { s.bump .others with otherMsrs := recordOtherWrmsr s.otherMsrs msr }

/-- The counter that `record_wrmsr` bumps.  Two MSR numbers are in the same
class when this is the same counter. -/
def counterOf (msr : UInt32) : Counter :=
  if msr = MSR_IA32_APICBASE then .setApicBase
  else if msr = MSR_IA32_TSC_ADJUST then .setTscadjust
  else if msr = MSR_IA32_TSCDEADLINE then .setTscdeadline
  else if msr = MSR_IA32_MISC_ENABLE then .setMiscEnable
  else if msr = MSR_IA32_MCG_STATUS then .setMcgStatus
  else if msr = MSR_IA32_MCG_CTL then .setMcgCtl
  else if msr = MSR_IA32_MCG_EXT_CTL then .setMcgExtCtl
  else if msr = MSR_IA32_SMBASE then .setSmbase
  else if msr = MSR_PLATFORM_INFO then .setPlatformInfo
  else if msr = MSR_MISC_FEATURES_ENABLES then .setMiscFeaturesEnables
  else if msr = MSR_KVM_WALL_CLOCK_NEW ∨ msr = MSR_KVM_WALL_CLOCK then .setWallClock
  else if msr = MSR_KVM_SYSTEM_TIME_NEW ∨ msr = MSR_KVM_SYSTEM_TIME then .setSystemTime
  else if APIC_BASE_MSR ≤ msr ∧ msr ≤ APIC_BASE_MSR + 0x3ff then
    let reg := (msr - APIC_BASE_MSR) <<< 4
    if reg = APIC_TASKPRI then .setLapicTpr
    else if reg = APIC_EOI then .setLapicEoi
    else if reg = APIC_LDR then .setLapicLdr
    else if reg = APIC_DFR then .setLapicDfr
    else if reg = APIC_SPIV then .setLapicSpiv
    else if reg = APIC_ICR then .setLapicIcr
    else if reg = APIC_ICR2 then .setLapicIcr2
    else if reg = APIC_LVT0 ∨ reg = APIC_LVTTHMR ∨ reg = APIC_LVTPC ∨ reg = APIC_LVT1 ∨
        reg = APIC_LVTERR then .setLapicLvt
    else if reg = APIC_LVTT then .setLapicLvtt
    else if reg = APIC_SELF_IPI then .setLapicSelfIpi
    else .setLapicOthers
  else if msr = MSR_CORE_PERF_FIXED_CTR0 then .setPerfFixedCtr0
  else if msr = MSR_CORE_PERF_FIXED_CTR1 then .setPerfFixedCtr1
  else if msr = MSR_CORE_PERF_FIXED_CTR2 then .setPerfFixedCtr2
  else if msr = MSR_CORE_PERF_FIXED_CTR_CTRL then .setPerfFixedCtrCtrl
  else if msr = MSR_CORE_PERF_GLOBAL_STATUS then .setPerfGlobalStatus
  else if msr = MSR_CORE_PERF_GLOBAL_CTRL then .setPerfGlobalCtrl
  else if msr = MSR_CORE_PERF_GLOBAL_OVF_CTRL then .setPerfGlobalOvfCtrl
  else .others

/-- `report_wrmsr`. -/
def reportWrmsr (s : Msrs) (msr : UInt32) : UInt64 :=
  if msr = MSR_IA32_APICBASE then s.exits .setApicBase
  else if msr = MSR_IA32_TSC_ADJUST then s.exits .setTscadjust
  else if msr = MSR_IA32_TSCDEADLINE then s.exits .setTscdeadline
  else if msr = MSR_IA32_MISC_ENABLE then s.exits .setMiscEnable
  else if msr = MSR_IA32_MCG_STATUS then s.exits .setMcgStatus
  else if msr = MSR_IA32_MCG_CTL then s.exits .setMcgCtl
  else if msr = MSR_IA32_MCG_EXT_CTL then s.exits .setMcgExtCtl
  else if msr = MSR_IA32_SMBASE then s.exits .setSmbase
  else if msr = MSR_PLATFORM_INFO then s.exits .setPlatformInfo
  else if msr = MSR_MISC_FEATURES_ENABLES then s.exits .setMiscEnable
  else if msr = MSR_KVM_WALL_CLOCK_NEW ∨ msr = MSR_KVM_WALL_CLOCK then s.exits .setWallClock
  else if msr = MSR_KVM_SYSTEM_TIME_NEW ∨ msr = MSR_KVM_SYSTEM_TIME then s.exits .setSystemTime
  else if APIC_BASE_MSR ≤ msr ∧ msr ≤ APIC_BASE_MSR + 0x3ff then
    let reg := (msr - APIC_BASE_MSR) <<< 4
    if reg = APIC_TASKPRI then s.exits .setLapicTpr
    else if reg = APIC_EOI then s.exits .setLapicEoi
    else if reg = APIC_LDR then s.exits .setLapicLdr
    else if reg = APIC_DFR then s.exits .setLapicDfr
    else if reg = APIC_SPIV then s.exits .setLapicSpiv
    else if reg = APIC_ICR then s.exits .setLapicIcr
    else if reg = APIC_ICR2 then s.exits .setLapicIcr2
    else if reg = APIC_LVT0 ∨ reg = APIC_LVTTHMR ∨ reg = APIC_LVTPC ∨ reg = APIC_LVT1 ∨
        reg = APIC_LVTERR then s.exits .setLapicLvt
    else if reg = APIC_LVTT then s.exits .setLapicLvtt
    else if reg = APIC_SELF_IPI then s.exits .setLapicSelfIpi
    else s.exits .setLapicOthers
  else if msr = MSR_CORE_PERF_FIXED_CTR0 then s.exits .setPerfFixedCtr0
  else if msr = MSR_CORE_PERF_FIXED_CTR1 then s.exits .setPerfFixedCtr1
  else if msr = MSR_CORE_PERF_FIXED_CTR2 then s.exits .setPerfFixedCtr2
  else if msr = MSR_CORE_PERF_FIXED_CTR_CTRL then s.exits .setPerfFixedCtrCtrl
  else if msr = MSR_CORE_PERF_GLOBAL_STATUS then s.exits .setPerfGlobalStatus
  else if msr = MSR_CORE_PERF_GLOBAL_CTRL then s.exits .setPerfGlobalCtrl
  else if msr = MSR_CORE_PERF_GLOBAL_OVF_CTRL then s.exits .setPerfGlobalOvfCtrl
  else s.exits .others

/-- `msr2str`. -/
def msr2str (msr : UInt32) : String :=
  if msr = MSR_IA32_APICBASE then "MSR_IA32_APICBASE"
  else if msr = MSR_IA32_TSC_ADJUST then "MSR_IA32_TSC_ADJUST"
  else if msr = MSR_IA32_TSCDEADLINE then "MSR_IA32_TSCDEADLINE"
  else if msr = MSR_IA32_MISC_ENABLE then "MSR_IA32_MISC_ENABLE"
  else if msr = MSR_IA32_MCG_STATUS then "MSR_IA32_MCG_STATUS"
  else if msr = MSR_IA32_MCG_CTL then "MSR_IA32_MCG_CTL"
  else if msr = MSR_IA32_MCG_EXT_CTL then "MSR_IA32_MCG_EXT_CTL"
  else if msr = MSR_IA32_SMBASE then "MSR_IA32_SMBASE"
  else if msr = MSR_PLATFORM_INFO then "MSR_PLATFORM_INFO"
  else if msr = MSR_MISC_FEATURES_ENABLES then "MSR_MISC_FEATURES_ENABLES"
  else if msr = MSR_KVM_WALL_CLOCK_NEW ∨ msr = MSR_KVM_WALL_CLOCK then "MSR_KVM_WALL_CLOCK"
  else if msr = MSR_KVM_SYSTEM_TIME_NEW ∨ msr = MSR_KVM_SYSTEM_TIME then "MSR_KVM_SYSTEM_TIME"
  else if APIC_BASE_MSR ≤ msr ∧ msr ≤ APIC_BASE_MSR + 0x3ff then
    let reg := (msr - APIC_BASE_MSR) <<< 4
    if reg = APIC_TASKPRI then "APIC_TASKPRI"
    else if reg = APIC_EOI then "APIC_EOI"
    else if reg = APIC_LDR then "APIC_LDR"
    else if reg = APIC_DFR then "APIC_DFR"
    else if reg = APIC_SPIV then "APIC_SPIV"
    else if reg = APIC_ICR then "APIC_ICR"
    else if reg = APIC_ICR2 then "APIC_ICR2"
    else if reg = APIC_LVT0 ∨ reg = APIC_LVTTHMR ∨ reg = APIC_LVTPC ∨ reg = APIC_LVT1 ∨
        reg = APIC_LVTERR then "APIC_LVT0"
    else if reg = APIC_LVTT then "APIC_LVTT"
    else if reg = APIC_SELF_IPI then "APIC_SELF_IPI"
    else "APIC_OTHERS"
  else if msr = MSR_CORE_PERF_FIXED_CTR0 then "MSR_CORE_PERF_FIXED_CTR0"
  else if msr = MSR_CORE_PERF_FIXED_CTR1 then "MSR_CORE_PERF_FIXED_CTR1"
  else if msr = MSR_CORE_PERF_FIXED_CTR2 then "MSR_CORE_PERF_FIXED_CTR2"
  else if msr = MSR_CORE_PERF_FIXED_CTR_CTRL then "MSR_CORE_PERF_FIXED_CTR_CTRL"
  else if msr = MSR_CORE_PERF_GLOBAL_STATUS then "MSR_CORE_PERF_GLOBAL_STATUS"
  else if msr = MSR_CORE_PERF_GLOBAL_CTRL then "MSR_CORE_PERF_GLOBAL_CTRL"
  else if msr = MSR_CORE_PERF_GLOBAL_OVF_CTRL then "MSR_CORE_PERF_GLOBAL_OVF_CTRL"
  else "MSR_OTHERS"

/-- The counters that `reset_wrmsr` sets to zero, in its order. -/
def resetCounters : List Counter :=
  [.setApicBase, .setTscadjust, .setTscdeadline, .setMiscEnable, .setMcgStatus, .setMcgCtl,
    .setMcgExtCtl, .setSmbase, .setPlatformInfo, .setMiscFeaturesEnables, .setWallClock,
    .setSystemTime,
    .setLapicTpr, .setLapicEoi, .setLapicLdr, .setLapicDfr, .setLapicSpiv, .setLapicIcr,
    .setLapicIcr2, .setLapicLvt, .setLapicLvtt, .setLapicSelfIpi, .setLapicOthers, .others,
    .setPerfFixedCtr0, .setPerfFixedCtr1, .setPerfFixedCtr2, .setPerfFixedCtrCtrl,
    .setPerfGlobalStatus, .setPerfGlobalCtrl, .setPerfGlobalOvfCtrl]

/-- `reset_wrmsr`: the assignments in order, then `reset_other_wrmsr`. -/
def resetWrmsr (s : Msrs) : Msrs where
  exits := resetCounters.foldl (fun exits c => update exits c 0) s.exits
  otherMsrs := resetOtherWrmsr

/-- `init_wrmsr`, which sets up `other_msrs_lock` and clears the table. -/
def initWrmsr (s : Msrs) : Msrs :=
  { s with otherMsrs := resetOtherWrmsr }

/-- The statics as they are loaded. -/
def Msrs.load : Msrs where
  exits _ := 0
  otherMsrs := resetOtherWrmsr

/-! ## What the switches do -/

@[simp] theorem Msrs.bump_exits (s : Msrs) (c : Counter) :
    (s.bump c).exits = update s.exits c (s.exits c + 1) := rfl

@[simp] theorem Msrs.bump_otherMsrs (s : Msrs) (c : Counter) :
    (s.bump c).otherMsrs = s.otherMsrs := rfl

/-- `record_wrmsr` bumps the counter of the class, and the default class
also goes to the table. -/
theorem recordWrmsr_eq (s : Msrs) (msr : UInt32) :
    recordWrmsr s msr =
      { s.bump (counterOf msr) with
        otherMsrs := if counterOf msr = .others then recordOtherWrmsr s.otherMsrs msr
          else s.otherMsrs } := by
  -- push the effect of a class through the switch, case by case
  let effect (c : Counter) : Msrs :=
    { s.bump c with
      otherMsrs := if c = .others then recordOtherWrmsr s.otherMsrs msr else s.otherMsrs }
  show recordWrmsr s msr = effect (counterOf msr)
  simp only [counterOf, apply_ite effect]
  rfl

@[simp] theorem recordWrmsr_exits (s : Msrs) (msr : UInt32) :
    (recordWrmsr s msr).exits =
      update s.exits (counterOf msr) (s.exits (counterOf msr) + 1) := by
  rw [recordWrmsr_eq]
  rfl

@[simp] theorem recordWrmsr_otherMsrs (s : Msrs) (msr : UInt32) :
    (recordWrmsr s msr).otherMsrs =
      if counterOf msr = .others then recordOtherWrmsr s.otherMsrs msr else s.otherMsrs := by
  rw [recordWrmsr_eq]

/-- The counter that `report_wrmsr` reads.  The case of
`MSR_MISC_FEATURES_ENABLES` returns the counter of `MSR_IA32_MISC_ENABLE`,
and every other case returns the counter of the class. -/
theorem reportWrmsr_eq (s : Msrs) (msr : UInt32) :
    reportWrmsr s msr =
      s.exits (if msr = MSR_MISC_FEATURES_ENABLES then .setMiscEnable else counterOf msr) := by
  by_cases hm : msr = MSR_MISC_FEATURES_ENABLES
  · subst hm
    rfl
  · rw [if_neg hm]
    simp only [counterOf, apply_ite s.exits, reportWrmsr, if_neg hm]

/-- The label of a class. -/
def Counter.label : Counter → String
  | .setApicBase => "MSR_IA32_APICBASE"
  | .setTscadjust => "MSR_IA32_TSC_ADJUST"
  | .setTscdeadline => "MSR_IA32_TSCDEADLINE"
  | .setMiscEnable => "MSR_IA32_MISC_ENABLE"
  | .setMcgStatus => "MSR_IA32_MCG_STATUS"
  | .setMcgCtl => "MSR_IA32_MCG_CTL"
  | .setMcgExtCtl => "MSR_IA32_MCG_EXT_CTL"
  | .setSmbase => "MSR_IA32_SMBASE"
  | .setPlatformInfo => "MSR_PLATFORM_INFO"
  | .setMiscFeaturesEnables => "MSR_MISC_FEATURES_ENABLES"
  | .setWallClock => "MSR_KVM_WALL_CLOCK"
  | .setSystemTime => "MSR_KVM_SYSTEM_TIME"
  | .setLapicTpr => "APIC_TASKPRI"
  | .setLapicEoi => "APIC_EOI"
  | .setLapicLdr => "APIC_LDR"
  | .setLapicDfr => "APIC_DFR"
  | .setLapicSpiv => "APIC_SPIV"
  | .setLapicIcr => "APIC_ICR"
  | .setLapicIcr2 => "APIC_ICR2"
  | .setLapicLvt => "APIC_LVT0"
  | .setLapicLvtt => "APIC_LVTT"
  | .setLapicSelfIpi => "APIC_SELF_IPI"
  | .setLapicOthers => "APIC_OTHERS"
  | .others => "MSR_OTHERS"
  | .setPerfFixedCtr0 => "MSR_CORE_PERF_FIXED_CTR0"
  | .setPerfFixedCtr1 => "MSR_CORE_PERF_FIXED_CTR1"
  | .setPerfFixedCtr2 => "MSR_CORE_PERF_FIXED_CTR2"
  | .setPerfFixedCtrCtrl => "MSR_CORE_PERF_FIXED_CTR_CTRL"
  | .setPerfGlobalStatus => "MSR_CORE_PERF_GLOBAL_STATUS"
  | .setPerfGlobalCtrl => "MSR_CORE_PERF_GLOBAL_CTRL"
  | .setPerfGlobalOvfCtrl => "MSR_CORE_PERF_GLOBAL_OVF_CTRL"

/-- `msr2str` is the label of the class. -/
theorem msr2str_eq (msr : UInt32) : msr2str msr = (counterOf msr).label := by
  simp only [counterOf, apply_ite Counter.label]
  rfl

/-- `reset_wrmsr` names every counter, so there is no other than these. -/
theorem mem_resetCounters (c : Counter) : c ∈ resetCounters := by
  cases c <;> decide

theorem nodup_resetCounters : resetCounters.Nodup := by
  decide

instance : Fintype Counter :=
  ⟨⟨resetCounters, nodup_resetCounters⟩, mem_resetCounters⟩

/-- No two classes share a label. -/
theorem label_injective : Injective Counter.label := by
  have h : ∀ c d : Counter, c.label = d.label → c = d := by decide
  exact fun c d => h c d

theorem msr2str_eq_iff {m m' : UInt32} : msr2str m = msr2str m' ↔ counterOf m = counterOf m' := by
  rw [msr2str_eq, msr2str_eq, label_injective.eq_iff]

private theorem foldl_update_zero (cs : List Counter) (exits : Counter → UInt64) (c : Counter) :
    cs.foldl (fun e d => update e d 0) exits c = if c ∈ cs then 0 else exits c := by
  induction cs generalizing exits with
  | nil => simp
  | cons d cs ih =>
    rw [List.foldl_cons, ih]
    by_cases hc : c ∈ cs
    · simp [hc]
    · by_cases hcd : c = d
      · simp [hcd]
      · simp [hc, hcd]

/-- `reset_wrmsr` puts the statics back to what they were when loaded. -/
@[simp] theorem resetWrmsr_eq_load (s : Msrs) : resetWrmsr s = Msrs.load := by
  have h : (resetWrmsr s).exits = fun _ => 0 := by
    funext c
    exact (foldl_update_zero resetCounters s.exits c).trans (if_pos (mem_resetCounters c))
  simp only [resetWrmsr, Msrs.load, Msrs.mk.injEq, and_true]
  exact h

end KvmUtils.KvmWrmsr
