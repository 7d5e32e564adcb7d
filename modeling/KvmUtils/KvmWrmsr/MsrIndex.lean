import Mathlib.Init

/-!
# MSR numbers and local APIC registers

The numbers that the three switches of `msr.h` name.  They are those of the
vendored `msr-index.h`, `local-msr-index.h`, `kvm_para.h` and `apicdef.h`,
which `msr.h` includes in place of the kernel's own.
-/

namespace KvmUtils.KvmWrmsr

/-! ## `msr-index.h` and `local-msr-index.h` -/

def MSR_IA32_APICBASE : UInt32 := 0x0000001b
def MSR_IA32_TSC_ADJUST : UInt32 := 0x0000003b
def MSR_IA32_TSCDEADLINE : UInt32 := 0x000006e0
def MSR_IA32_MISC_ENABLE : UInt32 := 0x000001a0
def MSR_IA32_MCG_STATUS : UInt32 := 0x0000017a
def MSR_IA32_MCG_CTL : UInt32 := 0x0000017b
def MSR_IA32_MCG_EXT_CTL : UInt32 := 0x000004d0
def MSR_IA32_SMBASE : UInt32 := 0x0000009e
def MSR_PLATFORM_INFO : UInt32 := 0x000000ce
def MSR_MISC_FEATURES_ENABLES : UInt32 := 0x00000140

def MSR_CORE_PERF_FIXED_CTR0 : UInt32 := 0x00000309
def MSR_CORE_PERF_FIXED_CTR1 : UInt32 := 0x0000030a
def MSR_CORE_PERF_FIXED_CTR2 : UInt32 := 0x0000030b
def MSR_CORE_PERF_FIXED_CTR_CTRL : UInt32 := 0x0000038d
def MSR_CORE_PERF_GLOBAL_STATUS : UInt32 := 0x0000038e
def MSR_CORE_PERF_GLOBAL_CTRL : UInt32 := 0x0000038f
def MSR_CORE_PERF_GLOBAL_OVF_CTRL : UInt32 := 0x00000390

/-! ## `kvm_para.h` -/

def MSR_KVM_WALL_CLOCK : UInt32 := 0x11
def MSR_KVM_SYSTEM_TIME : UInt32 := 0x12
def MSR_KVM_WALL_CLOCK_NEW : UInt32 := 0x4b564d00
def MSR_KVM_SYSTEM_TIME_NEW : UInt32 := 0x4b564d01

/-! ## `apicdef.h` -/

/-- The first MSR of the x2APIC range.  Register `r` of the local APIC is
MSR `APIC_BASE_MSR + (r >> 4)`. -/
def APIC_BASE_MSR : UInt32 := 0x800

def APIC_TASKPRI : UInt32 := 0x80
def APIC_EOI : UInt32 := 0xB0
def APIC_LDR : UInt32 := 0xD0
def APIC_DFR : UInt32 := 0xE0
def APIC_SPIV : UInt32 := 0xF0
def APIC_ICR : UInt32 := 0x300
def APIC_ICR2 : UInt32 := 0x310
def APIC_LVTT : UInt32 := 0x320
def APIC_LVTTHMR : UInt32 := 0x330
def APIC_LVTPC : UInt32 := 0x340
def APIC_LVT0 : UInt32 := 0x350
def APIC_LVT1 : UInt32 := 0x360
def APIC_LVTERR : UInt32 := 0x370
def APIC_SELF_IPI : UInt32 := 0x3F0

end KvmUtils.KvmWrmsr
