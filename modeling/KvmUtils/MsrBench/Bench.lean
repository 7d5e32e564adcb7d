import Mathlib.Data.List.Count
import KvmUtils.Lib.CFormat

/-!
# The writes of `msr_bench`

`wrmsr_bench` writes a register once with `native_write_msr_safe` and then
`LOOP` times more, by the `wrmsr` instruction if the first write succeeded and
by `native_write_msr_safe` again if it failed.  The two paths split the value
into halves on their own, and `halves_eq` says that they split it alike.

They do not write the same register: the fast path names
`__MSR_IA32_TSCDEADLINE` whatever register it has been given.
`writes_wrmsrBench_of_ok` and `writes_wrmsrBench_of_fail` list the writes of the
two paths, and `writes_msrBenchInit` those of a whole load.
-/

namespace KvmUtils.MsrBench

def MSR_IA32_TSCDEADLINE : UInt32 := 0x000006e0

def MSR_IA32_POWER_CTL : UInt32 := 0x000001fc

def LOOP : Nat := 100000

/-- One write of a register, as the processor sees it. -/
structure Wrmsr where
  msr : UInt32
  low : UInt32
  high : UInt32
  deriving DecidableEq, Repr

/-- A line of the kernel log. -/
inductive Line where
  | start
  | wrmsrOk (tag : String)
  | wrmsrFail (tag : String)
  | report (tag : String) (loop : Nat) (elapsed average : Int)
  | finish
  deriving DecidableEq, Repr

inductive Event where
  | printk (line : Line)
  | wrmsr (w : Wrmsr)
  deriving DecidableEq, Repr

/-- The registers that are written, in order. -/
def writes (events : List Event) : List Wrmsr :=
  events.filterMap fun
    | .wrmsr w => some w
    | .printk _ => none

/-! ## The benchmark of one register -/

def insWrmsr (msr low high : UInt32) : Event := .wrmsr ⟨msr, low, high⟩

def insWrmsrl (msr : UInt32) (val : UInt64) : Event :=
  insWrmsr msr (val &&& 0xffffffff).toUInt32 (val >>> 32).toUInt32

/-- The function of the kernel.  What it returns is up to the machine, and
only its first result is looked at. -/
def nativeWriteMsrSafe (msr low high : UInt32) : Event := .wrmsr ⟨msr, low, high⟩

/-- `wrmsr_bench`, where `ret` is the result of its first write. -/
def wrmsrBench (tag : String) (msr : UInt32) (val : UInt64) (ret : Int) : List Event :=
  let low := (val &&& 0xffffffff).toUInt32
  let high := (val >>> 32).toUInt32
  nativeWriteMsrSafe msr low high ::
    if ret = 0 then
      .printk (.wrmsrOk tag) :: List.replicate LOOP (insWrmsrl MSR_IA32_TSCDEADLINE val)
    else
      .printk (.wrmsrFail tag) :: List.replicate LOOP (nativeWriteMsrSafe msr low high)

/-! ## The load of the module -/

/-- What the machine answers in the course of a load: the readings of the time
stamp counter and the results of the two first writes. -/
structure Machine where
  powerStart : UInt64
  powerRet : Int
  powerEnd : UInt64
  deadlineStart : UInt64
  deadlineNow : UInt64
  deadlineRet : Int
  deadlineEnd : UInt64

def msrBenchReport (tag : String) (elapsed : UInt64) : Event :=
  .printk (.report tag LOOP (CFormat.ld elapsed) (CFormat.ld (elapsed / UInt64.ofNat LOOP)))

def wrmsrBenchTscdeadline (m : Machine) : List Event :=
  let val := m.deadlineNow + 10 * 1000 * 1000 * 1000
  wrmsrBench "MSR_IA32_TSCDEADLINE" MSR_IA32_TSCDEADLINE val m.deadlineRet

def wrmsrBenchPower (m : Machine) : List Event :=
  let val := 0
  wrmsrBench "MSR_IA32_POWER_CTL" MSR_IA32_POWER_CTL val m.powerRet

/-- `msr_bench_init`, which returns `-1` after its last line.  `wrmsr_bench`
always returns `0`, so both reports are printed. -/
def msrBenchInit (m : Machine) : List Event :=
  .printk .start :: wrmsrBenchPower m ++
    msrBenchReport "MSR_IA32_POWER_CTL" (m.powerEnd - m.powerStart) ::
    wrmsrBenchTscdeadline m ++
    [msrBenchReport "MSR_IA32_TSCDEADLINE" (m.deadlineEnd - m.deadlineStart), .printk .finish]

/-! ## The writes of the two paths -/

@[simp] theorem writes_nil : writes [] = [] := rfl

@[simp] theorem writes_cons_printk (line : Line) (events : List Event) :
    writes (.printk line :: events) = writes events := rfl

@[simp] theorem writes_cons_wrmsr (w : Wrmsr) (events : List Event) :
    writes (.wrmsr w :: events) = w :: writes events := rfl

@[simp] theorem writes_append (events more : List Event) :
    writes (events ++ more) = writes events ++ writes more := by
  simp [writes]

@[simp] theorem writes_replicate (n : Nat) (w : Wrmsr) :
    writes (List.replicate n (.wrmsr w)) = List.replicate n w := by
  simp [writes]

/-- The two halves that are written make up the value. -/
theorem halves_eq (val : UInt64) :
    (val &&& 0xffffffff).toUInt32.toNat + 2 ^ 32 * (val >>> 32).toUInt32.toNat = val.toNat := by
  have hmask : (val &&& 0xffffffff).toNat = val.toNat % 2 ^ 32 := by
    rw [UInt64.toNat_and]
    exact Nat.and_two_pow_sub_one_eq_mod val.toNat 32
  have hshift : (val >>> 32).toNat = val.toNat / 2 ^ 32 := by
    rw [UInt64.toNat_shiftRight]
    exact Nat.shiftRight_eq_div_pow val.toNat 32
  have hlt : val.toNat < 2 ^ 64 := val.toNat_lt
  rw [UInt64.toNat_toUInt32, UInt64.toNat_toUInt32, hmask, hshift]
  omega

/-- The write that `wrmsr_bench` starts with. -/
def request (msr : UInt32) (val : UInt64) : Wrmsr :=
  ⟨msr, (val &&& 0xffffffff).toUInt32, (val >>> 32).toUInt32⟩

/-- The fast path writes the requested register once and the TSC deadline from
then on. -/
theorem writes_wrmsrBench_of_ok (tag : String) (msr : UInt32) (val : UInt64) :
    writes (wrmsrBench tag msr val 0) =
      request msr val :: List.replicate LOOP (request MSR_IA32_TSCDEADLINE val) := by
  simp [wrmsrBench, nativeWriteMsrSafe, insWrmsrl, insWrmsr, request]

/-- The safe path writes the requested register all the time. -/
theorem writes_wrmsrBench_of_fail (tag : String) (msr : UInt32) (val : UInt64) {ret : Int}
    (hret : ret ≠ 0) :
    writes (wrmsrBench tag msr val ret) = List.replicate (LOOP + 1) (request msr val) := by
  simp [wrmsrBench, nativeWriteMsrSafe, request, hret, List.replicate_succ]

/-- There are `1 + LOOP` writes, each of them to `msr` with the halves of
`val`. -/
def WritesOnly (msr : UInt32) (val : UInt64) (ws : List Wrmsr) : Prop :=
  ws.length = 1 + LOOP ∧
    ∀ w ∈ ws, w.msr = msr ∧ w.low.toNat + 2 ^ 32 * w.high.toNat = val.toNat

theorem request_halves (msr : UInt32) (val : UInt64) :
    (request msr val).low.toNat + 2 ^ 32 * (request msr val).high.toNat = val.toNat :=
  halves_eq val

theorem LOOP_pos : 0 < LOOP := by decide

/-- `LOOP` writes of the TSC deadline after the first one are what was asked
for exactly when the TSC deadline was asked for. -/
theorem writesOnly_of_ok_iff (tag : String) (msr : UInt32) (val : UInt64) :
    WritesOnly msr val (writes (wrmsrBench tag msr val 0)) ↔ msr = MSR_IA32_TSCDEADLINE := by
  rw [writes_wrmsrBench_of_ok, WritesOnly, List.forall_mem_cons, List.length_cons,
    List.length_replicate]
  constructor
  · rintro ⟨_, _, hrest⟩
    have hmem : request MSR_IA32_TSCDEADLINE val ∈
        List.replicate LOOP (request MSR_IA32_TSCDEADLINE val) :=
      List.mem_replicate.mpr ⟨LOOP_pos.ne', rfl⟩
    exact (hrest _ hmem).1.symm
  · rintro rfl
    refine ⟨Nat.add_comm _ _, ⟨rfl, request_halves _ val⟩, ?_⟩
    intro w hw
    obtain rfl := List.eq_of_mem_replicate hw
    exact ⟨rfl, request_halves _ val⟩

theorem writesOnly_of_fail (tag : String) (msr : UInt32) (val : UInt64) {ret : Int}
    (hret : ret ≠ 0) : WritesOnly msr val (writes (wrmsrBench tag msr val ret)) := by
  rw [writes_wrmsrBench_of_fail tag msr val hret, WritesOnly, List.length_replicate]
  refine ⟨Nat.add_comm _ _, fun w hw => ?_⟩
  obtain rfl := List.eq_of_mem_replicate hw
  exact ⟨rfl, request_halves msr val⟩

/-- `wrmsr_bench` writes the requested register and nothing else exactly when
its first write fails or the requested register is the TSC deadline. -/
theorem wrmsrBench_writesOnly_iff (tag : String) (msr : UInt32) (val : UInt64) (ret : Int) :
    WritesOnly msr val (writes (wrmsrBench tag msr val ret)) ↔
      ret ≠ 0 ∨ msr = MSR_IA32_TSCDEADLINE := by
  by_cases hret : ret = 0
  · subst hret
    simp [writesOnly_of_ok_iff]
  · simp [hret, writesOnly_of_fail tag msr val hret]

/-- On a machine with the power control register, its benchmark writes the TSC
deadline. -/
theorem power_benchmark_writes_tscdeadline :
    ¬ WritesOnly MSR_IA32_POWER_CTL 0
      (writes (wrmsrBench "MSR_IA32_POWER_CTL" MSR_IA32_POWER_CTL 0 0)) := by
  rw [writesOnly_of_ok_iff]
  decide

/-! ## The writes of a load -/

/-- The writes of a load are those of its two benchmarks. -/
theorem writes_msrBenchInit (m : Machine) :
    writes (msrBenchInit m) = writes (wrmsrBenchPower m) ++ writes (wrmsrBenchTscdeadline m) := by
  simp [msrBenchInit, msrBenchReport]

/-- The benchmark of the TSC deadline writes nothing else on any machine. -/
theorem writesOnly_wrmsrBenchTscdeadline (m : Machine) :
    WritesOnly MSR_IA32_TSCDEADLINE (m.deadlineNow + 10 * 1000 * 1000 * 1000)
      (writes (wrmsrBenchTscdeadline m)) := by
  unfold wrmsrBenchTscdeadline
  by_cases hret : m.deadlineRet = 0
  · rw [hret, writesOnly_of_ok_iff]
  · exact writesOnly_of_fail _ _ _ hret

/-- Of the `LOOP + 1` writes of the power control register that a load reports
on, only the first is made when it succeeds. -/
theorem count_power_msrBenchInit (m : Machine) :
    (writes (msrBenchInit m)).countP (fun w => w.msr = MSR_IA32_POWER_CTL) =
      if m.powerRet = 0 then 1 else LOOP + 1 := by
  have hdeadline : (writes (wrmsrBenchTscdeadline m)).countP
      (fun w => w.msr = MSR_IA32_POWER_CTL) = 0 := by
    rw [List.countP_eq_zero]
    intro w hw
    rw [((writesOnly_wrmsrBenchTscdeadline m).2 w hw).1]
    decide
  rw [writes_msrBenchInit, List.countP_append, hdeadline, Nat.add_zero]
  unfold wrmsrBenchPower
  split_ifs with hret
  · have hrest : (List.replicate LOOP (request MSR_IA32_TSCDEADLINE 0)).countP
        (fun w => w.msr = MSR_IA32_POWER_CTL) = 0 := by
      rw [List.countP_eq_zero]
      intro w hw
      rw [List.eq_of_mem_replicate hw]
      decide
    rw [hret, writes_wrmsrBench_of_ok, List.countP_cons_of_pos (by decide), hrest]
  · rw [writes_wrmsrBench_of_fail _ _ _ hret, List.countP_eq_length.mpr, List.length_replicate]
    intro w hw
    rw [List.eq_of_mem_replicate hw]
    decide

end KvmUtils.MsrBench
