import Mathlib.Data.Int.GCD
import Mathlib.Data.Int.ModEq
import Mathlib.Tactic.Linarith
import KvmUtils.IpiBench.Params
import KvmUtils.IpiBench.Printing

/-!
# The throughput

The two lines with a throughput multiply up to three factors before the
product gets 64 bits.  In `ipi_bench_mesh` the product of `pairs` and `loops`
is an `int`, and in `ipi_bench_all` the product up to `loops` is an
`unsigned int`.  A product that does not fit is off by a multiple of `2 ^ 32`.
That shows in the quotient unless the benchmark has run for more than
`2 ^ 41` nanoseconds, which is longer than half an hour.
-/

namespace KvmUtils.IpiBench

open CFormat

/-- The printed throughput is that of `calls` calls, rounded down. -/
def Exact (printed : UInt64) (calls : Int) (elapsed : UInt64) : Prop :=
  ld printed = calls * 10 ^ 9 / elapsed.toNat

/-- The throughput is exact for every time. -/
def AlwaysExact (throughput : UInt64 → UInt64) (calls : Int) : Prop :=
  ∀ elapsed, elapsed ≠ 0 → Exact (throughput elapsed) calls elapsed

section Throughput

variable {elapsed : UInt64}

/-- An exact throughput has a dividend that is close to the true one. -/
theorem Exact.close {x : UInt64} {calls : Int} (h : Exact (x / elapsed) calls elapsed)
    (hcalls : 0 ≤ calls) (he : elapsed ≠ 0) :
    (x.toNat : Int) < calls * 1000000000 + elapsed.toNat ∧
      calls * 1000000000 < x.toNat + elapsed.toNat := by
  obtain ⟨n, rfl⟩ := Int.eq_ofNat_of_zero_le hcalls
  have hclose := close_of_ld_div_eq (n := n * 1000000000) he (by
    rw [Int.natCast_ediv, Int.natCast_mul]
    exact h)
  omega

/-- A throughput with the true dividend is exact. -/
theorem exact_of_dividend {x : UInt64} {calls : Int} (hx : (x.toNat : Int) = calls * 1000000000)
    (hlt : x.toNat < 2 ^ 63) : Exact (x / elapsed) calls elapsed := by
  unfold Exact
  rw [ld_div hlt, Int.natCast_ediv, hx]
  rfl

/-! ## `ipi_bench_mesh` -/

/-- The dividend of `ipi_bench_mesh`. -/
theorem mesh_dividend {a b : Int} (ha : IsInt a) (hb : IsInt b) :
    (((Int32.ofInt a * Int32.ofInt b).toInt64.toUInt64 * 1000000000).toNat : Int) =
      Int.bmod (a * b) (2 ^ 32) * 1000000000 % 2 ^ 64 := by
  have hproduct : (Int32.ofInt a * Int32.ofInt b).toInt = Int.bmod (a * b) (2 ^ 32) := by
    rw [Int32.toInt_mul, Int32.toInt_ofInt_of_le ha.1 ha.2, Int32.toInt_ofInt_of_le hb.1 hb.2]
  have hword := toNat_toUInt64 (Int32.ofInt a * Int32.ofInt b)
  rw [hproduct] at hword
  rw [UInt64.toNat_mul]
  show (((_ : Nat) * 1000000000 % 2 ^ 64 : Nat) : Int) = _
  omega

/-- A dividend that is off by a multiple of `2 ^ 32 * 10 ^ 9`, and that wraps
around at `2 ^ 64`, is not close to the true one. -/
theorem lt_of_close_of_bmod {calls low word e : Int} (hlow : - 2 ^ 31 ≤ low)
    (hlow' : low < 2 ^ 31) (hmod : low % 2 ^ 32 = calls % 2 ^ 32)
    (hword : word = low * 1000000000 % 2 ^ 64)
    (hclose : word < calls * 1000000000 + e ∧ calls * 1000000000 < word + e)
    (he : e ≤ 2 ^ 41) : calls < 2 ^ 31 := by
  obtain ⟨k, hk⟩ : (2 ^ 32 : Int) ∣ calls - low :=
    Int.dvd_of_emod_eq_zero (Int.emod_eq_emod_iff_emod_sub_eq_zero.mp hmod.symm)
  obtain ⟨m, hm⟩ : (2 ^ 64 : Int) ∣ low * 1000000000 - word := by
    rw [hword]
    exact Int.dvd_self_sub_emod
  have hbound : word < 2 ^ 64 := by
    rw [hword]
    exact Int.emod_lt_of_pos _ (by decide)
  clear hmod hword
  -- the two dividends differ by a multiple of `2 ^ 41`
  have hdiff : calls * 1000000000 - word = 2 ^ 41 * (k * 1953125 + 2 ^ 23 * m) := by
    linarith
  have hzero : k * 1953125 + 2 ^ 23 * m = 0 := by
    clear hm hk hlow hbound
    generalize k * 1953125 + 2 ^ 23 * m = d at *
    omega
  have hsmall : calls * 1000000000 < 2 ^ 64 := by
    rw [hzero, mul_zero, sub_eq_zero] at hdiff
    rwa [hdiff]
  clear hm hbound hdiff hclose he
  by_contra hge
  have hrange : 0 < k ∧ k < 5 := by
    clear hzero
    omega
  have hdvd : (2 ^ 23 : Int) ∣ k * 1953125 := ⟨- m, by linarith⟩
  have hmultiple : (2 ^ 23 : Int) ∣ k := Int.dvd_of_dvd_mul_left_of_gcd_one hdvd (by decide)
  exact absurd (Int.le_of_dvd hrange.1 hmultiple) (not_le.mpr (hrange.2.trans (by decide)))

theorem meshThroughput_exact {a b : Int} (ha : IsInt a) (hb : IsInt b) (hpos : 0 ≤ a * b)
    (hlt : a * b < 2 ^ 31) : Exact (meshThroughput a b elapsed) (a * b) elapsed := by
  have hdividend := mesh_dividend ha hb
  have hfits : Int.bmod (a * b) (2 ^ 32) = a * b :=
    Int.bmod_eq_of_le (by omega) (by omega)
  rw [hfits, Int.emod_eq_of_lt (by omega) (by omega)] at hdividend
  exact exact_of_dividend hdividend (by omega)

theorem lt_of_meshThroughput_exact {a b : Int} (ha : IsInt a) (hb : IsInt b) (hpos : 0 ≤ a * b)
    (he : elapsed ≠ 0) (hle : elapsed.toNat ≤ 2 ^ 41)
    (h : Exact (meshThroughput a b elapsed) (a * b) elapsed) : a * b < 2 ^ 31 :=
  lt_of_close_of_bmod (Int.le_bmod (by decide)) (Int.bmod_lt (by decide)) Int.bmod_emod
    (mesh_dividend ha hb) (h.close hpos he) (by omega)

/-! ## `ipi_bench_all` -/

/-- The dividend of `ipi_bench_all`. -/
theorem all_dividend {a b : Int} {n : Nat} (hn : 0 < n) :
    ((((Int32.ofInt a).toUInt32 * (UInt32.ofNat n - 1) * (Int32.ofInt b).toUInt32).toUInt64 *
        1000000000).toNat : Int) = a * (n - 1) * b % 2 ^ 32 * 1000000000 := by
  have hcpus : UInt32.ofNat n - 1 = UInt32.ofNat (n - 1) := (UInt32.ofNat_sub hn).symm
  have hfactor : ((n - 1 : Nat) : Int) = n - 1 := by omega
  -- each factor and each product is right modulo `2 ^ 32`
  have hproduct : (((Int32.ofInt a).toUInt32 * (UInt32.ofNat n - 1) *
      (Int32.ofInt b).toUInt32).toNat : Int) = a * (n - 1) * b % 2 ^ 32 := by
    rw [hcpus, UInt32.toNat_mul, UInt32.toNat_mul, UInt32.toNat_ofNat', Int.natCast_emod,
      Int.natCast_mul, Int.natCast_emod, Int.natCast_mul, Int.natCast_emod, toNat_toUInt32,
      toNat_toUInt32, hfactor]
    have hmod : ∀ x : Int, x % 2 ^ 32 ≡ x [ZMOD 2 ^ 32] := fun x => Int.mod_modEq x _
    exact ((hmod _).trans ((hmod a).mul (hmod _))).mul (hmod b)
  rw [UInt64.toNat_mul, UInt32.toNat_toUInt64]
  show (((_ : Nat) * 1000000000 % 2 ^ 64 : Nat) : Int) = _
  rw [← hproduct]
  have hlt := ((Int32.ofInt a).toUInt32 * (UInt32.ofNat n - 1) *
    (Int32.ofInt b).toUInt32).toNat_lt
  omega

theorem allThroughput_exact {a b : Int} {n : Nat} (hn : 0 < n) (hpos : 0 ≤ a * (n - 1) * b)
    (hlt : a * (n - 1) * b < 2 ^ 32) :
    Exact (allThroughput a n b elapsed) (a * (n - 1) * b) elapsed := by
  have hdividend := all_dividend (a := a) (b := b) hn
  rw [Int.emod_eq_of_lt hpos hlt] at hdividend
  exact exact_of_dividend hdividend (by omega)

theorem lt_of_allThroughput_exact {a b : Int} {n : Nat} (hn : 0 < n)
    (hpos : 0 ≤ a * (n - 1) * b) (he : elapsed ≠ 0) (hle : elapsed.toNat ≤ 2 ^ 41)
    (h : Exact (allThroughput a n b elapsed) (a * (n - 1) * b) elapsed) :
    a * (n - 1) * b < 2 ^ 32 := by
  have hclose := h.close hpos he
  rw [all_dividend hn] at hclose
  generalize a * (n - 1) * b = calls at *
  omega

end Throughput

/-- A throughput that is exact for one time that is not too long only if the
product fits, and is then exact for all. -/
theorem alwaysExact_iff {throughput : UInt64 → UInt64} {calls : Int} {fits : Prop}
    (hfits : fits → ∀ elapsed, Exact (throughput elapsed) calls elapsed)
    (hexact : ∀ elapsed : UInt64, elapsed ≠ 0 → elapsed.toNat ≤ 2 ^ 41 →
      Exact (throughput elapsed) calls elapsed → fits) :
    (AlwaysExact throughput calls ↔ fits) ∧
      ∀ elapsed : UInt64, elapsed ≠ 0 → elapsed.toNat ≤ 2 ^ 41 →
        (Exact (throughput elapsed) calls elapsed ↔ fits) := by
  refine ⟨⟨fun h => ?_, fun h elapsed _ => hfits h elapsed⟩, fun elapsed he hle => ?_⟩
  · exact hexact 1 (by decide) (by decide) (h 1 (by decide))
  · exact ⟨hexact elapsed he hle, fun h => hfits h elapsed⟩

/-- `ipi_bench_init_params` has accepted the parameters `p` and left `q`, and
the number of CPUs and `loops` are values of type `int`.

1. With at least one pair, what `ipi_bench_mesh` prints is exact for every
   time exactly when `pairs * loops` is below `2 ^ 31`.
2. With at least one broadcast, and not more than there are CPUs, what
   `ipi_bench_all` prints is exact for every time exactly when
   `broadcasts * (num_online_cpus() - 1) * loops` is below `2 ^ 32`.

A product that is larger gives no exact throughput for any time up to
`2 ^ 41` nanoseconds. -/
theorem throughput_exact_iff {topo : Topology} {random : Nat → UInt64} {fuel : Nat}
    {p q : Params} (hinit : initParams topo random fuel p = some (0, q))
    (hcpus : IsInt topo.numCpus) (hloops : 0 < q.loops) (hint : IsInt q.loops) :
    (1 ≤ q.pairs →
      (AlwaysExact (meshThroughput q.pairs q.loops) (q.pairs * q.loops) ↔
        q.pairs * q.loops < 2 ^ 31) ∧
      ∀ elapsed : UInt64, elapsed ≠ 0 → elapsed.toNat ≤ 2 ^ 41 →
        (Exact (meshThroughput q.pairs q.loops elapsed) (q.pairs * q.loops) elapsed ↔
          q.pairs * q.loops < 2 ^ 31)) ∧
    (1 ≤ q.broadcasts → q.broadcasts ≤ topo.numCpus →
      (AlwaysExact (allThroughput q.broadcasts topo.numCpus q.loops)
          (q.broadcasts * (topo.numCpus - 1) * q.loops) ↔
        q.broadcasts * (topo.numCpus - 1) * q.loops < 2 ^ 32) ∧
      ∀ elapsed : UInt64, elapsed ≠ 0 → elapsed.toNat ≤ 2 ^ 41 →
        (Exact (allThroughput q.broadcasts topo.numCpus q.loops elapsed)
            (q.broadcasts * (topo.numCpus - 1) * q.loops) elapsed ↔
          q.broadcasts * (topo.numCpus - 1) * q.loops < 2 ^ 32)) := by
  have haccepted := accepted_of_initParams hinit
  have hn := haccepted.cpus
  constructor
  · intro hpairs
    have hle : q.pairs ≤ topo.numCpus / 2 := by
      obtain ⟨src, dst, -, -, -, rfl⟩ := initParams_spec hinit
      have hle := haccepted.pairs
      show p.setPairs topo ≤ _
      unfold Params.setPairs
      split_ifs <;> omega
    have hrange : IsInt q.pairs := ⟨by omega, by have := hcpus.2; omega⟩
    have hpos : 0 ≤ q.pairs * q.loops := Int.mul_nonneg (by omega) hloops.le
    exact alwaysExact_iff (fun h _ => meshThroughput_exact hrange hint hpos h)
      fun _ he hle h => lt_of_meshThroughput_exact hrange hint hpos he hle h
  · intro hbroadcasts _
    have hpos : 0 ≤ q.broadcasts * (topo.numCpus - 1) * q.loops :=
      Int.mul_nonneg (Int.mul_nonneg (by omega) (by omega)) hloops.le
    exact alwaysExact_iff (fun h _ => allThroughput_exact (by omega) hpos h)
      fun _ he hle h => lt_of_allThroughput_exact (by omega) hpos he hle h

/-- Four CPUs, two pairs and one broadcast. -/
def fourCpus (loops : Int) : Params := ⟨loops, 0, 1, 2, true, 1, true, MESH_IPI⟩

/-- With two thousand million loops that take ten seconds, both products wrap
around. -/
theorem throughput_wraps :
    initParams ⟨4, fun _ => 0⟩ (fun _ => 0) 1 (fourCpus 2000000000) =
      some (0, fourCpus 2000000000) ∧
    ld (meshThroughput 2 2000000000 10000000000) = 1815177677 ∧
    ¬ Exact (meshThroughput 2 2000000000 10000000000) (2 * 2000000000) 10000000000 ∧
    ld (allThroughput 1 4 2000000000 10000000000) = 170503270 ∧
    ¬ Exact (allThroughput 1 4 2000000000 10000000000) (1 * (4 - 1) * 2000000000)
      10000000000 := by
  refine ⟨rfl, ?_, ?_, ?_, ?_⟩
  · decide
  · unfold Exact
    decide
  · decide
  · unfold Exact
    decide

/-- With a million loops both are exact. -/
theorem throughput_exact_of_four_cpus :
    AlwaysExact (meshThroughput 2 1000000) (2 * 1000000) ∧
      AlwaysExact (allThroughput 1 4 1000000) (1 * (4 - 1) * 1000000) := by
  have hinit : initParams ⟨4, fun _ => 0⟩ (fun _ => 0) 1 (fourCpus 1000000) =
      some (0, fourCpus 1000000) := rfl
  have hexact := throughput_exact_iff hinit (by decide) (by decide) (by decide)
  exact ⟨(hexact.1 (by decide)).1.mpr (by decide),
    (hexact.2 (by decide) (by decide)).1.mpr (by decide)⟩

end KvmUtils.IpiBench
