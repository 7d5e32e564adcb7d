import Mathlib.Algebra.BigOperators.Group.Finset.Basic
import Mathlib.Algebra.Order.Ring.Int
import Mathlib.Data.BitVec
import Mathlib.Data.UInt

/-!
# Words under a signed conversion

`printf` reads its argument as the conversion says.  Under `%ld` and `%d` an
unsigned word is read as a signed one, so a word of at least half the range
is printed as a negative number.

A sum of words wraps around and so does its print.  `ld_sum_eq_iff` says when
the print of a sum is the sum of the prints.  A quotient of words that is
printed as the quotient of two numbers has a dividend that is close to that of
the numbers (`close_of_ld_div_eq`).
-/

namespace CFormat

/-- A 64-bit word under `%ld`. -/
def ld (x : UInt64) : Int := x.toBitVec.toInt

/-- A 32-bit word under `%d`. -/
def d (x : UInt32) : Int := x.toBitVec.toInt

theorem ld_eq_toNat {x : UInt64} (h : x.toNat < 2 ^ 63) : ld x = x.toNat := by
  unfold ld
  rw [BitVec.toInt_eq_toNat_cond, if_pos (by simpa using (by omega : 2 * x.toNat < 2 ^ 64))]
  rfl

/-- A word of at least half the range is printed `2 ^ 64` too low. -/
theorem ld_eq_toNat_sub {x : UInt64} (h : 2 ^ 63 ≤ x.toNat) : ld x = x.toNat - 2 ^ 64 := by
  unfold ld
  rw [BitVec.toInt_eq_toNat_cond, if_neg (by simpa using (by omega : 2 ^ 64 ≤ 2 * x.toNat))]
  rfl

/-- What is printed is never more than the word. -/
theorem ld_le_toNat (x : UInt64) : ld x ≤ x.toNat := by
  rcases Nat.lt_or_ge x.toNat (2 ^ 63) with h | h
  · exact le_of_eq (ld_eq_toNat h)
  · rw [ld_eq_toNat_sub h]
    omega

/-- The word is printed as it is exactly below half the range. -/
theorem ld_eq_toNat_iff {x : UInt64} : ld x = x.toNat ↔ x.toNat < 2 ^ 63 := by
  constructor
  · intro h
    by_contra hge
    rw [ld_eq_toNat_sub (Nat.le_of_not_lt hge)] at h
    omega
  · exact ld_eq_toNat

@[simp] theorem ld_zero : ld 0 = 0 := rfl

theorem ld_add (x y : UInt64) : ld (x + y) = (ld x + ld y).bmod (2 ^ 64) := by
  unfold ld
  rw [UInt64.toBitVec_add, BitVec.toInt_add]

section Sum

open Finset

variable {κ : Type*} [DecidableEq κ]

/-- A sum of words is printed as the sum of the prints, wrapped around. -/
theorem ld_sum (s : Finset κ) (f : κ → UInt64) :
    ld (∑ k ∈ s, f k) = (∑ k ∈ s, ld (f k)).bmod (2 ^ 64) := by
  induction s using Finset.induction_on with
  | empty => rfl
  | insert k s hk ih => rw [sum_insert hk, sum_insert hk, ld_add, ih, Int.add_bmod_bmod]

/-- A sum of words is printed as the sum of the prints exactly when that sum
is a signed word. -/
theorem ld_sum_eq_iff (s : Finset κ) (f : κ → UInt64) :
    ld (∑ k ∈ s, f k) = ∑ k ∈ s, ld (f k) ↔
      - 2 ^ 63 ≤ ∑ k ∈ s, ld (f k) ∧ ∑ k ∈ s, ld (f k) < 2 ^ 63 := by
  rw [ld_sum]
  constructor
  · intro h
    rw [← h]
    have hle := @Int.le_bmod (∑ k ∈ s, ld (f k)) (2 ^ 64) (by decide)
    have hlt := @Int.bmod_lt (∑ k ∈ s, ld (f k)) (2 ^ 64) (by decide)
    omega
  · intro ⟨hle, hlt⟩
    apply Int.bmod_eq_of_le
    · omega
    · omega

end Sum

theorem d_eq_toNat {x : UInt32} (h : x.toNat < 2 ^ 31) : d x = x.toNat := by
  unfold d
  rw [BitVec.toInt_eq_toNat_cond, if_pos (by simpa using (by omega : 2 * x.toNat < 2 ^ 32))]
  rfl

/-- A word of at least half the range is printed as a negative number. -/
theorem d_neg {x : UInt32} (h : 2 ^ 31 ≤ x.toNat) : d x < 0 := by
  have hlt : x.toNat < 2 ^ 32 := x.toNat_lt
  unfold d
  rw [BitVec.toInt_eq_toNat_cond, if_neg (by simpa using (by omega : 2 ^ 32 ≤ 2 * x.toNat))]
  show (x.toNat : Int) - 2 ^ 32 < 0
  omega

theorem d_neg_iff {x : UInt32} : d x < 0 ↔ 2 ^ 31 ≤ x.toNat := by
  refine ⟨fun h => ?_, d_neg⟩
  by_contra hlt
  rw [d_eq_toNat (Nat.lt_of_not_le hlt)] at h
  omega

/-! ## Quotients -/

/-- A division of words is close to the division of numbers that it prints. -/
theorem close_of_ld_div_eq {x e : UInt64} {n : Nat} (he : e ≠ 0)
    (h : ld (x / e) = (n / e.toNat : Nat)) :
    x.toNat < n + e.toNat ∧ n < x.toNat + e.toNat := by
  have hpos : 0 < e.toNat := Nat.pos_of_ne_zero fun hzero => he (UInt64.toNat_inj.mp hzero)
  have hquot : x.toNat / e.toNat = n / e.toNat := by
    have hle := ld_le_toNat (x / e)
    have hld : ld (x / e) = (x / e).toNat := by
      refine ld_eq_toNat_iff.mpr ?_
      by_contra hge
      have hlt := (x / e).toNat_lt
      have hnonneg : 0 ≤ ((n / e.toNat : Nat) : Int) := Int.natCast_nonneg _
      rw [ld_eq_toNat_sub (Nat.le_of_not_lt hge)] at h
      omega
    rw [hld, UInt64.toNat_div] at h
    exact Int.natCast_inj.mp h
  have hx := Nat.div_add_mod x.toNat e.toNat
  have hn := Nat.div_add_mod n e.toNat
  have hxlt := Nat.mod_lt x.toNat hpos
  have hnlt := Nat.mod_lt n hpos
  rw [hquot] at hx
  omega

/-- A quotient of a word below half the range is printed as it is. -/
theorem ld_div {x e : UInt64} (h : x.toNat < 2 ^ 63) :
    ld (x / e) = (x.toNat / e.toNat : Nat) := by
  rw [ld_eq_toNat, UInt64.toNat_div]
  rw [UInt64.toNat_div]
  exact lt_of_le_of_lt (Nat.div_le_self _ _) h

/-! ## Conversions -/

/-- A signed word that is widened. -/
theorem toNat_toUInt64 (x : Int32) : (x.toInt64.toUInt64.toNat : Int) = x.toInt % 2 ^ 64 := by
  have hmod : x.toInt = Int.bmod x.toInt64.toUInt64.toNat (2 ^ 64) := by
    rw [← Int32.toInt_toInt64]
    exact BitVec.toInt_eq_toNat_bmod _
  rw [hmod]
  have hlt := x.toInt64.toUInt64.toNat_lt
  have h : Int.bmod x.toInt64.toUInt64.toNat (2 ^ 64) % 2 ^ 64 =
      (x.toInt64.toUInt64.toNat : Int) % 2 ^ 64 := Int.bmod_emod
  omega

theorem toNat_toUInt32 (x : Int) : ((Int32.ofInt x).toUInt32.toNat : Int) = x % 2 ^ 32 := by
  have h : (Int32.ofInt x).toUInt32.toNat = (x % (2 ^ 32 : Nat)).toNat := BitVec.toNat_ofInt x
  rw [h, Int.toNat_of_nonneg (Int.emod_nonneg _ (by decide))]
  rfl

end CFormat
