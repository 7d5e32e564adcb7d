import Mathlib.Algebra.Order.Ring.Int
import KvmUtils.Lib.CFormat
import KvmUtils.Lib.Machine

/-!
# A counter that is printed and later cleared

Some threads bump a word.  Now and then a reporter prints the word and, in a
later step, stores zero in it.  A bump that falls between the two steps is
counted in the word that is cleared and shows in no report.

`deficit` is what the reports and the word together fall short of the bumps.
It never falls (`deficit_le_of_step`), so a tally that starts even never
reports more than was counted.  It rises in exactly the steps that lose
something, and `Lossless` names the others.
-/

namespace PrintClear

open Machine

/-- `shown` lasts from the print of the word until it is cleared.  `counted`
and `printed` are the history: the number of bumps and the sum of the printed
values. -/
@[ext] structure Tally where
  word : UInt64
  shown : Bool
  counted : Nat
  printed : Int

inductive Event where
  | bump
  | print
  | clear
  deriving DecidableEq

def step (t : Tally) : Event → Option Tally
  | .bump => some { t with word := t.word + 1, counted := t.counted + 1 }
  | .print =>
    if t.shown then none
    else some { t with shown := true, printed := t.printed + CFormat.ld t.word }
  | .clear => if t.shown then some { t with word := 0, shown := false } else none

/-- What the word still owes to a later report. -/
def pending (t : Tally) : Nat := if t.shown then 0 else t.word.toNat

/-- The bumps that are neither printed nor pending. -/
def deficit (t : Tally) : Int := t.counted - t.printed - pending t

/-- The step loses no bump: a bump meets a word that is not already shown
and does not overflow, and a print shows the word as it is. -/
def Lossless (t : Tally) : Event → Prop
  | .bump => t.shown = false ∧ t.word.toNat + 1 < 2 ^ 64
  | .print => t.word.toNat < 2 ^ 63
  | .clear => True

theorem toNat_add_one_of_lt {w : UInt64} (h : w.toNat + 1 < 2 ^ 64) :
    (w + 1).toNat = w.toNat + 1 := by
  rw [UInt64.toNat_add]
  exact Nat.mod_eq_of_lt h

/-- The word overflows to zero. -/
theorem toNat_add_one_of_ge {w : UInt64} (h : ¬ w.toNat + 1 < 2 ^ 64) : (w + 1).toNat = 0 := by
  have hw := w.toNat_lt
  have hmax : w.toNat = 2 ^ 64 - 1 := by omega
  rw [UInt64.toNat_add, hmax]
  rfl

/-- One step: the deficit stays exactly when nothing is lost, and rises
otherwise. -/
theorem deficit_step {t t' : Tally} {e : Event} (h : step t e = some t') :
    deficit t ≤ deficit t' ∧ (deficit t' = deficit t ↔ Lossless t e) := by
  cases e with
  | bump =>
    obtain rfl := Option.some.inj h
    cases hshown : t.shown with
    | true => simp [deficit, pending, Lossless, hshown]
    | false =>
      by_cases hword : t.word.toNat + 1 < 2 ^ 64
      · simp [deficit, pending, Lossless, hshown, toNat_add_one_of_lt hword]
        omega
      · have hzero := toNat_add_one_of_ge hword
        simp [deficit, pending, Lossless, hshown, hzero]
        omega
  | print =>
    simp only [step, Option.ite_none_left_eq_some, Bool.not_eq_true, Option.some.injEq] at h
    obtain ⟨hshown, rfl⟩ := h
    have hle := CFormat.ld_le_toNat t.word
    have hiff := CFormat.ld_eq_toNat_iff (x := t.word)
    simp only [deficit, pending, Lossless, hshown, if_true, Bool.false_eq_true, if_false,
      ← hiff]
    omega
  | clear =>
    simp only [step, Option.ite_none_right_eq_some, Option.some.injEq] at h
    obtain ⟨hshown, rfl⟩ := h
    simp [deficit, pending, Lossless, hshown]

/-- A run keeps the deficit exactly when none of its steps loses a bump. -/
theorem deficit_exec_iff {t t' : Tally} {es : List Event} (h : exec step t es = some t') :
    deficit t' = deficit t ↔ AllSteps step Lossless t es :=
  measure_eq_iff (I := fun _ => True) deficit (fun _ _ _ _ _ => trivial)
    (fun _ _ _ _ hst => (deficit_step hst).1) (fun _ _ _ _ hst => (deficit_step hst).2)
    trivial h

/-- The deficit never falls. -/
theorem deficit_le_of_exec {t t' : Tally} {es : List Event} (h : exec step t es = some t') :
    deficit t ≤ deficit t' :=
  exec_mono (I := fun _ => True) (P := fun _ _ => True) deficit (fun _ _ _ _ _ _ => trivial)
    (fun _ _ _ _ _ hst => (deficit_step hst).1) trivial
    (allSteps_of_forall (fun _ _ => trivial) t es) h

end PrintClear
