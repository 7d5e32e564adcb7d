import Mathlib.Data.List.Count
import Mathlib.Data.Nat.ModEq
import Mathlib.Data.UInt
import KvmUtils.KvmWrmsr.Msr

/-!
# What the counters count

A history is a list of calls of `record_wrmsr` and `reset_wrmsr`, made from
the loaded statics.  Only the writes since the last reset matter
(`runCalls_eq_record`), and after them each counter holds, modulo `2 ^ 64`,
the number of the writes of its class (`toNat_exits_record`).

`reportWrmsr_counts_iff` compares this with what `report_wrmsr` returns.
The report of a number counts the writes with its label, except that
`MSR_MISC_FEATURES_ENABLES` reports the writes of `MSR_IA32_MISC_ENABLE`.
-/

namespace KvmUtils.KvmWrmsr

open Function

/-! ## Histories -/

inductive Call where
  | record (msr : UInt32)
  | reset
  deriving DecidableEq, Repr

def Call.run (s : Msrs) : Call → Msrs
  | .record msr => recordWrmsr s msr
  | .reset => resetWrmsr s

/-- The statics after a history that starts at load time. -/
def runCalls (calls : List Call) : Msrs :=
  calls.foldl Call.run Msrs.load

/-- The MSR numbers recorded since the last reset, or since load. -/
def writesSinceReset (calls : List Call) : List UInt32 :=
  calls.foldl (fun ws call => match call with
    | .record msr => ws ++ [msr]
    | .reset => []) []

/-- The statics after the writes `ws`, from the loaded ones. -/
def recordWrites (ws : List UInt32) : Msrs :=
  ws.foldl recordWrmsr Msrs.load

@[simp] theorem recordWrites_concat (ws : List UInt32) (msr : UInt32) :
    recordWrites (ws ++ [msr]) = recordWrmsr (recordWrites ws) msr := by
  simp [recordWrites]

theorem runCalls_concat (calls : List Call) (call : Call) :
    runCalls (calls ++ [call]) = call.run (runCalls calls) := by
  simp [runCalls]

theorem writesSinceReset_record (calls : List Call) (msr : UInt32) :
    writesSinceReset (calls ++ [.record msr]) = writesSinceReset calls ++ [msr] := by
  simp [writesSinceReset]

theorem writesSinceReset_reset (calls : List Call) :
    writesSinceReset (calls ++ [.reset]) = [] := by
  simp [writesSinceReset]

/-- Only the writes since the last reset matter. -/
theorem runCalls_eq_record (calls : List Call) :
    runCalls calls = recordWrites (writesSinceReset calls) := by
  induction calls using List.reverseRecOn with
  | nil => rfl
  | append_singleton calls call ih =>
    rw [runCalls_concat, ih]
    cases call with
    | record msr => rw [writesSinceReset_record, recordWrites_concat, Call.run]
    | reset =>
      rw [writesSinceReset_reset, Call.run, resetWrmsr_eq_load]
      rfl

/-! ## The counters -/

/-- Each counter holds the number of writes of its class. -/
theorem toNat_exits_record (ws : List UInt32) (c : Counter) :
    ((recordWrites ws).exits c).toNat = (ws.countP fun w => counterOf w = c) % 2 ^ 64 := by
  induction ws using List.reverseRecOn with
  | nil => rfl
  | append_singleton ws w ih =>
    rw [recordWrites_concat, recordWrmsr_exits, List.countP_append, List.countP_singleton]
    by_cases hc : counterOf w = c
    · subst hc
      rw [update_self, UInt64.toNat_add, ih]
      simp [Nat.add_mod]
    · rw [update_of_ne (Ne.symm hc), ih]
      simp [hc]

/-- `MSR_IA32_MISC_ENABLE` is alone in its class. -/
theorem counterOf_eq_setMiscEnable {msr : UInt32} :
    counterOf msr = .setMiscEnable ↔ msr = MSR_IA32_MISC_ENABLE := by
  constructor
  · intro h
    by_contra hne
    simp only [counterOf, apply_ite (· = Counter.setMiscEnable), if_neg hne, reduceCtorEq,
      ite_self] at h
  · rintro rfl
    decide

/-- `MSR_MISC_FEATURES_ENABLES` is alone in its class. -/
theorem counterOf_eq_setMiscFeaturesEnables {msr : UInt32} :
    counterOf msr = .setMiscFeaturesEnables ↔ msr = MSR_MISC_FEATURES_ENABLES := by
  constructor
  · intro h
    by_contra hne
    simp only [counterOf, apply_ite (· = Counter.setMiscFeaturesEnables), if_neg hne,
      reduceCtorEq, ite_self] at h
  · rintro rfl
    decide

/-- The writes with the label of `m` are the writes of its class. -/
theorem countP_msr2str (ws : List UInt32) (m : UInt32) :
    (ws.countP fun w => msr2str w = msr2str m) =
      ws.countP fun w => counterOf w = counterOf m := by
  simp only [msr2str_eq_iff]

/-! ## The report -/

/-- What a report counts.  After any history, the report of `m` is the
number of writes since the last reset with the label of `m`, modulo `2 ^ 64`,
unless `m` is `MSR_MISC_FEATURES_ENABLES`.  That report is right only when
`MSR_IA32_MISC_ENABLE` happens to have been written as often. -/
theorem reportWrmsr_counts_iff (calls : List Call) (m : UInt32) :
    (reportWrmsr (runCalls calls) m).toNat =
        ((writesSinceReset calls).countP fun w => msr2str w = msr2str m) % 2 ^ 64 ↔
      m ≠ MSR_MISC_FEATURES_ENABLES ∨
        (writesSinceReset calls).count MSR_MISC_FEATURES_ENABLES ≡
          (writesSinceReset calls).count MSR_IA32_MISC_ENABLE [MOD 2 ^ 64] := by
  rw [runCalls_eq_record, countP_msr2str, reportWrmsr_eq, toNat_exits_record]
  by_cases hm : m = MSR_MISC_FEATURES_ENABLES
  · subst hm
    have hclass : counterOf MSR_MISC_FEATURES_ENABLES = .setMiscFeaturesEnables := rfl
    simp only [if_pos, hclass, counterOf_eq_setMiscEnable, counterOf_eq_setMiscFeaturesEnables,
      ne_eq, not_true_eq_false, false_or]
    exact eq_comm
  · simp [hm]

/-- One write of `MSR_MISC_FEATURES_ENABLES` is not reported. -/
theorem reportWrmsr_misc_features_lost :
    ¬ ∀ (calls : List Call) (m : UInt32),
      (reportWrmsr (runCalls calls) m).toNat =
        ((writesSinceReset calls).countP fun w => msr2str w = msr2str m) % 2 ^ 64 := by
  intro h
  have hlost := h [.record MSR_MISC_FEATURES_ENABLES] MSR_MISC_FEATURES_ENABLES
  revert hlost
  decide

end KvmUtils.KvmWrmsr
