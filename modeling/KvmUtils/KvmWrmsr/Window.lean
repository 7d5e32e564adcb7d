import Mathlib.Algebra.BigOperators.Group.Finset.Piecewise
import KvmUtils.KvmWrmsr.Handler
import KvmUtils.KvmWrmsr.OtherSlots

/-!
# The accounting of a window

A window is the list of hits since the last report.  Between two hits the
statics of `msr.h` are those of the writes of the window
(`RunInv.msrs_eq`), so every counter is a count over the window, the total is
its length, the table is what the `record_other_wrmsr` calls of the window have
made of an empty one, and a report starts an empty window.
-/

namespace KvmUtils.KvmWrmsr

/-- One hit of the probe: the clock reading and the MSR number. -/
structure Hit where
  now : Int
  msr : UInt32
  deriving DecidableEq, Repr

/-- What a run of hits leaves: the statics, the kernel log, and the MSR
numbers of the hits since the last report. -/
structure Run where
  statics : Statics
  log : List Line
  window : List UInt32

/-- The hit reports: the handler prints. -/
def Reports (s : Statics) (hit : Hit) : Prop := (kpVmxSetMsr s hit.now hit.msr).2 ≠ []

instance (s : Statics) (hit : Hit) : Decidable (Reports s hit) :=
  inferInstanceAs (Decidable (_ ≠ _))

def Run.hit (r : Run) (hit : Hit) : Run where
  statics := (kpVmxSetMsr r.statics hit.now hit.msr).1
  log := r.log ++ (kpVmxSetMsr r.statics hit.now hit.msr).2
  window := if Reports r.statics hit then [] else r.window ++ [hit.msr]

/-- The hits of a run, one after the other, from the statics `s`. -/
def runHits (s : Statics) (hits : List Hit) : Run :=
  hits.foldl Run.hit { statics := s, log := [], window := [] }

theorem runHits_concat (s : Statics) (hits : List Hit) (hit : Hit) :
    runHits s (hits ++ [hit]) = (runHits s hits).hit hit := by
  simp [runHits]

/-- What a line adds to the totals shown. -/
def Line.totalShown : Line → Int
  | .total value => value
  | .text _ | .wrmsr _ _ | .other _ _ => 0

/-- The sum of the totals that a log shows. -/
def printedTotal (log : List Line) : Int := (log.map Line.totalShown).sum

theorem printedTotal_append (log lines : List Line) :
    printedTotal (log ++ lines) = printedTotal log + printedTotal lines := by
  simp [printedTotal]

/-- Lines that are no totals add nothing to the totals shown. -/
theorem printedTotal_eq_zero {lines : List Line} (h : ∀ line ∈ lines, line.totalShown = 0) :
    printedTotal lines = 0 := by
  refine List.sum_eq_zero fun v hv => ?_
  obtain ⟨line, hline, rfl⟩ := List.mem_map.mp hv
  exact h line hline

theorem totalShown_itemLine (s : Msrs) (item : ShowItem) : (itemLine s item).totalShown = 0 := by
  cases item <;> rfl

theorem totalShown_showOthers {t : OtherMsrs} {line : Line} (h : line ∈ showOthers t) :
    line.totalShown = 0 := by
  unfold showOthers at h
  split at h
  · cases h
  · rcases List.mem_cons.mp h with rfl | hmem
    · rfl
    · obtain ⟨_, _, rfl⟩ := List.mem_map.mp hmem
      rfl

/-- `show_wrmsr` shows no total. -/
theorem printedTotal_showWrmsr (s : Msrs) : printedTotal (showWrmsr s) = 0 := by
  refine printedTotal_eq_zero fun line hline => ?_
  rcases List.mem_append.mp hline with hitem | hother
  · obtain ⟨item, -, rfl⟩ := List.mem_map.mp hitem
    exact totalShown_itemLine s item
  · exact totalShown_showOthers hother

/-! ## What one hit does -/

/-- A hit that reports prints the total, with the hit itself counted, and
clears the counters and the table. -/
theorem kpVmxSetMsr_of_reports {s : Statics} {hit : Hit} (h : Reports s hit) :
    kpVmxSetMsr s hit.now hit.msr =
      ({ ktime := hit.now, showingLock := false, totalWrmsr := 0, msrs := Msrs.load },
        .total (CFormat.ld (s.totalWrmsr + 1)) :: showWrmsr (recordWrmsr s.msrs hit.msr)) := by
  unfold Reports kpVmxSetMsr at h
  unfold kpVmxSetMsr
  simp only [resetWrmsr_eq_load] at h ⊢
  split_ifs at h ⊢ with hdue hlock
  · exact absurd rfl h
  · rfl
  · exact absurd rfl h

/-- A hit that does not report prints nothing and counts the write. -/
theorem kpVmxSetMsr_of_not_reports {s : Statics} {hit : Hit} (h : ¬ Reports s hit) :
    kpVmxSetMsr s hit.now hit.msr =
      ({ s with
        totalWrmsr := s.totalWrmsr + 1, msrs := recordWrmsr s.msrs hit.msr }, []) := by
  unfold Reports kpVmxSetMsr at h
  unfold kpVmxSetMsr
  simp only [not_not] at h ⊢
  split_ifs at h ⊢ <;> rfl

/-! ## The invariant of a run -/

/-- Between two hits the counters are those of the window, and every hit is
either in a printed total or in the window. -/
structure RunInv (n : Nat) (r : Run) : Prop where
  msrs_eq : r.statics.msrs = recordWrites r.window
  total_eq : r.statics.totalWrmsr.toNat = r.window.length
  length_le : r.window.length ≤ n
  printed_eq : printedTotal r.log + r.window.length = n

theorem RunInv.hit {n : Nat} {r : Run} (h : RunInv n r) (hn : n + 1 < 2 ^ 63) (hit : Hit) :
    RunInv (n + 1) (r.hit hit) := by
  have hle := h.length_le
  have hprinted := h.printed_eq
  have htotal : (r.statics.totalWrmsr + 1).toNat = r.window.length + 1 := by
    rw [UInt64.toNat_add, h.total_eq]
    exact Nat.mod_eq_of_lt (by simp; omega)
  by_cases hrep : Reports r.statics hit
  · have hshown : CFormat.ld (r.statics.totalWrmsr + 1) = (r.window.length + 1 : Nat) := by
      rw [CFormat.ld_eq_toNat (by omega), htotal]
    refine ⟨?_, ?_, ?_, ?_⟩ <;>
      simp only [Run.hit, kpVmxSetMsr_of_reports hrep, if_pos hrep]
    · rfl
    · rfl
    · exact Nat.zero_le _
    · have hlog : printedTotal (.total (CFormat.ld (r.statics.totalWrmsr + 1)) ::
          showWrmsr (recordWrmsr r.statics.msrs hit.msr)) = (r.window.length + 1 : Nat) := by
        rw [← List.singleton_append, printedTotal_append, printedTotal_showWrmsr, hshown]
        simp [printedTotal, Line.totalShown]
      rw [printedTotal_append, hlog]
      simp only [List.length_nil]
      omega
  · refine ⟨?_, ?_, ?_, ?_⟩ <;>
      simp only [Run.hit, kpVmxSetMsr_of_not_reports hrep, if_neg hrep]
    · rw [recordWrites_concat, h.msrs_eq]
    · rw [htotal]
      simp
    · simp
      omega
    · simp only [List.append_nil, List.length_append, List.length_singleton]
      omega

theorem runInv_runHits {s : Statics} (hmsrs : s.msrs = Msrs.load) (htotal : s.totalWrmsr = 0)
    {hits : List Hit} (hlen : hits.length < 2 ^ 63) : RunInv hits.length (runHits s hits) := by
  induction hits using List.reverseRecOn with
  | nil => exact ⟨hmsrs, by simp [runHits, htotal], by simp [runHits], by
      simp [runHits, printedTotal]⟩
  | append_singleton hits hit ih =>
    rw [List.length_append, List.length_singleton] at hlen ⊢
    rw [runHits_concat]
    exact (ih (by omega)).hit hlen hit

/-! ## The accounting -/

/-- Every write is counted in exactly one counter. -/
theorem sum_exits_recordWrites {ws : List UInt32} (hlen : ws.length < 2 ^ 63) :
    ∑ c, ((recordWrites ws).exits c).toNat = ws.length := by
  have hmod : ∀ c, ((recordWrites ws).exits c).toNat = ws.countP fun w => counterOf w = c := by
    intro c
    rw [toNat_exits_record, Nat.mod_eq_of_lt]
    exact lt_of_le_of_lt List.countP_le_length (by omega)
  simp only [hmod]
  clear hmod hlen
  induction ws with
  | nil => simp
  | cons w ws ih =>
    simp [List.countP_cons, Finset.sum_add_distrib, ih]

/-- The table is that of the calls of `record_other_wrmsr`: one for each write
of the default class, in their order. -/
theorem otherMsrs_recordWrites (ws : List UInt32) :
    (recordWrites ws).otherMsrs = recordOthers resetOtherWrmsr (otherWrites ws) := by
  induction ws using List.reverseRecOn with
  | nil => rfl
  | append_singleton ws w ih =>
    rw [recordWrites_concat, recordWrmsr_otherMsrs, ih, otherWrites, otherWrites,
      List.filter_append, List.filter_singleton]
    by_cases hw : counterOf w = .others
    · rw [if_pos hw, decide_eq_true hw, cond_true, recordOthers_concat]
    · rw [if_neg hw, decide_eq_false hw, cond_false, List.append_nil]

/-- The statics and the table are clear: the total, every counter and every
slot are zero. -/
structure Cleared (s : Statics) : Prop where
  total : s.totalWrmsr = 0
  exits : ∀ c, s.msrs.exits c = 0
  slots : ∀ slot ∈ s.msrs.otherMsrs.slots, slot = { index := 0, count := 0 }

theorem cleared_of_reports {s : Statics} {hit : Hit} (h : Reports s hit) :
    Cleared (kpVmxSetMsr s hit.now hit.msr).1 := by
  rw [kpVmxSetMsr_of_reports h]
  exact ⟨rfl, fun _ => rfl, fun slot hslot => List.eq_of_mem_replicate hslot⟩

/-- The accounting of a window.  In every state between two hits of a run
that starts after `probe_init` has returned `0`, the total is the sum of the
counters.  The table is what the calls of `record_other_wrmsr` since the last
report have made of an empty one, one call for each write of the default
class, and the counter of that class is the number of those calls.  The
printed totals and the current total add up to the number of hits, and a hit
that reports clears everything. -/
theorem window_accounting {ret start : Int} {s : Statics}
    (hinit : probeInit Statics.load ret start = some s) {hits : List Hit}
    (hlen : hits.length < 2 ^ 63) :
    (runHits s hits).statics.totalWrmsr.toNat =
        ∑ c, ((runHits s hits).statics.msrs.exits c).toNat ∧
      (runHits s hits).statics.msrs.otherMsrs =
        recordOthers resetOtherWrmsr (otherWrites (runHits s hits).window) ∧
      ((runHits s hits).statics.msrs.exits .others).toNat =
        (otherWrites (runHits s hits).window).length ∧
      (∀ hit, Reports (runHits s hits).statics hit →
        Cleared (runHits s (hits ++ [hit])).statics) ∧
      printedTotal (runHits s hits).log + (runHits s hits).statics.totalWrmsr.toNat =
        hits.length := by
  obtain ⟨hmsrs, htotal⟩ : s.msrs = Msrs.load ∧ s.totalWrmsr = 0 := by
    simp only [probeInit, Option.ite_none_left_eq_some, Option.some.injEq] at hinit
    obtain ⟨-, rfl⟩ := hinit
    exact ⟨rfl, rfl⟩
  have hinv := runInv_runHits hmsrs htotal hlen
  have hwindow := hinv.length_le
  refine ⟨?_, ?_, ?_, fun hit hrep => ?_, ?_⟩
  · rw [hinv.msrs_eq, hinv.total_eq, sum_exits_recordWrites (by omega)]
  · rw [hinv.msrs_eq, otherMsrs_recordWrites]
  · rw [hinv.msrs_eq, toNat_exits_record, otherWrites, List.countP_eq_length_filter]
    exact Nat.mod_eq_of_lt (lt_of_le_of_lt (List.length_filter_le _ _) (by omega))
  · rw [runHits_concat]
    exact cleared_of_reports hrep
  · rw [hinv.total_eq]
    exact hinv.printed_eq

/-- Of three hits the second reports, and after it everything is clear.  The
third goes to the table. -/
theorem window_accounting_of_three_hits :
    ∃ s, probeInit Statics.load 0 5 = some s ∧
      Reports (runHits s [⟨7, 0x1b⟩]).statics ⟨2000000000, 0x10⟩ ∧
      Cleared (runHits s [⟨7, 0x1b⟩, ⟨2000000000, 0x10⟩]).statics ∧
      (runHits s [⟨7, 0x1b⟩, ⟨2000000000, 0x10⟩,
        ⟨2000000001, 0x10⟩]).statics.msrs.otherMsrs = recordOthers resetOtherWrmsr [0x10] ∧
      printedTotal (runHits s [⟨7, 0x1b⟩, ⟨2000000000, 0x10⟩, ⟨2000000001, 0x10⟩]).log +
        (runHits s [⟨7, 0x1b⟩, ⟨2000000000, 0x10⟩,
          ⟨2000000001, 0x10⟩]).statics.totalWrmsr.toNat = 3 := by
  obtain ⟨s, hinit⟩ : ∃ s, probeInit Statics.load 0 5 = some s := ⟨_, rfl⟩
  have hreports : Reports (runHits s [⟨7, 0x1b⟩]).statics ⟨2000000000, 0x10⟩ := by
    cases hinit
    decide
  have hone := @window_accounting 0 5 s hinit [⟨7, 0x1b⟩] (by decide)
  have hall := @window_accounting 0 5 s hinit
    [⟨7, 0x1b⟩, ⟨2000000000, 0x10⟩, ⟨2000000001, 0x10⟩] (by decide)
  have hwindow : (runHits s [⟨7, 0x1b⟩, ⟨2000000000, 0x10⟩, ⟨2000000001, 0x10⟩]).window =
      [0x10] := by
    cases hinit
    decide
  have htable := hall.2.1
  rw [hwindow] at htable
  exact ⟨s, hinit, hreports, hone.2.2.2.1 _ hreports, htable, hall.2.2.2.2⟩

end KvmUtils.KvmWrmsr
