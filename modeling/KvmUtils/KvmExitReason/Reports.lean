import KvmUtils.KvmExitReason.Accounting

/-!
# What the reports show

The two results are about every run after `probe_init` has returned `0`.
The reports never show more exits than were recorded
(`printed_le_recorded`), and `recorded_le_iff_lossless` names the steps at
which they come to show fewer.
-/

namespace KvmUtils.KvmExitReason

open Function Machine

section Reports

variable {ι : Type*}

/-- `probe_init` has returned `0`, the lock is free and nothing has been
reported.  Handlers may already be on their way to the lock. -/
structure Started (s : State ι) : Prop where
  init : s.init = .returned 0
  lock : s.showingLock = false
  outside : ∀ i, ¬ (s.pc i).InSection
  log : s.log = []
  recorded : ∀ r, s.recorded r = 0
  incs : s.incs = 0
  reports : s.reports = []

theorem started_started (table : List (Option String)) (t : Int) :
    Started (State.started table t : State ι) :=
  ⟨rfl, rfl, started_outside, rfl, fun _ => rfl, rfl, rfl⟩

theorem Started.working {s : State ι} (h : Started s) : Working s :=
  ⟨h.init, TimedGate.exclusive_of_forall_not_inSection h.outside⟩

/-- With the lock free nothing is on show. -/
theorem Working.shown_of_free {s : State ι} (h : Working s) (hlock : s.showingLock = false)
    {Shown : Pc → Prop} (hin : ∀ p, Shown p → p.InSection) (i : ι) : ¬ Shown (s.pc i) := by
  intro hi
  have hheld : s.showingLock = true := h.exclusive.held_of_in i (hin _ hi)
  rw [hlock] at hheld
  cases hheld

theorem pending_reasonTally {s : State ι} {r : Nat} (h : Working s)
    (hlock : s.showingLock = false) :
    PrintClear.pending (s.reasonTally r) = (s.reasonsNum r).toNat := by
  have hshown : (s.reasonTally r).shown = false := by
    rw [Bool.eq_false_iff, ne_eq, State.reasonTally, tally_shown]
    rintro ⟨i, hi⟩
    exact h.shown_of_free hlock (fun _ => Pc.inSection_of_reasonShown) i hi
  rw [PrintClear.pending, hshown]
  rfl

/-- The deficit of a reason while the lock is free. -/
theorem deficit_reasonTally {s : State ι} {r : Nat} (h : Working s)
    (hlock : s.showingLock = false) :
    PrintClear.deficit (s.reasonTally r) =
      s.recorded r - printedReason r s.log - (s.reasonsNum r).toNat := by
  rw [PrintClear.deficit, pending_reasonTally h hlock]
  rfl

theorem Started.deficit_reasonTally {s : State ι} (h : Started s) (r : Nat) :
    PrintClear.deficit (s.reasonTally r) = - ((s.reasonsNum r).toNat : Int) := by
  rw [KvmExitReason.deficit_reasonTally h.working h.lock, h.recorded, h.log]
  simp [printedReason]

variable [DecidableEq ι] {table : List (Option String)}

/-! ## Nothing is shown twice -/

/-- The step loses no exit of reason `r`: an exit is recorded only while no
handler is between the line of `r` and `reset_reason`, and neither the
counter nor its line overflows. -/
def Lossless (r : Nat) (s : State ι) : Event ι → Prop
  | .step i =>
    match s.pc i with
    | .record r' =>
      r' = r → (∀ j, ¬ (s.pc j).ReasonShown r) ∧ (s.reasonsNum r).toNat + 1 < 2 ^ 64
    | .printLine _ idx => idx = r → (s.reasonsNum r).toNat < 2 ^ 63
    | _ => True
  | _ => True

theorem lift_lossless_iff {r : Nat} (hr : r < REASON_NUM) (s : State ι) (e : Event ι) :
    (reasonView table hr).Lift PrintClear.Lossless s e ↔ Lossless r s e := by
  unfold View.Lift reasonView
  cases e with
  | step i =>
    cases hpc : s.pc i with
    | record r' =>
      by_cases hr' : r' = r
      · simp only [reasonEvents, Lossless, hpc, hr', if_true, allSteps_one, PrintClear.Lossless,
          State.reasonTally, Bool.eq_false_iff, ne_eq, tally_shown, not_exists, true_imp_iff]
        rfl
      · simp [reasonEvents, Lossless, hpc, hr']
    | printLine now idx =>
      by_cases hr' : idx = r <;>
        simp [reasonEvents, Lossless, hpc, hr', PrintClear.Lossless, State.reasonTally,
          State.tally]
    | resetReason now => simp [reasonEvents, Lossless, hpc, PrintClear.Lossless]
    | _ => simp [reasonEvents, Lossless, hpc]
  | _ => simp [reasonEvents, Lossless]

/-- The deficit of a reason stays over a run exactly when no step loses an
exit. -/
theorem deficit_eq_iff_lossless {s s' : State ι} {es : List (Event ι)} {r : Nat}
    (hr : r < REASON_NUM) (hw : Working s) (hrun : exec (step table) s es = some s') :
    PrintClear.deficit (s'.reasonTally r) = PrintClear.deficit (s.reasonTally r) ↔
      AllSteps (step table) (Lossless r) s es := by
  have hiff := PrintClear.deficit_exec_iff ((reasonView table hr).exec_trace hw hrun)
  rw [(reasonView table hr).allSteps_trace hw hrun] at hiff
  exact hiff.trans (allSteps_congr (lift_lossless_iff hr) s es)

/-- What the reports lose.  In a state that the module reaches after
`probe_init` has returned `0`, and in which the lock is free, the printed
counts and the counter of a reason together account for every recorded exit
if no step of the run loses one.  When the counter starts at zero, this is
also the only way. -/
theorem recorded_le_iff_lossless {s s' : State ι} {es : List (Event ι)} {r : Nat}
    (hs : Started s) (hr : r < REASON_NUM) (hrun : exec (step table) s es = some s')
    (hlock : s'.showingLock = false) :
    (AllSteps (step table) (Lossless r) s es →
        (s'.recorded r : Int) ≤ printedReason r s'.log + (s'.reasonsNum r).toNat) ∧
      (s.reasonsNum r = 0 →
        (s'.recorded r : Int) ≤ printedReason r s'.log + (s'.reasonsNum r).toNat →
        AllSteps (step table) (Lossless r) s es) := by
  have hw' : Working s' := (reasonView table hr).inv_exec hs.working hrun
  have hiff := deficit_eq_iff_lossless hr hs.working hrun
  rw [deficit_reasonTally hw' hlock, hs.deficit_reasonTally] at hiff
  constructor
  · intro hall
    have hdeficit := hiff.mpr hall
    omega
  · intro hzero hle
    have hge : PrintClear.deficit (s.reasonTally r) ≤ PrintClear.deficit (s'.reasonTally r) :=
      PrintClear.deficit_le_of_exec ((reasonView table hr).exec_trace hs.working hrun)
    rw [hs.deficit_reasonTally, deficit_reasonTally hw' hlock] at hge
    rw [hzero] at hge hiff
    refine hiff.mp (le_antisymm ?_ hge)
    simp only [UInt64.toNat_zero, Nat.cast_zero, neg_zero]
    omega

end Reports

/-! ## Two runs -/

/-- CPU `0` counts an exit of reason `0`, reports it and leaves. -/
def reportRun : List (Event (Fin 2)) :=
  [.hit 0 0, .step 0, .step 0, .sample 0 1000000000] ++ List.replicate 75 (.step 0)

/-- The same, with an exit of reason `0` that CPU `1` records right after its
line is printed. -/
def lostRun : List (Event (Fin 2)) :=
  [.hit 0 0, .step 0, .step 0, .sample 0 1000000000] ++ List.replicate 5 (.step 0) ++
    [.hit 1 0, .step 1] ++ List.replicate 70 (.step 0)


/-- The run of one report ends with the exit on record and in print. -/
theorem exec_reportRun : ∃ s' : State (Fin 2),
    exec (step vmxHandleExitProbe) (State.started vmxHandleExitProbe 0) reportRun = some s' ∧
      s'.showingLock = false ∧ s'.recorded 0 = 1 ∧ printedReason 0 s'.log = 1 := by
  have h : (exec (step vmxHandleExitProbe) (State.started vmxHandleExitProbe 0 : State (Fin 2))
      reportRun).map (fun s' => decide (s'.showingLock = false ∧ s'.recorded 0 = 1 ∧
        printedReason 0 s'.log = 1)) = some true := by
    decide
  simpa using exists_exec_of_map h

/-- No step of that run loses an exit. -/
theorem lossless_reportRun : AllSteps (step vmxHandleExitProbe) (Lossless 0)
    (State.started vmxHandleExitProbe 0 : State (Fin 2)) reportRun := by
  obtain ⟨s', hrun, hlock, hrecorded, hprinted⟩ := exec_reportRun
  refine (recorded_le_iff_lossless (started_started _ _) (by decide) hrun hlock).2 rfl ?_
  rw [hrecorded, hprinted]
  omega

/-- The second exit is neither printed nor left in the counter. -/
theorem exit_lost : ∃ s' : State (Fin 2),
    exec (step vmxHandleExitProbe) State.load (initEvents vmxHandleExitProbe 0 ++ lostRun) =
        some s' ∧
      s'.init = .returned 0 ∧ s'.showingLock = false ∧
      ¬ (s'.recorded 0 : Int) ≤ printedReason 0 s'.log + (s'.reasonsNum 0).toNat := by
  have h : (exec (step vmxHandleExitProbe) (State.started vmxHandleExitProbe 0 : State (Fin 2))
      lostRun).map (fun s' => decide (s'.init = .returned 0 ∧ s'.showingLock = false ∧
        s'.recorded 0 = 2 ∧ printedReason 0 s'.log = 1 ∧ s'.reasonsNum 0 = 0)) = some true := by
    decide
  obtain ⟨s', hrun, hs'⟩ := exists_exec_of_map h
  obtain ⟨hinit, hlock, hrecorded, hprinted, hnum⟩ := of_decide_eq_true hs'
  refine ⟨s', exec_trans (exec_initEvents _ (le_refl 0)) hrun, hinit, hlock, ?_⟩
  rw [hrecorded, hprinted, hnum]
  decide

end KvmUtils.KvmExitReason
