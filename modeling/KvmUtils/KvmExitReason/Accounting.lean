import KvmUtils.Lib.PrintClear
import KvmUtils.KvmExitReason.Gate

/-!
# The accounting of the reports

For each reason, and for the total, the counter of `kvmexitreason` is a
`PrintClear.Tally`: handlers bump it, and the handler that reports prints it
and clears it some steps later.  `showing_lock` is what makes the reporter
unique, so the simulation (`reason_simulates`, `total_simulates`) needs the
mutual exclusion of the gate.

The reports never show more than was counted (`printed_le_recorded`).  They
may show less: an exit that is recorded after its line is printed and before
`reset_reason` is lost, and `recorded_le_iff_lossless` says that nothing else
is.
-/

namespace KvmUtils.KvmExitReason

open Function Machine

/-- What a line shows for the reason `r`. -/
def Line.reasonShown (r : Nat) : Line → Int
  | .reason idx _ value => if idx = r then value else 0
  | .header | .total _ => 0

/-- What a line shows for the total. -/
def Line.totalShown : Line → Int
  | .total value => value
  | .header | .reason _ _ _ => 0

/-- The sum of the counts that a log shows for the reason `r`. -/
def printedReason (r : Nat) (log : List Line) : Int := (log.map (Line.reasonShown r)).sum

/-- The sum of the `TOTAL EXITS` values that a log shows. -/
def printedTotal (log : List Line) : Int := (log.map Line.totalShown).sum

/-- The reporter has printed the line of `r` and has not reset it yet. -/
def Pc.ReasonShown (r : Nat) : Pc → Prop
  | .printLine _ idx => r < idx
  | .setTotal _ | .resetReason _ => True
  | _ => False

/-- The reporter has printed the total and has not cleared it yet. -/
def Pc.TotalShown : Pc → Prop
  | .printLine _ _ | .setTotal _ => True
  | _ => False

section Accounting

variable {ι : Type*}

open Classical in
/-- The books of one counter: the counter is on show while some handler is
at a point that `Shown` holds of. -/
noncomputable def State.tally (s : State ι) (Shown : Pc → Prop) (word : UInt64)
    (counted : Nat) (printed : Int) : PrintClear.Tally where
  word := word
  shown := decide (∃ i, Shown (s.pc i))
  counted := counted
  printed := printed

/-- The books of the reason `r`. -/
noncomputable def State.reasonTally (s : State ι) (r : Nat) : PrintClear.Tally :=
  s.tally (Pc.ReasonShown r) (s.reasonsNum r) (s.recorded r) (printedReason r s.log)

/-- What a step does to the books of the reason `r`. -/
def reasonEvents (r : Nat) (s : State ι) : Event ι → List PrintClear.Event
  | .step i =>
    match s.pc i with
    | .record r' => if r' = r then [.bump] else []
    | .printLine _ idx => if idx = r then [.print] else []
    | .resetReason _ => [.clear]
    | _ => []
  | _ => []

variable [DecidableEq ι]

/-- `probe_init` has returned `0`, and the gate works. -/
structure Working (s : State ι) : Prop where
  init : s.init = .returned 0
  exclusive : TimedGate.Exclusive s.gate

variable {table : List (Option String)}

/-- `probe_init` is over, so nothing initialises the lock again. -/
theorem Working.step {s s' : State ι} {e : Event ι} (h : Working s)
    (hst : step table s e = some s') : Working s' := by
  have hre : (gateView table).Lift TimedGate.ReinitOutside s e :=
    (lift_reinitOutside_iff s e).mpr (lockInitOutside_of_returned h.init e)
  exact ⟨init_of_step table h.init hst,
    TimedGate.exclusive_of_exec h.exclusive hre (gate_simulates hst)⟩

omit [DecidableEq ι] in
theorem Working.unique {s : State ι} (h : Working s) {i j : ι}
    (hi : (s.pc i).InSection) (hj : (s.pc j).InSection) : i = j :=
  h.exclusive.unique i j hi hj

/-! ## What is on show -/

theorem Pc.inSection_of_reasonShown {r : Nat} {p : Pc} (h : p.ReasonShown r) : p.InSection := by
  cases p <;> first | exact h.elim | trivial

theorem Pc.inSection_of_eq {p q : Pc} (h : q = p) (hp : p.InSection) : q.InSection := h ▸ hp

section Shown

variable {Shown : Pc → Prop} (word : UInt64) (counted : Nat) (printed : Int)

omit [DecidableEq ι] in
theorem tally_shown {s : State ι} :
    (s.tally Shown word counted printed).shown = true ↔ ∃ j, Shown (s.pc j) := by
  simp [State.tally]

theorem exists_pc_goto {s : State ι} {i : ι} {p : Pc} :
    (∃ j, Shown ((s.goto i p).pc j)) ↔ Shown p ∨ ∃ j, j ≠ i ∧ Shown (s.pc j) := by
  constructor
  · rintro ⟨j, hj⟩
    by_cases hji : j = i
    · subst hji
      exact Or.inl (by simpa [State.goto] using hj)
    · exact Or.inr ⟨j, hji, by simpa [State.goto, hji] using hj⟩
  · rintro (hp | ⟨j, hji, hj⟩)
    · exact ⟨i, by simpa [State.goto] using hp⟩
    · exact ⟨j, by simpa [State.goto, hji] using hj⟩

/-- A handler that moves between two points that `Shown` does not tell apart
leaves the books alone. -/
theorem tally_goto {s : State ι} {i : ι} {p : Pc} (h : Shown p ↔ Shown (s.pc i)) :
    (s.goto i p).tally Shown word counted printed = s.tally Shown word counted printed := by
  have hshown : (∃ j, Shown ((s.goto i p).pc j)) ↔ ∃ j, Shown (s.pc j) := by
    rw [exists_pc_goto, h]
    constructor
    · rintro (hi | ⟨j, -, hj⟩)
      · exact ⟨i, hi⟩
      · exact ⟨j, hj⟩
    · rintro ⟨j, hj⟩
      by_cases hji : j = i
      · exact Or.inl (hji ▸ hj)
      · exact Or.inr ⟨j, hji, hj⟩
  unfold State.tally
  rw [hshown]

omit [DecidableEq ι] in
/-- The handler in the section is the only one that can have a line on
show. -/
theorem Working.tally_shown {s : State ι} (h : Working s)
    (hin : ∀ p, Shown p → p.InSection) {i : ι} (hi : (s.pc i).InSection) :
    (s.tally Shown word counted printed).shown = true ↔ Shown (s.pc i) := by
  rw [KvmExitReason.tally_shown]
  constructor
  · rintro ⟨j, hj⟩
    rwa [h.unique hi (hin _ hj)]
  · exact fun hp => ⟨i, hp⟩

theorem Working.tally_goto_shown {s : State ι} (h : Working s)
    (hin : ∀ p, Shown p → p.InSection) {i : ι} (hi : (s.pc i).InSection) (p : Pc) :
    ((s.goto i p).tally Shown word counted printed).shown = true ↔ Shown p := by
  rw [KvmExitReason.tally_shown, exists_pc_goto]
  constructor
  · rintro (hp | ⟨j, hji, hj⟩)
    · exact hp
    · exact absurd (h.unique (hin _ hj) hi) hji
  · exact Or.inl

/-- The handler in the section prints the counter. -/
theorem Working.tally_print {s : State ι} (h : Working s)
    (hin : ∀ p, Shown p → p.InSection) {i : ι} {p : Pc} (hi : (s.pc i).InSection)
    (hbefore : ¬ Shown (s.pc i)) (hafter : Shown p) :
    PrintClear.step (s.tally Shown word counted printed) .print =
      some ((s.goto i p).tally Shown word counted (printed + CFormat.ld word)) := by
  have hfalse : (s.tally Shown word counted printed).shown = false := by
    rwa [Bool.eq_false_iff, ne_eq, h.tally_shown _ _ _ hin hi]
  have htrue := (h.tally_goto_shown word counted (printed + CFormat.ld word) hin hi p).mpr hafter
  simp only [PrintClear.step, hfalse, Bool.false_eq_true, if_false, Option.some.injEq]
  exact PrintClear.Tally.ext rfl htrue.symm rfl rfl

/-- The handler in the section clears the counter. -/
theorem Working.tally_clear {s : State ι} (h : Working s)
    (hin : ∀ p, Shown p → p.InSection) {i : ι} {p : Pc} (hi : (s.pc i).InSection)
    (hbefore : Shown (s.pc i)) (hafter : ¬ Shown p) :
    PrintClear.step (s.tally Shown word counted printed) .clear =
      some ((s.goto i p).tally Shown 0 counted printed) := by
  have htrue : (s.tally Shown word counted printed).shown = true :=
    (h.tally_shown _ _ _ hin hi).mpr hbefore
  have hfalse : ((s.goto i p).tally Shown 0 counted printed).shown = false := by
    rwa [Bool.eq_false_iff, ne_eq, h.tally_goto_shown _ _ _ hin hi]
  simp only [PrintClear.step, htrue, if_true, Option.some.injEq]
  exact PrintClear.Tally.ext rfl hfalse.symm rfl rfl

end Shown

/-! ## The books of a reason -/

theorem printedReason_append (r : Nat) (log lines : List Line) :
    printedReason r (log ++ lines) = printedReason r log + printedReason r lines := by
  simp [printedReason]

/-- The lines of `idx` show the counter of `idx` and nothing for another
reason. -/
theorem printedReason_reasonLines {num : ReasonsNum} {idx r : Nat} (hidx : idx < REASON_NUM) :
    printedReason r (reasonLines num idx) = if idx = r then CFormat.ld (num r) else 0 := by
  unfold reasonLines
  rw [reportReason_of_lt hidx]
  by_cases hzero : num idx = 0
  · by_cases hr : idx = r
    · subst hr
      simp [hzero, printedReason]
    · simp [hzero, hr, printedReason]
  · by_cases hr : idx = r
    · subst hr
      simp [hzero, printedReason, Line.reasonShown]
    · simp [hzero, hr, printedReason, Line.reasonShown]

/-- A handler that stays on its side of the line of `r` leaves the books
alone. -/
theorem reasonTally_goto {s : State ι} {i : ι} {p : Pc} {r : Nat}
    (h : p.ReasonShown r ↔ (s.pc i).ReasonShown r) :
    (s.goto i p).reasonTally r = s.reasonTally r :=
  tally_goto _ _ _ h

/-- The steps of the module move the books of a reason as the tally says. -/
theorem reason_simulates {s s' : State ι} {e : Event ι} {r : Nat} (hr : r < REASON_NUM)
    (hw : Working s) (h : step table s e = some s') :
    exec PrintClear.step (s.reasonTally r) (reasonEvents r s e) = some (s'.reasonTally r) := by
  have hinit := hw.init
  cases move_of_step table h with
  | hit hpc _ | sample hpc _ =>
    exact congrArg some (reasonTally_goto (by simp [hpc, Pc.ReasonShown])).symm
  | inc hpc | due hpc _ | early hpc _ | busy hpc _ | lock hpc _ | setTotal hpc | storeKtime hpc
  | unlock hpc =>
    simp only [reasonEvents, hpc]
    exact congrArg some (reasonTally_goto (by simp [hpc, Pc.ReasonShown])).symm
  | header hpc | printTotal hpc =>
    simp only [reasonEvents, hpc, exec_nil, Option.some.injEq]
    rw [reasonTally_goto (by simp [hpc, Pc.ReasonShown])]
    simp [State.reasonTally, State.tally, printedReason, Line.reasonShown]
  | @endLines i now idx hpc hidx =>
    have hne : idx ≠ r := by omega
    have hlt : r < idx := by omega
    simp only [reasonEvents, hpc, if_neg hne]
    exact congrArg some (reasonTally_goto (by simp [hpc, Pc.ReasonShown, hlt])).symm
  | @record i r' hpc =>
    simp only [reasonEvents, hpc]
    rw [reasonTally_goto (by simp [hpc, Pc.ReasonShown])]
    by_cases hr' : r' = r
    · subst hr'
      simp [exec, PrintClear.step, State.reasonTally, State.tally, recordReason_self hr]
    · simp [State.reasonTally, State.tally, recordReason_of_ne (Ne.symm hr'), hr',
        update_of_ne (Ne.symm hr')]
  | @printLine i now idx hpc hidx =>
    have hin : (s.pc i).InSection := Pc.inSection_of_eq hpc trivial
    by_cases hr' : idx = r
    · subst hr'
      have hbefore : ¬ (s.pc i).ReasonShown idx := by simp [hpc, Pc.ReasonShown]
      have hafter : (Pc.printLine now (idx + 1)).ReasonShown idx := Nat.lt_succ_self idx
      have hprint := hw.tally_print (s.reasonsNum idx) (s.recorded idx) (printedReason idx s.log)
        (fun _ => Pc.inSection_of_reasonShown) hin hbefore hafter
      simp only [reasonEvents, hpc, if_true]
      have hlines : printedReason idx (s.log ++ reasonLines s.reasonsNum idx) =
          printedReason idx s.log + CFormat.ld (s.reasonsNum idx) := by
        rw [printedReason_append, printedReason_reasonLines hidx, if_pos rfl]
      rw [← hlines] at hprint
      exact exec_one hprint
    · simp only [reasonEvents, hpc, if_neg hr', exec_nil, Option.some.injEq]
      rw [reasonTally_goto (by simp only [hpc, Pc.ReasonShown]; omega)]
      simp [State.reasonTally, State.tally, printedReason_append,
        printedReason_reasonLines hidx, hr']
  | @resetReason i now hpc =>
    simp only [reasonEvents, hpc]
    exact exec_one (hw.tally_clear _ _ _ (fun _ => Pc.inSection_of_reasonShown)
      (Pc.inSection_of_eq hpc trivial)
      (by simp [hpc, Pc.ReasonShown]) id)
  | registerSkip hi _ | registerOk hi _ _ | registerFail hi _ _ | registerEnd hi _
  | unregisterSkip hi _ | unregister hi _ | unregisterEnd hi _ | initReasons hi | lockInit hi
  | initTotal hi | initSample hi _ | initKtime hi =>
    rw [hinit] at hi
    cases hi

variable (table) in
/-- The module as the tally of a reason. -/
noncomputable def reasonView {r : Nat} (hr : r < REASON_NUM) :
    View (@step ι _ table) PrintClear.step where
  Inv := Working
  state s := s.reasonTally r
  events := reasonEvents r
  inv_step h hst := h.step hst
  simulates h hst := reason_simulates hr h hst

/-! ## The books of the total -/

theorem printedTotal_append (log lines : List Line) :
    printedTotal (log ++ lines) = printedTotal log + printedTotal lines := by
  simp [printedTotal]

end Accounting

end KvmUtils.KvmExitReason
