import Mathlib.Algebra.BigOperators.Intervals
import KvmUtils.KvmExitReason.Init
import KvmUtils.KvmExitReason.Accounting

/-!
# The total and the lines of a report

`total_exit` and `reasons_num` are kept apart: a hit adds to both, a report
prints and clears both, and `probe_init` stores zero in the first one only.
This module is about the runs in which handlers never overlap each other.
They may still run between any two steps of `probe_init`.

`Ledger` says how the two stand to each other at each point of a handler, and
`Books.step` keeps it.  The one step of `probe_init` that can break it is its
store to `total_exit`, and `Kept` is the condition under which it does not.
-/

namespace KvmUtils.KvmExitReason

open Function Finset Machine

/-! ## Reading the log -/

/-- A report as the log shows it: the `TOTAL EXITS` value and the counts on
the lines below it. -/
structure Report where
  total : Int
  counts : List Int
  deriving DecidableEq, Repr

/-- The counts add up to the total. -/
def Report.AddsUp (r : Report) : Prop := r.counts.sum = r.total

/-- One more line: a total opens a report, and a reason is on the report that
was opened last. -/
def readLine : List Report → Line → List Report
  | rs, .header => rs
  | rs, .total value => ⟨value, []⟩ :: rs
  | [], .reason _ _ _ => []
  | r :: rs, .reason _ _ value => { r with counts := r.counts ++ [value] } :: rs

/-- The reports of a log, the last one first. -/
def reportsOf (log : List Line) : List Report := log.foldl readLine []

section Totals

variable {ι : Type*}

/-- Every report in the log adds up, except that the last one need not while
its lines are being printed. -/
structure State.AddsUp (s : State ι) : Prop where
  earlier : ∀ r ∈ (reportsOf s.log).tail, r.AddsUp
  last : (∀ i now idx, s.pc i ≠ .printLine now idx) → ∀ r ∈ reportsOf s.log, r.AddsUp

theorem reportsOf_append (log lines : List Line) :
    reportsOf (log ++ lines) = lines.foldl readLine (reportsOf log) :=
  List.foldl_append

/-- The lines of one reason add its count, as printed, to the last report. -/
theorem foldl_reasonLines (num : ReasonsNum) {idx : Nat} (hidx : idx < REASON_NUM)
    (r : Report) (rs : List Report) :
    ∃ r', (reasonLines num idx).foldl readLine (r :: rs) = r' :: rs ∧ r'.total = r.total ∧
      r'.counts.sum = r.counts.sum + CFormat.ld (num idx) := by
  unfold reasonLines
  rw [reportReason_of_lt hidx]
  split
  · exact ⟨_, rfl, rfl, by simp⟩
  · rename_i hzero
    rw [not_not] at hzero
    exact ⟨r, rfl, rfl, by simp [hzero]⟩

/-! ## The ledger -/

/-- The sum of the first `n` counters. -/
def countSum (num : ReasonsNum) (n : Nat) : UInt64 := ∑ k ∈ range n, num k

/-- The sum of the first `n` counts as they are printed. -/
def printedSum (num : ReasonsNum) (n : Nat) : Int := ∑ k ∈ range n, CFormat.ld (num k)

/-- A recorded exit counts once in the sum. -/
theorem countSum_recordReason {num : ReasonsNum} {r : Nat} (hr : r < REASON_NUM) :
    countSum (recordReason num r) REASON_NUM = countSum num REASON_NUM + 1 := by
  have hmem : r ∈ range REASON_NUM := mem_range.mpr hr
  have hrest : ∑ k ∈ (range REASON_NUM).erase r, recordReason num r k =
      ∑ k ∈ (range REASON_NUM).erase r, num k :=
    sum_congr rfl fun k hk => recordReason_of_ne (ne_of_mem_erase hk)
  unfold countSum
  rw [← sum_erase_add _ _ hmem, ← sum_erase_add (range REASON_NUM) num hmem, hrest,
    recordReason_self hr, add_assoc]

theorem countSum_resetReason : countSum resetReason REASON_NUM = 0 := sum_const_zero

/-- What the counters and the reports are when the only handler under way is
at the given point.  With `idle` no handler is under way. -/
def Ledger (total : UInt64) (num : ReasonsNum) (rs : List Report) : Pc → Prop
  | .record r => r < REASON_NUM ∧ total = countSum num REASON_NUM ∧ ∀ r ∈ rs, r.AddsUp
  | .inc => total + 1 = countSum num REASON_NUM ∧ ∀ r ∈ rs, r.AddsUp
  | .printLine _ idx => idx ≤ REASON_NUM ∧ ∃ r rs', rs = r :: rs' ∧
      r.total = printedSum num REASON_NUM ∧ r.counts.sum = printedSum num idx ∧
      ∀ r ∈ rs', r.AddsUp
  | .setTotal _ => ∀ r ∈ rs, r.AddsUp
  | .resetReason _ => total = 0 ∧ ∀ r ∈ rs, r.AddsUp
  | .idle | .sample | .check _ | .trylock _ | .header _ | .printTotal _ | .storeKtime _
  | .unlock => total = countSum num REASON_NUM ∧ ∀ r ∈ rs, r.AddsUp

/-- The ledger of a state. -/
abbrev State.Ledger (s : State ι) : Pc → Prop :=
  KvmExitReason.Ledger s.totalExit s.reasonsNum (reportsOf s.log)

/-- At most one handler is under way, and the ledger is right at its point. -/
structure Books (s : State ι) : Prop where
  alone : ∀ i j, s.pc i ≠ .idle → s.pc j ≠ .idle → i = j
  slots : ∀ r, s.registered r = true → r < REASON_NUM
  busy : ∀ i, s.pc i ≠ .idle → s.Ledger (s.pc i)
  idle : (∀ i, s.pc i = .idle) → s.Ledger .idle

theorem books_load : Books (State.load : State ι) where
  alone _ _ h _ := absurd rfl h
  slots _ h := by cases h
  busy _ h := absurd rfl h
  idle _ := ⟨countSum_resetReason.symm, by simp [State.load, reportsOf]⟩

/-- The reports add up in every state with the books in order. -/
theorem Books.addsUp {s : State ι} (h : Books s) : s.AddsUp := by
  by_cases hidle : ∀ i, s.pc i = .idle
  · have hall : ∀ r ∈ reportsOf s.log, r.AddsUp := (h.idle hidle).2
    exact ⟨fun r hr => hall r (List.mem_of_mem_tail hr), fun _ => hall⟩
  · obtain ⟨i, hi⟩ := not_forall.mp hidle
    have hledger := h.busy i hi
    cases hpc : s.pc i with
    | printLine now idx =>
      rw [hpc] at hledger
      obtain ⟨-, r, rs', hrs, -, -, hrest⟩ := hledger
      refine ⟨?_, fun hnone => absurd hpc (hnone i now idx)⟩
      rw [hrs]
      exact hrest
    | _ =>
      rw [hpc] at hledger
      have hall : ∀ r ∈ reportsOf s.log, r.AddsUp := by
        first | exact hledger.2.2 | exact hledger.2 | exact hledger
      exact ⟨fun r hr => hall r (List.mem_of_mem_tail hr), fun _ => hall⟩

variable [DecidableEq ι]

/-- The handler under way goes on from `q` to `p`. -/
theorem Books.goto {s s' : State ι} {i : ι} {p q : Pc} (h : Books s) (hpc : s.pc i = q)
    (hq : q ≠ .idle) (hgo : s'.pc = update s.pc i p) (hreg : s'.registered = s.registered)
    (hledger : s.Ledger q → s'.Ledger p) : Books s' := by
  subst hpc
  have hself : s'.pc i = p := by rw [hgo, update_self]
  have honly : ∀ j, s'.pc j ≠ .idle → j = i := by
    intro j hj
    by_contra hji
    rw [hgo, update_of_ne hji] at hj
    exact hji (h.alone j i hj hq)
  have hp : s'.Ledger p := hledger (h.busy i hq)
  refine ⟨?_, ?_, ?_, ?_⟩
  · intro j k hj hk
    rw [honly j hj, honly k hk]
  · rw [hreg]
    exact h.slots
  · intro j hj
    rw [honly j hj, hself]
    exact hp
  · intro hidle
    rw [← hself, hidle i] at hp
    exact hp

/-- A probe is hit while no handler is under way. -/
theorem Books.hit {s : State ι} {i : ι} {r : Nat} (h : Books s) (hidle : ∀ j, s.pc j = .idle)
    (hreg : s.registered r = true) : Books (s.goto i (.record r)) := by
  have hledger : (s.goto i (.record r)).Ledger (.record r) := ⟨h.slots r hreg, h.idle hidle⟩
  have honly : ∀ j, (s.goto i (.record r)).pc j ≠ .idle → j = i := by
    intro j hj
    by_contra hji
    exact hj (by simp [State.goto, hji, hidle])
  refine ⟨?_, h.slots, ?_, ?_⟩
  · intro j k hj hk
    rw [honly j hj, honly k hk]
  · intro j hj
    rw [honly j hj]
    simpa [State.goto] using hledger
  · intro hall
    simpa [State.goto] using hall i

omit [DecidableEq ι] in
/-- A step of `probe_init`, which moves no handler. -/
theorem Books.init {s s' : State ι} (h : Books s) (hpc : s'.pc = s.pc)
    (hreg : ∀ r, s'.registered r = true → r < REASON_NUM)
    (hbusy : ∀ i, s.pc i ≠ .idle → s.Ledger (s.pc i) → s'.Ledger (s.pc i))
    (hidle : (∀ i, s.pc i = .idle) → s.Ledger .idle → s'.Ledger .idle) : Books s' := by
  refine ⟨?_, hreg, ?_, ?_⟩
  · rw [hpc]
    exact h.alone
  · intro i hi
    rw [hpc] at hi ⊢
    exact hbusy i hi (h.busy i hi)
  · intro hall
    rw [hpc] at hall
    exact hidle hall (h.idle hall)

omit [DecidableEq ι] in
/-- A step of `probe_init` that touches neither the counters nor the log. -/
theorem Books.frame {s s' : State ι} (h : Books s) (hpc : s'.pc = s.pc)
    (hreg : ∀ r, s'.registered r = true → r < REASON_NUM)
    (hledger : s'.Ledger = s.Ledger) : Books s' :=
  h.init hpc hreg (fun _ _ hl => hledger ▸ hl) (fun _ hl => hledger ▸ hl)

/-- The total that a handler has printed and is about to clear may be cleared
before. -/
theorem Ledger.clear {total : UInt64} {num : ReasonsNum} {rs : List Report} {p : Pc}
    (hp : p.TotalShown) (h : Ledger total num rs p) : Ledger 0 num rs p := by
  cases p with
  | printLine now idx => exact h
  | setTotal now => exact h
  | _ => exact hp.elim

/-! ## The conditions on a run -/

/-- A probe is hit only while no handler is under way. -/
def OneAtATime (s : State ι) : Event ι → Prop
  | .hit _ _ => ∀ j, s.pc j = .idle
  | _ => True

/-- The step keeps the total and the lines together.  The store of
`probe_init` to `total_exit` loses no count: it finds zero there, or a handler
has printed the total and is about to clear it.  A total is printed only
while the printed counts add up to a signed word. -/
def Kept (s : State ι) : Event ι → Prop
  | .initStep => s.init = .setTotal → s.totalExit = 0 ∨ ∃ i, (s.pc i).TotalShown
  | .step i =>
    match s.pc i with
    | .printTotal _ =>
      - 2 ^ 63 ≤ printedSum s.reasonsNum REASON_NUM ∧
        printedSum s.reasonsNum REASON_NUM < 2 ^ 63
    | _ => True
  | _ => True

variable {table : List (Option String)}

/-- One step of a run of handlers that do not overlap, when it keeps the
total and the lines together. -/
theorem Books.step {s s' : State ι} {e : Event ι} (htable : table.length ≤ REASON_NUM)
    (h : Books s) (hone : OneAtATime s e) (hkept : Kept s e)
    (hst : step table s e = some s') : Books s' := by
  cases move_of_step table hst with
  | hit hpc hreg => exact h.hit hone hreg
  | sample hpc _ | due hpc _ | early hpc _ | busy hpc _ | lock hpc _ | storeKtime hpc
  | unlock hpc => exact h.goto hpc (by simp) rfl rfl id
  | header hpc =>
    refine h.goto hpc (by simp) rfl rfl fun hl => ?_
    show Ledger _ _ (reportsOf (s.log ++ [Line.header])) _
    rw [reportsOf_append]
    exact hl
  | record hpc =>
    refine h.goto hpc (by simp) rfl rfl fun ⟨hr, htotal, hall⟩ => ⟨?_, hall⟩
    show s.totalExit + 1 = countSum (recordReason s.reasonsNum _) REASON_NUM
    rw [countSum_recordReason hr, htotal]
  | inc hpc => exact h.goto hpc (by simp) rfl rfl id
  | @printTotal i now hpc =>
    refine h.goto hpc (by simp) rfl rfl fun ⟨htotal, hall⟩ => ?_
    have hfits : CFormat.ld s.totalExit = printedSum s.reasonsNum REASON_NUM := by
      rw [htotal]
      simp only [Kept, hpc] at hkept
      exact (CFormat.ld_sum_eq_iff _ _).mpr hkept
    show Ledger _ _ (reportsOf (s.log ++ [Line.total _])) _
    rw [reportsOf_append]
    exact ⟨Nat.zero_le _, _, _, rfl, hfits, rfl, hall⟩
  | @printLine i now idx hpc hidx =>
    refine h.goto hpc (by simp) rfl rfl fun ⟨_, r, rs', hrs, htotal, hcounts, hall⟩ => ?_
    obtain ⟨r', hr', htotal', hcounts'⟩ := foldl_reasonLines s.reasonsNum hidx r rs'
    show Ledger _ _ (reportsOf (s.log ++ reasonLines s.reasonsNum idx)) _
    rw [reportsOf_append, hrs, hr']
    refine ⟨hidx, r', rs', rfl, htotal'.trans htotal, ?_, hall⟩
    rw [hcounts', hcounts]
    exact (sum_range_succ _ _).symm
  | @endLines i now idx hpc hidx =>
    refine h.goto hpc (by simp) rfl rfl fun ⟨hle, r, rs', hrs, htotal, hcounts, hall⟩ => ?_
    have hend : idx = REASON_NUM := by omega
    show ∀ r ∈ reportsOf s.log, r.AddsUp
    rw [hrs]
    rw [hend] at hcounts
    exact List.forall_mem_cons.mpr ⟨hcounts.trans htotal.symm, hall⟩
  | setTotal hpc => exact h.goto hpc (by simp) rfl rfl fun hall => ⟨rfl, hall⟩
  | resetReason hpc =>
    exact h.goto hpc (by simp) rfl rfl fun ⟨htotal, hall⟩ =>
      ⟨htotal.trans countSum_resetReason.symm, hall⟩
  | @registerOk idx ret name hinit hslot hret =>
    refine h.frame rfl (fun r hr => ?_) rfl
    by_cases hridx : r = idx
    · have hlt := (List.getElem?_eq_some_iff.mp hslot).1
      omega
    · exact h.slots r (by simpa [update_of_ne hridx] using hr)
  | @unregister idx name hinit hslot =>
    refine h.frame rfl (fun r hr => ?_) rfl
    by_cases hridx : r = idx
    · simp [hridx] at hr
    · exact h.slots r (by simpa [update_of_ne hridx] using hr)
  | registerSkip _ _ | registerFail _ _ _ | registerEnd _ _ | unregisterSkip _ _
  | unregisterEnd _ _ | initReasons _ | lockInit _ | initSample _ _ | initKtime _ =>
    exact h.frame rfl h.slots rfl
  | initTotal hinit =>
    obtain hzero | ⟨i, hi⟩ := hkept hinit
    · refine h.frame rfl h.slots ?_
      show Ledger 0 s.reasonsNum (reportsOf s.log) = Ledger s.totalExit _ _
      rw [hzero]
    · have hbusy : s.pc i ≠ .idle := by
        intro hpc
        rw [hpc] at hi
        exact hi
      refine h.init rfl h.slots (fun j hj hl => ?_) fun hall => absurd (hall i) hbusy
      rw [h.alone j i hj hbusy] at hl ⊢
      exact hl.clear hi

/-- From the load on, in every run of handlers that never overlap and whose
steps keep the total and the lines together, every report adds up. -/
theorem reports_add_up {s : State ι} {es : List (Event ι)} (htable : table.length ≤ REASON_NUM)
    (hone : AllSteps (step table) OneAtATime State.load es)
    (hkept : AllSteps (step table) Kept State.load es)
    (hrun : exec (step table) State.load es = some s) : s.AddsUp := by
  have hbooks : Books s :=
    exec_invariant (fun _ _ _ h hP hst => h.step htable hP.1 hP.2 hst) books_load
      (allSteps_and hone hkept) hrun
  exact hbooks.addsUp

end Totals

/-! ## Two runs -/

instance : DecidablePred Pc.TotalShown
  | .printLine _ _ | .setTotal _ => isTrue trivial
  | .idle | .record _ | .inc | .sample | .check _ | .trylock _ | .header _ | .printTotal _
  | .resetReason _ | .storeKtime _ | .unlock => isFalse id

instance (s : State Unit) (e : Event Unit) : Decidable (OneAtATime s e) := by
  unfold OneAtATime
  split <;> infer_instance

instance (s : State Unit) (e : Event Unit) : Decidable (Kept s e) := by
  unfold Kept
  split
  · infer_instance
  · split <;> infer_instance
  · infer_instance

/-- An exit by `HLT` that finds the last report less than a second old. -/
def countedHit (t : Int) : List (Event Unit) :=
  [.hit () 12, .step (), .step (), .sample () t, .step ()]

/-- An exit by `HLT` that makes a report. -/
def reportedHit (t : Int) : List (Event Unit) :=
  [.hit () 12, .step (), .step (), .sample () t] ++ List.replicate 75 (.step ())

/-- `probe_init` from the end of its loop on, with `t` as its clock
reading. -/
def initTail (t : Int) : List (Event Unit) :=
  [.initStep, .initStep, .initStep, .initStep, .initSample t, .initStep]

/-- The counters are empty when `probe_init` clears the total. -/
def clearedEmptyRun : List (Event Unit) :=
  registerEvents vmxHandleExitProbe ++ reportedHit 100000000000 ++ initTail 100600000000 ++
    countedHit 100700000000 ++ reportedHit 101700000000

/-- An exit has been counted and not reported when `probe_init` clears the
total. -/
def clearedCountedRun : List (Event Unit) :=
  registerEvents vmxHandleExitProbe ++ reportedHit 100000000000 ++ countedHit 100500000000 ++
    initTail 100600000000 ++ reportedHit 101700000000

/-- Both reports of the first run add up. -/
theorem reports_add_up_clearedEmptyRun : ∃ s' : State Unit,
    exec (step vmxHandleExitProbe) State.load clearedEmptyRun = some s' ∧
      reportsOf s'.log = [⟨2, [2]⟩, ⟨1, [1]⟩] ∧ s'.AddsUp := by
  have h : (exec (step vmxHandleExitProbe) (State.load : State Unit) clearedEmptyRun).map
      (fun s' => decide (reportsOf s'.log = [⟨2, [2]⟩, ⟨1, [1]⟩])) = some true := by
    decide +kernel
  have hone : AllSteps (step vmxHandleExitProbe) OneAtATime State.load clearedEmptyRun := by
    decide +kernel
  have hkept : AllSteps (step vmxHandleExitProbe) Kept State.load clearedEmptyRun := by
    decide +kernel
  obtain ⟨s', hrun, hreports⟩ := exists_exec_of_map h
  exact ⟨s', hrun, of_decide_eq_true hreports, reports_add_up (by decide) hone hkept hrun⟩

/-- The second report of the other run shows one exit in total and two on its
line. -/
theorem total_cleared_alone : ∃ (es : List (Event Unit)) (s' : State Unit),
    AllSteps (step vmxHandleExitProbe) OneAtATime State.load es ∧
      exec (step vmxHandleExitProbe) State.load es = some s' ∧ ¬ s'.AddsUp := by
  have h : (exec (step vmxHandleExitProbe) (State.load : State Unit) clearedCountedRun).map
      (fun s' => decide (reportsOf s'.log = [⟨1, [2]⟩, ⟨1, [1]⟩] ∧ s'.pc () = .idle)) =
        some true := by
    decide +kernel
  obtain ⟨s', hrun, hs'⟩ := exists_exec_of_map h
  obtain ⟨hreports, hidle⟩ := of_decide_eq_true hs'
  refine ⟨clearedCountedRun, s', by decide +kernel, hrun, fun hadds => ?_⟩
  have hall := hadds.last (fun _ now idx hpc => by rw [hidle] at hpc; cases hpc)
  have hlast : (⟨1, [2]⟩ : Report).AddsUp := hall _ (by simp [hreports])
  exact absurd hlast (by unfold Report.AddsUp; decide)

end KvmUtils.KvmExitReason
