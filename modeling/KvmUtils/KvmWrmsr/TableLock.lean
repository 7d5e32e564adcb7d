import KvmUtils.Lib.LockedObject
import KvmUtils.KvmWrmsr.OtherSlots

/-!
# The functions on the table, step by step

`other_msrs_lock` protects the table of other MSRs.  The model of the handlers
takes a call of `record_other_wrmsr`, `report_other_wrmsr` or
`reset_other_wrmsr` for one step.  Here the three bodies run access by access,
on any number of CPUs at once, with the CPUs that find the lock taken in front
of it.

The three functions are an object behind a lock in the sense of
`LockedObject`, and `tableImplements` says that each body, alone, computes
what its one step is modelled as.  So the calls answer as if each were one
step (`table_calls_are_atomic`), and a CPU that waits for the lock is let in
after a bounded number of steps (`table_lock_is_granted`).
-/

namespace KvmUtils.KvmWrmsr

open Function Machine LockedObject

/-- Slot `i` of the table. -/
def OtherMsrs.slotAt (t : OtherMsrs) (i : Nat) : MsrIndexCount :=
  t.slots.getD i { index := 0, count := 0 }

/-- A store to slot `i`. -/
def OtherMsrs.setSlot (t : OtherMsrs) (i : Nat) (slot : MsrIndexCount) : OtherMsrs where
  slots := t.slots.set i slot
  size := by rw [List.length_set, t.size]

/-- The calls of the functions on the table. -/
inductive TableOp where
  | record (msr : UInt32)
  | report (idx : Nat)
  | reset
  deriving DecidableEq, Repr

/-- What a call returns. -/
inductive Answer where
  | done
  | report (line : Option (UInt32 × UInt32))
  deriving DecidableEq, Repr

/-- The next access of a body.  `scan` is the head of the loop of
`record_other_wrmsr`, `testIndex` and `testCount` are the two reads of the
condition of `report_other_wrmsr`, and `clear` is where `memset` has got to. -/
inductive TableAt where
  | scan (msr : UInt32) (idx : Nat)
  | storeIndex (msr : UInt32) (idx : Nat)
  | bumpCount (idx : Nat)
  | testIndex (idx : Nat)
  | testCount (idx : Nat)
  | loadIndex (idx : Nat)
  | loadCount (idx : Nat) (msr : UInt32)
  | clear (idx : Nat)
  | unlock (answer : Answer)
  deriving DecidableEq, Repr

/-- One access of a body. -/
def tableNext : TableAt → OtherMsrs → Option (TableAt × OtherMsrs)
  | .scan msr idx, t =>
    if idx < OTHER_MSRS then
      if msr = (t.slotAt idx).index ∨ (t.slotAt idx).index = 0 then some (.storeIndex msr idx, t)
      else some (.scan msr (idx + 1), t)
    else some (.unlock .done, t)
  | .storeIndex msr idx, t =>
    some (.bumpCount idx, t.setSlot idx { t.slotAt idx with index := msr })
  | .bumpCount idx, t =>
    some (.unlock .done, t.setSlot idx { t.slotAt idx with count := (t.slotAt idx).count + 1 })
  | .testIndex idx, t =>
    if (t.slotAt idx).index ≠ 0 then some (.testCount idx, t)
    else some (.unlock (.report none), t)
  | .testCount idx, t =>
    if (t.slotAt idx).count ≠ 0 then some (.loadIndex idx, t)
    else some (.unlock (.report none), t)
  | .loadIndex idx, t => some (.loadCount idx (t.slotAt idx).index, t)
  | .loadCount idx msr, t => some (.unlock (.report (some (msr, (t.slotAt idx).count))), t)
  | .clear idx, t =>
    if idx < OTHER_MSRS then some (.clear (idx + 1), t.setSlot idx { index := 0, count := 0 })
    else some (.unlock .done, t)
  | .unlock _, _ => none

/-- The functions of `msr.h` on the table, between `spin_lock` and
`spin_unlock`. -/
def tableObject : Object TableOp TableAt OtherMsrs Answer where
  start
    | .record msr => .scan msr 0
    | .report idx => .testIndex idx
    | .reset => .clear 0
  next := tableNext
  answer
    | .unlock answer => answer
    | _ => .done

/-- The functions as single steps. -/
def tableSpec : Spec TableOp OtherMsrs Answer
  | .record msr, t => (recordOtherWrmsr t msr, .done)
  | .report idx, t => (t, .report (reportOtherWrmsr t idx))
  | .reset, _ => (resetOtherWrmsr, .done)

/-! ## Single slots -/

@[simp] theorem OtherMsrs.slotAt_setSlot_self {t : OtherMsrs} {i : Nat} {slot : MsrIndexCount}
    (h : i < OTHER_MSRS) : (t.setSlot i slot).slotAt i = slot := by
  simp [slotAt, setSlot, t.size, h]

theorem OtherMsrs.slotAt_setSlot_of_ne {t : OtherMsrs} {i j : Nat} {slot : MsrIndexCount}
    (h : i ≠ j) : (t.setSlot i slot).slotAt j = t.slotAt j := by
  simp [slotAt, setSlot, List.getD_eq_getElem?_getD, h]

@[simp] theorem OtherMsrs.setSlot_setSlot (t : OtherMsrs) (i : Nat) (a b : MsrIndexCount) :
    (t.setSlot i a).setSlot i b = t.setSlot i b := by
  simp [setSlot]

/-- Tables with the same slots are the same. -/
theorem OtherMsrs.ext_slotAt {t t' : OtherMsrs}
    (h : ∀ i < OTHER_MSRS, t.slotAt i = t'.slotAt i) : t = t' := by
  have hslots : t.slots = t'.slots := by
    refine List.ext_getElem (by rw [t.size, t'.size]) fun i hi hi' => ?_
    have hslot := h i (by rwa [t.size] at hi)
    rwa [slotAt, slotAt, List.getD_eq_getElem _ _ hi, List.getD_eq_getElem _ _ hi'] at hslot
  cases t
  cases t'
  cases hslots
  rfl

/-- The search of `record_other_wrmsr` ends at this slot. -/
def MsrIndexCount.Stops (msr : UInt32) (slot : MsrIndexCount) : Prop :=
  msr = slot.index ∨ slot.index = 0

/-- The loop stores to the first slot at which the search ends. -/
theorem recordOtherLoop_eq_set {msr : UInt32} {slots : List MsrIndexCount} {idx : Nat}
    (hidx : idx < slots.length)
    (hbelow : ∀ j < idx, ¬ (slots.getD j { index := 0, count := 0 }).Stops msr)
    (hstop : (slots.getD idx { index := 0, count := 0 }).Stops msr) :
    recordOtherLoop msr slots = slots.set idx
      { index := msr, count := (slots.getD idx { index := 0, count := 0 }).count + 1 } := by
  induction slots generalizing idx with
  | nil => exact absurd hidx (Nat.not_lt_zero idx)
  | cons slot rest ih =>
    cases idx with
    | zero => exact if_pos hstop
    | succ idx =>
      have hfirst : ¬ (msr = slot.index ∨ slot.index = 0) := hbelow 0 (Nat.succ_pos idx)
      have hrest := ih (Nat.lt_of_succ_lt_succ hidx)
        (fun j hj => hbelow (j + 1) (Nat.succ_lt_succ hj)) hstop
      rw [recordOtherLoop, if_neg hfirst, hrest]
      rfl

/-- The loop stores nothing where the search does not end. -/
theorem recordOtherLoop_eq_self {msr : UInt32} {slots : List MsrIndexCount}
    (h : ∀ slot ∈ slots, ¬ slot.Stops msr) : recordOtherLoop msr slots = slots := by
  induction slots with
  | nil => rfl
  | cons slot rest ih =>
    have hfirst : ¬ (msr = slot.index ∨ slot.index = 0) := h slot List.mem_cons_self
    rw [recordOtherLoop, if_neg hfirst, ih fun s hs => h s (List.mem_cons_of_mem slot hs)]

theorem recordOtherWrmsr_of_stops {t : OtherMsrs} {msr : UInt32} {idx : Nat}
    (hidx : idx < OTHER_MSRS) (hbelow : ∀ j < idx, ¬ (t.slotAt j).Stops msr)
    (hstop : (t.slotAt idx).Stops msr) :
    recordOtherWrmsr t msr =
      t.setSlot idx { index := msr, count := (t.slotAt idx).count + 1 } := by
  have hset := recordOtherLoop_eq_set (by rwa [t.size]) hbelow hstop
  simp only [recordOtherWrmsr, hset]
  rfl

theorem recordOtherWrmsr_of_full {t : OtherMsrs} {msr : UInt32}
    (h : ∀ j < OTHER_MSRS, ¬ (t.slotAt j).Stops msr) : recordOtherWrmsr t msr = t := by
  have hself : recordOtherLoop msr t.slots = t.slots := by
    refine recordOtherLoop_eq_self fun slot hslot => ?_
    obtain ⟨j, hj, rfl⟩ := List.mem_iff_getElem.mp hslot
    have hno := h j (by rwa [t.size] at hj)
    rwa [OtherMsrs.slotAt, List.getD_eq_getElem _ _ hj] at hno
  cases t
  simp only [recordOtherWrmsr, hself]

/-- A free slot and a slot of count `0` are not reported. -/
theorem reportOtherWrmsr_eq (t : OtherMsrs) (idx : Nat) :
    reportOtherWrmsr t idx =
      if (t.slotAt idx).index ≠ 0 ∧ (t.slotAt idx).count ≠ 0 then
        some ((t.slotAt idx).index, (t.slotAt idx).count)
      else none := by
  rw [reportOtherWrmsr, OtherMsrs.slotAt, List.getD_eq_getElem?_getD]
  cases t.slots[idx]? with
  | none => rfl
  | some slot => rfl

/-! ## The bodies -/

/-- Where the body of an operation that has started on `d` is, and what it has
made of `d` by then. -/
def TableMid : TableOp → OtherMsrs → TableAt → OtherMsrs → Prop
  | .record msr, d, .scan m idx, t =>
    m = msr ∧ t = d ∧ ∀ j < idx, j < OTHER_MSRS → ¬ (d.slotAt j).Stops msr
  | .record msr, d, .storeIndex m idx, t =>
    m = msr ∧ t = d ∧ idx < OTHER_MSRS ∧ (∀ j < idx, ¬ (d.slotAt j).Stops msr) ∧
      (d.slotAt idx).Stops msr
  | .record msr, d, .bumpCount idx, t =>
    t = d.setSlot idx { d.slotAt idx with index := msr } ∧ idx < OTHER_MSRS ∧
      (∀ j < idx, ¬ (d.slotAt j).Stops msr) ∧ (d.slotAt idx).Stops msr
  | .report i, d, .testIndex idx, t => idx = i ∧ t = d
  | .report i, d, .testCount idx, t => idx = i ∧ t = d ∧ (d.slotAt i).index ≠ 0
  | .report i, d, .loadIndex idx, t =>
    idx = i ∧ t = d ∧ (d.slotAt i).index ≠ 0 ∧ (d.slotAt i).count ≠ 0
  | .report i, d, .loadCount idx m, t =>
    idx = i ∧ t = d ∧ m = (d.slotAt i).index ∧ (d.slotAt i).index ≠ 0 ∧ (d.slotAt i).count ≠ 0
  | .reset, _, .clear idx, t => ∀ j < idx, j < OTHER_MSRS → t.slotAt j = { index := 0, count := 0 }
  | op, d, .unlock answer, t => tableSpec op d = (t, answer)
  | _, _, _, _ => False

/-- The accesses that a body has still to make, at most. -/
def TableAt.left : TableAt → Nat
  | .scan _ idx => OTHER_MSRS - idx + 3
  | .storeIndex _ _ => 2
  | .bumpCount _ => 1
  | .testIndex _ => 4
  | .testCount _ => 3
  | .loadIndex _ => 2
  | .loadCount _ _ => 1
  | .clear idx => OTHER_MSRS - idx + 1
  | .unlock _ => 0

/-- One access of `record_other_wrmsr`. -/
theorem tableMid_record {msr : UInt32} {d t t' : OtherMsrs} {p p' : TableAt}
    (h : TableMid (.record msr) d p t) (hnext : tableNext p t = some (p', t')) :
    TableMid (.record msr) d p' t' ∧ p'.left < p.left := by
  cases p with
  | scan m idx =>
    obtain ⟨rfl, rfl, hbelow⟩ := h
    simp only [tableNext] at hnext
    split_ifs at hnext with hidx hstop <;> cases hnext
    · exact ⟨⟨rfl, rfl, hidx, fun j hj => hbelow j hj (hj.trans hidx), hstop⟩,
        by simp only [TableAt.left]; omega⟩
    · refine ⟨⟨rfl, rfl, fun j hj hlt => ?_⟩, by simp only [TableAt.left]; omega⟩
      rcases Nat.lt_succ_iff_lt_or_eq.mp hj with hj | rfl
      · exact hbelow j hj hlt
      · exact hstop
    · refine ⟨?_, by simp only [TableAt.left]; omega⟩
      have hfull := recordOtherWrmsr_of_full fun j hj =>
        hbelow j (Nat.lt_of_lt_of_le hj (Nat.le_of_not_lt hidx)) hj
      show (recordOtherWrmsr t m, Answer.done) = _
      rw [hfull]
  | storeIndex m idx =>
    obtain ⟨rfl, rfl, hrest⟩ := h
    cases hnext
    exact ⟨⟨rfl, hrest⟩, by simp only [TableAt.left]; omega⟩
  | bumpCount idx =>
    obtain ⟨rfl, hidx, hbelow, hstop⟩ := h
    cases hnext
    refine ⟨?_, by simp only [TableAt.left]; omega⟩
    show (recordOtherWrmsr d msr, Answer.done) = _
    rw [recordOtherWrmsr_of_stops hidx hbelow hstop, OtherMsrs.setSlot_setSlot,
      OtherMsrs.slotAt_setSlot_self hidx]
  | unlock => cases hnext
  | testIndex | testCount | loadIndex | loadCount | clear => exact h.elim

/-- One access of `report_other_wrmsr`. -/
theorem tableMid_report {i : Nat} {d t t' : OtherMsrs} {p p' : TableAt}
    (h : TableMid (.report i) d p t) (hnext : tableNext p t = some (p', t')) :
    TableMid (.report i) d p' t' ∧ p'.left < p.left := by
  have hanswer : ∀ line, reportOtherWrmsr d i = line →
      TableMid (.report i) d (.unlock (.report line)) d := by
    rintro line rfl
    rfl
  cases p with
  | testIndex idx =>
    obtain ⟨rfl, rfl⟩ := h
    simp only [tableNext] at hnext
    split_ifs at hnext with hindex <;> cases hnext
    · exact ⟨⟨rfl, rfl, hindex⟩, by simp only [TableAt.left]; omega⟩
    · refine ⟨hanswer none ?_, by simp only [TableAt.left]; omega⟩
      rw [reportOtherWrmsr_eq, if_neg fun h => hindex h.1]
  | testCount idx =>
    obtain ⟨rfl, rfl, hindex⟩ := h
    simp only [tableNext] at hnext
    split_ifs at hnext with hcount <;> cases hnext
    · exact ⟨⟨rfl, rfl, hindex, hcount⟩, by simp only [TableAt.left]; omega⟩
    · refine ⟨hanswer none ?_, by simp only [TableAt.left]; omega⟩
      rw [reportOtherWrmsr_eq, if_neg fun h => hcount h.2]
  | loadIndex idx =>
    obtain ⟨rfl, rfl, hlive⟩ := h
    cases hnext
    exact ⟨⟨rfl, rfl, rfl, hlive⟩, by simp only [TableAt.left]; omega⟩
  | loadCount idx m =>
    obtain ⟨rfl, rfl, rfl, hlive⟩ := h
    cases hnext
    refine ⟨hanswer (some _) ?_, by simp only [TableAt.left]; omega⟩
    rw [reportOtherWrmsr_eq, if_pos hlive]
  | unlock => cases hnext
  | scan | storeIndex | bumpCount | clear => exact h.elim

/-- One access of `reset_other_wrmsr`. -/
theorem tableMid_reset {d t t' : OtherMsrs} {p p' : TableAt}
    (h : TableMid .reset d p t) (hnext : tableNext p t = some (p', t')) :
    TableMid .reset d p' t' ∧ p'.left < p.left := by
  cases p with
  | clear idx =>
    simp only [tableNext] at hnext
    split_ifs at hnext with hidx <;> cases hnext
    · refine ⟨fun j hj hlt => ?_, by simp only [TableAt.left]; omega⟩
      by_cases hji : idx = j
      · subst hji
        exact OtherMsrs.slotAt_setSlot_self hlt
      · rw [OtherMsrs.slotAt_setSlot_of_ne hji]
        exact h j (by omega) hlt
    · refine ⟨?_, by simp only [TableAt.left]; omega⟩
      have hclear : resetOtherWrmsr = t := by
        refine OtherMsrs.ext_slotAt fun j hj => ?_
        rw [h j (Nat.lt_of_lt_of_le hj (Nat.le_of_not_lt hidx)) hj, OtherMsrs.slotAt,
          resetOtherWrmsr, List.getD_replicate _ hj]
      exact Prod.ext hclear rfl
  | unlock => cases hnext
  | scan | storeIndex | bumpCount | testIndex | testCount | loadIndex | loadCount => exact h.elim

/-- Each body, alone, computes its function. -/
def tableImplements : Implements tableObject tableSpec where
  Mid := TableMid
  left := TableAt.left
  bound := OTHER_MSRS + 3
  start
    | .record _, _ => ⟨rfl, rfl, fun _ hj => absurd hj (Nat.not_lt_zero _)⟩
    | .report _, _ => ⟨rfl, rfl⟩
    | .reset, _ => fun _ hj => absurd hj (Nat.not_lt_zero _)
  next {op d l d' l' d''} h hnext := by
    cases op with
    | record msr => exact tableMid_record h hnext
    | report i => exact tableMid_report h hnext
    | reset => exact tableMid_reset h hnext
  finish {op d l d'} h hnext := by
    cases l with
    | unlock answer =>
      cases op <;> exact h
    | scan m idx => simp only [tableObject, tableNext] at hnext; split_ifs at hnext
    | testIndex idx | testCount idx | clear idx =>
      simp only [tableObject, tableNext] at hnext
      split_ifs at hnext
    | storeIndex | bumpCount | loadIndex | loadCount => cases hnext
  left_start op := by
    cases op <;> simp [tableObject, TableAt.left, OTHER_MSRS]

/-! ## Calls on many CPUs -/

section Calls

variable {ι : Type*} [DecidableEq ι]

abbrev TableState (ι : Type*) := LockedObject.State ι TableOp TableAt OtherMsrs

/-- The table as it is loaded, with no CPU in a call. -/
def TableState.load : TableState ι := { held := false, data := resetOtherWrmsr, pc _ := .out }

/-- The calls that a run completes, in the order in which they release the
lock. -/
def completed (es : List (LockedObject.Event ι TableOp)) : List (ι × TableOp × Answer) :=
  outputs (LockedObject.step tableObject) (completes tableObject) TableState.load es

/-- The numbers recorded since the last reset, after one more call. -/
def TableOp.addTo : TableOp → List UInt32 → List UInt32
  | .record msr, ms => ms ++ [msr]
  | .report _, ms => ms
  | .reset, _ => []

/-- The numbers that have been recorded since the last reset. -/
def recordedSinceReset (calls : List (ι × TableOp × Answer)) : List UInt32 :=
  calls.foldl (fun ms call => call.2.1.addTo ms) []

/-- One call on the table of the numbers recorded. -/
theorem tableSpec_recordOthers (op : TableOp) (ms : List UInt32) :
    (tableSpec op (recordOthers resetOtherWrmsr ms)).1 =
      recordOthers resetOtherWrmsr (op.addTo ms) := by
  cases op with
  | record msr => exact (recordOthers_concat _ _ _).symm
  | report idx => rfl
  | reset => rfl

omit [DecidableEq ι] in
theorem after_tableSpec (calls : List (ι × TableOp × Answer)) :
    after tableSpec resetOtherWrmsr calls =
      recordOthers resetOtherWrmsr (recordedSinceReset calls) := by
  induction calls using List.reverseRecOn with
  | nil => rfl
  | append_singleton calls call ih =>
    rw [after, List.foldl_concat, ← after, ih, tableSpec_recordOthers, recordedSinceReset,
      recordedSinceReset, List.foldl_concat]

theorem linearized_table {es : List (LockedObject.Event ι TableOp)} {s : TableState ι}
    (hinit : AllSteps (LockedObject.step tableObject) ReinitOutside TableState.load es)
    (hrun : exec (LockedObject.step tableObject) TableState.load es = some s) :
    Answers tableSpec resetOtherWrmsr (completed es) ∧
      Linearized tableImplements s
        (recordOthers resetOtherWrmsr (recordedSinceReset (completed es))) := by
  have hstart : Linearized tableImplements (TableState.load : TableState ι) resetOtherWrmsr :=
    linearized_of_outside (fun _ => id) rfl
  obtain ⟨d, hcalls, hlin⟩ := linearized_of_exec hstart hinit hrun
  obtain ⟨rfl, hanswers⟩ := of_exec_atomicStep hcalls
  rw [after_tableSpec] at hlin
  exact ⟨hanswers, hlin⟩

/-- The functions on the table are atomic.  However the accesses of calls on
many CPUs are interleaved, as long as the lock is initialised only while no
CPU is between `spin_lock` and `spin_unlock`, at most one is there, a call of
`report_other_wrmsr` returns what it returns on the table of the numbers
recorded since the last reset, in the order in which the calls release the
lock, and once no CPU is there the table is that of all of them. -/
theorem table_calls_are_atomic {es : List (LockedObject.Event ι TableOp)} {s : TableState ι}
    (hinit : AllSteps (LockedObject.step tableObject) ReinitOutside TableState.load es)
    (hrun : exec (LockedObject.step tableObject) TableState.load es = some s) :
    (∀ i j, (s.pc i).Inside → (s.pc j).Inside → i = j) ∧
    (∀ pre i idx answer post, completed es = pre ++ (i, .report idx, answer) :: post →
      answer = .report
        (reportOtherWrmsr (recordOthers resetOtherWrmsr (recordedSinceReset pre)) idx)) ∧
    ((∀ i, ¬ (s.pc i).Inside) →
      s.data = recordOthers resetOtherWrmsr (recordedSinceReset (completed es))) := by
  obtain ⟨hanswers, hlin⟩ := linearized_table hinit hrun
  refine ⟨hlin.unique, fun pre i idx answer post hsplit => ?_, hlin.rest⟩
  have hanswer := hanswers pre (i, .report idx, answer) post hsplit
  rwa [after_tableSpec] at hanswer

omit [DecidableEq ι] in
/-- CPU `j` asks for slot `0` while CPU `i` has stored the number and not the
count. -/
def halfRecorded (i j : ι) : List (LockedObject.Event ι TableOp) :=
  [.call i (.record 0x10), .acquire i, .work i, .work i, .call j (.report 0)]

theorem table_calls_are_atomic_halfRecorded : ∃ s : TableState (Fin 2),
    exec (LockedObject.step tableObject) TableState.load (halfRecorded (0 : Fin 2) 1 ++
      [.work 0, .release 0, .acquire 1, .work 1, .work 1, .work 1, .work 1, .release 1]) =
        some s ∧
      s.data = recordOthers resetOtherWrmsr [0x10] := by
  have h : (exec (LockedObject.step tableObject) TableState.load (halfRecorded (0 : Fin 2) 1 ++
      [.work 0, .release 0, .acquire 1, .work 1, .work 1, .work 1, .work 1, .release 1])).map
      (fun s => decide (∀ i, ¬ (s.pc i).Inside)) = some true := by
    decide +kernel
  obtain ⟨s, hrun, hs⟩ := exists_exec_of_map h
  exact ⟨s, hrun,
    (table_calls_are_atomic (by decide +kernel) hrun).2.2 (of_decide_eq_true hs)⟩

/-- A CPU that waits for `other_msrs_lock` is let in by the CPU that holds it.
From every state reached, at most `OTHER_MSRS + 5` further steps bring it into
its call, and they are steps of the body and the release of the CPU that holds
the lock there, and then its own `acquire`. -/
theorem table_lock_is_granted {es : List (LockedObject.Event ι TableOp)} {s : TableState ι}
    (hinit : AllSteps (LockedObject.step tableObject) ReinitOutside TableState.load es)
    (hrun : exec (LockedObject.step tableObject) TableState.load es = some s)
    {i : ι} {op : TableOp} (hwait : s.pc i = .waiting op) :
    ∃ fs s', fs.length ≤ OTHER_MSRS + 5 ∧ (∀ e ∈ fs, OfHolder s e ∨ e = .acquire i) ∧
      exec (LockedObject.step tableObject) s fs = some s' ∧ (s'.pc i).Inside := by
  obtain ⟨-, hlin⟩ := linearized_table hinit hrun
  obtain ⟨fs, s', hlen, hall, hexec, hinside⟩ := exists_acquire hlin hwait
  exact ⟨fs, s', hlen, hall, hexec, by rw [hinside]; trivial⟩

/-- CPU `1` waits for the lock that CPU `0` holds. -/
theorem table_lock_is_granted_halfRecorded : ∃ s s' : TableState (Fin 2), ∃ fs,
    exec (LockedObject.step tableObject) TableState.load (halfRecorded 0 1) = some s ∧
      (∀ e ∈ fs, OfHolder s e ∨ e = .acquire 1) ∧
      exec (LockedObject.step tableObject) s fs = some s' ∧ (s'.pc 1).Inside := by
  have h : (exec (LockedObject.step tableObject) (TableState.load : TableState (Fin 2))
      (halfRecorded 0 1)).map (fun s => decide (s.pc 1 = .waiting (.report 0))) = some true := by
    decide +kernel
  obtain ⟨s, hrun, hs⟩ := exists_exec_of_map h
  obtain ⟨fs, s', -, hall, hexec, hinside⟩ :=
    table_lock_is_granted (by decide +kernel) hrun (of_decide_eq_true hs)
  exact ⟨s, s', fs, hrun, hall, hexec, hinside⟩

end Calls

end KvmUtils.KvmWrmsr
