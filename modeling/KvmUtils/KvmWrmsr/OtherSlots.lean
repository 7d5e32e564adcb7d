import Mathlib.Algebra.GroupWithZero.Nat
import Mathlib.Algebra.Order.BigOperators.Group.List
import Mathlib.Algebra.Order.Group.Nat
import Mathlib.Data.List.GetD
import KvmUtils.KvmWrmsr.OtherMsrs

/-!
# The slots of the table of other MSRs

`record_other_wrmsr` tests "same number" and "free slot" in one condition, so
that the slots hold distinct numbers in the order in which they were first
written rests on the order of the search.  This module says what the slots
hold after any sequence of calls, with the number `0` and with more numbers
than there are slots.
-/

namespace KvmUtils.KvmWrmsr

open FirstFit

/-- The table after a sequence of `record_other_wrmsr` calls. -/
def recordOthers (t : OtherMsrs) (ms : List UInt32) : OtherMsrs := ms.foldl recordOtherWrmsr t

theorem recordOthers_concat (t : OtherMsrs) (ms : List UInt32) (m : UInt32) :
    recordOthers t (ms ++ [m]) = recordOtherWrmsr (recordOthers t ms) m := by
  simp [recordOthers]

theorem recordOthers_slots (t : OtherMsrs) (ms : List UInt32) :
    (recordOthers t ms).slots = recordAll otherSlots ms t.slots := by
  induction ms using List.reverseRecOn with
  | nil => rfl
  | append_singleton ms m ih =>
    rw [recordOthers_concat, recordOtherWrmsr_slots, ih, recordAll_concat]

/-- The `index` of slot `i`. -/
def OtherMsrs.indexAt (t : OtherMsrs) (i : Nat) : UInt32 := (t.slots.map (·.index)).getD i 0

/-- The sum of all counts. -/
def OtherMsrs.total (t : OtherMsrs) : Nat := (t.slots.map (·.count.toNat)).sum

/-- Every slot holds a number, and none of them holds `m`. -/
def OtherMsrs.Full (t : OtherMsrs) (m : UInt32) : Prop :=
  ∀ slot ∈ t.slots, slot.index ≠ 0 ∧ slot.index ≠ m

instance (t : OtherMsrs) (m : UInt32) : Decidable (t.Full m) :=
  inferInstanceAs (Decidable (∀ slot ∈ t.slots, _))

/-- How many calls of a sequence find the table full. -/
def fullCalls : OtherMsrs → List UInt32 → Nat
  | _, [] => 0
  | t, m :: ms => (if t.Full m then 1 else 0) + fullCalls (recordOtherWrmsr t m) ms

/-- The numbers of a sequence of calls, each at its first place. -/
def firstWritten (ms : List UInt32) : List UInt32 := firstSeen (ms.filter (· ≠ 0))

/-! ## The indices -/

theorem indexAt_recordOthers (ms : List UInt32) {i : Nat} (hi : i < OTHER_MSRS) :
    (recordOthers resetOtherWrmsr ms).indexAt i = (firstWritten ms).getD i 0 := by
  have hkeys := map_key_recordAll otherSlots { index := 0, count := 0 } rfl OTHER_MSRS ms
  have hslots : (recordOthers resetOtherWrmsr ms).slots.map (·.index) =
      (firstWritten ms).take OTHER_MSRS ++
        List.replicate (OTHER_MSRS - (firstWritten ms).length) 0 := by
    rw [recordOthers_slots]
    exact hkeys
  rw [OtherMsrs.indexAt, hslots, List.getD_eq_getElem?_getD, List.getD_eq_getElem?_getD]
  by_cases hseen : i < (firstWritten ms).length
  · rw [List.getElem?_append_left (by rw [List.length_take]; omega), List.getElem?_take_of_lt hi]
  · have hblank : i - ((firstWritten ms).take OTHER_MSRS).length <
        OTHER_MSRS - (firstWritten ms).length := by
      rw [List.length_take]
      omega
    rw [List.getElem?_append_right (by rw [List.length_take]; omega),
      List.getElem?_eq_none (Nat.le_of_not_lt hseen), List.getElem?_replicate, if_pos hblank]
    rfl

/-- A slot that holds a number holds one of the numbers that were written. -/
theorem lt_length_of_indexAt {ms : List UInt32} {i : Nat} (hi : i < OTHER_MSRS)
    (h : (recordOthers resetOtherWrmsr ms).indexAt i ≠ 0) : i < (firstWritten ms).length := by
  rw [indexAt_recordOthers ms hi] at h
  by_contra hge
  exact h (List.getD_eq_default _ _ (Nat.le_of_not_lt hge))

theorem zero_not_mem_firstWritten (ms : List UInt32) : 0 ∉ firstWritten ms := by
  intro hmem
  simpa using mem_firstSeen.mp hmem

/-- Before a slot that holds a number every slot holds one. -/
theorem indexAt_ne_zero_of_le {ms : List UInt32} {i j : Nat} (hi : i < OTHER_MSRS) (hji : j ≤ i)
    (h : (recordOthers resetOtherWrmsr ms).indexAt i ≠ 0) :
    (recordOthers resetOtherWrmsr ms).indexAt j ≠ 0 := by
  have hlt : j < (firstWritten ms).length := Nat.lt_of_le_of_lt hji (lt_length_of_indexAt hi h)
  rw [indexAt_recordOthers ms (Nat.lt_of_le_of_lt hji hi), List.getD_eq_getElem _ _ hlt]
  intro hzero
  exact zero_not_mem_firstWritten ms (hzero ▸ List.getElem_mem hlt)

/-- No number is held by two slots. -/
theorem indexAt_inj {ms : List UInt32} {i j : Nat} (hi : i < OTHER_MSRS) (hj : j < OTHER_MSRS)
    (h : (recordOthers resetOtherWrmsr ms).indexAt i ≠ 0)
    (heq : (recordOthers resetOtherWrmsr ms).indexAt i =
      (recordOthers resetOtherWrmsr ms).indexAt j) : i = j := by
  have hilt := lt_length_of_indexAt hi h
  have hjlt := lt_length_of_indexAt hj (heq ▸ h)
  rw [indexAt_recordOthers ms hi, indexAt_recordOthers ms hj, List.getD_eq_getElem _ _ hilt,
    List.getD_eq_getElem _ _ hjlt] at heq
  exact (nodup_firstSeen _).getElem_inj_iff.mp heq

/-- A slot that holds a number keeps it, whatever is recorded later. -/
theorem indexAt_append {ms : List UInt32} {i : Nat} (hi : i < OTHER_MSRS)
    (h : (recordOthers resetOtherWrmsr ms).indexAt i ≠ 0) (later : List UInt32) :
    (recordOthers resetOtherWrmsr (ms ++ later)).indexAt i =
      (recordOthers resetOtherWrmsr ms).indexAt i := by
  have hlt := lt_length_of_indexAt hi h
  have hprefix : firstWritten ms <+: firstWritten (ms ++ later) := by
    rw [firstWritten, firstWritten, List.filter_append]
    exact firstSeen_prefix _ _
  rw [indexAt_recordOthers _ hi, indexAt_recordOthers _ hi, List.getD_eq_getElem _ _ hlt,
    List.getD_eq_getElem _ _ (Nat.lt_of_lt_of_le hlt hprefix.length_le), hprefix.getElem hlt]

/-! ## The counts -/

theorem stops_iff_not_full (t : OtherMsrs) (m : UInt32) :
    Stops otherSlots m t.slots ↔ ¬ t.Full m := by
  unfold OtherMsrs.Full
  push Not
  refine exists_congr fun slot => and_congr_right fun _ => ?_
  show m = slot.index ∨ slot.index = 0 ↔ (slot.index ≠ 0 → slot.index = m)
  rw [or_comm, eq_comm (a := m), or_iff_not_imp_left]

/-- A record adds one to the sum of the counts, unless it finds the table
full. -/
theorem total_recordOtherWrmsr {t : OtherMsrs} {m : UInt32}
    (hwrap : ∀ slot ∈ t.slots, slot.count.toNat + 1 < 2 ^ 32) :
    (recordOtherWrmsr t m).total + (if t.Full m then 1 else 0) = t.total + 1 := by
  have hsum := sum_record otherSlots (w := fun slot => slot.count.toNat) (k := m)
    t.slots (fun slot hslot => by
      have hlt := hwrap slot hslot
      show (slot.count + 1).toNat = slot.count.toNat + 1
      rw [UInt32.toNat_add]
      simp only [UInt32.toNat_one]
      omega)
  rw [OtherMsrs.total, recordOtherWrmsr_slots, hsum, OtherMsrs.total]
  simp only [stops_iff_not_full]
  split_ifs <;> omega

/-- No count exceeds the sum. -/
theorem count_le_total {t : OtherMsrs} {slot : MsrIndexCount} (h : slot ∈ t.slots) :
    slot.count.toNat ≤ t.total :=
  List.le_sum_of_mem (List.mem_map_of_mem (f := fun slot => slot.count.toNat) h)

theorem total_recordOthers {t : OtherMsrs} (ms : List UInt32)
    (hlen : t.total + ms.length < 2 ^ 32) :
    (recordOthers t ms).total + fullCalls t ms = t.total + ms.length := by
  induction ms generalizing t with
  | nil => simp [recordOthers, fullCalls]
  | cons m ms ih =>
    rw [List.length_cons] at hlen
    have hstep := total_recordOtherWrmsr (t := t) (m := m) fun slot hslot => by
      have hle := count_le_total hslot
      omega
    have hrest := ih (t := recordOtherWrmsr t m) (by omega)
    show (recordOthers (recordOtherWrmsr t m) ms).total + (_ + fullCalls _ ms) = _
    rw [List.length_cons]
    omega

/-- What the slots hold after any sequence of fewer than `2 ^ 32` calls.

1. The index of slot `i` is the `i`-th number other than `0`, in the order in
   which they were first written, and `0` if there are not so many.
2. The slots that hold a number come first, and hold distinct numbers.
3. A slot keeps its number, whatever is recorded later.
4. The counts add up to the calls that did not find the table full. -/
theorem slot_discipline (ms : List UInt32) (hlen : ms.length < 2 ^ 32) :
    (∀ i < OTHER_MSRS,
      (recordOthers resetOtherWrmsr ms).indexAt i = (firstWritten ms).getD i 0) ∧
    (∀ i < OTHER_MSRS, (recordOthers resetOtherWrmsr ms).indexAt i ≠ 0 →
      (∀ j ≤ i, (recordOthers resetOtherWrmsr ms).indexAt j ≠ 0) ∧
      ∀ j < OTHER_MSRS, (recordOthers resetOtherWrmsr ms).indexAt i =
        (recordOthers resetOtherWrmsr ms).indexAt j → i = j) ∧
    (∀ later, ∀ i < OTHER_MSRS, (recordOthers resetOtherWrmsr ms).indexAt i ≠ 0 →
      (recordOthers resetOtherWrmsr (ms ++ later)).indexAt i =
        (recordOthers resetOtherWrmsr ms).indexAt i) ∧
    (recordOthers resetOtherWrmsr ms).total + fullCalls resetOtherWrmsr ms = ms.length := by
  refine ⟨fun i hi => indexAt_recordOthers ms hi, fun i hi hne => ⟨fun j hji => ?_, ?_⟩, ?_, ?_⟩
  · exact indexAt_ne_zero_of_le hi hji hne
  · exact fun j hj heq => indexAt_inj hi hj hne heq
  · exact fun later i hi hne => indexAt_append hi hne later
  · have hzero : resetOtherWrmsr.total = 0 := by simp [OtherMsrs.total, resetOtherWrmsr]
    have htotal := total_recordOthers (t := resetOtherWrmsr) ms (by omega)
    rwa [hzero, Nat.zero_add] at htotal

/-- A write of the number `0`, and then two others. -/
theorem slot_discipline_of_three_writes :
    (recordOthers resetOtherWrmsr [0, 0x10, 0x20]).indexAt 1 = 0x20 ∧
      (recordOthers resetOtherWrmsr [0, 0x10, 0x20]).total +
        fullCalls resetOtherWrmsr [0, 0x10, 0x20] = 3 := by
  have h := slot_discipline [0, 0x10, 0x20] (by decide)
  exact ⟨(h.1 1 (by decide)).trans (by decide), h.2.2.2⟩

end KvmUtils.KvmWrmsr
