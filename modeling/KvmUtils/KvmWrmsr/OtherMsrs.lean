import KvmUtils.Lib.FirstFit

/-!
# The table of other MSRs

`msr.h` keeps the MSR numbers that no case of its switches names in a table
of `OTHER_MSRS` slots.  This module embeds the four functions on the table.
Each body runs under `other_msrs_lock`, so it is one function on the table.

The table is a first-fit table in the sense of `FirstFit`: the marker of a
free slot is the index `0`, and a record bumps the count of the slot.
-/

namespace KvmUtils.KvmWrmsr

/-- `struct msr_index_count`. -/
structure MsrIndexCount where
  index : UInt32
  count : UInt32
  deriving DecidableEq, Repr

def OTHER_MSRS : Nat := 128

/-- `other_msrs`, an array of `OTHER_MSRS` slots. -/
structure OtherMsrs where
  slots : List MsrIndexCount
  size : slots.length = OTHER_MSRS

/-- The slot operations of the table: the key of a slot is its `index`, and
a record stores the MSR number and adds one to `count`. -/
def otherSlots : FirstFit.Slots UInt32 MsrIndexCount where
  key := MsrIndexCount.index
  free := 0
  touch msr slot := { index := msr, count := slot.count + 1 }
  key_touch _ _ := rfl

/-- The loop of `record_other_wrmsr` over the slots from `idx` on. -/
def recordOtherLoop (msr : UInt32) : List MsrIndexCount → List MsrIndexCount
  | [] => []
  | slot :: rest =>
    if msr = slot.index ∨ slot.index = 0 then
      { index := msr, count := slot.count + 1 } :: rest
    else slot :: recordOtherLoop msr rest

/-- The loop is a first-fit record. -/
theorem recordOtherLoop_eq (msr : UInt32) (slots : List MsrIndexCount) :
    recordOtherLoop msr slots = FirstFit.record otherSlots msr slots := by
  induction slots with
  | nil => rfl
  | cons slot rest ih =>
    rw [recordOtherLoop, FirstFit.record, ih]
    rfl

/-- `record_other_wrmsr`. -/
def recordOtherWrmsr (t : OtherMsrs) (msr : UInt32) : OtherMsrs where
  slots := recordOtherLoop msr t.slots
  size := by
    rw [recordOtherLoop_eq, FirstFit.length_record]
    exact t.size

theorem recordOtherWrmsr_slots (t : OtherMsrs) (msr : UInt32) :
    (recordOtherWrmsr t msr).slots = FirstFit.record otherSlots msr t.slots :=
  recordOtherLoop_eq msr t.slots

/-- `report_other_wrmsr`.  The result `-1` is `none`, and the result `0` is
the pair that is stored through `msr` and `count`. -/
def reportOtherWrmsr (t : OtherMsrs) (idx : Nat) : Option (UInt32 × UInt32) :=
  match t.slots[idx]? with
  | none => none
  | some slot =>
    if slot.index ≠ 0 ∧ slot.count ≠ 0 then some (slot.index, slot.count) else none

/-- `reset_other_wrmsr`, and the table as it is loaded. -/
def resetOtherWrmsr : OtherMsrs where
  slots := List.replicate OTHER_MSRS { index := 0, count := 0 }
  size := List.length_replicate

end KvmUtils.KvmWrmsr
