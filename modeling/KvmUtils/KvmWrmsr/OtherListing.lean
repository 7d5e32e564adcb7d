import KvmUtils.KvmWrmsr.Partition

/-!
# The listing of other MSRs

`show_wrmsr` lists the table by calling `report_other_wrmsr(0)`,
`report_other_wrmsr(1)` and so on, up to the first failure.  The listing is
exact when the number `0` has not been recorded, because the table is then
the first-fit table of `FirstFit.recordAll_replicate`.  The number `0` is
also the marker of a free slot.  A write of it is counted in a slot that
stays free, so the next new number inherits the count.
-/

namespace KvmUtils.KvmWrmsr

open FirstFit

/-- The loop of `show_wrmsr` over the table, with `n` turns left. -/
def listOtherLoop (t : OtherMsrs) : Nat → Nat → List (UInt32 × UInt32)
  | 0, _ => []
  | n + 1, idx =>
    match reportOtherWrmsr t idx with
    | none => []
    | some line => line :: listOtherLoop t n (idx + 1)

/-- The lines under `OTHER MSRS STATISTIC`. -/
def listOtherMsrs (t : OtherMsrs) : List (UInt32 × UInt32) :=
  listOtherLoop t OTHER_MSRS 0

/-! ## The listing of a list of slots -/

/-- The lines of the slots up to the first one that is not reported. -/
def linesOf : List MsrIndexCount → List (UInt32 × UInt32)
  | [] => []
  | slot :: rest =>
    if slot.index ≠ 0 ∧ slot.count ≠ 0 then (slot.index, slot.count) :: linesOf rest else []

theorem listOtherLoop_eq (t : OtherMsrs) (n idx : Nat) :
    listOtherLoop t n idx = linesOf ((t.slots.drop idx).take n) := by
  induction n generalizing idx with
  | zero => simp [listOtherLoop, linesOf]
  | succ n ih =>
    rw [listOtherLoop, reportOtherWrmsr]
    by_cases hidx : idx < t.slots.length
    · rw [List.getElem?_eq_getElem hidx, List.drop_eq_getElem_cons hidx, List.take_succ_cons,
        linesOf]
      by_cases hlive : t.slots[idx].index ≠ 0 ∧ t.slots[idx].count ≠ 0
      · simp only [if_pos hlive, ih]
      · simp only [if_neg hlive]
    · rw [List.getElem?_eq_none (by omega), List.drop_eq_nil_of_le (by omega)]
      rfl

theorem listOtherMsrs_eq (t : OtherMsrs) : listOtherMsrs t = linesOf t.slots := by
  rw [listOtherMsrs, listOtherLoop_eq, List.drop_zero, List.take_of_length_le (le_of_eq t.size)]

/-- The index `0` is never listed. -/
theorem index_ne_zero_of_mem_linesOf {slots : List MsrIndexCount} {m c : UInt32}
    (h : (m, c) ∈ linesOf slots) : m ≠ 0 := by
  induction slots with
  | nil => simp [linesOf] at h
  | cons slot rest ih =>
    rw [linesOf] at h
    split_ifs at h with hlive
    · rcases List.mem_cons.mp h with heq | hmem
      · obtain rfl : m = slot.index := congrArg Prod.fst heq
        exact hlive.1
      · exact ih hmem
    · simp at h

theorem linesOf_append_blank {slots : List MsrIndexCount} (n : Nat)
    (hlive : ∀ slot ∈ slots, slot.index ≠ 0 ∧ slot.count ≠ 0) :
    linesOf (slots ++ List.replicate n { index := 0, count := 0 }) =
      slots.map fun slot => (slot.index, slot.count) := by
  induction slots with
  | nil =>
    cases n with
    | zero => rfl
    | succ n => simp [List.replicate_succ, linesOf]
  | cons slot rest ih =>
    rw [List.cons_append, linesOf, if_pos (hlive slot List.mem_cons_self), List.map_cons,
      ih fun s hs => hlive s (List.mem_cons_of_mem slot hs)]

/-! ## The table after a history -/

/-- The writes that fall into the default class of `record_wrmsr`. -/
def otherWrites (ws : List UInt32) : List UInt32 :=
  ws.filter fun w => counterOf w = .others

/-- The table is the first-fit table of the writes of the default class. -/
theorem slots_recordWrites (ws : List UInt32) :
    (recordWrites ws).otherMsrs.slots =
      recordAll otherSlots (otherWrites ws)
        (List.replicate OTHER_MSRS { index := 0, count := 0 }) := by
  induction ws using List.reverseRecOn with
  | nil => rfl
  | append_singleton ws w ih =>
    rw [recordWrites_concat, recordWrmsr_otherMsrs, otherWrites, List.filter_append]
    by_cases hw : counterOf w = .others
    · rw [if_pos hw, List.filter_singleton, decide_eq_true hw, cond_true, recordAll_concat,
        recordOtherWrmsr_slots, ih, otherWrites]
    · rw [if_neg hw, List.filter_singleton, decide_eq_false hw, cond_false, List.append_nil, ih,
        otherWrites]

/-- A slot that has been touched `n` times holds the count `n`, modulo
`2 ^ 32`. -/
theorem count_touched (m : UInt32) (n : Nat) :
    (touched otherSlots { index := 0, count := 0 } m n).count.toNat = n % 2 ^ 32 := by
  induction n with
  | zero => rfl
  | succ n ih =>
    rw [← touch_touched]
    show (MsrIndexCount.count _ + 1).toNat = _
    rw [UInt32.toNat_add, ih]
    simp [Nat.add_mod]

/-- The listing is exact: each number of `ws` is listed once, with the
number of times it occurs, and nothing else is. -/
structure ListsExactly (ws : List UInt32) (lines : List (UInt32 × UInt32)) : Prop where
  nodup : (lines.map Prod.fst).Nodup
  mem_iff : ∀ m c, (m, c) ∈ lines ↔ m ∈ ws ∧ c.toNat = ws.count m

/-- The lines of a table that holds each number of `ws` once. -/
theorem listsExactly_firstSeen {ws : List UInt32} {count : UInt32 → UInt32}
    (hcount : ∀ m ∈ ws, (count m).toNat = ws.count m) :
    ListsExactly ws ((firstSeen ws).map fun m => (m, count m)) := by
  refine ⟨?_, fun m c => ?_⟩
  · rw [List.map_map]
    simpa [Function.comp_def] using nodup_firstSeen ws
  · simp only [List.mem_map, mem_firstSeen, Prod.mk.injEq]
    constructor
    · rintro ⟨k, hk, rfl, rfl⟩
      exact ⟨hk, hcount k hk⟩
    · rintro ⟨hm, hc⟩
      exact ⟨m, hm, rfl, UInt32.toNat_inj.mp ((hcount m hm).trans hc.symm)⟩

/-- Without the number `0`, the listing of the table is exact. -/
theorem listsExactly_of_zero_not_mem {ws : List UInt32}
    (hfit : (otherWrites ws).toFinset.card ≤ OTHER_MSRS)
    (hcount : ∀ m ∈ otherWrites ws, (otherWrites ws).count m < 2 ^ 32)
    (hzero : 0 ∉ otherWrites ws) :
    ListsExactly (otherWrites ws) (listOtherMsrs (recordWrites ws).otherMsrs) := by
  have hfit' : (firstSeen (otherWrites ws)).length ≤ OTHER_MSRS := by
    rwa [length_firstSeen]
  have hslots := slots_recordWrites ws
  rw [recordAll_replicate otherSlots rfl hzero hfit'] at hslots
  have hcount' : ∀ m ∈ otherWrites ws,
      (touched otherSlots { index := 0, count := 0 } m ((otherWrites ws).count m)).count.toNat =
        (otherWrites ws).count m := by
    intro m hm
    rw [count_touched, Nat.mod_eq_of_lt (hcount m hm)]
  have hindex : ∀ m ∈ otherWrites ws,
      (touched otherSlots { index := 0, count := 0 } m ((otherWrites ws).count m)).index = m :=
    fun m hm => key_touched otherSlots _ m (List.count_pos_iff.mpr hm)
  have hlive : ∀ slot ∈ taken otherSlots { index := 0, count := 0 } (otherWrites ws),
      slot.index ≠ 0 ∧ slot.count ≠ 0 := by
    intro slot hslot
    obtain ⟨m, hm, rfl⟩ := List.mem_map.mp hslot
    have hm' : m ∈ otherWrites ws := mem_firstSeen.mp hm
    have hpos := List.count_pos_iff.mpr hm'
    constructor
    · rw [hindex m hm']
      exact fun h => hzero (h ▸ hm')
    · intro h
      have := hcount' m hm'
      rw [h] at this
      simp at this
      omega
  rw [listOtherMsrs_eq, hslots, linesOf_append_blank _ hlive, taken, List.map_map]
  have hlines : ∀ m ∈ firstSeen (otherWrites ws),
      ((fun slot : MsrIndexCount => (slot.index, slot.count)) ∘ fun k =>
        touched otherSlots { index := 0, count := 0 } k ((otherWrites ws).count k)) m =
      (m, (touched otherSlots { index := 0, count := 0 } m ((otherWrites ws).count m)).count) := by
    intro m hm
    rw [Function.comp_apply, hindex m (mem_firstSeen.mp hm)]
  rw [List.map_congr_left hlines]
  exact listsExactly_firstSeen hcount'

/-- The listing is exact exactly when the MSR number `0` has not been
written since the last reset. -/
theorem listOtherMsrs_exact_iff (calls : List Call)
    (hfit : (otherWrites (writesSinceReset calls)).toFinset.card ≤ OTHER_MSRS)
    (hcount : ∀ m ∈ otherWrites (writesSinceReset calls),
      (otherWrites (writesSinceReset calls)).count m < 2 ^ 32) :
    ListsExactly (otherWrites (writesSinceReset calls))
        (listOtherMsrs (runCalls calls).otherMsrs) ↔
      0 ∉ writesSinceReset calls := by
  rw [runCalls_eq_record]
  have hdefault : 0 ∈ otherWrites (writesSinceReset calls) ↔ 0 ∈ writesSinceReset calls := by
    rw [otherWrites, List.mem_filter, and_iff_left]
    decide
  rw [← hdefault]
  constructor
  · intro hexact hmem
    have hlisted := (hexact.mem_iff 0
      (UInt32.ofNat ((otherWrites (writesSinceReset calls)).count 0))).mpr
        ⟨hmem, by rw [UInt32.toNat_ofNat', Nat.mod_eq_of_lt (hcount 0 hmem)]⟩
    rw [listOtherMsrs_eq] at hlisted
    exact index_ne_zero_of_mem_linesOf hlisted rfl
  · exact listsExactly_of_zero_not_mem hfit hcount

/-- Three writes of two numbers are listed as such. -/
theorem listOtherMsrs_exact_of_three_writes :
    ListsExactly [0x10, 0x10, 0xc0000080]
      (listOtherMsrs (runCalls [.record 0x10, .record 0x10, .record 0xc0000080]).otherMsrs) :=
  (listOtherMsrs_exact_iff [.record 0x10, .record 0x10, .record 0xc0000080]
    (by decide) (fun _ _ => Nat.lt_of_le_of_lt List.count_le_length (by decide))).mpr (by decide)

/-- A write of the number `0` is not listed, and it is counted for the next
new number. -/
theorem listOtherMsrs_zero_miscounted :
    ¬ ∀ calls : List Call,
      (otherWrites (writesSinceReset calls)).toFinset.card ≤ OTHER_MSRS →
      (∀ m ∈ otherWrites (writesSinceReset calls),
        (otherWrites (writesSinceReset calls)).count m < 2 ^ 32) →
      ListsExactly (otherWrites (writesSinceReset calls))
        (listOtherMsrs (runCalls calls).otherMsrs) := by
  intro h
  have hexact := h [.record 0, .record 0x10] (by decide)
    (fun _ _ => Nat.lt_of_le_of_lt List.count_le_length (by decide))
  have hcounted := ((hexact.mem_iff 0x10 2).mp (by decide)).2
  revert hcounted
  decide

end KvmUtils.KvmWrmsr
