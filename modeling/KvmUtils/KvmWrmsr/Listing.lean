import KvmUtils.Lib.Machine
import KvmUtils.KvmWrmsr.Handler
import KvmUtils.KvmWrmsr.OtherSlots

/-!
# The listing of other MSRs while they are recorded

`show_wrmsr` takes `other_msrs_lock` anew for each slot, so the table can grow
between two lines of one listing.  The machine of this module has one CPU
that runs the part of `show_wrmsr` under `other msrs`, and any number of CPUs
that call `record_other_wrmsr`.  Each call is one step, since its body runs
under the lock.

A record only ever takes the first free slot, or adds to a count (`Grows`).
That is why the CPU that lists neither misses a number that was there when it
started nor names one twice.  The counts are printed with `%d`.
-/

namespace KvmUtils.KvmWrmsr

/-! ## Tables that grow -/

/-- The count that a record of `m` adds one to stays below `2 ^ 32`. -/
def OtherMsrs.NoWrap (t : OtherMsrs) (m : UInt32) : Prop :=
  ∀ slot, t.slots.find? (fun slot => m = slot.index ∨ slot.index = 0) = some slot →
    slot.count.toNat + 1 < 2 ^ 32

instance (t : OtherMsrs) (m : UInt32) : Decidable (t.NoWrap m) :=
  inferInstanceAs (Decidable (∀ slot ∈ t.slots.find? _, _))

/-- The tables that resets and records lead to, while every count stays
below `2 ^ 32`. -/
inductive OtherMsrs.Reachable : OtherMsrs → Prop where
  | reset : resetOtherWrmsr.Reachable
  | record {t : OtherMsrs} {m : UInt32} (h : t.Reachable) (hwrap : t.NoWrap m) :
      (recordOtherWrmsr t m).Reachable

/-- Every slot of `t` keeps its number, if it has one, and its count does
not fall. -/
def OtherMsrs.Grows (t t' : OtherMsrs) : Prop :=
  ∀ (i : Nat) (a : MsrIndexCount), t.slots[i]? = some a →
    ∃ b : MsrIndexCount, t'.slots[i]? = some b ∧ (a.index ≠ 0 → b.index = a.index) ∧
      a.count.toNat ≤ b.count.toNat

theorem OtherMsrs.Grows.refl (t : OtherMsrs) : t.Grows t :=
  fun _ a ha => ⟨a, ha, fun _ => rfl, le_refl _⟩

theorem OtherMsrs.Grows.trans {t t' t'' : OtherMsrs} (h : t.Grows t') (h' : t'.Grows t'') :
    t.Grows t'' := by
  intro i a ha
  obtain ⟨b, hb, hindex, hcount⟩ := h i a ha
  obtain ⟨c, hc, hindex', hcount'⟩ := h' i b hb
  refine ⟨c, hc, fun hne => ?_, le_trans hcount hcount'⟩
  have hba := hindex hne
  rw [hindex' (hba ▸ hne), hba]

theorem toNat_add_one {c : UInt32} (h : c.toNat + 1 < 2 ^ 32) : (c + 1).toNat = c.toNat + 1 := by
  rw [UInt32.toNat_add]
  simp only [UInt32.toNat_one]
  omega

theorem grows_recordOtherWrmsr {t : OtherMsrs} {m : UInt32} (hwrap : t.NoWrap m) :
    t.Grows (recordOtherWrmsr t m) := by
  intro i a ha
  rw [recordOtherWrmsr_slots]
  rcases FirstFit.getElem?_record otherSlots m t.slots i with hsame | ⟨s, hfind, hs, htouch⟩
  · exact ⟨a, hsame.trans ha, fun _ => rfl, le_refl _⟩
  · obtain rfl : a = s := Option.some.inj (ha.symm.trans hs)
    refine ⟨_, htouch, fun hne => ?_, ?_⟩
    · -- the search stops at a slot with a number for that number alone
      have hstop : m = a.index ∨ a.index = 0 := by
        have hfound := List.find?_some hfind
        rwa [decide_eq_true_eq] at hfound
      rcases hstop with hm | hfree
      · exact hm
      · exact absurd hfree hne
    · show a.count.toNat ≤ (a.count + 1).toNat
      rw [toNat_add_one (hwrap a hfind)]
      exact Nat.le_succ _

/-- A reachable table is that of a sequence of records. -/
theorem OtherMsrs.Reachable.eq_recordOthers {t : OtherMsrs} (h : t.Reachable) :
    ∃ ms, t = recordOthers resetOtherWrmsr ms := by
  induction h with
  | reset => exact ⟨[], rfl⟩
  | record _ _ ih =>
    obtain ⟨ms, rfl⟩ := ih
    exact ⟨ms ++ [_], (recordOthers_concat _ _ _).symm⟩

/-- A slot that holds a number has been counted. -/
theorem OtherMsrs.Reachable.count_ne_zero {t : OtherMsrs} (h : t.Reachable) :
    ∀ (i : Nat) (a : MsrIndexCount), t.slots[i]? = some a → a.index ≠ 0 → a.count ≠ 0 := by
  induction h with
  | reset =>
    intro i a ha hne
    have hmem := List.mem_of_getElem? ha
    obtain rfl := List.eq_of_mem_replicate hmem
    exact absurd rfl hne
  | @record t m h hwrap ih =>
    intro i a ha hne
    rw [recordOtherWrmsr_slots] at ha
    rcases FirstFit.getElem?_record otherSlots m t.slots i with hsame | ⟨s, hfind, hs, htouch⟩
    · exact ih i a (hsame.symm.trans ha) hne
    · obtain rfl := Option.some.inj (htouch.symm.trans ha)
      intro hzero
      have hone := toNat_add_one (hwrap s hfind)
      have hzero' : s.count + 1 = 0 := hzero
      rw [hzero'] at hone
      cases hone

theorem indexAt_eq {t : OtherMsrs} {i : Nat} {a : MsrIndexCount} (h : t.slots[i]? = some a) :
    t.indexAt i = a.index := by
  rw [OtherMsrs.indexAt, List.getD_eq_getElem?_getD, List.getElem?_map, h]
  rfl

theorem lt_of_getElem?_slots {t : OtherMsrs} {i : Nat} {a : MsrIndexCount}
    (h : t.slots[i]? = some a) : i < OTHER_MSRS := by
  rw [← t.size]
  exact (List.getElem?_eq_some_iff.mp h).1

theorem report_of_getElem? {t : OtherMsrs} {i : Nat} {a : MsrIndexCount}
    (h : t.slots[i]? = some a) :
    reportOtherWrmsr t i =
      if a.index ≠ 0 ∧ a.count ≠ 0 then some (a.index, a.count) else none := by
  rw [reportOtherWrmsr, h]

/-- `report_other_wrmsr` fails at a slot of a reachable table exactly when
that slot holds no number. -/
theorem OtherMsrs.Reachable.report_eq {t : OtherMsrs} (h : t.Reachable) {i : Nat}
    {a : MsrIndexCount} (ha : t.slots[i]? = some a) :
    reportOtherWrmsr t i = if a.index ≠ 0 then some (a.index, a.count) else none := by
  rw [report_of_getElem? ha]
  by_cases hne : a.index ≠ 0
  · have hcount := h.count_ne_zero i a ha hne
    simp [hne, hcount]
  · simp [hne]

/-- Behind a slot without a number there is none. -/
theorem OtherMsrs.Reachable.index_eq_zero {t : OtherMsrs} (h : t.Reachable) {i j : Nat}
    {a b : MsrIndexCount} (ha : t.slots[i]? = some a) (hb : t.slots[j]? = some b) (hij : i ≤ j)
    (hzero : a.index = 0) : b.index = 0 := by
  obtain ⟨ms, rfl⟩ := h.eq_recordOthers
  by_contra hne
  rw [← indexAt_eq hb] at hne
  have hprefix := indexAt_ne_zero_of_le (lt_of_getElem?_slots hb) hij hne
  rw [indexAt_eq ha] at hprefix
  exact hprefix hzero

theorem OtherMsrs.Grows.index_eq_zero {t t' : OtherMsrs} (h : t.Grows t') {i : Nat}
    {a b : MsrIndexCount} (ha : t.slots[i]? = some a) (hb : t'.slots[i]? = some b)
    (hzero : b.index = 0) : a.index = 0 := by
  obtain ⟨b', hb', hindex, -⟩ := h i a ha
  obtain rfl := Option.some.inj (hb.symm.trans hb')
  by_contra hne
  exact hne ((hindex hne).symm.trans hzero)

namespace Listing

open Machine

/-- The next step of the CPU that lists: the call that guards the loop, or
the head of the loop at `idx`. -/
inductive Pc where
  | guard
  | loop (idx : Nat)
  | done
  deriving DecidableEq, Repr

structure State where
  table : OtherMsrs
  pc : Pc
  lines : List Line

inductive Event where
  /-- the next step of the CPU that lists -/
  | list
  /-- `record_other_wrmsr` on another CPU -/
  | record (msr : UInt32)
  deriving DecidableEq, Repr

/-- The part of `show_wrmsr` under `other msrs`, with one call of
`report_other_wrmsr` to a step. -/
def listStep (s : State) : Option State :=
  match s.pc with
  | .guard =>
    match reportOtherWrmsr s.table 0 with
    | none => some { s with pc := .done }
    | some _ => some { s with pc := .loop 0, lines := s.lines ++ [.text "OTHER MSRS STATISTIC"] }
  | .loop idx =>
    if idx < OTHER_MSRS then
      match reportOtherWrmsr s.table idx with
      | none => some { s with pc := .done }
      | some line => some { s with pc := .loop (idx + 1), lines := s.lines ++ [otherLine line] }
    else some { s with pc := .done }
  | .done => none

/-- One event.  The machine stops where the listing ends. -/
def step (s : State) : Event → Option State
  | .list => listStep s
  | .record msr =>
    if s.pc = .done then none else some { s with table := recordOtherWrmsr s.table msr }

/-- What one event can do.  `move_of_step` is the inversion of `step`. -/
inductive Move (s : State) : Event → State → Prop where
  | record {m} (hpc : s.pc ≠ .done) :
      Move s (.record m) { s with table := recordOtherWrmsr s.table m }
  | empty (hpc : s.pc = .guard) (hreport : reportOtherWrmsr s.table 0 = none) :
      Move s .list { s with pc := .done }
  | title {line} (hpc : s.pc = .guard) (hreport : reportOtherWrmsr s.table 0 = some line) :
      Move s .list
        { s with pc := .loop 0, lines := s.lines ++ [.text "OTHER MSRS STATISTIC"] }
  | line {idx line} (hpc : s.pc = .loop idx) (hidx : idx < OTHER_MSRS)
      (hreport : reportOtherWrmsr s.table idx = some line) :
      Move s .list { s with pc := .loop (idx + 1), lines := s.lines ++ [otherLine line] }
  | stop {idx} (hpc : s.pc = .loop idx)
      (hfail : reportOtherWrmsr s.table idx = none ∨ OTHER_MSRS ≤ idx) :
      Move s .list { s with pc := .done }

theorem move_of_step {s s' : State} {e : Event} (h : step s e = some s') : Move s e s' := by
  cases e with
  | record m =>
    simp only [step] at h
    split_ifs at h with hpc
    cases h
    exact .record hpc
  | list =>
    simp only [step, listStep] at h
    split at h
    · rename_i hpc
      split at h <;> rename_i hreport <;> cases h
      · exact .empty hpc hreport
      · exact .title hpc hreport
    · rename_i idx hpc
      split at h <;> rename_i hidx
      · split at h <;> rename_i hreport <;> cases h
        · exact .stop hpc (Or.inl hreport)
        · exact .line hpc hidx hreport
      · cases h
        exact .stop hpc (Or.inr (Nat.le_of_not_lt hidx))
    · cases h

/-- The listing starts at the table `t`. -/
def State.start (t : OtherMsrs) : State := { table := t, pc := .guard, lines := [] }

/-- The lines that name an MSR, with the number that is printed. -/
def entries (lines : List Line) : List (UInt32 × Int) :=
  lines.filterMap fun
    | .other msr count => some (msr, count)
    | _ => none

/-- What the listing that started at `t` says of it, and of the table at its
end. -/
structure Lists (t : OtherMsrs) (s : State) : Prop where
  nodup : ((entries s.lines).map Prod.fst).Nodup
  ne_zero : ∀ m c, (m, c) ∈ entries s.lines → m ≠ 0
  complete : ∀ a ∈ t.slots, a.index ≠ 0 → ∃ c, (a.index, c) ∈ entries s.lines
  between : ∀ m c, (m, c) ∈ entries s.lines →
    ∃ (i : Nat) (a b : MsrIndexCount), t.slots[i]? = some a ∧ s.table.slots[i]? = some b ∧
      b.index = m ∧ (a.count.toNat : Int) ≤ c ∧ c ≤ b.count.toNat

/-- A record keeps every count below `2 ^ 32`. -/
def NoWraps (s : State) : Event → Prop
  | .list => True
  | .record msr => s.table.NoWrap msr

instance : ∀ (s : State) (e : Event), Decidable (NoWraps s e)
  | _, .list => isTrue trivial
  | s, .record msr => inferInstanceAs (Decidable (s.table.NoWrap msr))

/-- The slot that is to be listed next has a count below `2 ^ 31`, if it holds
a number. -/
def ReadsSmall (s : State) : Event → Prop
  | .record _ => True
  | .list =>
    match s.pc with
    | .loop idx => ∀ a ∈ s.table.slots[idx]?, a.index ≠ 0 → a.count.toNat < 2 ^ 31
    | .guard | .done => True

instance : ∀ (s : State) (e : Event), Decidable (ReadsSmall s e)
  | _, .record _ => isTrue trivial
  | ⟨table, .loop idx, _⟩, .list => inferInstanceAs (Decidable (∀ a ∈ table.slots[idx]?, _))
  | ⟨_, .guard, _⟩, .list | ⟨_, .done, _⟩, .list => isTrue trivial

/-! ## The walk -/

/-- The slots that have been listed, as they were read. -/
structure Shown (t : OtherMsrs) (s : State) (read : List (UInt32 × UInt32)) : Prop where
  entries_eq : entries s.lines = read.map fun line => (line.1, CFormat.d line.2)
  slot : ∀ (i : Nat) (m c : UInt32), read[i]? = some (m, c) →
    ∃ a b : MsrIndexCount, t.slots[i]? = some a ∧ s.table.slots[i]? = some b ∧
      b.index = m ∧ m ≠ 0 ∧ a.count.toNat ≤ c.toNat ∧ c.toNat ≤ b.count.toNat
  at_guard : s.pc = .guard → read = []
  at_loop : ∀ idx, s.pc = .loop idx → read.length = idx
  at_done : s.pc = .done → ∀ (i : Nat) (a : MsrIndexCount), read.length ≤ i →
    t.slots[i]? = some a → a.index = 0

/-- The invariant of the walk that started at `t`. -/
structure Walk (t : OtherMsrs) (s : State) : Prop where
  reachable : s.table.Reachable
  grows : t.Grows s.table
  shown : ∃ read, Shown t s read

variable {t : OtherMsrs} {s s' : State}

/-- The walk ends where the table has no number, so nothing that was there at
the start is left out. -/
theorem Walk.tail_free (h : Walk t s) {idx : Nat}
    (hfail : reportOtherWrmsr s.table idx = none ∨ OTHER_MSRS ≤ idx) :
    ∀ (i : Nat) (a : MsrIndexCount), idx ≤ i → t.slots[i]? = some a → a.index = 0 := by
  intro i a hi ha
  obtain ⟨b, hb, -⟩ := h.grows i a ha
  have hlt := lt_of_getElem?_slots ha
  rcases hfail with hnone | hend
  · have hidx : idx < s.table.slots.length := by
      rw [s.table.size]
      omega
    have hslot := List.getElem?_eq_getElem hidx
    have hzero : s.table.slots[idx].index = 0 := by
      by_contra hne
      rw [h.reachable.report_eq hslot, if_pos hne] at hnone
      cases hnone
    exact h.grows.index_eq_zero ha hb (h.reachable.index_eq_zero hslot hb hi hzero)
  · omega

theorem Walk.record (h : Walk t s) {m : UInt32} (hwrap : s.table.NoWrap m) :
    Walk t { s with table := recordOtherWrmsr s.table m } := by
  have hgrows := grows_recordOtherWrmsr hwrap
  obtain ⟨read, hshown⟩ := h.shown
  refine ⟨h.reachable.record hwrap, h.grows.trans hgrows, read, hshown.entries_eq, ?_,
    hshown.at_guard, hshown.at_loop, hshown.at_done⟩
  intro i m' c hread
  obtain ⟨a, b, ha, hb, hindex, hne, hle, hge⟩ := hshown.slot i m' c hread
  obtain ⟨b', hb', hindex', hcount⟩ := hgrows i b hb
  exact ⟨a, b', ha, hb', (hindex' (hindex ▸ hne)).trans hindex, hne, hle, le_trans hge hcount⟩

/-- The walk stops. -/
theorem Walk.stop (h : Walk t s) {read : List (UInt32 × UInt32)} (hshown : Shown t s read)
    (hfail : reportOtherWrmsr s.table read.length = none ∨ OTHER_MSRS ≤ read.length) :
    Walk t { s with pc := .done } :=
  ⟨h.reachable, h.grows, read, hshown.entries_eq, hshown.slot, nofun, nofun,
    fun _ => h.tail_free hfail⟩

/-- The walk lists one more slot. -/
theorem Walk.line (h : Walk t s) {read : List (UInt32 × UInt32)} {line : UInt32 × UInt32}
    (hshown : Shown t s read) (hreport : reportOtherWrmsr s.table read.length = some line) :
    Walk t { s with pc := .loop (read.length + 1), lines := s.lines ++ [otherLine line] } := by
  refine ⟨h.reachable, h.grows, read ++ [line], ?_, ?_, nofun, ?_, nofun⟩
  · show entries (s.lines ++ [otherLine line]) = _
    rw [entries, List.filterMap_append, ← entries, hshown.entries_eq, List.map_append]
    rfl
  · intro i m c hread
    by_cases hi : i < read.length
    · rw [List.getElem?_append_left hi] at hread
      exact hshown.slot i m c hread
    · obtain ⟨b, hb⟩ : ∃ b, s.table.slots[read.length]? = some b := by
        cases hslot : s.table.slots[read.length]? with
        | none =>
          rw [reportOtherWrmsr, hslot] at hreport
          cases hreport
        | some b => exact ⟨b, rfl⟩
      obtain ⟨a, ha⟩ : ∃ a, t.slots[read.length]? = some a := by
        have hlt : read.length < t.slots.length := by
          rw [t.size]
          exact lt_of_getElem?_slots hb
        exact ⟨_, List.getElem?_eq_getElem hlt⟩
      obtain ⟨b', hb', -, hcount⟩ := h.grows _ a ha
      obtain rfl := Option.some.inj (hb.symm.trans hb')
      rw [h.reachable.report_eq hb] at hreport
      split_ifs at hreport with hne
      obtain rfl := Option.some.inj hreport
      rw [List.getElem?_append_right (by omega)] at hread
      have hlen := (List.getElem?_eq_some_iff.mp hread).1
      obtain rfl : i = read.length := by
        rw [List.length_singleton] at hlen
        omega
      rw [Nat.sub_self, List.getElem?_cons_zero] at hread
      obtain ⟨rfl, rfl⟩ := Prod.mk.inj (Option.some.inj hread)
      exact ⟨a, b, ha, hb, rfl, hne, hcount, le_refl _⟩
  · intro idx hpc
    cases hpc
    simp

theorem Walk.of_step (h : Walk t s) {e : Event} (hwrap : NoWraps s e)
    (hst : step s e = some s') : Walk t s' := by
  obtain ⟨read, hshown⟩ := h.shown
  cases move_of_step hst with
  | record _ => exact h.record hwrap
  | empty hpc hreport =>
    have hread := hshown.at_guard hpc
    exact h.stop hshown (Or.inl (by rw [hread]; exact hreport))
  | title hpc hreport =>
    have hread := hshown.at_guard hpc
    refine ⟨h.reachable, h.grows, read, ?_, hshown.slot, nofun, ?_, nofun⟩
    · rw [← hshown.entries_eq, entries, List.filterMap_append]
      simp [entries]
    · intro idx hidx
      cases hidx
      rw [hread]
      rfl
  | line hpc _ hreport =>
    obtain rfl := hshown.at_loop _ hpc
    exact h.line hshown hreport
  | stop hpc hfail =>
    obtain rfl := hshown.at_loop _ hpc
    exact h.stop hshown hfail

theorem walk_start (ht : t.Reachable) : Walk t (State.start t) :=
  ⟨ht, .refl t, [], rfl, fun _ _ _ hread => absurd hread (by simp), fun _ => rfl, nofun, nofun⟩

theorem walk_of_exec {es : List Event} (h : Walk t s) (hwrap : AllSteps step NoWraps s es)
    (hrun : exec step s es = some s') : Walk t s' :=
  exec_invariant (fun _ _ _ hI hP hst => hI.of_step hP hst) h hwrap hrun

/-- The numbers that are listed are those of distinct slots. -/
theorem Walk.nodup (h : Walk t s) {read : List (UInt32 × UInt32)} (hshown : Shown t s read) :
    (read.map Prod.fst).Nodup := by
  obtain ⟨ms, hms⟩ := h.reachable.eq_recordOthers
  have hslot : ∀ (i : Nat) (hi : i < read.length), i < OTHER_MSRS ∧
      (recordOthers resetOtherWrmsr ms).indexAt i = read[i].1 ∧ read[i].1 ≠ 0 := by
    intro i hi
    obtain ⟨_, b, -, hb, hindex, hne, -⟩ :=
      hshown.slot i read[i].1 read[i].2 (List.getElem?_eq_getElem hi)
    refine ⟨lt_of_getElem?_slots hb, ?_, hne⟩
    rw [← hms, indexAt_eq hb, hindex]
  refine List.pairwise_iff_getElem.mpr fun i j hi hj hij heq => ?_
  rw [List.length_map] at hi hj
  rw [List.getElem_map, List.getElem_map] at heq
  obtain ⟨hilt, hindex, hne⟩ := hslot i hi
  obtain ⟨hjlt, hindex', -⟩ := hslot j hj
  have hsame := indexAt_inj hilt hjlt (hindex.trans_ne hne)
    (hindex.trans (heq.trans hindex'.symm))
  omega

/-- How many lines print a negative number. -/
def negatives (s : State) : Nat := (entries s.lines).countP fun line => line.2 < 0

theorem negatives_append (lines : List Line) (line : UInt32 × UInt32) (pc : Pc)
    (table : OtherMsrs) :
    negatives ⟨table, pc, lines ++ [otherLine line]⟩ =
      negatives ⟨table, pc, lines⟩ + if CFormat.d line.2 < 0 then 1 else 0 := by
  unfold negatives entries
  rw [List.filterMap_append, List.countP_append]
  simp [otherLine, List.countP_cons]

/-- At a slot, the listing reads a small count exactly when the count of its
number is below `2 ^ 31`. -/
theorem readsSmall_iff {idx : Nat} {a : MsrIndexCount} (hpc : s.pc = .loop idx)
    (ha : s.table.slots[idx]? = some a) :
    ReadsSmall s .list ↔ (a.index ≠ 0 → a.count.toNat < 2 ^ 31) := by
  simp only [ReadsSmall, hpc, ha, Option.mem_def, Option.some.injEq, forall_eq']

/-- A listing that stops at a slot has no number to print there. -/
theorem readsSmall_of_stop {idx : Nat} (hpc : s.pc = .loop idx)
    (hfail : reportOtherWrmsr s.table idx = none ∨ OTHER_MSRS ≤ idx) : ReadsSmall s .list := by
  simp only [ReadsSmall, hpc]
  intro a ha hne
  obtain hreport | hend := hfail
  · rw [report_of_getElem? ha] at hreport
    have hcount : a.count = 0 := by
      by_contra hcount
      rw [if_pos ⟨hne, hcount⟩] at hreport
      cases hreport
    rw [hcount]
    decide
  · have hlt := lt_of_getElem?_slots ha
    omega

/-- One more negative number is printed exactly when a line is printed of a
count of at least `2 ^ 31`. -/
theorem negatives_step {e : Event} (hst : step s e = some s') :
    negatives s ≤ negatives s' ∧ (negatives s' = negatives s ↔ ReadsSmall s e) := by
  cases move_of_step hst with
  | record _ => exact ⟨le_refl _, iff_of_true rfl trivial⟩
  | empty hpc _ => exact ⟨le_refl _, iff_of_true rfl (by simp only [ReadsSmall, hpc])⟩
  | title hpc _ =>
    have hsame : entries (s.lines ++ [.text "OTHER MSRS STATISTIC"]) = entries s.lines := by
      simp [entries]
    unfold negatives
    rw [hsame]
    exact ⟨le_refl _, iff_of_true rfl (by simp only [ReadsSmall, hpc])⟩
  | @line idx line hpc hidx hreport =>
    obtain ⟨a, ha⟩ : ∃ a, s.table.slots[idx]? = some a :=
      ⟨_, List.getElem?_eq_getElem (by rwa [s.table.size])⟩
    rw [report_of_getElem? ha] at hreport
    split_ifs at hreport with hlive
    obtain rfl := Option.some.inj hreport
    have hsmall : ReadsSmall s .list ↔ ¬ CFormat.d a.count < 0 := by
      rw [readsSmall_iff hpc ha, CFormat.d_neg_iff, Nat.not_le]
      exact ⟨fun h => h hlive.1, fun h _ => h⟩
    rw [negatives_append, hsmall]
    show negatives s ≤ negatives s + _ ∧ (negatives s + _ = negatives s ↔ _)
    split_ifs with hneg <;> simp [hneg]
  | stop hpc hfail => exact ⟨le_refl _, iff_of_true rfl (readsSmall_of_stop hpc hfail)⟩

theorem negatives_eq_zero_iff {es : List Event} (hrun : exec step (State.start t) es = some s) :
    negatives s = 0 ↔ AllSteps step ReadsSmall (State.start t) es :=
  measure_eq_iff (I := fun _ => True) negatives (fun _ _ _ _ _ => trivial)
    (fun _ _ _ _ hst => (negatives_step hst).1) (fun _ _ _ _ hst => (negatives_step hst).2)
    trivial hrun

/-- At the end of a listing nothing is left out. -/
theorem Walk.complete (h : Walk t s) {read : List (UInt32 × UInt32)} (hshown : Shown t s read)
    (hdone : s.pc = .done) {a : MsrIndexCount} (ha : a ∈ t.slots) (hne : a.index ≠ 0) :
    ∃ c, (a.index, c) ∈ entries s.lines := by
  obtain ⟨i, hi⟩ := List.getElem?_of_mem ha
  have hlt : i < read.length := by
    by_contra hge
    exact hne (hshown.at_done hdone i a (Nat.le_of_not_lt hge) hi)
  obtain ⟨a', b, ha', hb, hindex, -⟩ :=
    hshown.slot i read[i].1 read[i].2 (List.getElem?_eq_getElem hlt)
  obtain rfl := Option.some.inj (hi.symm.trans ha')
  obtain ⟨b', hb', hsame, -⟩ := h.grows i a hi
  obtain rfl := Option.some.inj (hb.symm.trans hb')
  refine ⟨CFormat.d read[i].2, ?_⟩
  rw [hshown.entries_eq, ← hsame hne, hindex]
  exact List.mem_map_of_mem (List.getElem_mem hlt)

/-- A listing that other CPUs write into is right exactly when no line of it
is printed of a count of `2 ^ 31` or more. -/
theorem lists_iff_readsSmall {es : List Event} (ht : t.Reachable)
    (hwrap : AllSteps step NoWraps (State.start t) (.list :: es))
    (hrun : exec step (State.start t) (.list :: es) = some s) (hdone : s.pc = .done) :
    Lists t s ↔ AllSteps step ReadsSmall (State.start t) (.list :: es) := by
  rw [← negatives_eq_zero_iff hrun]
  have hwalk := walk_of_exec (walk_start ht) hwrap hrun
  obtain ⟨read, hshown⟩ := hwalk.shown
  constructor
  · intro hlists
    rw [negatives, List.countP_eq_zero]
    rintro ⟨m, c⟩ hmem hneg
    obtain ⟨i, a, b, -, -, -, hle, -⟩ := hlists.between m c hmem
    have hneg' : c < 0 := by simpa using hneg
    omega
  · intro hzero
    rw [negatives, List.countP_eq_zero] at hzero
    have hentry : ∀ m c, (m, c) ∈ entries s.lines →
        ∃ (i : Nat) (c' : UInt32), read[i]? = some (m, c') ∧ c = c'.toNat := by
      intro m c hmem
      have hpos := hzero _ hmem
      rw [hshown.entries_eq] at hmem
      obtain ⟨⟨m', c'⟩, hread, heq⟩ := List.mem_map.mp hmem
      obtain ⟨rfl, rfl⟩ := Prod.mk.inj heq
      obtain ⟨i, hi⟩ := List.getElem?_of_mem hread
      refine ⟨i, c', hi, CFormat.d_eq_toNat ?_⟩
      by_contra hlarge
      exact hpos (by simpa using CFormat.d_neg (Nat.le_of_not_lt hlarge))
    refine ⟨?_, fun m c hmem => ?_, fun a ha hne => hwalk.complete hshown hdone ha hne,
      fun m c hmem => ?_⟩
    · rw [hshown.entries_eq, List.map_map]
      exact hwalk.nodup hshown
    · obtain ⟨i, c', hi, -⟩ := hentry m c hmem
      obtain ⟨_, _, -, -, -, hne, -⟩ := hshown.slot i m c' hi
      exact hne
    · obtain ⟨i, c', hi, rfl⟩ := hentry m c hmem
      obtain ⟨a, b, ha, hb, hindex, -, hle, hge⟩ := hshown.slot i m c' hi
      exact ⟨i, a, b, ha, hb, hindex, by omega, by omega⟩

/-- The table in which only `m` has been recorded, `c` times. -/
def oneNumber (m c : UInt32) : OtherMsrs where
  slots := ⟨m, c⟩ :: List.replicate (OTHER_MSRS - 1) ⟨0, 0⟩
  size := by
    rw [List.length_cons, List.length_replicate]
    rfl

theorem recordOtherWrmsr_oneNumber (m c : UInt32) :
    recordOtherWrmsr (oneNumber m c) m = oneNumber m (c + 1) := by
  simp [recordOtherWrmsr, oneNumber, recordOtherLoop]

theorem reachable_oneNumber (m : UInt32) {n : Nat} (hpos : 1 ≤ n) (hlt : n < 2 ^ 32) :
    (oneNumber m (UInt32.ofNat n)).Reachable := by
  induction n with
  | zero => omega
  | succ n ih =>
    by_cases hzero : n = 0
    · subst hzero
      have hfirst : recordOtherWrmsr resetOtherWrmsr m = oneNumber m 1 := by
        simp [recordOtherWrmsr, resetOtherWrmsr, oneNumber, recordOtherLoop, OTHER_MSRS,
          List.replicate_succ]
      have hwrap : resetOtherWrmsr.NoWrap m := by
        intro slot hfind
        obtain rfl := List.eq_of_mem_replicate (List.mem_of_find?_eq_some hfind)
        decide
      have hone := OtherMsrs.Reachable.reset.record hwrap
      rwa [hfirst] at hone
    · have hwrap : (oneNumber m (UInt32.ofNat n)).NoWrap m := by
        intro slot hfind
        have hslot : (⟨m, UInt32.ofNat n⟩ : MsrIndexCount) = slot := by
          simpa [oneNumber] using hfind
        rw [← hslot]
        show (UInt32.ofNat n).toNat + 1 < 2 ^ 32
        rw [UInt32.toNat_ofNat', Nat.mod_eq_of_lt (by omega)]
        omega
      have hnext := (ih (by omega) (by omega)).record hwrap
      rwa [recordOtherWrmsr_oneNumber, ← UInt32.ofNat_one, ← UInt32.ofNat_add] at hnext

/-- A count of `2 ^ 31` is printed as a negative number. -/
theorem lists_large_count_negative :
    ¬ ∀ (t : OtherMsrs) (es : List Event) (s : State), t.Reachable →
      AllSteps step NoWraps (State.start t) (.list :: es) →
      exec step (State.start t) (.list :: es) = some s → s.pc = .done → Lists t s := by
  intro h
  have hrun : exec step (State.start (oneNumber 0x10 (UInt32.ofNat (2 ^ 31))))
      [.list, .list, .list] = some ⟨oneNumber 0x10 (UInt32.ofNat (2 ^ 31)), .done,
        [.text "OTHER MSRS STATISTIC", .other 0x10 (-2 ^ 31)]⟩ := by
    rfl
  have hlists := h _ _ _ (reachable_oneNumber 0x10 (by decide) (by decide))
    (by decide +kernel) hrun rfl
  obtain ⟨i, a, b, -, -, -, hle, -⟩ := hlists.between 0x10 (-2 ^ 31) (by decide)
  omega

/-- Another number is recorded after the guard call, and is listed as well. -/
theorem lists_of_record_meanwhile : ∃ s,
    exec step (State.start (oneNumber 0x10 1)) [.list, .record 0x20, .list, .list, .list] =
      some s ∧ entries s.lines = [(0x10, 1), (0x20, 1)] ∧ Lists (oneNumber 0x10 1) s := by
  have h : (exec step (State.start (oneNumber 0x10 1))
      [.list, .record 0x20, .list, .list, .list]).map
      (fun s => decide (s.pc = .done ∧ entries s.lines = [(0x10, 1), (0x20, 1)])) =
        some true := by
    decide +kernel
  obtain ⟨s, hrun, hs⟩ := exists_exec_of_map h
  obtain ⟨hdone, hentries⟩ := of_decide_eq_true hs
  refine ⟨s, hrun, hentries, (lists_iff_readsSmall ?_ ?_ hrun hdone).mpr ?_⟩
  · exact reachable_oneNumber 0x10 (n := 1) (by decide) (by decide)
  · decide +kernel
  · decide +kernel

/-! ## A listing that nobody writes into -/

theorem exec_loop (lines : List Line) {n idx : Nat} (hn : idx + n = OTHER_MSRS) :
    ∃ k, exec step ⟨t, .loop idx, lines⟩ (List.replicate k .list) =
      some ⟨t, .done, lines ++ (listOtherLoop t n idx).map otherLine⟩ := by
  induction n generalizing idx lines with
  | zero =>
    have hend : ¬ idx < OTHER_MSRS := by omega
    refine ⟨1, ?_⟩
    simp [exec, step, listStep, listOtherLoop, hend]
  | succ n ih =>
    have hidx : idx < OTHER_MSRS := by omega
    cases hreport : reportOtherWrmsr t idx with
    | none =>
      refine ⟨1, ?_⟩
      simp [exec, step, listStep, listOtherLoop, hidx, hreport]
    | some line =>
      have hnext : idx + 1 + n = OTHER_MSRS := by omega
      obtain ⟨k, hk⟩ := ih (lines ++ [otherLine line]) hnext
      refine ⟨k + 1, ?_⟩
      rw [List.replicate_succ, exec_cons]
      refine ⟨⟨t, .loop (idx + 1), lines ++ [otherLine line]⟩, ?_, ?_⟩
      · simp [step, listStep, hidx, hreport]
      · rw [hk, listOtherLoop, hreport, List.map_cons, List.append_assoc, List.singleton_append]

/-- If nobody records, then the machine prints what `showOthers` says. -/
theorem exec_showOthers (t : OtherMsrs) :
    ∃ k, exec step (State.start t) (List.replicate k .list) = some ⟨t, .done, showOthers t⟩ := by
  cases hreport : reportOtherWrmsr t 0 with
  | none =>
    refine ⟨1, ?_⟩
    simp [exec, step, listStep, State.start, showOthers, hreport]
  | some line =>
    obtain ⟨k, hk⟩ := exec_loop (t := t) [.text "OTHER MSRS STATISTIC"]
      (Nat.zero_add OTHER_MSRS)
    refine ⟨k + 1, ?_⟩
    rw [List.replicate_succ, exec_cons]
    refine ⟨⟨t, .loop 0, [.text "OTHER MSRS STATISTIC"]⟩, ?_, ?_⟩
    · simp [step, listStep, State.start, hreport]
    · rw [hk, showOthers, hreport]
      rfl

end Listing

end KvmUtils.KvmWrmsr
