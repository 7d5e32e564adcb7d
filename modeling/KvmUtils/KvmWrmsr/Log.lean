import Mathlib.Data.List.Forall2
import KvmUtils.Lib.Frames
import KvmUtils.KvmWrmsr.Gate
import KvmUtils.KvmWrmsr.Listing

/-!
# What `kvmwrmsr` writes to the log

A report of `kvmwrmsr` is a total, the lines of `show_wrmsr` in their order,
and the listing of the table.  Other CPUs count writes and take new slots of
the table while it is printed.  Once `probe_init` has returned and no handler
is under way, what is added to the log is a sequence of whole reports
(`wrmsr_log_of_reports`), and no report names a number twice in its listing.

The load is left out.  `probe_init` and `probe_exit` print a line of their own,
and `init_wrmsr` may initialise `other_msrs_lock` under a CPU that is in the
middle of `record_other_wrmsr`, so that two CPUs are in the table at once
(`TableLock`).  After that, no step initialises the lock again, and the calls
on the table are atomic.

The lines that a handler may have printed depend on the table: line `k` of the
listing names the number in slot `k`, and a slot keeps its number until the
handler itself resets the table.
-/

namespace KvmUtils.KvmWrmsr

open Function Machine

/-- The line of an item of `show_wrmsr`, whatever its counter was. -/
def ShowItem.Shows : ShowItem → Line → Prop
  | .heading s, line => line = .text s
  | .wrmsr idx, line => ∃ value, line = .wrmsr (msr2str idx) value

/-- The total, and the lines of these items. -/
def ShowsItems (items : List ShowItem) (lines : List Line) : Prop :=
  ∃ total rest, lines = .total total :: rest ∧ List.Forall₂ ShowItem.Shows items rest

/-- The lines of a listing of the table, with its heading. -/
def listingLines (shown : List (UInt32 × Int)) : List Line :=
  .text "OTHER MSRS STATISTIC" :: shown.map fun line => .other line.1 line.2

/-- A listing names each number once, and neither the number nor the count is
zero. -/
structure Listed (shown : List (UInt32 × Int)) : Prop where
  length_le : shown.length ≤ OTHER_MSRS
  nodup : (shown.map Prod.fst).Nodup
  ne_zero : ∀ line ∈ shown, line.1 ≠ 0 ∧ line.2 ≠ 0

/-- The lines of one handler that reports. -/
def IsReport (lines : List Line) : Prop :=
  ∃ head, ShowsItems showItems head ∧
    (lines = head ∨ ∃ shown, lines = head ++ listingLines shown ∧ Listed shown)

/-- The lines of the first slots of `t`. -/
structure SlotsShown (t : OtherMsrs) (shown : List (UInt32 × Int)) : Prop where
  length_le : shown.length ≤ OTHER_MSRS
  index : ∀ (k : Nat) (m : UInt32) (c : Int), shown[k]? = some (m, c) → t.indexAt k = m
  ne_zero : ∀ line ∈ shown, line.1 ≠ 0 ∧ line.2 ≠ 0

/-- The lines that a handler at this point has printed since it has taken the
lock. -/
def Pc.Printed (t : OtherMsrs) : Pc → List Line → Prop
  | .printTotal _, lines => lines = []
  | .setTotal _, lines => ShowsItems [] lines
  | .showItem _ k, lines => ShowsItems (showItems.take k) lines
  | .otherGuard _, lines => ShowsItems showItems lines
  | .otherLoop _ idx, lines => ∃ head shown, ShowsItems showItems head ∧
      lines = head ++ listingLines shown ∧ shown.length = idx ∧ SlotsShown t shown
  | .reset _, lines | .storeKtime _, lines | .unlock, lines => IsReport lines
  | .idle, _ | .sample _, _ | .inc _ _, _ | .record _ _, _ | .check _, _ | .trylock _, _ => False

/-- The report as a frame of the log. -/
def reportProtocol (t : OtherMsrs) : Frames.Protocol Pc Line where
  Inside := Pc.InSection
  Part := Pc.Printed t
  Whole := IsReport

/-! ## The lines of the items -/

theorem ShowItem.shows_itemLine (item : ShowItem) (s : Msrs) : item.Shows (itemLine s item) := by
  cases item with
  | heading text => rfl
  | wrmsr idx => exact ⟨_, rfl⟩

/-- The lines of more items. -/
theorem ShowsItems.append {items more : List ShowItem} {lines : List Line}
    (h : ShowsItems items lines) (s : Msrs) :
    ShowsItems (items ++ more) (lines ++ more.map (itemLine s)) := by
  obtain ⟨total, rest, rfl, hall⟩ := h
  refine ⟨total, rest ++ more.map (itemLine s), rfl, List.rel_append hall ?_⟩
  rw [List.forall₂_map_right_iff, List.forall₂_same]
  exact fun item _ => item.shows_itemLine s

/-- The next item. -/
theorem ShowsItems.next {k : Nat} {item : ShowItem} {lines : List Line}
    (h : ShowsItems (showItems.take k) lines) (hitem : showItems[k]? = some item) (s : Msrs) :
    ShowsItems (showItems.take (k + 1)) (lines ++ [itemLine s item]) := by
  rw [List.take_add_one, hitem]
  exact h.append s

/-- The items are over. -/
theorem ShowsItems.all {k : Nat} {lines : List Line} (h : ShowsItems (showItems.take k) lines)
    (hitem : showItems[k]? = none) : ShowsItems showItems lines := by
  rwa [List.take_of_length_le (List.getElem?_eq_none_iff.mp hitem)] at h

theorem ShowsItems.isReport {lines : List Line} (h : ShowsItems showItems lines) :
    IsReport lines :=
  ⟨lines, h, Or.inl rfl⟩

/-- The lines of the first items begin a report. -/
theorem ShowsItems.begins {k : Nat} {lines : List Line}
    (h : ShowsItems (showItems.take k) lines) :
    ∃ report, IsReport report ∧ lines <+: report := by
  have hall : ShowsItems (showItems.take k ++ showItems.drop k)
      (lines ++ (showItems.drop k).map (itemLine Msrs.load)) :=
    h.append Msrs.load
  rw [List.take_append_drop] at hall
  exact ⟨_, hall.isReport, List.prefix_append _ _⟩

/-! ## The lines of the table -/

/-- A number that stands in a slot stays there when another CPU records. -/
theorem SlotsShown.record {ms : List UInt32} {shown : List (UInt32 × Int)}
    (h : SlotsShown (recordOthers resetOtherWrmsr ms) shown) (m : UInt32) :
    SlotsShown (recordOtherWrmsr (recordOthers resetOtherWrmsr ms) m) shown := by
  refine ⟨h.length_le, fun k m' c hk => ?_, h.ne_zero⟩
  have hlt : k < OTHER_MSRS := Nat.lt_of_lt_of_le (List.getElem?_eq_some_iff.mp hk).1 h.length_le
  have hindex := h.index k m' c hk
  have hne : m' ≠ 0 := (h.ne_zero (m', c) (List.mem_of_getElem? hk)).1
  rw [← recordOthers_concat, indexAt_append hlt (hindex ▸ hne), hindex]

/-- The first slots hold distinct numbers. -/
theorem SlotsShown.listed {ms : List UInt32} {shown : List (UInt32 × Int)}
    (h : SlotsShown (recordOthers resetOtherWrmsr ms) shown) : Listed shown := by
  refine ⟨h.length_le, ?_, h.ne_zero⟩
  have hslot : ∀ (k : Nat) (hk : k < shown.length), k < OTHER_MSRS ∧
      (recordOthers resetOtherWrmsr ms).indexAt k = shown[k].1 ∧ shown[k].1 ≠ 0 :=
    fun k hk => ⟨Nat.lt_of_lt_of_le hk h.length_le,
      h.index k shown[k].1 shown[k].2 (List.getElem?_eq_getElem hk),
      (h.ne_zero _ (List.getElem_mem hk)).1⟩
  refine List.pairwise_iff_getElem.mpr fun i j hi hj hij heq => ?_
  rw [List.length_map] at hi hj
  rw [List.getElem_map, List.getElem_map] at heq
  obtain ⟨hilt, hindex, hne⟩ := hslot i hi
  obtain ⟨hjlt, hindex', -⟩ := hslot j hj
  have hsame := indexAt_inj hilt hjlt (hindex.trans_ne hne)
    (hindex.trans (heq.trans hindex'.symm))
  omega

/-- What `report_other_wrmsr` returns is the slot. -/
theorem slot_of_report {t : OtherMsrs} {idx : Nat} {line : UInt32 × UInt32}
    (h : reportOtherWrmsr t idx = some line) :
    t.indexAt idx = line.1 ∧ line.1 ≠ 0 ∧ line.2 ≠ 0 := by
  unfold reportOtherWrmsr at h
  split at h
  · cases h
  · rename_i slot hslot
    simp only [Option.ite_none_right_eq_some, Option.some.injEq] at h
    obtain ⟨⟨hindex, hcount⟩, rfl⟩ := h
    exact ⟨indexAt_eq hslot, hindex, hcount⟩

/-- A count that is not zero is not printed as zero. -/
theorem d_ne_zero {x : UInt32} (h : x ≠ 0) : CFormat.d x ≠ 0 := by
  intro hzero
  apply h
  rw [← UInt32.toBitVec_inj]
  exact BitVec.eq_of_toInt_eq hzero

/-- The line of the next slot. -/
theorem SlotsShown.next {t : OtherMsrs} {shown : List (UInt32 × Int)} {line : UInt32 × UInt32}
    (h : SlotsShown t shown) (hlt : shown.length < OTHER_MSRS)
    (hreport : reportOtherWrmsr t shown.length = some line) :
    SlotsShown t (shown ++ [(line.1, CFormat.d line.2)]) := by
  obtain ⟨hindex, hne, hcount⟩ := slot_of_report hreport
  refine ⟨by rw [List.length_append, List.length_singleton]; exact hlt, ?_, ?_⟩
  · intro k m c hk
    by_cases hlast : k < shown.length
    · rw [List.getElem?_append_left hlast] at hk
      exact h.index k m c hk
    · have hlen := (List.getElem?_eq_some_iff.mp hk).1
      rw [List.length_append, List.length_singleton] at hlen
      obtain rfl : k = shown.length := by omega
      rw [List.getElem?_append_right (le_refl _), Nat.sub_self, List.getElem?_cons_zero] at hk
      obtain ⟨rfl, -⟩ := Prod.mk.inj (Option.some.inj hk)
      exact hindex
  · intro shownLine hmem
    rcases List.mem_append.mp hmem with hold | hnew
    · exact h.ne_zero shownLine hold
    · rw [List.mem_singleton.mp hnew]
      exact ⟨hne, d_ne_zero hcount⟩

theorem listingLines_concat (shown : List (UInt32 × Int)) (line : UInt32 × UInt32) :
    listingLines (shown ++ [(line.1, CFormat.d line.2)]) =
      listingLines shown ++ [otherLine line] := by
  simp [listingLines, otherLine]

/-- What has been printed is the beginning of a report. -/
theorem Pc.Printed.begins {ms : List UInt32} {p : Pc} {lines : List Line}
    (h : p.Printed (recordOthers resetOtherWrmsr ms) lines) :
    ∃ report, IsReport report ∧ lines <+: report := by
  cases p with
  | printTotal now =>
    obtain rfl : lines = [] := h
    have hnone : ShowsItems (showItems.take 0) [.total 0] := ⟨0, [], rfl, List.Forall₂.nil⟩
    obtain ⟨report, hreport, -⟩ := hnone.begins
    exact ⟨report, hreport, List.nil_prefix⟩
  | setTotal now => exact ShowsItems.begins (k := 0) h
  | showItem now k => exact ShowsItems.begins h
  | otherGuard now => exact ⟨lines, ShowsItems.isReport h, List.prefix_refl _⟩
  | otherLoop now idx =>
    obtain ⟨head, shown, hhead, rfl, -, hslots⟩ := h
    exact ⟨_, ⟨head, hhead, Or.inr ⟨shown, rfl, hslots.listed⟩⟩, List.prefix_refl _⟩
  | reset | storeKtime | unlock => exact ⟨lines, h, List.prefix_refl _⟩
  | idle | sample | inc | record | check | trylock => exact h.elim

/-! ## The log -/

section Log

variable {ι : Type*} [DecidableEq ι] {s s' : State ι} {e : Event ι}

/-- The module is loaded, its gate works, and the table is one of records since
a reset.  After `base` the log is a sequence of reports. -/
structure LogInv (base : List Line) (before : Nat) (s : State ι) : Prop where
  loaded : s.init = .returned 0
  exclusive : TimedGate.Exclusive s.gate
  table : ∃ ms, s.statics.msrs.otherMsrs = recordOthers resetOtherWrmsr ms
  framed : ∃ reports part, Frames.Framed (reportProtocol s.statics.msrs.otherMsrs) base before
    s.pc s.log s.reports.length reports part

variable {base : List Line} {before : Nat}

omit [DecidableEq ι] in
/-- With the lock free, nobody is in the section. -/
theorem LogInv.outside_of_free (h : LogInv base before s)
    (hlock : s.statics.showingLock = false) (i : ι) : ¬ (s.pc i).InSection := by
  intro hi
  have hheld : s.statics.showingLock = true := h.exclusive.held_of_in i hi
  rw [hlock] at hheld
  cases hheld

omit [DecidableEq ι] in
theorem LogInv.unique (h : LogInv base before s) {i : ι} (hi : (s.pc i).InSection) (j : ι)
    (hj : (s.pc j).InSection) : j = i :=
  h.exclusive.unique j i hj hi

/-- `probe_init` is over, so nothing initialises `showing_lock` again. -/
theorem LogInv.exclusive_step (h : LogInv base before s) (hst : step s e = some s') :
    TimedGate.Exclusive s'.gate := by
  have houtside : LockInitOutside s e := by
    cases e with
    | initStep => exact fun hinit => absurd (h.loaded.symm.trans hinit) (by simp)
    | hit | sample | step | register | initSample => trivial
  exact TimedGate.exclusive_of_exec h.exclusive ((lift_reinitOutside_iff s e).mpr houtside)
    (gate_simulates hst)

/-- The table after a step is one of records since a reset. -/
theorem table_of_step (hst : step s e = some s')
    (h : ∃ ms, s.statics.msrs.otherMsrs = recordOthers resetOtherWrmsr ms) :
    ∃ ms, s'.statics.msrs.otherMsrs = recordOthers resetOtherWrmsr ms := by
  cases move_of_step hst with
  | @record i now msr _ =>
    obtain ⟨ms, hms⟩ := h
    show ∃ ms, (recordWrmsr s.statics.msrs msr).otherMsrs = _
    rw [recordWrmsr_otherMsrs, hms]
    split
    · exact ⟨ms ++ [msr], (recordOthers_concat _ _ _).symm⟩
    · exact ⟨ms, rfl⟩
  | reset | initWrmsr => exact ⟨[], rfl⟩
  | _ => exact h

theorem LogInv.step (h : LogInv base before s) (hst : step s e = some s') :
    LogInv base before s' := by
  refine ⟨init_of_step h.loaded hst, h.exclusive_step hst, table_of_step hst h.table, ?_⟩
  obtain ⟨ms, hms⟩ := h.table
  obtain ⟨reports, part, hf⟩ := h.framed
  have hin : ∀ {i : ι} {p : Pc}, s.pc i = p → p.InSection → (s.pc i).InSection :=
    fun hpc hp => hpc ▸ hp
  have hout : ∀ {i : ι} {p : Pc}, s.pc i = p → ¬ p.InSection → ¬ (s.pc i).InSection :=
    fun hpc hp => hpc ▸ hp
  cases move_of_step hst with
  | hit hpc _ | sample hpc _ | inc hpc | due hpc _ | early hpc _ | busy hpc _ =>
    exact ⟨reports, part, hf.outside (hout hpc id) id⟩
  | @record i now msr hpc =>
    -- the table grows, and whoever prints has named slots that it keeps
    have hmoved := hf.outside (p := .check now) (hout hpc id) id
    refine ⟨reports, part, hmoved.share rfl rfl fun j _ hpart => ?_⟩
    show Pc.Printed (recordWrmsr s.statics.msrs msr).otherMsrs _ part
    rw [recordWrmsr_otherMsrs]
    split
    · change Pc.Printed s.statics.msrs.otherMsrs (update s.pc i (.check now) j) part at hpart
      cases hp : update s.pc i (.check now) j with
      | otherLoop now' idx =>
        rw [hp] at hpart
        obtain ⟨head, shown, hhead, hlines, hlen, hslots⟩ := hpart
        rw [hms] at hslots ⊢
        exact ⟨head, shown, hhead, hlines, hlen, hslots.record msr⟩
      | _ =>
        rw [hp] at hpart
        exact hpart
    · exact hpart
  | lock hpc hlock =>
    exact ⟨reports, [], hf.enter (h.outside_of_free hlock) trivial rfl⟩
  | printTotal hpc =>
    have hi := hin hpc trivial
    refine ⟨reports, _, hf.write hi (h.unique hi) trivial fun hpart => ?_⟩
    rw [hpc] at hpart
    obtain rfl : part = [] := hpart
    exact ⟨_, [], rfl, List.Forall₂.nil⟩
  | setTotal hpc =>
    have hi := hin hpc trivial
    refine ⟨reports, part, hf.stay hi (h.unique hi) trivial fun hpart => ?_⟩
    rw [hpc] at hpart
    exact hpart
  | showItem hpc hitem =>
    have hi := hin hpc trivial
    refine ⟨reports, _, hf.write hi (h.unique hi) trivial fun hpart => ?_⟩
    rw [hpc] at hpart
    exact ShowsItems.next hpart hitem _
  | endItems hpc hitem =>
    have hi := hin hpc trivial
    refine ⟨reports, part, hf.stay hi (h.unique hi) trivial fun hpart => ?_⟩
    rw [hpc] at hpart
    exact ShowsItems.all hpart hitem
  | noOthers hpc _ =>
    have hi := hin hpc trivial
    refine ⟨reports, part, hf.stay hi (h.unique hi) trivial fun hpart => ?_⟩
    rw [hpc] at hpart
    exact ShowsItems.isReport hpart
  | others hpc _ =>
    have hi := hin hpc trivial
    refine ⟨reports, _, hf.write hi (h.unique hi) trivial fun hpart => ?_⟩
    rw [hpc] at hpart
    exact ⟨part, [], hpart, rfl, rfl, by simp, by simp, by simp⟩
  | @otherLine i now idx line hpc hidx hrep =>
    have hi := hin hpc trivial
    refine ⟨reports, _, hf.write hi (h.unique hi) trivial fun hpart => ?_⟩
    rw [hpc] at hpart
    obtain ⟨head, shown, hhead, rfl, rfl, hslots⟩ := hpart
    exact ⟨head, _, hhead, by rw [List.append_assoc, ← listingLines_concat], by simp,
      hslots.next hidx hrep⟩
  | endOthers hpc _ =>
    have hi := hin hpc trivial
    refine ⟨reports, part, hf.stay hi (h.unique hi) trivial fun hpart => ?_⟩
    rw [hpc] at hpart
    obtain ⟨head, shown, hhead, hlines, -, hslots⟩ := hpart
    rw [hms] at hslots
    exact ⟨head, hhead, Or.inr ⟨shown, hlines, hslots.listed⟩⟩
  | @reset i now hpc =>
    have hi := hin hpc trivial
    have hmoved := hf.stay (i := i) (p := .storeKtime now) hi (h.unique hi) (by exact trivial)
      fun hpart => by
        rw [hpc] at hpart
        exact hpart
    refine ⟨reports, part, hmoved.share rfl rfl fun j hj hpart => ?_⟩
    -- nobody else is inside, so nobody is in the middle of a listing
    rcases Frames.inside_update hj with ⟨rfl, -⟩ | ⟨hji, hj⟩
    · rw [update_self] at hpart ⊢
      exact hpart
    · exact absurd (h.unique hi j hj) hji
  | storeKtime hpc =>
    have hi := hin hpc trivial
    refine ⟨reports, part, hf.stay hi (h.unique hi) trivial fun hpart => ?_⟩
    rw [hpc] at hpart
    exact hpart
  | unlock hpc =>
    have hi := hin hpc trivial
    refine ⟨reports ++ [part], [], hf.leave hi (h.unique hi) id fun hpart => ?_⟩
    rw [hpc] at hpart
    exact hpart
  | registerOk hi _ | registerFail hi _ | lockInit hi | initTotal hi | initWrmsr hi
  | initSample hi _ | initKtime hi => cases h.loaded.symm.trans hi

/-- The log of `kvmwrmsr` is its reports.  Let `probe_init` have returned `0`,
no handler be under way, and the table be one that records since a reset have
built.  Whatever the handlers do from then on, up to `probe_exit`, the log
grows by a sequence of whole reports, one for each handler that has taken the
lock and left, and then by the lines that the handler in the section has
printed, which begin a report. -/
theorem wrmsr_log_of_reports {s₀ : State ι} {es : List (Event ι)}
    (hinit : s₀.init = .returned 0) (hidle : ∀ i, s₀.pc i = .idle)
    (htable : ∃ ms, s₀.statics.msrs.otherMsrs = recordOthers resetOtherWrmsr ms)
    (hrun : exec step s₀ es = some s) :
    ∃ (reports : List (List Line)) (part : List Line),
      s.log = s₀.log ++ reports.flatten ++ part ∧
      (∀ r ∈ reports, IsReport r) ∧
      (∃ whole, IsReport whole ∧ part <+: whole) ∧
      ((∀ i, ¬ (s.pc i).InSection) →
        part = [] ∧ s.reports.length = s₀.reports.length + reports.length) ∧
      ∀ i, (s.pc i).InSection →
        s.reports.length = s₀.reports.length + reports.length + 1 := by
  have houtside : ∀ i, ¬ (s₀.pc i).InSection := by
    intro i
    rw [hidle i]
    exact id
  have hstart : LogInv s₀.log s₀.reports.length s₀ :=
    ⟨hinit, TimedGate.exclusive_of_forall_not_inSection houtside, htable, [], [],
      Frames.framed_nil houtside⟩
  have hend : LogInv s₀.log s₀.reports.length s :=
    exec_invariant' (fun _ _ _ h hst => h.step hst) hstart hrun
  obtain ⟨ms, hms⟩ := hend.table
  obtain ⟨reports, part, hf⟩ := hend.framed
  refine ⟨reports, part, hf.log_eq, hf.whole, ?_, hf.part_of_outside,
    fun i hi => (hf.part_of_inside i hi).2⟩
  by_cases hsome : ∃ i, (s.pc i).InSection
  · obtain ⟨i, hi⟩ := hsome
    have hpart : Pc.Printed _ (s.pc i) part := (hf.part_of_inside i hi).1
    rw [hms] at hpart
    exact hpart.begins
  · rw [(hf.part_of_outside (not_exists.mp hsome)).1]
    have hempty : (Pc.printTotal 0).Printed (recordOthers resetOtherWrmsr []) [] := rfl
    exact hempty.begins

end Log

/-- CPUs `i` and `j` write the MSR `0x10`, and `j` reports. -/
def twoWrites {ι : Type*} (i j : ι) : List (Event ι) :=
  [.hit i 0x10, .sample i 5, .step i, .step i, .step i, .hit j 0x10, .sample j 1000000006] ++
    List.replicate 46 (.step j)

theorem wrmsr_log_of_reports_twoWrites : ∃ (s : State (Fin 2)) (reports : List (List Line)),
    exec step (State.started 0) (twoWrites 0 1) = some s ∧ s.log = reports.flatten ∧
      reports.length = 1 ∧ ∀ r ∈ reports, IsReport r := by
  have h : (exec step (State.started 0 : State (Fin 2)) (twoWrites 0 1)).map
      (fun s => decide ((∀ i, ¬ (s.pc i).InSection) ∧ s.reports.length = 1)) = some true := by
    decide +kernel
  obtain ⟨s, hrun, hs⟩ := exists_exec_of_map h
  obtain ⟨hout, hcount⟩ := of_decide_eq_true hs
  obtain ⟨reports, part, hlog, hall, -, hnone, -⟩ :=
    wrmsr_log_of_reports rfl (fun _ => rfl) ⟨[], rfl⟩ hrun
  obtain ⟨rfl, hlen⟩ := hnone hout
  refine ⟨s, reports, hrun, by rw [hlog, List.append_nil]; rfl, ?_, hall⟩
  rw [hcount] at hlen
  exact (hlen.trans (Nat.zero_add _)).symm

end KvmUtils.KvmWrmsr
