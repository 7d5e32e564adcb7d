import KvmUtils.Lib.Frames
import KvmUtils.KvmExitReason.Reports

/-!
# What stands in the log

A report is many lines, printed one by one while handlers on other CPUs go on
counting.  Once `probe_init` has returned and nobody is in the section, the
reports do not mix: what is added to the log is a sequence of whole reports,
one for each `spin_trylock` that has succeeded, and then the lines of the
report under way (`log_of_reports`).

The load is left out for two reasons.  `probe_init` and
`unregister_all_probes` print lines of their own, and while `init_reasons`
fills its table a report may print `EXIT_REASON_UNKNOWN` for a reason that has
a name (`Names`).

A whole report is a heading, a total and lines of reasons.  The counters move
while it is printed, so its values need not fit together, but its reasons come
in order, each at most once and with its own name, and no count is zero.
-/

namespace KvmUtils.KvmExitReason

open Function Machine

/-- The lines of reasons, each with the value that it shows. -/
def shownLines (shown : List (Nat × Int)) : List Line :=
  shown.map fun line => .reason line.1 (reason2str line.1) line.2

/-- Reasons below `n`, in order and each at most once, with counts other than
zero. -/
structure Listed (n : Nat) (shown : List (Nat × Int)) : Prop where
  sorted : (shown.map Prod.fst).Pairwise (· < ·)
  lt : ∀ line ∈ shown, line.1 < n
  ne_zero : ∀ line ∈ shown, line.2 ≠ 0

/-- The lines of one call of `show_exitreason` that reports. -/
def IsReport (lines : List Line) : Prop :=
  ∃ total shown, lines = .header :: .total total :: shownLines shown ∧ Listed REASON_NUM shown

/-- The lines that a handler at this point has printed since it has taken the
lock. -/
def Pc.Printed : Pc → List Line → Prop
  | .header _, lines => lines = []
  | .printTotal _, lines => lines = [.header]
  | .printLine _ idx, lines => ∃ total shown,
      lines = .header :: .total total :: shownLines shown ∧ Listed idx shown ∧ idx ≤ REASON_NUM
  | .setTotal _, lines | .resetReason _, lines | .storeKtime _, lines | .unlock, lines =>
    IsReport lines
  | .idle, _ | .record _, _ | .inc, _ | .sample, _ | .check _, _ | .trylock _, _ => False

/-- The report as a frame of the log. -/
def reportProtocol : Frames.Protocol Pc Line where
  Inside := Pc.InSection
  Part := Pc.Printed
  Whole := IsReport

theorem Listed.mono {m n : Nat} {shown : List (Nat × Int)} (h : Listed m shown) (hmn : m ≤ n) :
    Listed n shown :=
  ⟨h.sorted, fun line hline => Nat.lt_of_lt_of_le (h.lt line hline) hmn, h.ne_zero⟩

/-- The reason `idx` after those below it. -/
theorem Listed.concat {idx : Nat} {shown : List (Nat × Int)} {value : Int}
    (h : Listed idx shown) (hvalue : value ≠ 0) : Listed (idx + 1) (shown ++ [(idx, value)]) := by
  refine ⟨?_, ?_, ?_⟩
  · rw [List.map_append, List.map_singleton, List.pairwise_append]
    refine ⟨h.sorted, List.pairwise_singleton _ _, fun r hr r' hr' => ?_⟩
    obtain ⟨line, hline, rfl⟩ := List.mem_map.mp hr
    rw [List.mem_singleton.mp hr']
    exact h.lt line hline
  · intro line hline
    rcases List.mem_append.mp hline with hold | hnew
    · exact Nat.lt_succ_of_lt (h.lt line hold)
    · rw [List.mem_singleton.mp hnew]
      exact Nat.lt_succ_self idx
  · intro line hline
    rcases List.mem_append.mp hline with hold | hnew
    · exact h.ne_zero line hold
    · rw [List.mem_singleton.mp hnew]
      exact hvalue

/-- A word that is not zero is not printed as zero. -/
theorem ld_ne_zero {w : UInt64} (h : w ≠ 0) : CFormat.ld w ≠ 0 := by
  intro hzero
  apply h
  rw [← UInt64.toBitVec_inj]
  exact BitVec.eq_of_toInt_eq hzero

/-- The line of `idx`, or none, after the lines of the reasons below it. -/
theorem Listed.reasonLines {idx : Nat} {shown : List (Nat × Int)}
    (h : Listed idx shown) (num : ReasonsNum) : ∃ shown', Listed (idx + 1) shown' ∧
      shownLines shown ++ reasonLines num idx = shownLines shown' := by
  unfold KvmExitReason.reasonLines
  split
  · rename_i hne
    exact ⟨_, h.concat (ld_ne_zero hne), by simp [shownLines]⟩
  · exact ⟨shown, h.mono (Nat.le_succ idx), by simp⟩

/-- What has been printed is the beginning of a report. -/
theorem Pc.Printed.begins {p : Pc} {lines : List Line} (h : p.Printed lines) :
    ∃ report, IsReport report ∧ lines <+: report := by
  have hempty : IsReport [.header, .total 0] :=
    ⟨0, [], rfl, List.Pairwise.nil, by simp, by simp⟩
  cases p with
  | header now =>
    obtain rfl : lines = [] := h
    exact ⟨_, hempty, List.nil_prefix⟩
  | printTotal now =>
    obtain rfl : lines = [.header] := h
    exact ⟨_, hempty, ⟨[.total 0], rfl⟩⟩
  | printLine now idx =>
    obtain ⟨total, shown, rfl, hlisted, hidx⟩ := h
    exact ⟨_, ⟨total, shown, rfl, hlisted.mono hidx⟩, List.prefix_refl _⟩
  | setTotal | resetReason | storeKtime | unlock => exact ⟨lines, h, List.prefix_refl _⟩
  | idle | record | inc | sample | check | trylock => exact h.elim

section Log

variable {ι : Type*} [DecidableEq ι] {table : List (Option String)} {s s' : State ι}

/-- The module is loaded and its gate works, and after `base` the log is a
sequence of reports. -/
structure LogInv (base : List Line) (before : Nat) (s : State ι) : Prop where
  working : Working s
  framed : ∃ reports part,
    Frames.Framed reportProtocol base before s.pc s.log s.reports.length reports part

variable {base : List Line} {before : Nat}

omit [DecidableEq ι] in
/-- With the lock free, nobody is in the section. -/
theorem Working.outside_of_free (h : Working s) (hlock : s.showingLock = false) (i : ι) :
    ¬ (s.pc i).InSection :=
  h.shown_of_free hlock (fun _ => id) i

theorem LogInv.step {e : Event ι} (h : LogInv base before s) (hst : step table s e = some s') :
    LogInv base before s' := by
  refine ⟨h.working.step hst, ?_⟩
  obtain ⟨reports, part, hf⟩ := h.framed
  have hunique : ∀ {i : ι}, (s.pc i).InSection → ∀ j, (s.pc j).InSection → j = i :=
    fun hi j hj => h.working.unique hj hi
  have hin : ∀ {i : ι} {p : Pc}, s.pc i = p → p.InSection → (s.pc i).InSection :=
    fun hpc hp => hpc ▸ hp
  have hout : ∀ {i : ι} {p : Pc}, s.pc i = p → ¬ p.InSection → ¬ (s.pc i).InSection :=
    fun hpc hp => hpc ▸ hp
  cases move_of_step table hst with
  | hit hpc _ | sample hpc _ | record hpc | inc hpc | due hpc _ | early hpc _ | busy hpc _ =>
    exact ⟨reports, part, hf.outside (hout hpc id) id⟩
  | lock hpc hlock =>
    exact ⟨reports, [], hf.enter (h.working.outside_of_free hlock) trivial rfl⟩
  | header hpc =>
    have hi := hin hpc trivial
    refine ⟨reports, _, hf.write hi (hunique hi) trivial fun hpart => ?_⟩
    rw [hpc] at hpart
    obtain rfl : part = [] := hpart
    rfl
  | printTotal hpc =>
    have hi := hin hpc trivial
    refine ⟨reports, _, hf.write hi (hunique hi) trivial fun hpart => ?_⟩
    rw [hpc] at hpart
    obtain rfl : part = [.header] := hpart
    exact ⟨_, [], rfl, ⟨List.Pairwise.nil, by simp, by simp⟩, Nat.zero_le _⟩
  | printLine hpc hidx =>
    have hi := hin hpc trivial
    refine ⟨reports, _, hf.write hi (hunique hi) trivial fun hpart => ?_⟩
    rw [hpc] at hpart
    obtain ⟨total, shown, rfl, hlisted, -⟩ := hpart
    obtain ⟨shown', hlisted', heq⟩ := hlisted.reasonLines s.reasonsNum
    exact ⟨total, shown', by rw [List.cons_append, List.cons_append, heq], hlisted', hidx⟩
  | endLines hpc hidx =>
    have hi := hin hpc trivial
    refine ⟨reports, part, hf.stay hi (hunique hi) trivial fun hpart => ?_⟩
    rw [hpc] at hpart
    obtain ⟨total, shown, hlines, hlisted, hle⟩ := hpart
    exact ⟨total, shown, hlines, hlisted.mono hle⟩
  | setTotal hpc | resetReason hpc | storeKtime hpc =>
    have hi := hin hpc trivial
    refine ⟨reports, part, hf.stay hi (hunique hi) trivial fun hpart => ?_⟩
    rw [hpc] at hpart
    exact hpart
  | unlock hpc =>
    have hi := hin hpc trivial
    refine ⟨reports ++ [part], [], hf.leave hi (hunique hi) id fun hpart => ?_⟩
    rw [hpc] at hpart
    exact hpart
  | _ => exact ⟨reports, part, hf⟩

/-- The log is its reports.  Let `probe_init` have returned `0` and no handler
be in the section.  Whatever the handlers do from then on, up to `probe_exit`,
the log grows by a sequence of whole reports, one for each handler that has
taken the lock and left, and then by the lines that the handler in the section
has printed, which begin a report. -/
theorem log_of_reports {s₀ : State ι} {es : List (Event ι)} (hinit : s₀.init = .returned 0)
    (houtside : ∀ i, ¬ (s₀.pc i).InSection) (hrun : exec (step table) s₀ es = some s) :
    ∃ (reports : List (List Line)) (part : List Line),
      s.log = s₀.log ++ reports.flatten ++ part ∧
      (∀ r ∈ reports, IsReport r) ∧
      (∃ whole, IsReport whole ∧ part <+: whole) ∧
      ((∀ i, ¬ (s.pc i).InSection) →
        part = [] ∧ s.reports.length = s₀.reports.length + reports.length) ∧
      ∀ i, (s.pc i).InSection →
        s.reports.length = s₀.reports.length + reports.length + 1 := by
  have hstart : LogInv s₀.log s₀.reports.length s₀ :=
    ⟨⟨hinit, TimedGate.exclusive_of_forall_not_inSection houtside⟩, [], [],
      Frames.framed_nil houtside⟩
  have hend : LogInv s₀.log s₀.reports.length s :=
    exec_invariant' (fun _ _ _ h hst => h.step hst) hstart hrun
  obtain ⟨reports, part, hf⟩ := hend.framed
  refine ⟨reports, part, hf.log_eq, hf.whole, ?_, hf.part_of_outside,
    fun i hi => (hf.part_of_inside i hi).2⟩
  by_cases hsome : ∃ i, (s.pc i).InSection
  · obtain ⟨i, hi⟩ := hsome
    exact (hf.part_of_inside i hi).1.begins
  · rw [(hf.part_of_outside (not_exists.mp hsome)).1]
    exact ⟨[.header, .total 0], ⟨0, [], rfl, List.Pairwise.nil, by simp, by simp⟩,
      List.nil_prefix⟩

end Log

/-- After the load CPU `0` reports while CPU `1` counts an exit. -/
theorem log_of_reports_lostRun : ∃ (s : State (Fin 2)) (reports : List (List Line)),
    exec (step vmxHandleExitProbe) (State.started vmxHandleExitProbe 0) lostRun = some s ∧
      s.log = reports.flatten ∧ reports.length = 1 ∧ ∀ r ∈ reports, IsReport r := by
  have h : (exec (step vmxHandleExitProbe) (State.started vmxHandleExitProbe 0 : State (Fin 2))
      lostRun).map (fun s => decide ((∀ i, ¬ (s.pc i).InSection) ∧ s.reports.length = 1)) =
        some true := by
    decide +kernel
  obtain ⟨s, hrun, hs⟩ := exists_exec_of_map h
  obtain ⟨hout, hcount⟩ := of_decide_eq_true hs
  obtain ⟨reports, part, hlog, hall, -, hnone, -⟩ := log_of_reports rfl started_outside hrun
  obtain ⟨rfl, hlen⟩ := hnone hout
  refine ⟨s, reports, hrun, by rw [hlog, List.append_nil]; rfl, ?_, hall⟩
  rw [hcount] at hlen
  exact (hlen.trans (Nat.zero_add _)).symm

end KvmUtils.KvmExitReason
