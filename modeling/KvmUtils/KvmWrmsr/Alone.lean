import KvmUtils.KvmWrmsr.Interleaved
import KvmUtils.KvmWrmsr.Window

/-!
# The steps of a handler that nothing interrupts

`kpVmxSetMsr` is the handler as one function on the statics, and the machine
of `KvmWrmsr.Interleaved` takes the same code apart into steps.  Here the two
are connected: the steps of one handler, with no other step between them,
change the statics and print the lines as the function says
(`reaches_kpVmxSetMsr`).  A run of hits that do not overlap is then a run of
the machine (`reaches_runHits`), so what holds of the statics and the log of
the former holds of those of the latter.
-/

namespace KvmUtils.KvmWrmsr

open Function Machine

variable {ι : Type*} [DecidableEq ι] {s : State ι} {i : ι}

/-- The state `s`, except that the handler on CPU `i` is at `p`, has left the
statics `statics` and has printed `lines`. -/
def State.onCpu (s : State ι) (i : ι) (p : Pc) (statics : Statics) (lines : List Line) : State ι :=
  { s with statics := statics, log := s.log ++ lines, pc := update s.pc i p }

/-- One step of the handler, in these terms. -/
theorem reaches_of_handlerStep {p q : Pc} {statics statics' : Statics} {lines lines' : List Line}
    (hst : handlerStep (s.onCpu i p statics lines) i = some (s.onCpu i q statics' lines')) :
    Reaches step (s.onCpu i p statics lines) (s.onCpu i q statics' lines') :=
  .of_exec [.step i] (exec_one hst)

/-- The unconditional part of `show_wrmsr`. -/
theorem reaches_showItems (now : Int) (statics : Statics) (lines : List Line) (k : Nat) :
    Reaches step (s.onCpu i (.showItem now k) statics lines)
      (s.onCpu i (.otherGuard now) statics
        (lines ++ (showItems.drop k).map (itemLine statics.msrs))) := by
  induction hm : showItems.length - k generalizing k lines with
  | zero =>
    rw [List.drop_eq_nil_of_le (by omega), List.map_nil, List.append_nil]
    apply reaches_of_handlerStep
    have hnone : showItems[k]? = none := List.getElem?_eq_none (by omega)
    simp [handlerStep, State.onCpu, State.goto, hnone]
  | succ m ih =>
    have hk : k < showItems.length := by omega
    have hst : handlerStep (s.onCpu i (.showItem now k) statics lines) i =
        some (s.onCpu i (.showItem now (k + 1)) statics
          (lines ++ [itemLine statics.msrs showItems[k]])) := by
      simp [handlerStep, State.onCpu, State.goto, State.print, List.getElem?_eq_getElem hk]
    have hrest := ih (lines ++ [itemLine statics.msrs showItems[k]]) (k + 1) (by omega)
    rw [List.append_assoc, List.singleton_append] at hrest
    rw [List.drop_eq_getElem_cons hk, List.map_cons]
    exact (reaches_of_handlerStep hst).trans hrest

/-- The loop over the table, with `n` turns left. -/
theorem reaches_otherLoop (now : Int) (statics : Statics) (lines : List Line) {n idx : Nat}
    (hn : idx + n = OTHER_MSRS) :
    Reaches step (s.onCpu i (.otherLoop now idx) statics lines)
      (s.onCpu i (.reset now) statics
        (lines ++ (listOtherLoop statics.msrs.otherMsrs n idx).map otherLine)) := by
  induction n generalizing idx lines with
  | zero =>
    rw [listOtherLoop, List.map_nil, List.append_nil]
    apply reaches_of_handlerStep
    have hend : ¬ idx < OTHER_MSRS := by omega
    simp [handlerStep, State.onCpu, State.goto, hend]
  | succ n ih =>
    have hidx : idx < OTHER_MSRS := by omega
    cases hrep : reportOtherWrmsr statics.msrs.otherMsrs idx with
    | none =>
      rw [listOtherLoop, hrep, List.map_nil, List.append_nil]
      apply reaches_of_handlerStep
      simp [handlerStep, State.onCpu, State.goto, hidx, hrep]
    | some line =>
      have hst : handlerStep (s.onCpu i (.otherLoop now idx) statics lines) i =
          some (s.onCpu i (.otherLoop now (idx + 1)) statics (lines ++ [otherLine line])) := by
        simp [handlerStep, State.onCpu, State.goto, State.print, hidx, hrep]
      have hnext : idx + 1 + n = OTHER_MSRS := by omega
      have hrest := ih (lines ++ [otherLine line]) hnext
      rw [List.append_assoc, List.singleton_append] at hrest
      rw [listOtherLoop, hrep, List.map_cons]
      exact (reaches_of_handlerStep hst).trans hrest

theorem reaches_otherGuard (now : Int) (statics : Statics) (lines : List Line) :
    Reaches step (s.onCpu i (.otherGuard now) statics lines)
      (s.onCpu i (.reset now) statics (lines ++ showOthers statics.msrs.otherMsrs)) := by
  cases hrep : reportOtherWrmsr statics.msrs.otherMsrs 0 with
  | none =>
    apply reaches_of_handlerStep
    simp [handlerStep, State.onCpu, State.goto, showOthers, hrep]
  | some line =>
    have hst : handlerStep (s.onCpu i (.otherGuard now) statics lines) i =
        some (s.onCpu i (.otherLoop now 0) statics
          (lines ++ [.text "OTHER MSRS STATISTIC"])) := by
      simp [handlerStep, State.onCpu, State.goto, State.print, hrep]
    have hloop := reaches_otherLoop (s := s) (i := i) now statics
      (lines ++ [.text "OTHER MSRS STATISTIC"]) (Nat.zero_add OTHER_MSRS)
    rw [List.append_assoc, List.singleton_append] at hloop
    rw [showOthers, hrep]
    exact (reaches_of_handlerStep hst).trans hloop

/-- The report, from the lock to the unlock. -/
theorem reaches_report {now : Int} {statics : Statics} :
    Reaches step (s.onCpu i (.printTotal now) statics [])
      (s.onCpu i .idle
        { ktime := now, showingLock := false, totalWrmsr := 0, msrs := resetWrmsr statics.msrs }
        (.total (CFormat.ld statics.totalWrmsr) :: showWrmsr statics.msrs)) := by
  have htotal : exec step (s.onCpu i (.printTotal now) statics []) [.step i, .step i] =
      some (s.onCpu i (.showItem now 0) { statics with totalWrmsr := 0 }
        [.total (CFormat.ld statics.totalWrmsr)]) := by
    simp [exec, step, handlerStep, State.onCpu, State.goto, State.print, State.store]
  have hitems := reaches_showItems (s := s) (i := i) now { statics with totalWrmsr := 0 }
    [.total (CFormat.ld statics.totalWrmsr)] 0
  have hothers := reaches_otherGuard (s := s) (i := i) now { statics with totalWrmsr := 0 }
    ([.total (CFormat.ld statics.totalWrmsr)] ++
      (showItems.drop 0).map (itemLine statics.msrs))
  have hend : exec step (s.onCpu i (.reset now) { statics with totalWrmsr := 0 }
      ([.total (CFormat.ld statics.totalWrmsr)] ++
        (showItems.drop 0).map (itemLine statics.msrs) ++ showOthers statics.msrs.otherMsrs))
      [.step i, .step i, .step i] = some (s.onCpu i .idle
        { ktime := now, showingLock := false, totalWrmsr := 0, msrs := resetWrmsr statics.msrs }
        (.total (CFormat.ld statics.totalWrmsr) :: showWrmsr statics.msrs)) := by
    simp [exec, step, handlerStep, State.onCpu, State.goto, State.store, showWrmsr]
  exact ((Reaches.of_exec _ htotal).trans hitems).trans (hothers.trans (.of_exec _ hend))

/-- A handler that nothing interrupts is `kpVmxSetMsr`. -/
theorem reaches_kpVmxSetMsr {t : Int} (hreg : s.registered = true) (hidle : s.pc i = .idle)
    (hclock : s.clock ≤ t) (msr : UInt32) :
    ∃ reports, Reaches step s { s with
      statics := (kpVmxSetMsr s.statics t msr).1
      log := s.log ++ (kpVmxSetMsr s.statics t msr).2
      clock := t
      incs := s.incs + 1
      reports := reports } := by
  have hback : update s.pc i .idle = s.pc := by rw [← hidle, update_eq_self]
  -- the hit, the clock reading and the two counters
  have hcount : exec step s [.hit i msr, .sample i t, .step i, .step i] =
      some ({ s with clock := t, incs := s.incs + 1 }.onCpu i (.check t)
        { s.statics with
          totalWrmsr := s.statics.totalWrmsr + 1
          msrs := recordWrmsr s.statics.msrs msr } []) := by
    simp [exec, step, handlerStep, State.onCpu, State.goto, State.store, hreg, hidle, hclock]
  by_cases hdue : isDue t s.statics.ktime = true
  · by_cases hlock : s.statics.showingLock = true
    · refine ⟨s.reports, (Reaches.of_exec _ hcount).trans (.of_exec [.step i, .step i] ?_)⟩
      simp [exec, step, handlerStep, State.onCpu, State.goto, kpVmxSetMsr, hdue, hlock, hback]
    · have henter : exec step ({ s with clock := t, incs := s.incs + 1 }.onCpu i (.check t)
          { s.statics with
            totalWrmsr := s.statics.totalWrmsr + 1
            msrs := recordWrmsr s.statics.msrs msr } []) [.step i, .step i] =
          some ({ s with clock := t, incs := s.incs + 1, reports := t :: s.reports }.onCpu i
            (.printTotal t)
            { s.statics with
              totalWrmsr := s.statics.totalWrmsr + 1
              msrs := recordWrmsr s.statics.msrs msr
              showingLock := true } []) := by
        simp [exec, step, handlerStep, State.onCpu, State.goto, State.store, hdue, hlock]
      have hall := ((Reaches.of_exec _ hcount).trans (.of_exec _ henter)).trans reaches_report
      refine ⟨t :: s.reports, ?_⟩
      simpa [State.onCpu, kpVmxSetMsr, hdue, hlock, hback] using hall
  · refine ⟨s.reports, (Reaches.of_exec _ hcount).trans (.of_exec [.step i] ?_)⟩
    simp [exec, step, handlerStep, State.onCpu, State.goto, kpVmxSetMsr, hdue, hback]

omit [DecidableEq ι] in
/-- `probe_init` that nothing interrupts is `probeInit`. -/
theorem probeInit_load (t : Int) :
    probeInit Statics.load 0 t = some (State.started t : State ι).statics := rfl

/-- Hits on any CPUs that do not overlap, at times that do not decrease. -/
theorem reaches_runHits {start : Int} {hits : List (ι × Hit)}
    (hsorted : (start :: hits.map fun hit => hit.2.now).Pairwise (· ≤ ·)) :
    ∃ s : State ι, Reaches step (State.started start) s ∧
      (∀ j, s.pc j = .idle) ∧ s.registered = true ∧
      (s.clock = start ∨ ∃ hit ∈ hits, s.clock = hit.2.now) ∧
      s.statics = (runHits (State.started start : State ι).statics (hits.map Prod.snd)).statics ∧
      s.log = (runHits (State.started start : State ι).statics (hits.map Prod.snd)).log := by
  induction hits using List.reverseRecOn with
  | nil => exact ⟨_, .refl _, fun _ => rfl, rfl, Or.inl rfl, rfl, rfl⟩
  | append_singleton hits hit ih =>
    rw [List.map_append, ← List.cons_append, List.pairwise_append] at hsorted
    obtain ⟨s, hreach, hidle, hreg, hclock, hstatics, hlog⟩ := ih hsorted.1
    have hle : s.clock ≤ hit.2.now := by
      refine hsorted.2.2 s.clock ?_ hit.2.now (by simp)
      rcases hclock with hstart | ⟨hit', hmem, hnow⟩
      · rw [hstart]
        exact List.mem_cons_self
      · rw [hnow]
        exact List.mem_cons_of_mem _ (List.mem_map_of_mem hmem)
    obtain ⟨reports, hlast⟩ := reaches_kpVmxSetMsr hreg (hidle hit.1) hle hit.2.msr
    refine ⟨_, hreach.trans hlast, hidle, hreg, Or.inr ⟨hit, by simp, rfl⟩, ?_, ?_⟩
    · simp only [List.map_append, List.map_singleton, runHits_concat, Run.hit, hstatics]
    · simp only [List.map_append, List.map_singleton, runHits_concat, Run.hit, hstatics, hlog]

end KvmUtils.KvmWrmsr
