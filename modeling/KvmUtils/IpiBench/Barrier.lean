import KvmUtils.IpiBench.Counters

/-!
# The start barrier of one benchmark

A worker passes the barrier when it has read `ready_to_run` no smaller than
`should_run`, and it gives up when a second read shows the two unequal.  With
one benchmark and zeroed counters the second case does not arise:
`ready_to_run` never exceeds the number of created workers, so it has reached
`should_run` exactly when all workers exist and have arrived
(`all_readied`).  From there the counter no longer moves.
-/

namespace KvmUtils.IpiBench

open Function Machine

/-- One benchmark is about to create its workers: the counters are zero,
`should_run` is set and no worker exists. -/
structure Launching (job : Job) (s : State) : Prop where
  first : s.job = 0
  main : s.main = .launch 0
  ready : s.ready = 0
  should : s.should = job.shouldRun
  complete : s.complete = 0
  pc : ∀ w, s.pc w = .absent
  launched : s.launched = ∅
  stored : ∀ w, s.stored w = []
  feasible : job.Feasible

/-- The worker has left the loop of the barrier. -/
def Pc.PastSpin : Pc → Prop
  | .absent | .sampleForked | .storeForked _ | .addReady | .spinReady | .spinShould _ => False
  | _ => True

/-- The main thread is past its store of `should_run`, in the one benchmark
there is. -/
def State.PastShould (s : State) : Prop :=
  s.job = 0 ∧ (s.main.Built ∨ s.main = .free) ∨
    s.job = 1 ∧ (s.main = .next ∨ s.main = .returned)

/-- The barrier holds: nobody is past the loop before `ready_to_run` has
reached `should_run`, and the times of the workers are in order. -/
structure Barrier (job : Job) (s : State) : Prop where
  counted : Counted [job] s
  past_should : s.PastShould
  should_eq : s.should = job.shouldRun
  spin : ∀ w ready, s.pc w = .spinShould ready → ready ≤ s.ready
  past : ∀ w, (s.pc w).PastSpin → s.ready = s.should
  check : ∀ w ready, s.pc w = .checkShould ready → ready = s.should
  no_bug : ∀ w, s.pc w ≠ .bug
  sampled : ∀ w t, s.pc w = .storeForked t → t ≤ s.clock
  forked : ∀ w, .forked ∈ s.stored w → (s.args w).field .forked ≤ s.clock
  sampled_start : ∀ w t, s.pc w = .storeStart t →
    ∀ v, .forked ∈ s.stored v → (s.args v).field .forked ≤ t
  start : ∀ w, .start ∈ s.stored w →
    ∀ v, .forked ∈ s.stored v → (s.args v).field .forked ≤ (s.args w).field .start

section Barrier

variable {job : Job} {s s' : State}

/-- `ready_to_run` does not exceed the number of workers. -/
theorem Counted.ready_le (h : Counted [job] s) {w : Worker} (hw : w ∈ s.launched) :
    s.ready ≤ job.shouldRun := by
  have hsub : s.launched ⊆ workers 0 job.shouldRun.toNat := h.launched_subset rfl h.only_first
  have hmem := mem_workers.mp (hsub hw)
  have hcard := Finset.card_le_card hsub
  rw [card_workers] at hcard
  have hcensus : census s.launched Pc.HasReadied s.pc ≤ s.launched.card := census.le_card
  have hready := h.ready_eq
  omega

/-- When `ready_to_run` has reached `should_run`, every worker exists and has
added one to it. -/
theorem Barrier.all_readied (h : Barrier job s) (hready : s.ready = s.should) :
    ∀ i < job.shouldRun.toNat, (0, i) ∈ s.launched ∧ (s.pc (0, i)).HasReadied := by
  refine h.counted.all_of_census rfl h.counted.only_first ?_
  rw [← h.counted.ready_eq, hready, h.should_eq]

/-- While a worker has not arrived, nobody is past the loop. -/
theorem Barrier.not_pastSpin (h : Barrier job s) {w : Worker} (hw : w ∈ s.launched)
    (hnot : ¬ (s.pc w).HasReadied) (v : Worker) : ¬ (s.pc v).PastSpin := by
  intro hv
  have hsub : s.launched ⊆ workers 0 job.shouldRun.toNat :=
    h.counted.launched_subset rfl h.counted.only_first
  have hmem := mem_workers.mp (hsub hw)
  have hall := h.all_readied (h.past v hv) w.2 hmem.2
  rw [← hmem.1] at hall
  exact hnot hall.2

/-! ## Steps of a worker -/

/-- When one worker moves, a worker is at the new point or where it was. -/
theorem pc_update (s : State) (w : Worker) (p : Pc) (v : Worker) :
    update s.pc w p v = p ∨ update s.pc w p v = s.pc v := by
  by_cases hvw : v = w
  · subst hvw
    exact Or.inl (update_self v p s.pc)
  · exact Or.inr (update_of_ne hvw p s.pc)

/-- Nobody gets past the loop by the move of a worker that stays before its
end. -/
theorem not_pastSpin_update {w : Worker} {p : Pc} (hnone : ∀ v, ¬ (s.pc v).PastSpin)
    (hp : ¬ p.PastSpin) (v : Worker) : ¬ (update s.pc w p v).PastSpin := by
  intro hv
  rcases pc_update s w p v with hat | hsame
  · exact hp (hat ▸ hv)
  · exact hnone v (hsame ▸ hv)

/-- The step leaves the stored times of `forked` and `start` alone. -/
structure SameTimes (s s' : State) : Prop where
  mem : ∀ v f, f = .forked ∨ f = .start → (f ∈ s'.stored v ↔ f ∈ s.stored v)
  field : ∀ v f, f = .forked ∨ f = .start → (s'.args v).field f = (s.args v).field f

theorem sameTimes_store {w : Worker} {f : Field} {v : UInt64} {p : Pc}
    (hforked : f ≠ .forked) (hstart : f ≠ .start) : SameTimes s ((s.store w f v).goto w p) := by
  have hne : ∀ g, g = .forked ∨ g = .start → g ≠ f := by
    rintro g (rfl | rfl)
    · exact hforked.symm
    · exact hstart.symm
  constructor <;> intro u g hg <;> have hgf := hne g hg <;> by_cases huw : u = w
  · subst huw
    simp [State.goto, State.store, hgf]
  · simp [State.goto, State.store, huw]
  · subst huw
    simp [State.goto, State.store, hgf]
  · simp [State.goto, State.store, huw]

/-- A step of worker `w` to `p` that adds nothing to `ready_to_run` and stores
no `forked` or `start`. -/
theorem Barrier.worker_of_sameTimes {w : Worker} {p : Pc} (h : Barrier job s)
    (hframe : WorkerFrame s w s') (hcounted : Counted [job] s') (hpc : s'.pc = update s.pc w p)
    (hready : s'.ready = s.ready) (hclock : s.clock ≤ s'.clock) (htimes : SameTimes s s')
    (hspin : ∀ ready, p = .spinShould ready → ready ≤ s.ready)
    (hpast : p.PastSpin → s.ready = s.should)
    (hcheck : ∀ ready, p = .checkShould ready → ready = s.should) (hbug : p ≠ .bug)
    (hsampled : ∀ t, p = .storeForked t → t ≤ s'.clock)
    (hstart : ∀ t, p = .storeStart t →
      ∀ v, .forked ∈ s.stored v → (s.args v).field .forked ≤ t) : Barrier job s' := by
  have hcases : ∀ v, s'.pc v = p ∨ s'.pc v = s.pc v := by
    rw [hpc]
    exact pc_update s w p
  have hforked : ∀ v, .forked ∈ s'.stored v ↔ .forked ∈ s.stored v :=
    fun v => htimes.mem v _ (Or.inl rfl)
  have hvalue : ∀ v, (s'.args v).field .forked = (s.args v).field .forked :=
    fun v => htimes.field v _ (Or.inl rfl)
  refine ⟨hcounted, ?_, hframe.should.trans h.should_eq, ?_, ?_, ?_, ?_, ?_, ?_, ?_, ?_⟩
  · unfold State.PastShould
    rw [hframe.main, hframe.job]
    exact h.past_should
  · intro v ready hv
    rw [hready]
    rcases hcases v with hp | hsame
    · exact hspin ready (hp.symm.trans hv)
    · exact h.spin v ready (hsame.symm.trans hv)
  · intro v hv
    rw [hready, hframe.should]
    rcases hcases v with hp | hsame
    · exact hpast (hp ▸ hv)
    · exact h.past v (hsame ▸ hv)
  · intro v ready hv
    rw [hframe.should]
    rcases hcases v with hp | hsame
    · exact hcheck ready (hp.symm.trans hv)
    · exact h.check v ready (hsame.symm.trans hv)
  · intro v hv
    rcases hcases v with hp | hsame
    · exact hbug (hp.symm.trans hv)
    · exact h.no_bug v (hsame.symm.trans hv)
  · intro v t hv
    rcases hcases v with hp | hsame
    · exact hsampled t (hp.symm.trans hv)
    · exact UInt64.le_trans (h.sampled v t (hsame.symm.trans hv)) hclock
  · intro v hv
    rw [hvalue]
    exact UInt64.le_trans (h.forked v ((hforked v).mp hv)) hclock
  · intro v t hv u hu
    rw [hvalue]
    rcases hcases v with hp | hsame
    · exact hstart t (hp.symm.trans hv) u ((hforked u).mp hu)
    · exact h.sampled_start v t (hsame.symm.trans hv) u ((hforked u).mp hu)
  · intro v hv u hu
    rw [hvalue, htimes.field v _ (Or.inr rfl)]
    exact h.start v ((htimes.mem v _ (Or.inr rfl)).mp hv) u ((hforked u).mp hu)

theorem Pc.InBody.pastSpin {p : Pc} (h : p.InBody) : p.PastSpin := by
  cases p <;> first | exact h.elim | trivial

theorem Pc.pastSpin_of_pastStart {p : Pc} (h : Pc.PastStore .start p) : p.PastSpin := by
  cases p <;> first | exact h.elim | trivial

theorem Pc.pastSpin_of_eq {p q : Pc} (h : q = p) (hp : p.PastSpin) : q.PastSpin := h ▸ hp

theorem Pc.pastForked_of_hasReadied {p : Pc} (h : p.HasReadied) : Pc.PastStore .forked p := by
  cases p <;> first | exact h.elim | trivial

theorem sameTimes_goto {t : UInt64} {w : Worker} {p : Pc} :
    SameTimes s ({ s with clock := t }.goto w p) :=
  ⟨fun _ _ _ => Iff.rfl, fun _ _ _ => rfl⟩

/-- The worker that adds one to `ready_to_run` proves that nobody was past
the loop. -/
theorem Barrier.addReady {w : Worker} (h : Barrier job s) (hpc : s.pc w = .addReady) :
    Barrier job ({ s with ready := s.ready + 1 }.goto w .spinReady) := by
  have hmove := WorkerMove.addReady hpc
  have hw : w ∈ s.launched := (h.counted.mem_launched w).mpr hmove.frame.present
  have hnone := h.not_pastSpin hw (by rw [hpc]; exact id)
  have hpc' := pc_update s w Pc.spinReady
  have hnone' := not_pastSpin_update (w := w) (p := Pc.spinReady) hnone id
  refine ⟨h.counted.worker hmove, h.past_should, h.should_eq, ?_, ?_, ?_, ?_, ?_, h.forked, ?_,
    h.start⟩
  · intro v ready hv
    show ready ≤ s.ready + 1
    rcases hpc' v with hp | hsame
    · cases hp.symm.trans hv
    · have hle := h.spin v ready (hsame.symm.trans hv)
      omega
  · exact fun v hv => absurd hv (hnone' v)
  · intro v ready hv
    exact absurd (Pc.pastSpin_of_eq hv trivial) (hnone' v)
  · intro v hv
    exact absurd (Pc.pastSpin_of_eq hv trivial) (hnone' v)
  · intro v t hv
    rcases hpc' v with hp | hsame
    · cases hp.symm.trans hv
    · exact h.sampled v t (hsame.symm.trans hv)
  · intro v t hv
    exact absurd (Pc.pastSpin_of_eq hv trivial) (hnone' v)

/-- A worker that stores `forked` has not arrived, so no start time is
stored yet. -/
theorem Barrier.storeForked {w : Worker} {t : UInt64} (h : Barrier job s)
    (hpc : s.pc w = .storeForked t) : Barrier job ((s.store w .forked t).goto w .addReady) := by
  have hmove := WorkerMove.storeForked hpc
  have hcounted := h.counted.worker hmove
  have hw : w ∈ s.launched := (h.counted.mem_launched w).mpr hmove.frame.present
  have hnone := h.not_pastSpin hw (by rw [hpc]; exact id)
  have hpc' := pc_update s w Pc.addReady
  have hnone' := not_pastSpin_update (w := w) (p := Pc.addReady) hnone id
  refine ⟨hcounted, h.past_should, h.should_eq, ?_, ?_, ?_, ?_, ?_, ?_, ?_, ?_⟩
  · intro v ready hv
    rcases hpc' v with hp | hsame
    · cases hp.symm.trans hv
    · exact h.spin v ready (hsame.symm.trans hv)
  · exact fun v hv => absurd hv (hnone' v)
  · exact fun v ready hv => absurd (Pc.pastSpin_of_eq hv trivial) (hnone' v)
  · exact fun v hv => absurd (Pc.pastSpin_of_eq hv trivial) (hnone' v)
  · intro v t' hv
    rcases hpc' v with hp | hsame
    · cases hp.symm.trans hv
    · exact h.sampled v t' (hsame.symm.trans hv)
  · intro v hv
    show ((s.store w .forked t).args v).field .forked ≤ s.clock
    by_cases hvw : v = w
    · subst hvw
      simpa [State.store] using h.sampled v t hpc
    · have hmem : .forked ∈ s.stored v := by simpa [State.store, State.goto, hvw] using hv
      simpa [State.store, hvw] using h.forked v hmem
  · exact fun v t' hv => absurd (Pc.pastSpin_of_eq hv trivial) (hnone' v)
  · intro v hv
    have hpast := Pc.pastSpin_of_pastStart ((hcounted.stored v .start (by simp)).mp hv)
    exact absurd hpast (hnone' v)

theorem Barrier.storeStart {w : Worker} {t : UInt64} (h : Barrier job s)
    (hpc : s.pc w = .storeStart t) : Barrier job ((s.store w .start t).goto w .enter) := by
  have hmove := WorkerMove.storeStart hpc
  have hready : s.ready = s.should := h.past w (Pc.pastSpin_of_eq hpc trivial)
  have hpc' := pc_update s w Pc.enter
  have hmem : ∀ v, .forked ∈ (s.store w .start t).stored v ↔ .forked ∈ s.stored v := by
    intro v
    by_cases hvw : v = w
    · subst hvw
      simp [State.store]
    · simp [State.store, hvw]
  have hvalue : ∀ v, ((s.store w .start t).args v).field .forked = (s.args v).field .forked := by
    intro v
    by_cases hvw : v = w
    · subst hvw
      simp [State.store]
    · simp [State.store, hvw]
  refine ⟨h.counted.worker hmove, h.past_should, h.should_eq, ?_, ?_, ?_, ?_, ?_, ?_, ?_, ?_⟩
  · intro v ready hv
    rcases hpc' v with hp | hsame
    · cases hp.symm.trans hv
    · exact h.spin v ready (hsame.symm.trans hv)
  · exact fun _ _ => hready
  · intro v ready hv
    rcases hpc' v with hp | hsame
    · cases hp.symm.trans hv
    · exact h.check v ready (hsame.symm.trans hv)
  · intro v hv
    rcases hpc' v with hp | hsame
    · cases hp.symm.trans hv
    · exact h.no_bug v (hsame.symm.trans hv)
  · intro v t' hv
    rcases hpc' v with hp | hsame
    · cases hp.symm.trans hv
    · exact h.sampled v t' (hsame.symm.trans hv)
  · intro v hv
    show ((s.store w .start t).args v).field .forked ≤ s.clock
    rw [hvalue]
    exact h.forked v ((hmem v).mp hv)
  · intro v t' hv u hu
    show ((s.store w .start t).args u).field .forked ≤ t'
    rw [hvalue]
    rcases hpc' v with hp | hsame
    · cases hp.symm.trans hv
    · exact h.sampled_start v t' (hsame.symm.trans hv) u ((hmem u).mp hu)
  · intro v hv u hu
    show ((s.store w .start t).args u).field .forked ≤ ((s.store w .start t).args v).field .start
    rw [hvalue]
    by_cases hvw : v = w
    · subst hvw
      simpa [State.store] using h.sampled_start v t hpc u ((hmem u).mp hu)
    · have hv' : .start ∈ s.stored v := by simpa [State.store, State.goto, hvw] using hv
      simpa [State.store, hvw] using h.start v hv' u ((hmem u).mp hu)

theorem Barrier.worker {w : Worker} (h : Barrier job s) (hmove : WorkerMove s w s') :
    Barrier job s' := by
  have hframe := hmove.frame
  have hcounted := h.counted.worker hmove
  cases hmove with
  | addReady hpc => exact h.addReady hpc
  | storeForked hpc => exact h.storeForked hpc
  | storeStart hpc => exact h.storeStart hpc
  | @sampleForked t hpc hclock =>
    exact h.worker_of_sameTimes hframe hcounted rfl rfl hclock sameTimes_goto (by simp)
      (fun hp => hp.elim) (by simp) (by simp) (fun t' ht => by cases ht; exact UInt64.le_refl _)
      (by simp)
  | spinReady hpc =>
    exact h.worker_of_sameTimes hframe hcounted rfl rfl (UInt64.le_refl _) sameTimes_goto
      (fun r hr => by cases hr; exact le_refl _) (fun hp => hp.elim) (by simp) (by simp)
      (by simp) (by simp)
  | spin hpc _ =>
    exact h.worker_of_sameTimes hframe hcounted rfl rfl (UInt64.le_refl _) sameTimes_goto
      (by simp) (fun hp => hp.elim) (by simp) (by simp) (by simp) (by simp)
  | @leave ready hpc hge =>
    -- the counter cannot have passed `should_run`
    have hspin := h.spin w ready hpc
    have hw : w ∈ s.launched := (h.counted.mem_launched w).mpr hframe.present
    have hle := h.counted.ready_le hw
    have hshould := h.should_eq
    exact h.worker_of_sameTimes hframe hcounted rfl rfl (UInt64.le_refl _) sameTimes_goto
      (by simp) (fun _ => by omega) (by simp) (by simp) (by simp) (by simp)
  | checkReady hpc =>
    have hready := h.past w (Pc.pastSpin_of_eq hpc trivial)
    exact h.worker_of_sameTimes hframe hcounted rfl rfl (UInt64.le_refl _) sameTimes_goto
      (by simp) (fun _ => hready) (fun r hr => by cases hr; exact hready) (by simp) (by simp)
      (by simp)
  | bug hpc hne => exact absurd (h.check w _ hpc) hne
  | pass hpc _ | wake hpc | addComplete hpc =>
    have hready := h.past w (Pc.pastSpin_of_eq hpc trivial)
    exact h.worker_of_sameTimes hframe hcounted rfl rfl (UInt64.le_refl _)
      ⟨fun _ _ _ => Iff.rfl, fun _ _ _ => rfl⟩ (by simp) (fun _ => hready) (by simp) (by simp)
      (by simp) (by simp)
  | sampleStart hpc hclock =>
    have hready := h.past w (Pc.pastSpin_of_eq hpc trivial)
    refine h.worker_of_sameTimes hframe hcounted rfl rfl hclock sameTimes_goto (by simp)
      (fun _ => hready) (by simp) (by simp) (by simp) ?_
    intro t' ht v hv
    cases ht
    exact UInt64.le_trans (h.forked v hv) hclock
  | sampleFinish hpc hclock =>
    have hready := h.past w (Pc.pastSpin_of_eq hpc trivial)
    exact h.worker_of_sameTimes hframe hcounted rfl rfl hclock sameTimes_goto (by simp)
      (fun _ => hready) (by simp) (by simp) (by simp) (by simp)
  | @body t p hpc hp hclock =>
    have hready := h.past w hpc.pastSpin
    refine h.worker_of_sameTimes hframe hcounted rfl rfl hclock sameTimes_goto ?_
      (fun _ => hready) ?_ ?_ ?_ ?_
    · rintro r rfl
      exact hp.elim
    · rintro r rfl
      exact hp.elim
    · rintro rfl
      exact hp.elim
    · rintro t' rfl
      exact hp.elim
    · rintro t' rfl
      exact hp.elim
  | storeIpitime hpc | storeFinish hpc | runDelay hpc =>
    have hready := h.past w (Pc.pastSpin_of_eq hpc trivial)
    exact h.worker_of_sameTimes hframe hcounted rfl rfl (UInt64.le_refl _)
      (sameTimes_store (by simp) (by simp)) (by simp) (fun _ => hready) (by simp) (by simp)
      (by simp) (by simp)

/-! ## Steps of the main thread -/

/-- Once `should_run` is set, the main thread touches neither the barrier nor
the times. -/
structure MainFrame (s s' : State) : Prop where
  ready : s'.ready = s.ready
  should : s'.should = s.should
  clock : s.clock ≤ s'.clock
  args : s'.args = s.args
  stored : s'.stored = s.stored
  pc : ∀ w, s'.pc w = s.pc w ∨ s'.pc w = .sampleForked
  past_should : s'.PastShould

theorem mainFrame_of_move {e : Event} (hpast : s.PastShould)
    (hmove : MainMove [job] s e s') : MainFrame s s' := by
  unfold State.PastShould at hpast
  have hzero : s.main ≠ .next → s.main ≠ .returned → s.job = 0 := by
    intro hnext hreturned
    rcases hpast with ⟨hjob, -⟩ | ⟨-, hmain | hmain⟩
    · exact hjob
    · exact absurd hmain hnext
    · exact absurd hmain hreturned
  cases hmove with
  | stop hmain hnone =>
    rw [hmain] at hpast
    rcases hpast with ⟨-, hbuilt | hfree⟩ | ⟨hone, -⟩
    · exact hbuilt.elim
    · cases hfree
    · exact ⟨rfl, rfl, UInt64.le_refl _, rfl, rfl, fun _ => Or.inl rfl,
        Or.inr ⟨hone, Or.inr rfl⟩⟩
  | begin hmain hjob =>
    rw [hmain] at hpast
    rcases hpast with ⟨-, hbuilt | hfree⟩ | ⟨hone, -⟩
    · exact hbuilt.elim
    · cases hfree
    · rw [hone] at hjob
      cases hjob
  | alloc hmain | noMemory hmain | setShould hmain | build hmain | buildFail hmain =>
    rw [hmain] at hpast
    simp [MainPc.Built] at hpast
  | @launch _ i hmain _ _ =>
    refine ⟨rfl, rfl, UInt64.le_refl _, rfl, rfl, fun w => ?_,
      Or.inl ⟨hzero (by simp [hmain]) (by simp [hmain]), Or.inl trivial⟩⟩
    by_cases hw : w = (s.job, i)
    · subst hw
      exact Or.inr (update_self _ _ s.pc)
    · exact Or.inl (update_of_ne hw _ s.pc)
  | launchFail hmain | report hmain =>
    exact ⟨rfl, rfl, UInt64.le_refl _, rfl, rfl, fun _ => Or.inl rfl,
      Or.inl ⟨hzero (by simp [hmain]) (by simp [hmain]), Or.inl trivial⟩⟩
  | endLaunch hmain _ _ hp | waitReturn hmain _ hp =>
    rcases hp with rfl | rfl <;>
      exact ⟨rfl, rfl, UInt64.le_refl _, rfl, rfl, fun _ => Or.inl rfl,
        Or.inl ⟨hzero (by simp [hmain]) (by simp [hmain]), Or.inl trivial⟩⟩
  | sampleStart hmain hclock | sampleEnd hmain hclock =>
    exact ⟨rfl, rfl, hclock, rfl, rfl, fun _ => Or.inl rfl,
      Or.inl ⟨hzero (by simp [hmain]) (by simp [hmain]), Or.inl trivial⟩⟩
  | endReport hmain =>
    exact ⟨rfl, rfl, UInt64.le_refl _, rfl, rfl, fun _ => Or.inl rfl,
      Or.inl ⟨hzero (by simp [hmain]) (by simp [hmain]), Or.inr rfl⟩⟩
  | free hmain =>
    have hjob : s.job + 1 = 1 := by rw [hzero (by simp [hmain]) (by simp [hmain])]
    exact ⟨rfl, rfl, UInt64.le_refl _, rfl, rfl, fun _ => Or.inl rfl,
      Or.inr ⟨hjob, Or.inl rfl⟩⟩

theorem Barrier.main {e : Event} (h : Barrier job s) (hmove : MainMove [job] s e s') :
    Barrier job s' := by
  have hf := mainFrame_of_move h.past_should hmove
  -- a created worker is at none of the points that the barrier speaks of
  have hsame : ∀ {w p}, p ≠ .sampleForked → s'.pc w = p → s.pc w = p := by
    intro w p hp hw
    rcases hf.pc w with hkeep | hnew
    · exact hkeep.symm.trans hw
    · exact absurd (hw.symm.trans hnew) hp
  refine ⟨h.counted.main hmove, hf.past_should, hf.should.trans h.should_eq, ?_, ?_, ?_, ?_, ?_,
    ?_, ?_, ?_⟩
  · intro w ready hw
    rw [hf.ready]
    exact h.spin w ready (hsame (by simp) hw)
  · intro w hw
    rw [hf.ready, hf.should]
    rcases hf.pc w with hkeep | hnew
    · exact h.past w (hkeep ▸ hw)
    · rw [hnew] at hw
      exact hw.elim
  · intro w ready hw
    rw [hf.should]
    exact h.check w ready (hsame (by simp) hw)
  · exact fun w hw => h.no_bug w (hsame (by simp) hw)
  · intro w t hw
    exact UInt64.le_trans (h.sampled w t (hsame (by simp) hw)) hf.clock
  · intro w hw
    rw [hf.stored] at hw
    rw [hf.args]
    exact UInt64.le_trans (h.forked w hw) hf.clock
  · intro w t hw v hv
    rw [hf.stored] at hv
    rw [hf.args]
    exact h.sampled_start w t (hsame (by simp) hw) v hv
  · intro w hw v hv
    rw [hf.stored] at hw hv
    rw [hf.args]
    exact h.start w hw v hv

/-! ## Runs -/

theorem Launching.barrier (h : Launching job s) : Barrier job s := by
  have habsent : ∀ {w p}, p ≠ .absent → s.pc w ≠ p := by
    intro w p hp hw
    rw [h.pc w] at hw
    exact hp hw.symm
  have hnone : ∀ w f, f ∉ s.stored w := by
    intro w f hf
    rw [h.stored w] at hf
    cases hf
  refine ⟨?_, Or.inl ⟨h.first, Or.inl (by rw [h.main]; trivial)⟩, h.should,
    fun w r hw => absurd hw (habsent (by simp)), ?_, fun w r hw => absurd hw (habsent (by simp)),
    fun w => habsent (by simp), fun w t hw => absurd hw (habsent (by simp)),
    fun w hw => absurd hw (hnone w _), fun w t hw => absurd hw (habsent (by simp)),
    fun w hw => absurd hw (hnone w _)⟩
  · refine ⟨?_, ?_, ?_, ?_, ?_, ?_, ?_, ?_, ?_⟩
    · rw [h.ready, h.launched]
      rfl
    · rw [h.complete, h.launched]
      rfl
    · intro w
      simp [h.launched, h.pc w]
    · simp [h.launched]
    · simp [h.launched]
    · simp [h.launched]
    · intro _
      rw [h.first]
      exact ⟨job, rfl, h.should, h.feasible⟩
    · simp [h.main]
    · intro w f hf
      rw [h.stored w, h.pc w]
      cases f <;> first | exact absurd rfl hf | exact iff_of_false List.not_mem_nil id
  · intro w hw
    rw [h.pc w] at hw
    exact hw.elim

theorem barrier_of_exec {p : Params} {es : List Event} (h : Barrier job s)
    (hrun : exec (step p [job]) s es = some s') : Barrier job s' := by
  refine exec_invariant' (fun s e s' hI hst => ?_) h hrun
  rcases move_of_step hst with ⟨w, hmove⟩ | hmove
  · exact hI.worker hmove
  · exact hI.main hmove

/-- The start barrier of one benchmark, for any number of workers and any
interleaving.

1. A worker stores its start time only after every worker has added one to
   `ready_to_run`, and the `forked` time of every worker is at most its start
   time.
2. No worker gives up at the barrier.
3. When `complete_run` equals `should_run`, every worker has stored its
   `start`, its `finish` and its `run_delay`. -/
theorem start_barrier {p : Params} {es : List Event} (h : Launching job s)
    (hrun : exec (step p [job]) s es = some s') :
    (∀ w, .start ∈ s'.stored w → ∀ i < job.shouldRun.toNat,
      (s'.pc (0, i)).HasReadied ∧ .forked ∈ s'.stored (0, i) ∧
        (s'.args (0, i)).field .forked ≤ (s'.args w).field .start) ∧
    (∀ w, s'.pc w ≠ .bug) ∧
    (s'.complete = s'.should → ∀ i < job.shouldRun.toNat,
      .start ∈ s'.stored (0, i) ∧ .finish ∈ s'.stored (0, i) ∧ .runDelay ∈ s'.stored (0, i)) := by
  have hbar := barrier_of_exec h.barrier hrun
  refine ⟨fun w hw i hi => ?_, hbar.no_bug, fun hcomplete i hi => ?_⟩
  · have hpast := Pc.pastSpin_of_pastStart ((hbar.counted.stored w .start (by simp)).mp hw)
    have hreadied := (hbar.all_readied (hbar.past w hpast) i hi).2
    have hforked : .forked ∈ s'.stored (0, i) :=
      (hbar.counted.stored _ .forked (by simp)).mpr (Pc.pastForked_of_hasReadied hreadied)
    exact ⟨hreadied, hforked, hbar.start w hw (0, i) hforked⟩
  · have hall := hbar.counted.all_of_census rfl hbar.counted.only_first (P := Pc.HasCompleted)
      (by rw [← hbar.counted.complete_eq, hcomplete, hbar.should_eq])
    have hstored : ∀ f, f ≠ .ipitime → f ∈ s'.stored (0, i) := fun f hf =>
      (hbar.counted.stored _ f hf).mpr (Pc.pastStore_of_hasCompleted (hall i hi).2 hf)
    exact ⟨hstored _ (by simp), hstored _ (by simp), hstored _ (by simp)⟩

end Barrier

/-- The state at the launch loop of a single benchmark. -/
def State.launching (job : Job) (cpus : List (Int × Int)) : State :=
  { State.load with
    main := .launch 0
    should := job.shouldRun
    live := update (fun _ => false) 0 true
    args := fun w =>
      if w.1 = 0 then BenchArgs.fresh (cpus.getD w.2 (0, 0)) else BenchArgs.fresh (0, 0) }

theorem launching_launching {job : Job} {random : Nat → UInt64} {cpus : List (Int × Int)}
    (hcpus : job.cpus random = some cpus) : Launching job (State.launching job cpus) :=
  ⟨rfl, rfl, rfl, rfl, rfl, fun _ => rfl, rfl, fun _ => rfl, random, cpus, hcpus⟩

/-- The launch loop is reached from the loaded state. -/
theorem exec_launching {p : Params} {job : Job} {random : Nat → UInt64}
    {cpus : List (Int × Int)} (hlen : 0 ≤ job.shouldRun) (hcpus : job.cpus random = some cpus) :
    exec (step p [job]) State.load [.main, .alloc true, .main, .build random] =
      some (State.launching job cpus) := by
  simp [exec, step, mainStep, allocStep, buildStep, State.load, State.launching, hlen, hcpus]

/-- Worker `w` reads the time `t` and arrives at the barrier. -/
def arriveRun (w : Worker) (t : UInt64) : List Event := [.sample w t, .worker w, .worker w]

/-- Worker `w` of `ipi_bench_all`, with `loops` equal to one, passes the open
barrier at the time `t` and adds one to `complete_run`. -/
def completeRun (w : Worker) (t : UInt64) : List Event :=
  List.replicate 4 (.worker w) ++ [.sample w t] ++ List.replicate 4 (.worker w) ++
    [.sample w t, .worker w, .runDelay w 0, .worker w]

/-- Two CPUs out of four send broadcasts, and both workers finish. -/
theorem start_barrier_of_two_workers : ∃ s : State,
    exec (step ⟨1, 0, 1, 0, true, 2, true, ALL_IPI⟩ [benchAll ⟨4, fun _ => 0⟩ 2])
        (State.launching (benchAll ⟨4, fun _ => 0⟩ 2) [(0, 0), (1, 0)])
        ([.launch true, .launch true] ++ arriveRun (0, 0) 1 ++ arriveRun (0, 1) 2 ++
          completeRun (0, 0) 3 ++ completeRun (0, 1) 4) = some s ∧
      s.complete = s.should ∧ (∀ w, s.pc w ≠ .bug) ∧ .finish ∈ s.stored (0, 1) := by
  have hcpus : (benchAll ⟨4, fun _ => 0⟩ 2).cpus (fun n => UInt64.ofNat n) =
      some [(0, 0), (1, 0)] := by
    decide +kernel
  have h : (exec (step ⟨1, 0, 1, 0, true, 2, true, ALL_IPI⟩ [benchAll ⟨4, fun _ => 0⟩ 2])
      (State.launching (benchAll ⟨4, fun _ => 0⟩ 2) [(0, 0), (1, 0)])
      ([.launch true, .launch true] ++ arriveRun (0, 0) 1 ++ arriveRun (0, 1) 2 ++
        completeRun (0, 0) 3 ++ completeRun (0, 1) 4)).map
      (fun s => decide (s.complete = s.should)) = some true := by
    decide +kernel
  obtain ⟨s, hrun, hs⟩ := exists_exec_of_map h
  have hcomplete : s.complete = s.should := of_decide_eq_true hs
  have hbarrier := start_barrier (launching_launching hcpus) hrun
  exact ⟨s, hrun, hcomplete, hbarrier.2.1, (hbarrier.2.2 hcomplete 1 (by decide)).2.1⟩

end KvmUtils.IpiBench
