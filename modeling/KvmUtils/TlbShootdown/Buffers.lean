import KvmUtils.TlbShootdown.Bench

/-!
# The buffers of the threads

A turn with `use_unmap` unmaps the buffer and maps another one, but the new
address goes to a variable that shadows `p` and is lost at the end of the
block.  The next turn works on the old address.  Where the kernel has placed
the new buffer at another address, the next turn stores to memory that is not
mapped or belongs to another thread, and may unmap it.

`buffers_owned` says in which runs and for which options every store, every
`madvise` and every `munmap` goes to the buffer of the thread.
-/

namespace KvmUtils.TlbShootdown

open Function Machine AddressSpace

/-- A use of memory by a thread. -/
structure Access where
  thread : Nat
  addr : Nat
  len : Nat

/-- The page store, the `madvise` or the `munmap` of an event. -/
def accessOf (s : State) : Event → Option Access
  | .thread t =>
    match (s.threads t).pc with
    | .fill index => if index < BUF_SIZE then some ⟨t, (s.threads t).p + index, 1⟩ else none
    | _ => none
  | .madvise t _ =>
    match (s.threads t).pc with
    | .advise index =>
      if index < BUF_SIZE then some ⟨t, (s.threads t).p + index, PAGE⟩ else none
    | _ => none
  | .munmap t _ =>
    match (s.threads t).pc with
    | .munmap => some ⟨t, (s.threads t).p, BUF_SIZE⟩
    | _ => none
  | .main | .create _ | .affinity _ _ | .time _ _ | .mmap _ _ => none

/-- The access lies within the buffer of the most recent `mmap` of the thread,
and that buffer is mapped. -/
def OnTarget (s : State) (e : Event) : Prop :=
  ∀ a, accessOf s e = some a →
    buffer a.thread (s.threads a.thread).last ∈ s.space.ranges ∧
      (s.threads a.thread).last ≤ a.addr ∧
      a.addr + a.len ≤ (s.threads a.thread).last + BUF_SIZE

/-- A thread that is between two turns of its loop, or through with it, owns
exactly one mapped buffer, the one of its most recent `mmap`. -/
def State.OneBuffer (s : State) : Prop :=
  ∀ t, (s.threads t).pc = .head ∨ (s.threads t).pc = .done →
    s.space.owned t = [buffer t (s.threads t).last]

/-- If the thread has another turn to make, then the second `mmap` of this
turn returns the address that has just been unmapped. -/
def Remapped (c : Config) (s : State) : Event → Prop
  | .mmap t base =>
    (s.threads t).pc = .remap → ((s.threads t).loop : Int) + 1 < c.benchLoops →
      base = (s.threads t).p
  | _ => True

/-- What a thread owns, and where its pointer points. -/
def Holds (c : Config) (t : Nat) (th : Thread) (owned : List (Range Nat)) : Prop :=
  match th.pc with
  | .absent | .setAffinity | .getAffinity | .mmap => owned = []
  | .remap => owned = [] ∧ c.useUnmap = true
  | .head =>
    owned = [buffer t th.last] ∧ ((th.loop : Int) < c.benchLoops → th.p = th.last)
  | .endLeak =>
    owned = [buffer t th.last] ∧ ((th.loop : Int) + 1 < c.benchLoops → th.p = th.last)
  | .startFill | .fill _ | .startLeak => owned = [buffer t th.last] ∧ th.p = th.last
  | .munmap => owned = [buffer t th.last] ∧ th.p = th.last ∧ c.useUnmap = true
  | .advise index => owned = [buffer t th.last] ∧ th.p = th.last ∧ index % PAGE = 0
  | .done => owned = [buffer t th.last]

/-- What an event can do.  A step that leaves the mappings alone lets its
thread hold whatever it has held. -/
inductive Move (c : Config) (s : State) : Event → State → Prop where
  | keep {e t th} (hpresent : (s.threads t).pc ≠ .absent)
      (hkeep : ∀ owned, Holds c t (s.threads t) owned → Holds c t th owned) :
      Move c s e (s.set t th)
  | map {t base} (hpc : (s.threads t).pc = .mmap) (hfree : s.Free base) :
      Move c s (.mmap t base) ((s.mapBuffer t base hfree).set t
        { s.threads t with pc := .head, p := base, loop := 0, last := base })
  | remap {t base} (hpc : (s.threads t).pc = .remap) (hfree : s.Free base) :
      Move c s (.mmap t base) ((s.mapBuffer t base hfree).set t
        { s.threads t with pc := .endLeak, last := base })
  | unmap {t} (hpc : (s.threads t).pc = .munmap) :
      Move c s (.munmap t true)
        ((s.unmapBuffer (s.threads t).p).set t { s.threads t with pc := .remap })
  | create {tnum} (hmain : s.main = .create tnum) (hlt : (tnum : Int) < c.numThreads) :
      Move c s (.create true) ({ s with main := .create (tnum + 1) }.set tnum
        { s.threads tnum with pc := .setAffinity })
  | main {m exited} (hm : ∀ tnum, m ≠ .create tnum) :
      Move c s .main { s with main := m, exited := exited }
  | exit {e} : Move c s e s.exit

section Inversion

variable {c : Config} {s s' : State} {t : Nat} {th : Thread} {e : Event}

/-- A step that leaves the mappings alone, of a thread at `p`. -/
theorem Move.keep_of_pc {p : Pc} (hpc : (s.threads t).pc = p) (hp : p ≠ .absent)
    (hkeep : ∀ owned, Holds c t { s.threads t with pc := p } owned → Holds c t th owned) :
    Move c s e (s.set t th) := by
  subst hpc
  exact .keep hp hkeep

theorem move_of_threadStep (hst : threadStep c s t = some s') : Move c s (.thread t) s' := by
  unfold threadStep at hst
  simp only at hst
  split at hst
  · rename_i hpc
    split at hst <;> rename_i hloop <;> cases hst
    · refine .keep_of_pc hpc (by simp) fun owned hold => ?_
      exact ⟨hold.1, hold.2 hloop⟩
    · refine .keep_of_pc hpc (by simp) fun owned hold => ?_
      exact hold.1
  · rename_i index hpc
    split at hst
    · split at hst <;> cases hst
      · refine .keep_of_pc hpc (by simp) fun owned hold => ?_
        exact hold
      · exact .exit
    · cases hst
  · cases hst

theorem move_of_timeStep {usec : Int} (hst : timeStep c s t usec = some s') :
    Move c s (.time t usec) s' := by
  unfold timeStep at hst
  simp only at hst
  split at hst
  · rename_i hpc
    cases hst
    refine .keep_of_pc hpc (by simp) fun owned hold => ?_
    exact hold
  · rename_i index hpc
    split at hst <;> cases hst
    refine .keep_of_pc hpc (by simp) fun owned hold => ?_
    exact hold
  · rename_i hpc
    cases hst
    refine .keep_of_pc hpc (by simp) fun owned hold => ?_
    cases hunmap : c.useUnmap with
    | true => exact ⟨hold.1, hold.2, hunmap⟩
    | false => exact ⟨hold.1, hold.2, rfl⟩
  · rename_i index hpc
    split at hst <;> cases hst
    refine .keep_of_pc hpc (by simp) fun owned hold => ?_
    exact ⟨hold.1, fun _ => hold.2.1⟩
  · rename_i hpc
    cases hst
    refine .keep_of_pc hpc (by simp) fun owned hold => ?_
    refine ⟨hold.1, fun hloop => hold.2 ?_⟩
    have hnext : ((s.threads t).loop + 1 : Nat) < c.benchLoops := hloop
    show ((s.threads t).loop : Int) + 1 < c.benchLoops
    omega
  · cases hst

theorem move_of_affinityStep {ok : Bool} (hst : affinityStep s t ok = some s') :
    Move c s (.affinity t ok) s' := by
  unfold affinityStep at hst
  simp only at hst
  split at hst
  · rename_i hpc
    split at hst <;> cases hst
    · refine .keep_of_pc hpc (by simp) fun owned hold => ?_
      exact hold
    · exact .exit
  · rename_i hpc
    split at hst <;> cases hst
    · refine .keep_of_pc hpc (by simp) fun owned hold => ?_
      exact hold
    · exact .exit
  · cases hst

theorem move_of_madviseStep {ret : Int} (hst : madviseStep s t ret = some s') :
    Move c s (.madvise t ret) s' := by
  unfold madviseStep at hst
  simp only at hst
  split at hst
  · rename_i index hpc
    split at hst
    · split at hst <;> cases hst
      · refine .keep_of_pc hpc (by simp) fun owned hold => ?_
        exact ⟨hold.1, fun _ => hold.2.1⟩
      · refine .keep_of_pc hpc (by simp) fun owned hold => ?_
        refine ⟨hold.1, hold.2.1, ?_⟩
        rw [Nat.add_mod_right]
        exact hold.2.2
    · cases hst
  · cases hst

theorem move_of_mainStep (hst : mainStep c s = some s') : Move c s .main s' := by
  unfold mainStep at hst
  split at hst
  · split at hst <;> cases hst
    exact .main nofun
  · split at hst
    · simp only at hst
      split at hst <;> cases hst
      exact .main nofun
    · cases hst
      exact .main nofun
  · cases hst

theorem move_of_step {e : Event} (hst : step c s e = some s') : Move c s e s' := by
  unfold step at hst
  split at hst
  · cases hst
  · cases e with
    | main => exact move_of_mainStep hst
    | create ok =>
      simp only [createStep] at hst
      split at hst
      · rename_i tnum hmain
        split at hst
        · rename_i hlt
          split at hst <;> rename_i hok <;> cases hst
          · rw [hok]
            exact .create hmain hlt
          · exact .exit
        · cases hst
      · cases hst
    | thread t => exact move_of_threadStep hst
    | affinity t ok => exact move_of_affinityStep hst
    | time t usec => exact move_of_timeStep hst
    | mmap t base =>
      simp only [mmapStep] at hst
      split at hst
      · rename_i hfree
        split at hst
        · rename_i hpc
          cases hst
          exact .map hpc hfree.2
        · rename_i hpc
          cases hst
          exact .remap hpc hfree.2
        · cases hst
      · cases hst
    | munmap t ok =>
      simp only [munmapStep] at hst
      split at hst
      · rename_i hpc
        split at hst <;> rename_i hok <;> cases hst
        · rw [hok]
          exact .unmap hpc
        · exact .exit
      · cases hst
    | madvise t ret => exact move_of_madviseStep hst

end Inversion

/-! ## The invariant -/

/-- Every thread holds its buffer, and `main` has not created the threads that
it has still to create. -/
structure Held (c : Config) (s : State) : Prop where
  holds : ∀ t, Holds c t (s.threads t) (s.space.owned t)
  absent : ∀ tnum, s.main = .create tnum → ∀ t, tnum ≤ t → (s.threads t).pc = .absent
  bound : ∀ t, (s.threads t).pc ≠ .absent → (t : Int) < c.numThreads

section Held

variable {c : Config} {s s' : State} {t : Nat} {th : Thread} {e : Event}

/-- The rule for a step of thread `t`: it is enough to look at what `t` and the
other threads own after the step. -/
theorem Held.update (h : Held c s) (hpresent : (s.threads t).pc ≠ .absent)
    (hmain : s'.main = s.main) (hthreads : s'.threads = Function.update s.threads t th)
    (howned : ∀ u, u ≠ t → s'.space.owned u = s.space.owned u)
    (hth : Holds c t th (s'.space.owned t)) : Held c s' := by
  refine ⟨fun u => ?_, fun tnum hcreate u hu => ?_, fun u hu => ?_⟩
  · rw [hthreads]
    by_cases hut : u = t
    · rw [hut, update_self]
      exact hth
    · rw [update_of_ne hut, howned u hut]
      exact h.holds u
  · rw [hmain] at hcreate
    have habsent := h.absent tnum hcreate u hu
    rw [hthreads, update_of_ne]
    · exact habsent
    · rintro rfl
      exact hpresent habsent
  · by_cases hut : u = t
    · rw [hut]
      exact h.bound t hpresent
    · rw [hthreads, update_of_ne hut] at hu
      exact h.bound u hu

/-- A buffer is mapped for a thread that has none. -/
theorem Held.map (h : Held c s) {base : Nat} (hfree : s.Free base)
    (hpresent : (s.threads t).pc ≠ .absent) (hnone : s.space.owned t = [])
    (hth : Holds c t th [buffer t base]) :
    Held c ((s.mapBuffer t base hfree).set t th) := by
  have hfree' : ∀ m ∈ s.space.ranges, m.Avoids (buffer t base).lo (buffer t base).hi := hfree
  refine h.update hpresent rfl rfl (fun u hu => owned_map_of_ne hfree' hu) ?_
  have howned : ((s.mapBuffer t base hfree).set t th).space.owned t =
      buffer t base :: s.space.owned t := owned_map_self hfree'
  rw [howned, hnone]
  exact hth

/-- One step keeps the buffers, if the second `mmap` of a turn does. -/
theorem Held.move (h : Held c s) (hre : Remapped c s e) (hmove : Move c s e s') :
    Held c s' := by
  cases hmove with
  | @keep _ t th hpresent hkeep =>
    exact h.update hpresent rfl rfl (fun _ _ => rfl) (hkeep _ (h.holds t))
  | @map t base hpc hfree =>
    have hold := h.holds t
    rw [Holds, hpc] at hold
    exact h.map hfree (by rw [hpc]; nofun) hold ⟨rfl, fun _ => rfl⟩
  | @remap t base hpc hfree =>
    have hold := h.holds t
    rw [Holds, hpc] at hold
    exact h.map hfree (by rw [hpc]; nofun) hold.1 ⟨rfl, fun hloop => (hre hpc hloop).symm⟩
  | @unmap t hpc =>
    have hold := h.holds t
    rw [Holds, hpc] at hold
    obtain ⟨hone, hp, hunmap⟩ := hold
    rw [hp]
    exact h.update (by rw [hpc]; nofun) rfl rfl
      (fun u hu => owned_unmap_of_ne (mem_of_owned_eq hone) hu)
      ⟨owned_unmap_self hone, hunmap⟩
  | @create tnum hmain hlt =>
    have hold := h.holds tnum
    have habsent := h.absent tnum hmain
    rw [Holds, habsent tnum (Nat.le_refl _)] at hold
    refine ⟨fun u => ?_, fun n hn u hu => ?_, fun u hu => ?_⟩
    · show Holds c u (Function.update s.threads tnum _ u) (s.space.owned u)
      by_cases hut : u = tnum
      · rw [hut, update_self]
        exact hold
      · rw [update_of_ne hut]
        exact h.holds u
    · obtain rfl := MainPc.create.inj hn
      show (Function.update s.threads tnum _ u).pc = .absent
      rw [update_of_ne (by omega)]
      exact habsent u (by omega)
    · by_cases hut : u = tnum
      · rw [hut]
        exact hlt
      · have hold : (Function.update s.threads tnum _ u).pc ≠ .absent := hu
        rw [update_of_ne hut] at hold
        exact h.bound u hold
  | main hm => exact ⟨h.holds, fun tnum hmain => absurd hmain (hm tnum), h.bound⟩
  | exit => exact ⟨h.holds, h.absent, h.bound⟩

theorem held_start (c : Config) : Held c State.start where
  holds _ := rfl
  absent _ _ _ _ := rfl
  bound _ hpresent := absurd rfl hpresent

/-- An access at `offset` into the buffer of a thread. -/
theorem within_buffer (offset : Nat) {len : Nat}
    (hone : s.space.owned t = [buffer t (s.threads t).last])
    (hp : (s.threads t).p = (s.threads t).last) (hlen : offset + len ≤ BUF_SIZE) :
    buffer t (s.threads t).last ∈ s.space.ranges ∧
      (s.threads t).last ≤ (s.threads t).p + offset ∧
      (s.threads t).p + offset + len ≤ (s.threads t).last + BUF_SIZE :=
  ⟨mem_of_owned_eq hone, by omega, by omega⟩

/-- The accesses of threads that hold their buffers. -/
theorem Held.onTarget (h : Held c s) (e : Event) : OnTarget s e := by
  intro a ha
  cases e with
  | main | create | affinity | time | mmap => cases ha
  | thread t =>
    have hold := h.holds t
    simp only [accessOf] at ha
    split at ha
    · rename_i index hpc
      rw [Holds, hpc] at hold
      split at ha <;> rename_i hlt <;> cases ha
      exact within_buffer index hold.1 hold.2 hlt
    · cases ha
  | madvise t ret =>
    have hold := h.holds t
    simp only [accessOf] at ha
    split at ha
    · rename_i index hpc
      rw [Holds, hpc] at hold
      split at ha <;> rename_i hlt <;> cases ha
      -- the last page ends where the buffer does
      have hpage : index + PAGE ≤ BUF_SIZE := by
        have hmod := hold.2.2
        unfold PAGE at hmod ⊢
        unfold BUF_SIZE at hlt ⊢
        omega
      exact within_buffer index hold.1 hold.2.1 hpage
    · cases ha
  | munmap t ok =>
    have hold := h.holds t
    simp only [accessOf] at ha
    split at ha
    · rename_i hpc
      rw [Holds, hpc] at hold
      cases ha
      exact within_buffer 0 hold.1 hold.2.1 (Nat.le_of_eq (Nat.zero_add _))
    · cases ha

theorem Held.oneBuffer (h : Held c s) : s.OneBuffer := by
  intro t hpc
  have hold := h.holds t
  rcases hpc with hpc | hpc
  · rw [Holds, hpc] at hold
    exact hold.1
  · rw [Holds, hpc] at hold
    exact hold

/-- A run in which every second `mmap` that matters returns the old address. -/
theorem held_of_exec {es : List Event} (hrun : exec (step c) State.start es = some s)
    (hre : AllSteps (step c) (Remapped c) State.start es) :
    Held c s ∧ AllSteps (step c) OnTarget State.start es := by
  have hstep : ∀ s e s', Held c s → Remapped c s e → step c s e = some s' → Held c s' :=
    fun s e s' h hre hst => h.move hre (move_of_step hst)
  exact ⟨exec_invariant hstep (held_start c) hre hrun,
    allSteps_imp hstep (fun _ e _ h _ _ => h.onTarget e) (held_start c) hrun hre⟩

/-- Options with which no new address is ever lost. -/
theorem Held.remapped (h : Held c s)
    (hc : c.useUnmap = false ∨ c.benchLoops ≤ 1 ∨ c.numThreads ≤ 0) (e : Event) :
    Remapped c s e := by
  cases e with
  | main | create | thread | affinity | time | munmap | madvise => trivial
  | mmap t base =>
    intro hpc hloop
    have hold := h.holds t
    rw [Holds, hpc] at hold
    have hbound := h.bound t (by rw [hpc]; nofun)
    rcases hc with hunmap | hloops | hthreads
    · rw [hunmap] at hold
      cases hold.2
    · omega
    · omega

theorem remapped_of_config (hc : c.useUnmap = false ∨ c.benchLoops ≤ 1 ∨ c.numThreads ≤ 0)
    {es : List Event} (hrun : exec (step c) State.start es = some s) :
    AllSteps (step c) (Remapped c) State.start es :=
  allSteps_imp (I := Held c) (P := fun _ _ => True)
    (fun _ e _ h _ hst => h.move (h.remapped hc e) (move_of_step hst))
    (fun _ e _ h _ _ => h.remapped hc e) (held_start c) hrun
    (allSteps_of_forall (fun _ _ => trivial) _ _)

end Held

/-! ## A run that goes astray -/

/-- Thread `t` in its loop over the pages. -/
def State.filling (s : State) (t index : Nat) : State :=
  s.set t { s.threads t with pc := .fill index }

section Astray

variable {c : Config} {s : State} {t : Nat}

/-- The loop over the pages of a buffer that is mapped. -/
theorem exec_fill (hlive : s.exited = false)
    (hmapped : ∀ i < BUF_SIZE, s.space.Mapped ((s.threads t).p + i)) {n index : Nat}
    (hn : index + n * PAGE = BUF_SIZE) :
    exec (step c) (s.filling t index) (List.replicate n (.thread t)) =
      some (s.filling t BUF_SIZE) := by
  induction n generalizing index with
  | zero =>
    rw [Nat.zero_mul, Nat.add_zero] at hn
    rw [hn]
    rfl
  | succ n ih =>
    rw [Nat.succ_mul] at hn
    have hlt : index < BUF_SIZE := by
      have hpage : 0 < PAGE := by decide
      omega
    have hstore := hmapped index hlt
    have hturn : step c (s.filling t index) (.thread t) = some (s.filling t (index + PAGE)) := by
      simp [step, threadStep, State.filling, State.set, hlive, hlt, hstore]
    rw [List.replicate_succ]
    exact exec_cons.mpr ⟨_, hturn, ih (by omega)⟩

/-- With no buffer mapped, any place is free. -/
theorem free_of_ranges_nil {base : Nat} (h : s.space.ranges = []) : s.Free base := by
  intro m hm
  rw [h] at hm
  cases hm

theorem step_map {base : Nat} (hlive : s.exited = false) (hbase : base % PAGE = 0)
    (hfree : s.Free base) (hpc : (s.threads t).pc = .mmap) :
    step c s (.mmap t base) = some ((s.mapBuffer t base hfree).set t
      { s.threads t with pc := .head, p := base, loop := 0, last := base }) := by
  simp only [step, hlive, Bool.false_eq_true, if_false, mmapStep, hpc]
  exact dif_pos ⟨hbase, hfree⟩

theorem step_remap {base : Nat} (hlive : s.exited = false) (hbase : base % PAGE = 0)
    (hfree : s.Free base) (hpc : (s.threads t).pc = .remap) :
    step c s (.mmap t base) = some ((s.mapBuffer t base hfree).set t
      { s.threads t with pc := .endLeak, last := base }) := by
  simp only [step, hlive, Bool.false_eq_true, if_false, mmapStep, hpc]
  exact dif_pos ⟨hbase, hfree⟩

theorem filling_self {index : Nat} (hpc : (s.threads t).pc = .fill index) :
    s.filling t index = s := by
  have hthread : { s.threads t with pc := .fill index } = s.threads t := by rw [← hpc]
  unfold State.filling State.set
  rw [hthread, update_eq_self]

/-- Thread 0 is created and comes to its first loop over the pages. -/
theorem exec_to_fill (hthreads : 0 < c.numThreads) (hloops : 0 < c.benchLoops) :
    ∃ s es, exec (step c) State.start es = some s ∧ s.exited = false ∧
      s.space.ranges = [buffer 0 0] ∧ (s.threads 0).pc = .fill 0 ∧ (s.threads 0).p = 0 ∧
      (s.threads 0).loop = 0 := by
  obtain ⟨s₁, hcreate, hlive, hspace, hpc⟩ : ∃ s₁, exec (step c) State.start
      [.create true, .affinity 0 true, .affinity 0 true] = some s₁ ∧
        s₁.exited = false ∧ s₁.space = Space.empty ∧ (s₁.threads 0).pc = .mmap := by
    simp [exec, step, createStep, affinityStep, State.start, State.set, hthreads]
  have hfree : s₁.Free 0 := free_of_ranges_nil (by rw [hspace]; rfl)
  have hmap := step_map (c := c) hlive (Nat.zero_mod _) hfree hpc
  obtain ⟨s₂, hs₂⟩ : ∃ s₂, s₂ = (s₁.mapBuffer 0 0 hfree).set 0
      { s₁.threads 0 with pc := .head, p := 0, loop := 0, last := 0 } := ⟨_, rfl⟩
  rw [← hs₂] at hmap
  have hlive₂ : s₂.exited = false := by rw [hs₂]; exact hlive
  have hranges : s₂.space.ranges = [buffer 0 0] := by
    rw [hs₂]
    show buffer 0 0 :: s₁.space.ranges = _
    rw [hspace]
    rfl
  have hthread : s₂.threads 0 =
      { s₁.threads 0 with pc := .head, p := 0, loop := 0, last := 0 } := by
    rw [hs₂, set_threads]
  obtain ⟨s, hrest, h⟩ : ∃ s, exec (step c) s₂ [.thread 0, .time 0 0] = some s ∧
      s.exited = false ∧ s.space.ranges = [buffer 0 0] ∧ (s.threads 0).pc = .fill 0 ∧
      (s.threads 0).p = 0 ∧ (s.threads 0).loop = 0 := by
    simp [exec, step, timeStep, threadStep, State.set, hlive₂, hthread, hranges, hloops]
  exact ⟨s, _, exec_trans hcreate (exec_cons.mpr ⟨s₂, hmap, hrest⟩), h⟩

/-- Thread 0 unmaps its buffer, and the new one is mapped behind the old. -/
theorem exec_move (hunmap : c.useUnmap = true) (hloops : 1 < c.benchLoops)
    (hlive : s.exited = false) (hranges : s.space.ranges = [buffer 0 0])
    (hp : (s.threads 0).p = 0) (hloop : (s.threads 0).loop = 0) :
    ∃ s' es, exec (step c) (s.filling 0 BUF_SIZE) es = some s' ∧
      s'.exited = false ∧ (s'.threads 0).pc = .fill 0 ∧ (s'.threads 0).p = 0 ∧
      (s'.threads 0).last = BUF_SIZE := by
  obtain ⟨s₁, hgo, hlive₁, hspace, hpc, hp₁, hloop₁⟩ : ∃ s₁, exec (step c) (s.filling 0 BUF_SIZE)
      [.time 0 0, .time 0 0, .munmap 0 true] = some s₁ ∧ s₁.exited = false ∧
        s₁.space = (s.unmapBuffer 0).space ∧ (s₁.threads 0).pc = .remap ∧
        (s₁.threads 0).p = 0 ∧ (s₁.threads 0).loop = 0 := by
    simp [exec, step, timeStep, munmapStep, State.filling, State.set, State.unmapBuffer, hlive,
      hunmap, hp, hloop]
  have hmem : buffer 0 0 ∈ s.space.ranges := by
    rw [hranges]
    exact List.mem_singleton.mpr rfl
  have hgone : (s.unmapBuffer 0).space.ranges = [] := by
    refine (ranges_unmap hmem).trans ?_
    rw [hranges]
    simp
  have hfree : s₁.Free BUF_SIZE := free_of_ranges_nil (by rw [hspace, hgone])
  have hmap := step_remap (c := c) hlive₁ (by decide) hfree hpc
  obtain ⟨s₂, hs₂⟩ : ∃ s₂, s₂ = (s₁.mapBuffer 0 BUF_SIZE hfree).set 0
      { s₁.threads 0 with pc := .endLeak, last := BUF_SIZE } := ⟨_, rfl⟩
  have hlive₂ : s₂.exited = false := by rw [hs₂]; exact hlive₁
  have hthread : s₂.threads 0 = { s₁.threads 0 with pc := .endLeak, last := BUF_SIZE } := by
    rw [hs₂, set_threads]
  obtain ⟨s', hrest, h'⟩ : ∃ s', exec (step c) s₂ [.time 0 0, .thread 0, .time 0 0] = some s' ∧
      s'.exited = false ∧ (s'.threads 0).pc = .fill 0 ∧ (s'.threads 0).p = 0 ∧
      (s'.threads 0).last = BUF_SIZE := by
    simp [exec, step, timeStep, threadStep, State.set, hlive₂, hthread, hloop₁, hp₁, hloops]
  rw [← hs₂] at hmap
  exact ⟨s', _, exec_trans hgo (exec_cons.mpr ⟨s₂, hmap, hrest⟩), h'⟩

/-- With `use_unmap` and two turns, the first store of the second turn can go
to an address that is no longer mapped. -/
theorem exists_astray (hthreads : 0 < c.numThreads) (hloops : 1 < c.benchLoops)
    (hunmap : c.useUnmap = true) :
    ∃ es s, exec (step c) State.start es = some s ∧
      ¬ AllSteps (step c) OnTarget State.start es := by
  obtain ⟨s, _, hfirst, hlive, hranges, hstart, hp, hloop⟩ := exec_to_fill hthreads (by omega)
  have hmapped : ∀ i < BUF_SIZE, s.space.Mapped ((s.threads 0).p + i) := by
    intro i hi
    refine ⟨buffer 0 0, by rw [hranges]; exact List.mem_singleton.mpr rfl, Nat.zero_le _, ?_⟩
    show (s.threads 0).p + i < 0 + BUF_SIZE
    omega
  have hfill : exec (step c) (s.filling 0 0) (List.replicate 65536 (.thread 0)) = _ :=
    exec_fill hlive hmapped (by decide)
  rw [filling_self hstart] at hfill
  obtain ⟨s', _, hmove, hlive', hpc, hp', hlast⟩ := exec_move hunmap hloops hlive hranges hp hloop
  have hrun := exec_trans (exec_trans hfirst hfill) hmove
  obtain ⟨s'', hst⟩ : ∃ s'', step c s' (.thread 0) = some s'' := by
    simp only [step, hlive', Bool.false_eq_true, if_false, threadStep, hpc,
      if_pos (show 0 < BUF_SIZE by decide)]
    split <;> exact ⟨_, rfl⟩
  refine ⟨_, s'', exec_trans hrun (exec_one hst), fun hall => ?_⟩
  have htarget := ((allSteps_append hrun).mp hall).2.1 ⟨0, 0, 1⟩ (by
    simp [accessOf, hpc, hp', BUF_SIZE])
  have hlo : (s'.threads 0).last ≤ 0 := htarget.2.1
  rw [hlast] at hlo
  exact absurd hlo (by decide)

end Astray

/-- The buffers of the threads, for all placements and all interleavings.

1. In every run in which the second `mmap` of each turn but the last returns
   the address that has just been unmapped, every access goes to the buffer of
   its thread, and between two turns a thread owns exactly that buffer.
2. This holds of all runs exactly when `use_unmap` is not set, or no thread
   makes two turns, or there is no thread. -/
theorem buffers_owned (c : Config) :
    (∀ es s, exec (step c) State.start es = some s →
      AllSteps (step c) (Remapped c) State.start es →
      AllSteps (step c) OnTarget State.start es ∧ s.OneBuffer) ∧
    ((∀ es s, exec (step c) State.start es = some s →
      AllSteps (step c) OnTarget State.start es ∧ s.OneBuffer) ↔
      c.useUnmap = false ∨ c.benchLoops ≤ 1 ∨ c.numThreads ≤ 0) := by
  have hruns : ∀ es s, exec (step c) State.start es = some s →
      AllSteps (step c) (Remapped c) State.start es →
      AllSteps (step c) OnTarget State.start es ∧ s.OneBuffer := by
    intro es s hrun hre
    obtain ⟨hheld, htarget⟩ := held_of_exec hrun hre
    exact ⟨htarget, hheld.oneBuffer⟩
  refine ⟨hruns, fun h => ?_, fun hc es s hrun => hruns es s hrun (remapped_of_config hc hrun)⟩
  by_contra hbad
  rw [not_or, not_or, Bool.not_eq_false] at hbad
  obtain ⟨hunmap, hloops, hthreads⟩ := hbad
  obtain ⟨es, s, hrun, hastray⟩ := exists_astray (by omega) (by omega) hunmap
  exact hastray (h es s hrun).1

/-- One thread that makes two turns with `use_unmap`. -/
theorem second_turn_astray :
    ¬ ∀ c es s, exec (step c) State.start es = some s →
      AllSteps (step c) OnTarget State.start es ∧ s.OneBuffer := by
  intro h
  obtain ⟨es, s, hrun, hastray⟩ := exists_astray (c := ⟨1, 2, true⟩) (by decide) (by decide) rfl
  exact hastray (h ⟨1, 2, true⟩ es s hrun).1

end KvmUtils.TlbShootdown
