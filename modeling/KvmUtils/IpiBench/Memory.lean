import KvmUtils.IpiBench.Counters
import KvmUtils.IpiBench.Printing

/-!
# The memory of the arrays

`State.args` keeps the entries of each benchmark apart from those of the other
ones.  In the kernel the memory of an array that has been freed may be handed
out again by a later `kzalloc`, and a late worker of an earlier benchmark then
stores into an entry that is not its own.

`memoryAfter` is what a run leaves in memory, for any placement of the arrays.
`NoStaleStore` rules out that a freed array is stored into while another one is
allocated.  In a run that meets it the main thread always finds in memory what
`State.args` says, whatever the placement is (`ArgsInMemory`).  The runs of a
single benchmark all meet it (`noStaleStore_of_single`).
-/

namespace KvmUtils.IpiBench

open Function Machine

/-! ## The allocated array -/

/-- The main thread has the array of its benchmark and has not freed it. -/
def MainPc.HasArray : MainPc → Prop
  | .next | .alloc | .returned => False
  | _ => True

instance : ∀ q : MainPc, Decidable q.HasArray
  | .next | .alloc | .returned => isFalse id
  | .setShould | .build | .launch _ | .sampleStart | .wait _ | .sampleEnd _ | .report _ _ _
  | .free => isTrue trivial

theorem MainPc.Built.hasArray {q : MainPc} (h : q.Built) : q.HasArray := by
  cases q <;> first | exact h.elim | trivial

/-- The array that the main thread has is the only one that is allocated. -/
def State.OneArray (s : State) : Prop := ∀ j, s.live j = true ↔ s.main.HasArray ∧ j = s.job

section OneArray

variable {p : Params} {jobs : List Job} {s s' : State} {e : Event}

theorem oneArray_load : State.load.OneArray :=
  fun _ => iff_of_false (by simp [State.load]) And.left

theorem State.OneArray.same (h : s.OneArray) (hjob : s'.job = s.job) (hlive : s'.live = s.live)
    (hhas : s'.main.HasArray ↔ s.main.HasArray) : s'.OneArray := by
  intro j
  rw [hlive, hhas, hjob]
  exact h j

theorem State.OneArray.main (h : s.OneArray) (hmove : MainMove jobs s e s') : s'.OneArray := by
  have hsame : ∀ {q : MainPc}, s.main = q → s'.job = s.job → s'.live = s.live →
      (s'.main.HasArray ↔ q.HasArray) → s'.OneArray := by
    rintro q rfl hjob hlive hhas
    exact h.same hjob hlive hhas
  cases hmove with
  | alloc hmain =>
    intro j
    have hlive := h j
    rw [hmain] at hlive
    by_cases hj : j = s.job
    · simp [hj, MainPc.HasArray]
    · simp only [update_of_ne hj, hj, and_false, iff_false]
      exact fun hold => (hlive.mp hold).1
  | free hmain =>
    intro j
    have hlive := h j
    rw [hmain] at hlive
    refine iff_of_false (fun hnow => ?_) And.left
    change update s.live s.job false j = true at hnow
    by_cases hj : j = s.job
    · simp [hj] at hnow
    · rw [update_of_ne hj] at hnow
      exact hj (hlive.mp hnow).2
  | noMemory hmain =>
    intro j
    have hlive := h j
    rw [hmain] at hlive
    exact iff_of_false (fun hnow => (hlive.mp hnow).1) And.left
  | stop hmain | begin hmain => exact hsame hmain rfl rfl Iff.rfl
  | endLaunch hmain _ _ hp | waitReturn hmain _ hp =>
    refine hsame hmain rfl rfl (iff_of_true ?_ trivial)
    rcases hp with rfl | rfl <;> trivial
  | setShould hmain | build hmain | buildFail hmain | launch hmain | launchFail hmain
  | sampleStart hmain | sampleEnd hmain | report hmain | endReport hmain =>
    exact hsame hmain rfl rfl (iff_of_true trivial trivial)

theorem State.OneArray.step (h : s.OneArray) (hst : IpiBench.step p jobs s e = some s') :
    s'.OneArray := by
  rcases move_of_step hst with ⟨w, hmove⟩ | hmove
  · exact h.same hmove.frame.job hmove.frame.live (by rw [hmove.frame.main])
  · exact h.main hmove

end OneArray

/-! ## Stores into the arrays -/

/-- What a step stores in the `bench_args` of its worker. -/
def storeOf (s : State) : Event → Option (Worker × Field × UInt64)
  | .worker w =>
    match s.pc w with
    | .storeForked t => some (w, .forked, t)
    | .storeStart t => some (w, .start, t)
    | .storeIpitime ipitime => some (w, .ipitime, ipitime)
    | .storeFinish t => some (w, .finish, t)
    | _ => none
  | .runDelay w d => some (w, .runDelay, d)
  | _ => none

/-- The step does not store into an array that has been freed while another one
is allocated.  Only then can the memory be that of the other array. -/
def NoStaleStore (s : State) (e : Event) : Prop :=
  ∀ w f v, storeOf s e = some (w, f, v) → s.live w.1 = false → ∀ j, s.live j = false

/-- The memory, by the address of an array and the index of an entry. -/
abbrev Memory := Nat → Nat → BenchArgs

/-- The worker `w` stores `v` in a field of its entry. -/
def Memory.store (mem : Memory) (base : Nat → Nat) (w : Worker) (f : Field) (v : UInt64) :
    Memory :=
  update mem (base w.1) (update (mem (base w.1)) w.2
    { mem (base w.1) w.2 with field := update (mem (base w.1) w.2).field f v })

/-- The memory after a step, with the array of each benchmark at its `base`.
A choice of the CPUs that fails leaves CPUs behind that nobody reads. -/
def Memory.after (jobs : List Job) (base : Nat → Nat) (mem : Memory) (s : State) :
    Event → Memory
  | .alloc true => update mem (base s.job) fun _ => BenchArgs.fresh (0, 0)
  | .build random =>
    match jobs[s.job]?.bind (Job.cpus · random) with
    | some cpus =>
      update mem (base s.job) fun i =>
        { mem (base s.job) i with
          src := (cpus.getD i (0, 0)).1
          dst := (cpus.getD i (0, 0)).2 }
    | none => mem
  | e =>
    match storeOf s e with
    | some (w, f, v) => mem.store base w f v
    | none => mem

/-- The memory after a run. -/
def memoryAfter (p : Params) (jobs : List Job) (base : Nat → Nat) :
    Memory → State → List Event → Memory
  | mem, _, [] => mem
  | mem, s, e :: es =>
    match step p jobs s e with
    | none => mem
    | some s' => memoryAfter p jobs base (mem.after jobs base s e) s' es

/-- Wherever the run has the main thread with its workers, their array holds
what `State.args` says, for any placement of the arrays and whatever the memory
held before. -/
def ArgsInMemory (p : Params) (jobs : List Job) (es : List Event) : Prop :=
  ∀ (base : Nat → Nat) (mem : Memory) (before : List Event) (s : State), before <+: es →
    exec (step p jobs) State.load before = some s → s.main.Built →
      ∀ i, memoryAfter p jobs base mem State.load before (base s.job) i = s.args (s.job, i)

/-- Up to the choice of the CPUs no field of the array is stored, and from then
on its memory holds what `State.args` says. -/
structure InMemory (jobs : List Job) (base : Nat → Nat) (mem : Memory) (s : State) : Prop where
  counted : Counted jobs s
  array : s.OneArray
  zero : s.main = .setShould ∨ s.main = .build → ∀ i f, (mem (base s.job) i).field f = 0
  args : s.main.Built → ∀ i, mem (base s.job) i = s.args (s.job, i)

section Memory

variable {p : Params} {jobs : List Job} {s s' : State} {e : Event} {base : Nat → Nat}
  {mem : Memory}

/-- A store of a worker, as `State.args` and as the memory keep it. -/
theorem WorkerAct.args_eq {w : Worker} (h : WorkerAct p jobs s w e s') :
    (storeOf s e = none ∧ s'.args = s.args ∧ mem.after jobs base s e = mem) ∨
      ∃ f v, storeOf s e = some (w, f, v) ∧ s'.args = (s.store w f v).args ∧
        mem.after jobs base s e = mem.store base w f v := by
  cases h with
  | storeForked hpc | storeStart hpc | storeIpitime hpc | storeFinish hpc =>
    refine Or.inr ⟨_, _, ?_, rfl, ?_⟩
    · simp only [storeOf, hpc]
    · simp only [Memory.after, storeOf, hpc]
  | runDelay hpc => exact Or.inr ⟨_, _, rfl, rfl, rfl⟩
  | sampleForked | sampleStart | sampleCall | callFailed | callWaited | callSent
  | sampleFinish => exact Or.inl ⟨rfl, rfl, rfl⟩
  | addReady hpc | spinReady hpc | spin hpc | leave hpc | checkReady hpc | bug hpc | pass hpc
  | enterSingle hpc | enterMany hpc | endOne hpc | many hpc | endMany hpc | addComplete hpc
  | wake hpc =>
    refine Or.inl ⟨?_, rfl, ?_⟩
    · simp only [storeOf, hpc]
    · simp only [Memory.after, storeOf, hpc]

/-- A worker stores into its own entry of the array that is allocated, or no
array is. -/
theorem InMemory.worker {w : Worker} (h : InMemory jobs base mem s)
    (hact : WorkerAct p jobs s w e s') (hstore : NoStaleStore s e) :
    InMemory jobs base (mem.after jobs base s e) s' := by
  have hframe := hact.move.frame
  have hcounted : Counted jobs s' := h.counted.worker hact.move
  have harray : s'.OneArray := h.array.same hframe.job hframe.live (by rw [hframe.main])
  obtain ⟨-, hargs, hmem⟩ | ⟨f, v, hstores, hargs, hmem⟩ :=
    @WorkerAct.args_eq p jobs s s' e base mem w hact
  · rw [hmem]
    refine ⟨hcounted, harray, ?_, ?_⟩
    · rw [hframe.main, hframe.job]
      exact h.zero
    · rw [hframe.main, hframe.job, hargs]
      exact h.args
  · -- an array that is allocated is the one of the worker
    have hown : s.main.HasArray → w.1 = s.job := by
      intro hhas
      by_contra hne
      have hfreed : s.live w.1 = false := by
        by_contra hlive
        exact hne ((h.array w.1).mp (by simpa using hlive)).2
      have hnone := hstore w f v hstores hfreed s.job
      rw [(h.array s.job).mpr ⟨hhas, rfl⟩] at hnone
      cases hnone
    have hmember : w ∈ s.launched := (h.counted.mem_launched w).mpr hframe.present
    rw [hmem]
    refine ⟨hcounted, harray, ?_, ?_⟩
    · -- no worker is there before the CPUs are chosen
      rw [hframe.main]
      intro hmain
      have hpassed := h.counted.passed w hmember
        (hown (by rcases hmain with hmain | hmain <;> rw [hmain] <;> trivial))
      rcases hmain with hmain | hmain <;> rw [hmain] at hpassed <;> exact hpassed.elim
    · rw [hframe.main, hframe.job, hargs]
      intro hbuilt i
      have hjob := hown hbuilt.hasArray
      have hold := h.args hbuilt
      simp only [Memory.store, State.store, hjob, update_self]
      by_cases hi : i = w.2
      · have hw : w = (s.job, i) := Prod.ext hjob hi.symm
        subst hi
        rw [update_self, ← hw, update_self, hold, ← hw]
      · have hw : (s.job, i) ≠ w := fun heq => hi (congrArg Prod.snd heq)
        rw [update_of_ne hi, update_of_ne hw, hold]

/-- The main thread clears the array, fills in the CPUs, and stores nothing
else. -/
theorem InMemory.main (h : InMemory jobs base mem s) (he : e.actor = none)
    (hst : step p jobs s e = some s') : InMemory jobs base (mem.after jobs base s e) s' := by
  have hmove := mainMove_of_step he hst
  have hcounted : Counted jobs s' := h.counted.main hmove
  have harray : s'.OneArray := h.array.main hmove
  -- the main thread has no array, or is about to free it
  have hout : s'.main = .next ∨ s'.main = .alloc ∨ s'.main = .free ∨ s'.main = .returned →
      InMemory jobs base (mem.after jobs base s e) s' := by
    intro hmain
    refine ⟨hcounted, harray, ?_, ?_⟩
    · rintro (hset | hbuild)
      · simp [hset] at hmain
      · simp [hbuild] at hmain
    · intro hbuilt
      rcases hmain with hmain | hmain | hmain | hmain <;> rw [hmain] at hbuilt <;>
        exact hbuilt.elim
  -- the main thread goes on after the choice of the CPUs
  have hkeep : ∀ {q : MainPc}, s.main = q → q.Built → mem.after jobs base s e = mem →
      s'.job = s.job → s'.args = s.args → s'.main.Built →
      InMemory jobs base (mem.after jobs base s e) s' := by
    rintro q rfl hbuilt hmem hjob hargs hbuilt'
    rw [hmem]
    refine ⟨hcounted, harray, ?_, fun _ => ?_⟩
    · rintro (hset | hbuild)
      · rw [hset] at hbuilt'
        exact hbuilt'.elim
      · rw [hbuild] at hbuilt'
        exact hbuilt'.elim
    · rw [hjob, hargs]
      exact h.args hbuilt
  cases hmove with
  | stop | begin | noMemory | buildFail | endReport | free => exact hout (by simp)
  | alloc =>
    refine ⟨hcounted, harray, fun _ i f => ?_, fun hbuilt => hbuilt.elim⟩
    simp only [Memory.after, update_self, BenchArgs.fresh]
  | setShould hmain =>
    exact ⟨hcounted, harray, fun _ => h.zero (Or.inl hmain), fun hbuilt => hbuilt.elim⟩
  | @build job random cpus hmain hjob hcpus =>
    refine ⟨hcounted, harray, by simp, fun _ i => ?_⟩
    have hzero : (mem (base s.job) i).field = fun _ => 0 := funext (h.zero (Or.inr hmain) i)
    simp only [Memory.after, hjob, Option.bind_some, hcpus, update_self, if_true, hzero,
      BenchArgs.fresh]
  | launch hmain | launchFail hmain | sampleStart hmain | sampleEnd hmain =>
    exact hkeep hmain trivial rfl rfl rfl trivial
  | report hmain => exact hkeep hmain trivial rfl rfl rfl trivial
  | endLaunch hmain _ _ hp | waitReturn hmain _ hp =>
    refine hkeep hmain trivial rfl rfl rfl ?_
    rcases hp with rfl | rfl <;> trivial

theorem InMemory.step (h : InMemory jobs base mem s) (hstore : NoStaleStore s e)
    (hst : IpiBench.step p jobs s e = some s') :
    InMemory jobs base (mem.after jobs base s e) s' := by
  cases he : e.actor with
  | some w => exact h.worker (act_of_step he hst) hstore
  | none => exact h.main he hst

theorem InMemory.of_exec {es : List Event} (h : InMemory jobs base mem s)
    (hrun : exec (IpiBench.step p jobs) s es = some s')
    (hstores : AllSteps (IpiBench.step p jobs) NoStaleStore s es) :
    InMemory jobs base (memoryAfter p jobs base mem s es) s' := by
  induction es generalizing s mem with
  | nil =>
    obtain rfl := Option.some.inj hrun
    exact h
  | cons e es ih =>
    obtain ⟨t, hst, hts⟩ := exec_cons.mp hrun
    simp only [memoryAfter, hst]
    exact ih (h.step hstores.1 hst) hts (hstores.2 t hst)

/-- In a run without a stale store the main thread finds in memory what
`State.args` says. -/
theorem argsInMemory_of_noStaleStore {es : List Event}
    (hrun : exec (IpiBench.step p jobs) State.load es = some s)
    (hstores : AllSteps (IpiBench.step p jobs) NoStaleStore State.load es) :
    ArgsInMemory p jobs es := by
  rintro base mem before t ⟨rest, rfl⟩ ht hbuilt i
  have hload : InMemory jobs base mem State.load :=
    ⟨counted_load jobs, oneArray_load, by simp [State.load], fun h => h.elim⟩
  have hbefore := ((allSteps_append ht).mp hstores).1
  exact (hload.of_exec ht hbefore).args hbuilt i

theorem actor_of_storeOf {w : Worker} {f : Field} {v : UInt64}
    (h : storeOf s e = some (w, f, v)) : e.actor = some w := by
  cases e with
  | worker w' =>
    simp only [storeOf] at h
    split at h <;> cases h <;> rfl
  | runDelay w' d =>
    cases h
    rfl
  | main | alloc | build | launch | mainSample | waitReturn | sample | call => cases h

/-- A single benchmark allocates one array. -/
theorem live_single {job : Job} (h : ∀ j, s.live j = true → j = 0)
    (hst : IpiBench.step p [job] s e = some s') : ∀ j, s'.live j = true → j = 0 := by
  rcases move_of_step hst with ⟨w, hmove⟩ | hmove
  · rw [hmove.frame.live]
    exact h
  · cases hmove with
    | @alloc job' _ hjob =>
      intro j hlive
      change update s.live s.job true j = true at hlive
      by_cases hj : j = s.job
      · rw [hj]
        have hlt := (List.getElem?_eq_some_iff.mp hjob).1
        simp only [List.length_singleton] at hlt
        omega
      · rw [update_of_ne hj] at hlive
        exact h j hlive
    | free =>
      intro j hlive
      change update s.live s.job false j = true at hlive
      by_cases hj : j = s.job
      · simp [hj] at hlive
      · rw [update_of_ne hj] at hlive
        exact h j hlive
    | stop | begin | noMemory | setShould | build | buildFail | launch | launchFail | endLaunch
    | sampleStart | waitReturn | sampleEnd | report | endReport => exact h

/-- The workers of a single benchmark have no other array to store into while
an array is allocated. -/
theorem noStaleStore_of_single {job : Job} {es : List Event}
    (hrun : exec (IpiBench.step p [job]) State.load es = some s) :
    AllSteps (IpiBench.step p [job]) NoStaleStore State.load es := by
  refine allSteps_imp (P := fun _ _ => True)
    (I := fun t => Counted [job] t ∧ ∀ j, t.live j = true → j = 0)
    (fun _ _ _ hI _ hst => ⟨counted_of_exec hI.1 (exec_one hst), live_single hI.2 hst⟩)
    (fun t e t' hI _ hst => ?_) ⟨counted_load [job], by simp [State.load]⟩ hrun
    (allSteps_of_forall (fun _ _ => trivial) _ _)
  intro w f v hstores hfreed j
  have hpresent := (workerMove_of_step (actor_of_storeOf hstores) hst).frame.present
  have hfirst := hI.1.only_first w ((hI.1.mem_launched w).mpr hpresent)
  rw [hfirst] at hfreed
  by_contra hlive
  obtain rfl := hI.2 j (by simpa using hlive)
  exact hlive hfreed

end Memory

/-- `ipi_bench_self` and then `ipi_bench_single`.  The wait of the first one
times out before its worker has done anything, and the worker comes to its
first store when the second array is allocated. -/
def staleStoreRun : List Event :=
  ([.main, .alloc true, .main, .build fun _ => 0, .launch true, .sample (0, 0) 5, .main,
      .waitReturn .timeout] : List Event) ++
    List.replicate 9 .main ++
    ([.alloc true, .main, .build fun _ => 0, .worker (0, 0)] : List Event)

/-- With both arrays in the same place, the store of the first worker ends in
the entry of the second one. -/
theorem memory_ne_args_staleStoreRun : ∃ s,
    exec (step (onePair 1 3) (benchInit twoCpus (onePair 1 3))) State.load staleStoreRun = some s ∧
      (memoryAfter (onePair 1 3) (benchInit twoCpus (onePair 1 3)) (fun _ => 0)
        (fun _ _ => BenchArgs.fresh (0, 0)) State.load staleStoreRun 0 0).field .forked = 5 ∧
      (s.args (1, 0)).field .forked = 0 := by
  have h : (exec (step (onePair 1 3) (benchInit twoCpus (onePair 1 3))) State.load
      staleStoreRun).map (fun s => decide ((s.args (1, 0)).field .forked = 0)) = some true := by
    decide +kernel
  obtain ⟨s, hrun, hs⟩ := exists_exec_of_map h
  exact ⟨s, hrun, by decide +kernel, of_decide_eq_true hs⟩

end KvmUtils.IpiBench
