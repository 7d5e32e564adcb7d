import KvmUtils.TlbShootdown.Buffers

/-!
# The moves of the TLB benchmark

What a step does to the thread that makes it, with the duration that it
measures and what it asks of the memory.  A step of one thread leaves the
other threads alone, so each of them can be followed on its own.
-/

namespace KvmUtils.TlbShootdown

open Function Machine

/-- The two parts of a turn. -/
inductive Phase where
  | fill
  | leak
  deriving DecidableEq, Repr

/-- What a `gettimeofday` at the end of a part of a turn adds to a sum. -/
def measured (s : State) : Event → List (Nat × Phase × Int)
  | .time t usec =>
    let th := s.threads t
    match th.pc with
    | .fill index => if index < BUF_SIZE then [] else [(t, .fill, usec - th.start)]
    | .advise index => if index < BUF_SIZE then [] else [(t, .leak, usec - th.start)]
    | .endLeak => [(t, .leak, usec - th.start)]
    | _ => []
  | _ => []

/-- What a thread asks of the memory. -/
inductive Ask where
  | mmap (base : Nat)
  | store (addr : Nat)
  | madvise (addr : Nat) (ret : Int)
  | munmap (addr : Nat)
  deriving DecidableEq, Repr

/-- The store or the call that an event is.  A store that ends the process and
a call that fails are among them. -/
def asked (s : State) : Event → List (Nat × Ask)
  | .thread t =>
    let th := s.threads t
    match th.pc with
    | .fill index => if index < BUF_SIZE then [(t, .store (th.p + index))] else []
    | _ => []
  | .mmap t base => [(t, .mmap base)]
  | .munmap t _ => [(t, .munmap (s.threads t).p)]
  | .madvise t ret =>
    let th := s.threads t
    match th.pc with
    | .advise index => [(t, .madvise (th.p + index) ret)]
    | _ => []
  | .main | .create _ | .affinity _ _ | .time _ _ => []

/-! ## The steps of a thread -/

/-- What a step makes of a thread, the durations that it measures and what it
asks of the memory. -/
inductive ThreadMove (c : Config) (th : Thread) :
    List (Phase × Int) → List Ask → Thread → Prop where
  | setAffinity (hpc : th.pc = .setAffinity) :
      ThreadMove c th [] [] { th with pc := .getAffinity }
  | getAffinity (hpc : th.pc = .getAffinity) : ThreadMove c th [] [] { th with pc := .mmap }
  | map {base} (hpc : th.pc = .mmap) :
      ThreadMove c th [] [.mmap base] { th with pc := .head, p := base, loop := 0, last := base }
  | turn (hpc : th.pc = .head) (hloop : (th.loop : Int) < c.benchLoops) :
      ThreadMove c th [] [] { th with pc := .startFill }
  | finish (hpc : th.pc = .head) (hloop : c.benchLoops ≤ th.loop) :
      ThreadMove c th [] [] { th with pc := .done }
  | startFill {usec} (hpc : th.pc = .startFill) :
      ThreadMove c th [] [] { th with pc := .fill 0, start := usec }
  | store {index} (hpc : th.pc = .fill index) (hindex : index < BUF_SIZE) :
      ThreadMove c th [] [.store (th.p + index)] { th with pc := .fill (index + PAGE) }
  | endFill {index usec} (hpc : th.pc = .fill index) (hindex : BUF_SIZE ≤ index) :
      ThreadMove c th [(.fill, usec - th.start)] []
        { th with pc := .startLeak, usecFill := th.usecFill + (usec - th.start) }
  | startUnmap {usec} (hpc : th.pc = .startLeak) (hunmap : c.useUnmap = true) :
      ThreadMove c th [] [] { th with pc := .munmap, start := usec }
  | startAdvise {usec} (hpc : th.pc = .startLeak) (hunmap : c.useUnmap = false) :
      ThreadMove c th [] [] { th with pc := .advise 0, start := usec }
  | munmap (hpc : th.pc = .munmap) :
      ThreadMove c th [] [.munmap th.p] { th with pc := .remap }
  | remap {base} (hpc : th.pc = .remap) :
      ThreadMove c th [] [.mmap base] { th with pc := .endLeak, last := base }
  | advise {index} (hpc : th.pc = .advise index) (hindex : index < BUF_SIZE) :
      ThreadMove c th [] [.madvise (th.p + index) 0] { th with pc := .advise (index + PAGE) }
  | adviseFail {index ret} (hpc : th.pc = .advise index) (hindex : index < BUF_SIZE)
      (hret : ret ≠ 0) :
      ThreadMove c th [] [.madvise (th.p + index) ret] { th with pc := .endLeak, ret := ret }
  | endAdvise {index usec} (hpc : th.pc = .advise index) (hindex : BUF_SIZE ≤ index) :
      ThreadMove c th [(.leak, usec - th.start)] [] { th with
        pc := .head, usecLeak := th.usecLeak + (usec - th.start), loop := th.loop + 1 }
  | endLeak {usec} (hpc : th.pc = .endLeak) :
      ThreadMove c th [(.leak, usec - th.start)] [] { th with
        pc := .head, usecLeak := th.usecLeak + (usec - th.start), loop := th.loop + 1 }

/-- What a thread asks of the memory in the step that ends the process. -/
inductive LastAsk (th : Thread) : List Ask → Prop where
  | affinity : LastAsk th []
  | store {index} (hpc : th.pc = .fill index) (hindex : index < BUF_SIZE) :
      LastAsk th [.store (th.p + index)]
  | munmap (hpc : th.pc = .munmap) : LastAsk th [.munmap th.p]

/-- The thread whose step the event is. -/
def Event.actor : Event → Option Nat
  | .thread t | .affinity t _ | .time t _ | .mmap t _ | .munmap t _ | .madvise t _ => some t
  | .main | .create _ => none

section Inversion

variable {c : Config} {s s' : State} {t : Nat} {e : Event}

/-- A step of thread `t`: the process exits, or the thread moves and nothing
else does but the mappings. -/
inductive ActorMove (c : Config) (s : State) (t : Nat) (e : Event) (s' : State) : Prop where
  | exit {as} (hs : s' = s.exit) (hnone : measured s e = [])
      (hask : LastAsk (s.threads t) as) (hasked : asked s e = as.map fun a => (t, a))
  | move {ds as th} (hmove : ThreadMove c (s.threads t) ds as th)
      (hmeasured : measured s e = ds.map fun d => (t, d))
      (hasked : asked s e = as.map fun a => (t, a))
      (hthreads : s'.threads = update s.threads t th) (hmain : s'.main = s.main)
      (hexited : s'.exited = s.exited)

theorem actorMove_of_timeStep {usec : Int} (hst : timeStep c s t usec = some s') :
    ActorMove c s t (.time t usec) s' := by
  unfold timeStep at hst
  simp only at hst
  split at hst
  · rename_i hpc
    cases hst
    exact .move (.startFill hpc) (by simp [measured, hpc]) rfl rfl rfl rfl
  · rename_i index hpc
    split at hst <;> rename_i hindex <;> cases hst
    exact .move (.endFill hpc (Nat.le_of_not_lt hindex)) (by simp [measured, hpc, hindex]) rfl rfl
      rfl rfl
  · rename_i hpc
    cases hst
    have hnone : measured s (.time t usec) = [] := by simp [measured, hpc]
    cases hunmap : c.useUnmap with
    | true => exact .move (.startUnmap hpc hunmap) hnone rfl rfl rfl rfl
    | false => exact .move (.startAdvise hpc hunmap) hnone rfl rfl rfl rfl
  · rename_i index hpc
    split at hst <;> rename_i hindex <;> cases hst
    exact .move (.endAdvise hpc (Nat.le_of_not_lt hindex)) (by simp [measured, hpc, hindex]) rfl rfl
      rfl rfl
  · rename_i hpc
    cases hst
    exact .move (.endLeak hpc) (by simp [measured, hpc]) rfl rfl rfl rfl
  · cases hst

theorem actorMove_of_threadStep (hst : threadStep c s t = some s') :
    ActorMove c s t (.thread t) s' := by
  unfold threadStep at hst
  simp only at hst
  split at hst
  · rename_i hpc
    have hnone : asked s (.thread t) = [] := by simp [asked, hpc]
    split at hst <;> rename_i hloop <;> cases hst
    · exact .move (.turn hpc hloop) rfl hnone rfl rfl rfl
    · exact .move (.finish hpc (by omega)) rfl hnone rfl rfl rfl
  · rename_i index hpc
    split at hst
    · rename_i hindex
      have hstore : asked s (.thread t) = [(t, .store ((s.threads t).p + index))] := by
        simp [asked, hpc, hindex]
      split at hst <;> cases hst
      · exact .move (.store hpc hindex) rfl hstore rfl rfl rfl
      · exact .exit rfl rfl (.store hpc hindex) hstore
    · cases hst
  · cases hst

/-- Every step of a thread is a move of it. -/
theorem actorMove_of_step (he : e.actor = some t) (hst : step c s e = some s') :
    ActorMove c s t e s' := by
  unfold step at hst
  split at hst
  · cases hst
  cases e with
  | main | create => cases he
  | thread u =>
    obtain rfl := Option.some.inj he
    exact actorMove_of_threadStep hst
  | time u usec =>
    obtain rfl := Option.some.inj he
    exact actorMove_of_timeStep hst
  | affinity u ok =>
    obtain rfl := Option.some.inj he
    simp only [affinityStep] at hst
    split at hst
    · rename_i hpc
      split at hst <;> cases hst
      · exact .move (.setAffinity hpc) rfl rfl rfl rfl rfl
      · exact .exit rfl rfl .affinity rfl
    · rename_i hpc
      split at hst <;> cases hst
      · exact .move (.getAffinity hpc) rfl rfl rfl rfl rfl
      · exact .exit rfl rfl .affinity rfl
    · cases hst
  | mmap u base =>
    obtain rfl := Option.some.inj he
    simp only [mmapStep] at hst
    split at hst
    · split at hst
      · rename_i hpc
        cases hst
        exact .move (.map hpc) rfl rfl rfl rfl rfl
      · rename_i hpc
        cases hst
        exact .move (.remap hpc) rfl rfl rfl rfl rfl
      · cases hst
    · cases hst
  | munmap u ok =>
    obtain rfl := Option.some.inj he
    simp only [munmapStep] at hst
    split at hst
    · rename_i hpc
      split at hst <;> cases hst
      · exact .move (.munmap hpc) rfl rfl rfl rfl rfl
      · exact .exit rfl rfl (.munmap hpc) rfl
    · cases hst
  | madvise u ret =>
    obtain rfl := Option.some.inj he
    simp only [madviseStep] at hst
    split at hst
    · rename_i index hpc
      have hadvise : asked s (.madvise u ret) = [(u, .madvise ((s.threads u).p + index) ret)] := by
        simp [asked, hpc]
      split at hst
      · rename_i hindex
        split at hst <;> rename_i hret <;> cases hst
        · exact .move (.adviseFail hpc hindex hret) rfl hadvise rfl rfl rfl
        · obtain rfl : ret = 0 := not_not.mp hret
          exact .move (.advise hpc hindex) rfl hadvise rfl rfl rfl
      · cases hst
    · cases hst

/-- A step of `main`. -/
inductive MainMove (c : Config) (s : State) : State → Prop where
  | exit : MainMove c s s.exit
  | create {tnum} (hmain : s.main = .create tnum) (hlt : (tnum : Int) < c.numThreads) :
      MainMove c s ({ s with main := .create (tnum + 1) }.set tnum
        { s.threads tnum with pc := .setAffinity })
  | endCreate {tnum} (hmain : s.main = .create tnum) (hge : c.numThreads ≤ tnum) :
      MainMove c s { s with main := .join 0 0 0 }
  | join {tnum fill leak} (hmain : s.main = .join tnum fill leak)
      (hlt : (tnum : Int) < c.numThreads) (hdone : (s.threads tnum).pc = .done) :
      MainMove c s { s with
        main := .join (tnum + 1) (fill + (s.threads tnum).usecFill)
          (leak + (s.threads tnum).usecLeak) }
  | endJoin {tnum fill leak} (hmain : s.main = .join tnum fill leak)
      (hge : c.numThreads ≤ tnum) :
      MainMove c s { s.exit with main := .returned fill leak }

theorem mainMove_of_step (he : e.actor = none) (hst : step c s e = some s') :
    MainMove c s s' := by
  unfold step at hst
  split at hst
  · cases hst
  cases e with
  | main =>
    simp only [mainStep] at hst
    split at hst
    · rename_i tnum hmain
      split at hst <;> rename_i hlt <;> cases hst
      exact .endCreate hmain (by omega)
    · rename_i tnum fill leak hmain
      split at hst <;> rename_i hlt
      · split at hst <;> rename_i hdone <;> cases hst
        exact .join hmain hlt hdone
      · cases hst
        exact .endJoin hmain (by omega)
    · cases hst
  | create ok =>
    simp only [createStep] at hst
    split at hst
    · rename_i tnum hmain
      split at hst
      · rename_i hlt
        split at hst <;> cases hst
        · exact .create hmain hlt
        · exact .exit
      · cases hst
    · cases hst
  | thread | affinity | time | mmap | munmap | madvise => cases he

theorem measured_of_main (he : e.actor = none) : measured s e = [] := by
  cases e with
  | main | create => rfl
  | thread | affinity | time | mmap | munmap | madvise => cases he

theorem asked_of_main (he : e.actor = none) : asked s e = [] := by
  cases e with
  | main | create => rfl
  | thread | affinity | time | mmap | munmap | madvise => cases he

theorem not_exited_of_step (hst : step c s e = some s') : s.exited = false := by
  unfold step at hst
  split at hst
  · cases hst
  · rename_i hlive
    simpa using hlive

end Inversion

end KvmUtils.TlbShootdown
