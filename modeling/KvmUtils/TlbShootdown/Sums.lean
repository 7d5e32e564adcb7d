import Mathlib.Algebra.BigOperators.Group.Finset.Piecewise
import Mathlib.Algebra.Order.BigOperators.Group.Finset
import Mathlib.Algebra.Order.Ring.Int
import KvmUtils.Lib.Progress
import KvmUtils.TlbShootdown.Moves

/-!
# What the TLB benchmark prints

Each thread adds the time of every turn to its two sums, first that of the
loop that fills the buffer and then that of the part that gives it back.
`main` joins the threads in their order and adds up their sums.

However the threads are interleaved, and with every `mmap` successful, the
process comes to an end
(`process_ends`), and where `main` gets through its joins, the sums that it
prints are those of the durations that the threads have measured, with each
thread having measured each of its turns once (`sums_are_measured`).
-/

namespace KvmUtils.TlbShootdown

open Function Machine

/-- The durations that thread `t` has measured in this part. -/
def durations (all : List (Nat × Phase × Int)) (t : Nat) (phase : Phase) : List Int :=
  all.filterMap fun m => if m.1 = t ∧ m.2.1 = phase then some m.2.2 else none

/-! ## The sums of a thread -/

/-- The sums of a thread are those of its durations, and it has measured each
part of each turn up to where it is. -/
structure ThreadSums (c : Config) (th : Thread) (fills leaks : List Int) : Prop where
  fill_eq : th.usecFill = fills.sum
  leak_eq : th.usecLeak = leaks.sum
  turns : match th.pc with
    | .absent | .setAffinity | .getAffinity | .mmap => fills = [] ∧ leaks = []
    | .head => fills.length = th.loop ∧ leaks.length = th.loop ∧ th.loop ≤ c.benchLoops.toNat
    | .startFill | .fill _ =>
      fills.length = th.loop ∧ leaks.length = th.loop ∧ th.loop < c.benchLoops.toNat
    | .startLeak | .munmap | .remap | .advise _ | .endLeak =>
      fills.length = th.loop + 1 ∧ leaks.length = th.loop ∧ th.loop < c.benchLoops.toNat
    | .done => fills.length = c.benchLoops.toNat ∧ leaks.length = c.benchLoops.toNat

/-- The durations of a move that belong to this part of a turn. -/
def newDurations (ds : List (Phase × Int)) (phase : Phase) : List Int :=
  ds.filterMap fun d => if d.1 = phase then some d.2 else none

theorem ThreadSums.move {c : Config} {th th' : Thread} {fills leaks : List Int}
    {ds : List (Phase × Int)} {as : List Ask} (h : ThreadSums c th fills leaks)
    (hmove : ThreadMove c th ds as th') :
    ThreadSums c th' (fills ++ newDurations ds .fill) (leaks ++ newDurations ds .leak) := by
  have hturns := h.turns
  cases hmove with
  | setAffinity hpc | getAffinity hpc =>
    rw [hpc] at hturns
    refine ⟨?_, ?_, ?_⟩ <;> simp only [newDurations, List.filterMap_nil, List.append_nil]
    · exact h.fill_eq
    · exact h.leak_eq
    · exact hturns
  | map hpc =>
    rw [hpc] at hturns
    obtain ⟨rfl, rfl⟩ := hturns
    exact ⟨h.fill_eq, h.leak_eq, rfl, rfl, Nat.zero_le _⟩
  | turn hpc hloop =>
    rw [hpc] at hturns
    obtain ⟨hfills, hleaks, -⟩ := hturns
    refine ⟨?_, ?_, ?_⟩ <;> simp only [newDurations, List.filterMap_nil, List.append_nil]
    · exact h.fill_eq
    · exact h.leak_eq
    · exact ⟨hfills, hleaks, by omega⟩
  | finish hpc hloop =>
    rw [hpc] at hturns
    obtain ⟨hfills, hleaks, hle⟩ := hturns
    refine ⟨?_, ?_, ?_⟩ <;> simp only [newDurations, List.filterMap_nil, List.append_nil]
    · exact h.fill_eq
    · exact h.leak_eq
    · exact ⟨by omega, by omega⟩
  | startFill hpc | store hpc _ | startUnmap hpc _ | startAdvise hpc _ | munmap hpc | remap hpc
  | advise hpc _ | adviseFail hpc =>
    rw [hpc] at hturns
    refine ⟨?_, ?_, ?_⟩ <;> simp only [newDurations, List.filterMap_nil, List.append_nil]
    · exact h.fill_eq
    · exact h.leak_eq
    · exact hturns
  | endFill hpc =>
    rw [hpc] at hturns
    obtain ⟨hfills, hleaks, hlt⟩ := hturns
    refine ⟨?_, ?_, ?_, ?_, hlt⟩ <;> simp [newDurations, h.fill_eq, h.leak_eq, hfills, hleaks]
  | endAdvise hpc _ | endLeak hpc =>
    rw [hpc] at hturns
    obtain ⟨hfills, hleaks, hlt⟩ := hturns
    refine ⟨?_, ?_, ?_, ?_, hlt⟩ <;> simp [newDurations, h.fill_eq, h.leak_eq, hfills, hleaks]

theorem durations_append (all new : List (Nat × Phase × Int)) (t : Nat) (phase : Phase) :
    durations (all ++ new) t phase = durations all t phase ++ durations new t phase := by
  simp [durations]

theorem durations_own (ds : List (Phase × Int)) (t : Nat) (phase : Phase) :
    durations (ds.map fun d => (t, d)) t phase = newDurations ds phase := by
  simp [durations, newDurations, List.filterMap_map]

theorem durations_other {ds : List (Phase × Int)} {t u : Nat} (hne : u ≠ t) (phase : Phase) :
    durations (ds.map fun d => (t, d)) u phase = [] := by
  simp [durations, List.filterMap_map, hne.symm]

/-! ## The sums of `main` -/

/-- The threads that `main` has created. -/
def MainPc.created (c : Config) : MainPc → Nat
  | .create tnum => tnum
  | .join _ _ _ | .returned _ _ => c.numThreads.toNat

/-- The threads that `main` has joined, with their sums. -/
def MainSums (c : Config) (s : State) : Prop :=
  match s.main with
  | .create _ => True
  | .join tnum fill leak =>
    tnum ≤ c.numThreads.toNat ∧ (∀ t < tnum, (s.threads t).pc = .done) ∧
      fill = ∑ t ∈ Finset.range tnum, (s.threads t).usecFill ∧
      leak = ∑ t ∈ Finset.range tnum, (s.threads t).usecLeak
  | .returned fill leak =>
    s.exited = true ∧ (∀ t < c.numThreads.toNat, (s.threads t).pc = .done) ∧
      fill = ∑ t ∈ Finset.range c.numThreads.toNat, (s.threads t).usecFill ∧
      leak = ∑ t ∈ Finset.range c.numThreads.toNat, (s.threads t).usecLeak

/-- The sums of all threads and of `main`. -/
structure Sums (c : Config) (s : State) (all : List (Nat × Phase × Int)) : Prop where
  thread : ∀ t, ThreadSums c (s.threads t) (durations all t .fill) (durations all t .leak)
  created_iff : ∀ t, (s.threads t).pc ≠ .absent ↔ t < s.main.created c
  created_le : s.main.created c ≤ c.numThreads.toNat
  main : MainSums c s

section Sums

variable {c : Config} {s s' : State} {t : Nat} {e : Event} {all : List (Nat × Phase × Int)}

theorem ThreadMove.present {th th' : Thread} {ds : List (Phase × Int)} {as : List Ask}
    (h : ThreadMove c th ds as th') :
    (th.pc ≠ .absent ∧ th.pc ≠ .done) ∧ th'.pc ≠ .absent := by
  cases h with
  | _ hpc => simp [hpc]

/-- `main` has not joined a thread that moves. -/
theorem MainSums.of_threadMove (h : MainSums c s) (hlive : s.exited = false) {th : Thread}
    (hpc : (s.threads t).pc ≠ .done) (hthreads : s'.threads = update s.threads t th)
    (hmain : s'.main = s.main) : MainSums c s' := by
  unfold MainSums at h ⊢
  rw [hmain]
  cases hm : s.main with
  | create tnum => trivial
  | join tnum fill leak =>
    rw [hm] at h
    obtain ⟨hle, hdone, hfill, hleak⟩ := h
    have hsame : ∀ u < tnum, s'.threads u = s.threads u := by
      intro u hu
      have hut : u ≠ t := by
        rintro rfl
        exact hpc (hdone u hu)
      rw [hthreads, update_of_ne hut]
    refine ⟨hle, fun u hu => ?_, ?_, ?_⟩
    · rw [hsame u hu]
      exact hdone u hu
    · rw [hfill]
      exact Finset.sum_congr rfl fun u hu => by rw [hsame u (Finset.mem_range.mp hu)]
    · rw [hleak]
      exact Finset.sum_congr rfl fun u hu => by rw [hsame u (Finset.mem_range.mp hu)]
  | returned fill leak =>
    rw [hm, hlive] at h
    exact absurd h.1 (by simp)

/-- The process exits. -/
theorem MainSums.exit (h : MainSums c s) : MainSums c s.exit := by
  unfold MainSums at h ⊢
  show match s.main with | .create _ => _ | .join _ _ _ => _ | .returned _ _ => _
  cases hm : s.main with
  | create | join =>
    rw [hm] at h
    exact h
  | returned fill leak =>
    rw [hm] at h
    exact ⟨rfl, h.2⟩

theorem Sums.exit (h : Sums c s all) : Sums c s.exit all :=
  ⟨h.thread, h.created_iff, h.created_le, h.main.exit⟩

/-- Thread `t` moves. -/
theorem Sums.of_threadMove (h : Sums c s all) (hlive : s.exited = false) {th : Thread}
    {ds : List (Phase × Int)} {as : List Ask} (hmove : ThreadMove c (s.threads t) ds as th)
    (hthreads : s'.threads = update s.threads t th) (hmain : s'.main = s.main) :
    Sums c s' (all ++ ds.map fun d => (t, d)) := by
  obtain ⟨hpc, hpc'⟩ := hmove.present
  refine ⟨fun u => ?_, fun u => ?_, hmain ▸ h.created_le,
    h.main.of_threadMove hlive hpc.2 hthreads hmain⟩
  · rw [durations_append, durations_append, hthreads]
    by_cases hut : u = t
    · subst hut
      rw [update_self, durations_own, durations_own]
      exact (h.thread u).move hmove
    · rw [update_of_ne hut, durations_other hut, durations_other hut, List.append_nil,
        List.append_nil]
      exact h.thread u
  · rw [hmain, ← h.created_iff u, hthreads]
    by_cases hut : u = t
    · subst hut
      rw [update_self]
      exact iff_of_true hpc' hpc.1
    · rw [update_of_ne hut]

/-- `main` creates the next thread. -/
theorem Sums.create (h : Sums c s all) {tnum : Nat} (hm : s.main = .create tnum)
    (hlt : (tnum : Int) < c.numThreads) :
    Sums c ({ s with main := .create (tnum + 1) }.set tnum
      { s.threads tnum with pc := .setAffinity }) all := by
  have hcreated := h.created_iff
  rw [hm] at hcreated
  have habsent : (s.threads tnum).pc = .absent := by
    by_contra hpresent
    exact Nat.lt_irrefl tnum ((hcreated tnum).mp hpresent)
  refine ⟨fun u => ?_, fun u => ?_, ?_, trivial⟩
  · by_cases hut : u = tnum
    · subst hut
      have hthread := h.thread u
      have hturns := hthread.turns
      rw [habsent] at hturns
      rw [set_threads]
      exact ⟨hthread.fill_eq, hthread.leak_eq, hturns⟩
    · simp only [State.set, update_of_ne hut]
      exact h.thread u
  · show _ ↔ u < tnum + 1
    by_cases hut : u = tnum
    · subst hut
      simp
    · simp only [State.set, update_of_ne hut]
      rw [hcreated u]
      show u < tnum ↔ _
      omega
  · show tnum + 1 ≤ _
    omega

theorem Sums.of_step (h : Sums c s all) (hst : step c s e = some s') :
    Sums c s' (all ++ measured s e) := by
  have hlive := not_exited_of_step hst
  cases hactor : e.actor with
  | some t =>
    cases actorMove_of_step hactor hst with
    | exit hs hnone _ _ =>
      rw [hs, hnone, List.append_nil]
      exact h.exit
    | move hmove hmeasured _ hthreads hmain hexited =>
      rw [hmeasured]
      exact h.of_threadMove hlive hmove hthreads hmain
  | none =>
    rw [measured_of_main hactor, List.append_nil]
    have hmain := h.main
    have hcreated := h.created_iff
    unfold MainSums at hmain
    cases mainMove_of_step hactor hst with
    | exit => exact h.exit
    | create hm hlt => exact h.create hm hlt
    | @endCreate tnum hm hge =>
      have hle := h.created_le
      rw [hm] at hcreated hle
      obtain rfl : tnum = c.numThreads.toNat := Nat.le_antisymm hle (by omega)
      exact ⟨h.thread, hcreated, le_refl _, Nat.zero_le _,
        fun u hu => absurd hu (Nat.not_lt_zero u), rfl, rfl⟩
    | @join tnum fill leak hm hlt hdone =>
      rw [hm] at hmain hcreated
      obtain ⟨-, hall, hfill, hleak⟩ := hmain
      refine ⟨h.thread, hcreated, le_refl _, ?_, fun u hu => ?_, ?_, ?_⟩
      · show tnum + 1 ≤ _
        omega
      · rcases Nat.lt_succ_iff_lt_or_eq.mp hu with hlt | rfl
        · exact hall u hlt
        · exact hdone
      · rw [Finset.sum_range_succ, hfill]
      · rw [Finset.sum_range_succ, hleak]
    | @endJoin tnum fill leak hm hge =>
      rw [hm] at hmain hcreated
      obtain ⟨hle, hall, hfill, hleak⟩ := hmain
      obtain rfl : tnum = c.numThreads.toNat := by omega
      exact ⟨h.thread, hcreated, le_refl _, rfl, hall, hfill, hleak⟩

theorem sums_start (c : Config) : Sums c State.start [] :=
  ⟨fun _ => ⟨rfl, rfl, rfl, rfl⟩,
    fun t => iff_of_false (fun h => h rfl) (Nat.not_lt_zero t), Nat.zero_le _, trivial⟩

theorem sums_of_exec {es : List Event} (hrun : exec (step c) State.start es = some s) :
    Sums c s (outputs (step c) measured State.start es) := by
  have hend := exec_invariant_outputs (f := measured) (I := Sums c) (P := fun _ _ => True)
    (fun _ _ _ _ h _ hst => h.of_step hst) (sums_start c)
    (allSteps_of_forall (fun _ _ => trivial) State.start es) hrun
  rwa [List.nil_append] at hend

/-- The sums that `main` prints are those of the measurements.  In every run
in which `main` gets through its joins, every thread is through, each has
measured both parts of each of its turns once, and the sums printed are those
of all durations measured. -/
theorem sums_are_measured {es : List Event} {fill leak : Int}
    (hrun : exec (step c) State.start es = some s) (hmain : s.main = .returned fill leak) :
    (∀ t < c.numThreads.toNat, (s.threads t).pc = .done ∧
      ∀ phase, (durations (outputs (step c) measured State.start es) t phase).length =
        c.benchLoops.toNat) ∧
    fill = ∑ t ∈ Finset.range c.numThreads.toNat,
      (durations (outputs (step c) measured State.start es) t .fill).sum ∧
    leak = ∑ t ∈ Finset.range c.numThreads.toNat,
      (durations (outputs (step c) measured State.start es) t .leak).sum := by
  have h := sums_of_exec hrun
  have hend := h.main
  unfold MainSums at hend
  rw [hmain] at hend
  obtain ⟨-, hall, hfill, hleak⟩ := hend
  refine ⟨fun t ht => ⟨hall t ht, fun phase => ?_⟩, ?_, ?_⟩
  · have hturns := (h.thread t).turns
    rw [hall t ht] at hturns
    cases phase with
    | fill => exact hturns.1
    | leak => exact hturns.2
  · rw [hfill]
    exact Finset.sum_congr rfl fun t _ => (h.thread t).fill_eq
  · rw [hleak]
    exact Finset.sum_congr rfl fun t _ => (h.thread t).leak_eq

end Sums

/-- One thread fills its buffer in `7` microseconds, and the first `madvise`
fails after `3` more. -/
theorem exec_oneTurn : ∃ es s, exec (step ⟨1, 1, false⟩) State.start es = some s ∧
    s.main = .returned 7 3 ∧ (s.threads 0).pc = .done := by
  have hstart : (exec (step ⟨1, 1, false⟩) State.start
      [.create true, .affinity 0 true, .affinity 0 true, .mmap 0 0, .thread 0, .time 0 5]).map
      (fun s => decide (s.exited = false ∧ s.main = .create 1 ∧
        s.threads 0 = ⟨.fill 0, 0, 0, 5, 0, 0, 0, 0⟩ ∧
        s.space.ranges.map (fun r => (r.lo, r.hi)) = [(0, BUF_SIZE)])) = some true := by
    decide +kernel
  obtain ⟨s, hfirst, hs⟩ := exists_exec_of_map hstart
  obtain ⟨hlive, hmain, hthread, hranges⟩ := of_decide_eq_true hs
  have hmapped : ∀ i < BUF_SIZE, s.space.Mapped ((s.threads 0).p + i) := by
    intro i hi
    obtain ⟨r, rest, hr, hbounds, -⟩ := List.map_eq_cons_iff.mp hranges
    obtain ⟨hlo, hhi⟩ := Prod.mk.inj hbounds
    refine ⟨r, by rw [hr]; exact List.mem_cons_self, ?_, ?_⟩ <;> rw [hthread]
    · rw [hlo]
      exact Nat.zero_le _
    · rw [hhi]
      simpa using hi
  have hfill : exec (step ⟨1, 1, false⟩) (s.filling 0 0) (List.replicate 65536 (.thread 0)) = _ :=
    exec_fill hlive hmapped (by decide)
  rw [filling_self (by rw [hthread])] at hfill
  obtain ⟨s', hlast, hend⟩ : ∃ s', exec (step ⟨1, 1, false⟩) (s.filling 0 BUF_SIZE)
      [.time 0 12, .time 0 12, .madvise 0 (-1), .time 0 15, .thread 0, .main, .main, .main] =
        some s' ∧ s'.main = .returned 7 3 ∧ (s'.threads 0).pc = .done := by
    have hpos : 0 < BUF_SIZE := by decide
    simp [exec, step, timeStep, madviseStep, threadStep, mainStep, State.filling, State.set,
      State.exit, hlive, hmain, hthread, hpos]
  exact ⟨_, s', exec_trans (exec_trans hfirst hfill) hlast, hend⟩

theorem sums_are_measured_oneTurn : ∃ es s, exec (step ⟨1, 1, false⟩) State.start es = some s ∧
    s.main = .returned 7 3 ∧
      (durations (outputs (step ⟨1, 1, false⟩) measured State.start es) 0 .fill).sum = 7 := by
  obtain ⟨es, s, hrun, hmain, -⟩ := exec_oneTurn
  have hsum := (sums_are_measured hrun hmain).2.1
  rw [show (Config.mk 1 1 false).numThreads.toNat = 1 from rfl, Finset.sum_range_one] at hsum
  exact ⟨es, s, hrun, hmain, hsum.symm⟩

/-! ## The end of the process -/

/-- The pages of a buffer from `index` on. -/
def pagesLeft (index : Nat) : Nat := (BUF_SIZE + (PAGE - 1) - index) / PAGE

theorem pagesLeft_succ {index : Nat} (h : index < BUF_SIZE) :
    pagesLeft (index + PAGE) + 1 = pagesLeft index := by
  unfold pagesLeft BUF_SIZE PAGE at *
  omega

/-- The steps of a turn, at most. -/
def TURN_STEPS : Nat := 2 * pagesLeft 0 + 7

/-- The steps that a thread has still to make, at most. -/
def Thread.left (c : Config) (th : Thread) : Nat :=
  let rest := (c.benchLoops.toNat - (th.loop + 1)) * TURN_STEPS + 1
  match th.pc with
  | .absent => c.benchLoops.toNat * TURN_STEPS + 5
  | .setAffinity => c.benchLoops.toNat * TURN_STEPS + 4
  | .getAffinity => c.benchLoops.toNat * TURN_STEPS + 3
  | .mmap => c.benchLoops.toNat * TURN_STEPS + 2
  | .head => (c.benchLoops.toNat - th.loop) * TURN_STEPS + 1
  | .startFill => rest + 2 * pagesLeft 0 + 6
  | .fill index => rest + pagesLeft 0 + 5 + pagesLeft index
  | .startLeak => rest + pagesLeft 0 + 4
  | .munmap => rest + 3
  | .remap => rest + 2
  | .advise index => rest + 2 + pagesLeft index
  | .endLeak => rest + 1
  | .done => 0

theorem ThreadMove.left_lt {c : Config} {th th' : Thread} {ds : List (Phase × Int)}
    {as : List Ask} (h : ThreadMove c th ds as th') : th'.left c < th.left c := by
  cases h with
  | turn hpc hloop =>
    obtain ⟨k, hk⟩ : ∃ k, c.benchLoops.toNat - th.loop = k + 1 :=
      ⟨c.benchLoops.toNat - th.loop - 1, by omega⟩
    have hk' : c.benchLoops.toNat - (th.loop + 1) = k := by omega
    simp only [Thread.left, hpc, hk, hk', Nat.succ_mul, TURN_STEPS]
    omega
  | store hpc hindex | advise hpc hindex =>
    have hpages := pagesLeft_succ hindex
    simp only [Thread.left, hpc]
    omega
  | endAdvise hpc _ | endLeak hpc =>
    simp only [Thread.left, hpc]
    omega
  | setAffinity hpc | getAffinity hpc | map hpc | finish hpc _ | startFill hpc | endFill hpc
  | startUnmap hpc | startAdvise hpc | munmap hpc | remap hpc | adviseFail hpc =>
    simp only [Thread.left, hpc, Nat.sub_zero]
    omega

/-- The steps that `main` has still to make, at most. -/
def MainPc.left (c : Config) : MainPc → Nat
  | .create tnum => c.numThreads.toNat - tnum + c.numThreads.toNat + 2
  | .join tnum _ _ => c.numThreads.toNat - tnum + 1
  | .returned _ _ => 0

/-- The steps that the process has still to make, at most. -/
def State.left (c : Config) (s : State) : Nat :=
  if s.exited then 0
  else s.main.left c + ∑ t ∈ Finset.range c.numThreads.toNat, (s.threads t).left c + 1

section Ends

variable {c : Config} {s s' : State} {e : Event} {all : List (Nat × Phase × Int)}

theorem left_of_exited (h : s.exited = true) : s.left c = 0 := if_pos h

theorem left_of_live (h : s.exited = false) :
    s.left c =
      s.main.left c + ∑ t ∈ Finset.range c.numThreads.toNat, (s.threads t).left c + 1 :=
  if_neg (by simp [h])

/-- A thread that `main` has created comes nearer to its end, and the others
stay where they are. -/
theorem sum_left_lt {threads : Nat → Thread} {t n : Nat} {th : Thread} (ht : t < n)
    (hlt : th.left c < (threads t).left c) :
    ∑ u ∈ Finset.range n, (update threads t th u).left c <
      ∑ u ∈ Finset.range n, (threads u).left c := by
  refine Finset.sum_lt_sum (fun u _ => ?_) ⟨t, Finset.mem_range.mpr ht, by rwa [update_self]⟩
  by_cases hut : u = t
  · subst hut
    rw [update_self]
    exact le_of_lt hlt
  · rw [update_of_ne hut]

/-- Every step brings the process nearer to its end. -/
theorem left_lt_of_step (h : Sums c s all) (hst : step c s e = some s') :
    s'.left c < s.left c := by
  have hlive := not_exited_of_step hst
  rw [left_of_live hlive]
  cases hactor : e.actor with
  | some t =>
    cases actorMove_of_step hactor hst with
    | exit hs _ _ _ =>
      rw [hs, left_of_exited rfl]
      omega
    | move hmove _ _ hthreads hmain hexited =>
      have ht := (h.created_iff t).mp hmove.present.1.1
      have hsum := sum_left_lt (Nat.lt_of_lt_of_le ht h.created_le) hmove.left_lt
      rw [left_of_live (hexited.trans hlive), hmain, hthreads]
      omega
  | none =>
    cases mainMove_of_step hactor hst with
    | exit =>
      rw [left_of_exited rfl]
      omega
    | @create tnum hm hlt =>
      have hcreated := h.created_iff tnum
      rw [hm] at hcreated
      have habsent : (s.threads tnum).pc = .absent := by
        by_contra hpresent
        exact Nat.lt_irrefl tnum (hcreated.mp hpresent)
      have hlt' : Thread.left c { s.threads tnum with pc := .setAffinity } <
          (s.threads tnum).left c := by
        simp only [Thread.left, habsent]
        omega
      have hsum := sum_left_lt (show tnum < c.numThreads.toNat by omega) hlt'
      have hleft : MainPc.left c (.create (tnum + 1)) + 1 = MainPc.left c (.create tnum) := by
        simp only [MainPc.left]
        omega
      rw [left_of_live (by exact hlive), hm]
      change MainPc.left c (.create (tnum + 1)) + ∑ u ∈ Finset.range c.numThreads.toNat,
        (update s.threads tnum { s.threads tnum with pc := .setAffinity } u).left c + 1 < _
      omega
    | endCreate hm hge =>
      rw [left_of_live (by exact hlive), hm]
      simp only [MainPc.left]
      omega
    | join hm hlt _ =>
      rw [left_of_live (by exact hlive), hm]
      simp only [MainPc.left]
      omega
    | endJoin =>
      rw [left_of_exited rfl]
      omega

/-- There is room for one more buffer. -/
theorem exists_free (s : State) : ∃ base, base % PAGE = 0 ∧ s.Free base := by
  refine ⟨PAGE * (s.space.ranges.map (·.hi)).sum, Nat.mul_mod_right _ _, fun m hm => ?_⟩
  have hle : m.hi ≤ (s.space.ranges.map (·.hi)).sum := List.le_sum_of_mem (List.mem_map_of_mem hm)
  have hpage : (s.space.ranges.map (·.hi)).sum ≤ PAGE * (s.space.ranges.map (·.hi)).sum :=
    Nat.le_mul_of_pos_left _ (by decide)
  exact Or.inl (hle.trans hpage)

/-- A thread that has been created and is not through is never blocked. -/
theorem exists_threadStep (hlive : s.exited = false) {t : Nat}
    (hpresent : (s.threads t).pc ≠ .absent) (hdone : (s.threads t).pc ≠ .done) :
    ∃ e s', step c s e = some s' := by
  have hevent : ∀ e, (step c s e).isSome → ∃ e s', step c s e = some s' :=
    fun e h => ⟨e, _, (Option.some_get h).symm⟩
  cases hpc : (s.threads t).pc with
  | absent => exact absurd hpc hpresent
  | done => exact absurd hpc hdone
  | setAffinity | getAffinity =>
    exact hevent (.affinity t true) (by simp [step, affinityStep, hlive, hpc])
  | mmap =>
    obtain ⟨base, hbase, hfree⟩ := exists_free s
    exact ⟨_, _, step_map hlive hbase hfree hpc⟩
  | remap =>
    obtain ⟨base, hbase, hfree⟩ := exists_free s
    exact ⟨_, _, step_remap hlive hbase hfree hpc⟩
  | head =>
    refine hevent (.thread t) ?_
    by_cases hloop : ((s.threads t).loop : Int) < c.benchLoops <;>
      simp [step, threadStep, hlive, hpc, hloop]
  | startFill | startLeak | endLeak =>
    exact hevent (.time t 0) (by simp [step, timeStep, hlive, hpc])
  | fill index =>
    by_cases hindex : index < BUF_SIZE
    · refine hevent (.thread t) ?_
      by_cases hmapped : s.space.Mapped ((s.threads t).p + index) <;>
        simp [step, threadStep, hlive, hpc, hindex, hmapped]
    · exact hevent (.time t 0) (by simp [step, timeStep, hlive, hpc, hindex])
  | munmap => exact hevent (.munmap t true) (by simp [step, munmapStep, hlive, hpc])
  | advise index =>
    by_cases hindex : index < BUF_SIZE
    · exact hevent (.madvise t 0) (by simp [step, madviseStep, hlive, hpc, hindex])
    · exact hevent (.time t 0) (by simp [step, timeStep, hlive, hpc, hindex])

/-- As long as the process has not ended, some step is possible. -/
theorem exists_step (h : Sums c s all) (hlive : s.exited = false) :
    ∃ e s', step c s e = some s' := by
  have hevent : ∀ e, (step c s e).isSome → ∃ e s', step c s e = some s' :=
    fun e h => ⟨e, _, (Option.some_get h).symm⟩
  have hmain := h.main
  unfold MainSums at hmain
  cases hm : s.main with
  | returned fill leak =>
    rw [hm, hlive] at hmain
    exact absurd hmain.1 (by simp)
  | create tnum =>
    by_cases hlt : (tnum : Int) < c.numThreads
    · exact hevent (.create true) (by simp [step, createStep, hlive, hm, hlt])
    · exact hevent .main (by simp [step, mainStep, hlive, hm, hlt])
  | join tnum fill leak =>
    by_cases hlt : (tnum : Int) < c.numThreads
    · by_cases hdone : (s.threads tnum).pc = .done
      · exact hevent .main (by simp [step, mainStep, hlive, hm, hlt, hdone])
      · -- the thread that `main` waits for goes on
        have hcreated := (h.created_iff tnum).mpr (by
          rw [hm]
          show tnum < c.numThreads.toNat
          omega)
        exact exists_threadStep hlive hcreated hdone
    · exact hevent .main (by simp [step, mainStep, hlive, hm, hlt])

/-- The process ends.  No run is longer than what the options fix, and a run
that can go no further has ended the process, either where `main` returns or
where a thread exits. -/
theorem process_ends {es : List Event} (hrun : exec (step c) State.start es = some s) :
    es.length ≤ State.start.left c ∧ ((∀ e, step c s e = none) ↔ s.exited = true) := by
  constructor
  · have hlen := length_le (I := fun t => ∃ all, Sums c t all) (State.left c)
      (fun ⟨_, h⟩ hst => ⟨_, h.of_step hst⟩) (fun ⟨_, h⟩ hst => left_lt_of_step h hst)
      ⟨[], sums_start c⟩ hrun
    exact Nat.le_of_add_right_le hlen
  · constructor
    · intro hnone
      by_contra hlive
      obtain ⟨e, s', hst⟩ := exists_step (sums_of_exec hrun) (by simpa using hlive)
      rw [hnone e] at hst
      cases hst
    · intro hexited e
      cases hst : step c s e with
      | none => rfl
      | some s' => cases hexited.symm.trans (not_exited_of_step hst)

end Ends

/-- One thread that makes one turn. -/
theorem process_ends_oneTurn : ∃ es s, exec (step ⟨1, 1, false⟩) State.start es = some s ∧
    s.main = .returned 7 3 ∧ es.length ≤ State.start.left ⟨1, 1, false⟩ ∧
      ∀ e, step ⟨1, 1, false⟩ s e = none := by
  obtain ⟨es, s, hrun, hmain, -⟩ := exec_oneTurn
  have hsums := (sums_of_exec hrun).main
  rw [MainSums, hmain] at hsums
  obtain ⟨hlength, hend⟩ := process_ends hrun
  exact ⟨es, s, hrun, hmain, hlength, hend.mpr hsums.1⟩

end KvmUtils.TlbShootdown
