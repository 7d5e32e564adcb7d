import KvmUtils.Lib.Progress

/-!
# Threads that wait for one another

Threads that spin until the others have arrived somewhere make any number of
steps on the way.  What can be bounded is the number of rounds: a round is a
run in which every thread makes a step, or is left without one that it could
make.

A `Stage` is a part of the way.  As long as a thread has steps left in it, the
thread can make one, and each of its own steps takes down what is left; steps
of the others take nothing back.

* `Stage.left_rounds`: each round takes every thread one step on, so a stage
  of `bound` steps is over after `bound` rounds.
* `Stage.exists_through`: from any state the threads alone get through it.
-/

namespace Machine

variable {σ ε ι : Type*}

/-- A run from one state to another in `n` rounds. -/
inductive Rounds (step : σ → ε → Option σ) (actor : ε → Option ι) : Nat → σ → σ → Prop where
  | nil (s : σ) : Rounds step actor 0 s s
  | cons {n : Nat} {s t s' : σ} {es : List ε} (hrun : exec step s es = some t)
      (hround : ∀ i, (∃ e ∈ es, actor e = some i) ∨ ∀ e, actor e = some i → step t e = none)
      (hrest : Rounds step actor n t s') : Rounds step actor (n + 1) s s'

section Rounds

variable {step : σ → ε → Option σ} {actor : ε → Option ι}

/-- A run in rounds is a run. -/
theorem Rounds.reaches {n : Nat} {s s' : σ} (h : Rounds step actor n s s') :
    Reaches step s s' := by
  induction h with
  | nil s => exact Reaches.refl s
  | cons hrun _ _ ih => exact (Reaches.of_exec _ hrun).trans ih

/-- The first rounds and the rest. -/
theorem Rounds.split {m n : Nat} {s s' : σ} (h : Rounds step actor (m + n) s s') :
    ∃ t, Rounds step actor m s t ∧ Rounds step actor n t s' := by
  induction m generalizing s with
  | zero =>
    rw [Nat.zero_add] at h
    exact ⟨s, .nil s, h⟩
  | succ m ih =>
    rw [Nat.succ_add] at h
    cases h with
    | cons hrun hround hrest =>
      obtain ⟨t, hfirst, hlast⟩ := ih hrest
      exact ⟨t, .cons hrun hround hfirst, hlast⟩

end Rounds

/-- A stage of the threads.  `left` bounds the steps that a thread has still
to make in it.  Once a thread is through, its steps are free. -/
structure Stage (step : σ → ε → Option σ) (actor : ε → Option ι) where
  Inv : σ → Prop
  left : σ → ι → Nat
  bound : Nat
  inv_step : ∀ {s e s'}, Inv s → step s e = some s' → Inv s'
  left_le : ∀ {s} i, Inv s → left s i ≤ bound
  own_le : ∀ {s e s' i}, Inv s → actor e = some i → step s e = some s' →
    left s' i ≤ left s i - 1
  other_le : ∀ {s e s' i}, Inv s → actor e ≠ some i → step s e = some s' →
    left s' i ≤ left s i
  ready : ∀ {s i}, Inv s → left s i ≠ 0 → ∃ e s', actor e = some i ∧ step s e = some s'

namespace Stage

variable {step : σ → ε → Option σ} {actor : ε → Option ι} (S : Stage step actor)

theorem inv_exec {s s' : σ} {es : List ε} (hs : S.Inv s) (hrun : exec step s es = some s') :
    S.Inv s' :=
  exec_invariant' (fun _ _ _ => S.inv_step) hs hrun

/-- One step takes nothing back. -/
theorem step_le {s s' : σ} {e : ε} (i : ι) (hs : S.Inv s) (hst : step s e = some s') :
    S.left s' i ≤ S.left s i := by
  by_cases hactor : actor e = some i
  · exact Nat.le_trans (S.own_le hs hactor hst) (Nat.sub_le _ 1)
  · exact S.other_le hs hactor hst

/-- A run takes nothing back, and a run with a step of the thread takes it one
step on. -/
theorem left_exec (i : ι) : ∀ {s s' : σ} {es : List ε}, S.Inv s → exec step s es = some s' →
    S.left s' i ≤ S.left s i ∧
      ((∃ e ∈ es, actor e = some i) → S.left s' i ≤ S.left s i - 1)
  | s, s', [], _, hrun => by
    obtain rfl : s = s' := Option.some.inj hrun
    simp
  | s, s', e :: es, hs, hrun => by
    obtain ⟨t, hst, hts⟩ := exec_cons.mp hrun
    obtain ⟨hle, hown⟩ := left_exec i (S.inv_step hs hst) hts
    have hstep := S.step_le i hs hst
    refine ⟨Nat.le_trans hle hstep, fun ⟨f, hf, hactor⟩ => ?_⟩
    rcases List.mem_cons.mp hf with rfl | hlater
    · have hfirst := S.own_le hs hactor hst
      omega
    · have hlast := hown ⟨f, hlater, hactor⟩
      omega

/-- Each round takes every thread one step on. -/
theorem left_rounds (i : ι) {n : Nat} {s s' : σ} (hs : S.Inv s)
    (h : Rounds step actor n s s') : S.left s' i ≤ S.left s i - n := by
  induction h with
  | nil s => exact Nat.le_refl _
  | @cons n s t s' es hrun hround _ ih =>
    have ht := S.inv_exec hs hrun
    have hrest := ih ht
    obtain ⟨hle, hown⟩ := S.left_exec i hs hrun
    rcases hround i with hstepped | hnone
    · have hfirst := hown hstepped
      omega
    · -- a thread that could make no step is through
      have hzero : S.left t i = 0 := by
        by_contra hleft
        obtain ⟨e, u, hactor, hst⟩ := S.ready ht hleft
        rw [hnone e hactor] at hst
        cases hst
      omega

/-- After `bound` rounds every thread is through. -/
theorem through_of_rounds (i : ι) {n : Nat} {s s' : σ} (hs : S.Inv s)
    (h : Rounds step actor n s s') (hn : S.bound ≤ n) : S.left s' i = 0 := by
  have hle := S.left_rounds i hs h
  have hbound := S.left_le i hs
  omega

/-- Left alone, one thread gets through. -/
theorem exists_through_one (i : ι) {s : σ} (hs : S.Inv s) :
    ∃ es s', (∀ e ∈ es, actor e = some i) ∧ es.length ≤ S.bound ∧
      exec step s es = some s' ∧ S.left s' i = 0 := by
  obtain ⟨es, s', hall, hlen, hrun, hend⟩ :=
    exists_zero (g := fun e => actor e = some i) (fun t => S.left t i)
      (fun ht hleft => by
        obtain ⟨e, t', hactor, hst⟩ := S.ready ht hleft
        have hle := S.own_le ht hactor hst
        exact ⟨e, t', hactor, hst, S.inv_step ht hst, by omega⟩) hs
  exact ⟨es, s', hall, Nat.le_trans hlen (S.left_le i hs), hrun, hend⟩

/-- Left alone, the threads of a list get through one after another. -/
theorem exists_through : ∀ (is : List ι) {s : σ}, S.Inv s →
    ∃ es s', (∀ e ∈ es, ∃ i ∈ is, actor e = some i) ∧ es.length ≤ S.bound * is.length ∧
      exec step s es = some s' ∧ ∀ i ∈ is, S.left s' i = 0
  | [], s, _ => ⟨[], s, by simp, Nat.zero_le _, rfl, by simp⟩
  | i :: is, s, hs => by
    obtain ⟨es, t, hall, hlen, hrun, hzero⟩ := S.exists_through_one i hs
    have ht := S.inv_exec hs hrun
    obtain ⟨fs, s', hall', hlen', hrun', hzero'⟩ := exists_through is ht
    refine ⟨es ++ fs, s', fun e he => ?_, ?_, exec_trans hrun hrun', fun j hj => ?_⟩
    · rcases List.mem_append.mp he with he | he
      · exact ⟨i, List.mem_cons_self, hall e he⟩
      · obtain ⟨j, hj, hactor⟩ := hall' e he
        exact ⟨j, List.mem_cons_of_mem i hj, hactor⟩
    · rw [List.length_append, List.length_cons, Nat.mul_succ]
      omega
    · rcases List.mem_cons.mp hj with rfl | hj
      · have hle := (S.left_exec j ht hrun').1
        omega
      · exact hzero' j hj

end Stage

end Machine
