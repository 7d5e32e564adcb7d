import Mathlib.Data.Nat.Init
import KvmUtils.Lib.Machine

/-!
# Threads that get through

`Threads` is for machines whose threads have a bound on the steps that they
have still to make: each step of a thread takes its bound down, and no step of
another thread takes it up.  Whether a thread may have to wait for another one
is left to the results that depend on it.

* `length_le`: a quantity that every step takes down bounds the length of a
  run.
* `exists_zero_allSteps`, `exists_zero`: a quantity that some step can always
  take down can be brought to zero.
* `Threads.count_le`: over a run, a thread makes at most `bound` steps for
  each time that it is started.
* `Threads.exists_finish`: a thread that no other one can block gets through
  alone, from any state.
* `Threads.rest`: when nothing starts a thread any more, the machine comes to
  rest.
-/

namespace Machine

variable {σ ε ι : Type*}

/-- A quantity that every step takes down bounds the length of a run. -/
theorem length_le {step : σ → ε → Option σ} {I : σ → Prop} (m : σ → Nat)
    (hI : ∀ {s e s'}, I s → step s e = some s' → I s')
    (hm : ∀ {s e s'}, I s → step s e = some s' → m s' < m s)
    {s s' : σ} {es : List ε} (hs : I s) (hrun : exec step s es = some s') :
    es.length + m s' ≤ m s := by
  induction es generalizing s with
  | nil =>
    obtain rfl : s = s' := Option.some.inj hrun
    simp
  | cons e es ih =>
    obtain ⟨t, hst, hts⟩ := exec_cons.mp hrun
    have hlt := hm hs hst
    have hrest := ih (hI hs hst) hts
    rw [List.length_cons]
    omega

/-- A quantity that some good step can always take down is brought to zero by
a run of good steps. -/
theorem exists_zero_allSteps {step : σ → ε → Option σ} {I : σ → Prop} {P : σ → ε → Prop}
    (m : σ → Nat)
    (hdown : ∀ {s}, I s → m s ≠ 0 → ∃ e s', P s e ∧ step s e = some s' ∧ I s' ∧ m s' < m s)
    {s : σ} (hs : I s) :
    ∃ es s', AllSteps step P s es ∧ es.length ≤ m s ∧ exec step s es = some s' ∧ m s' = 0 := by
  generalize hn : m s = n
  induction n using Nat.strong_induction_on generalizing s with
  | h n ih =>
    by_cases hzero : m s = 0
    · exact ⟨[], s, trivial, Nat.zero_le n, rfl, hzero⟩
    · obtain ⟨e, t, hgood, hst, ht, hlt⟩ := hdown hs hzero
      obtain ⟨es, s', hall, hlen, hrun, hend⟩ := ih (m t) (hn ▸ hlt) ht rfl
      have hallowed : AllSteps step P s (e :: es) := by
        refine ⟨hgood, fun u hu => ?_⟩
        obtain rfl : t = u := Option.some.inj (hst.symm.trans hu)
        exact hall
      refine ⟨e :: es, s', hallowed, ?_, exec_cons.mpr ⟨t, hst, hrun⟩, hend⟩
      rw [List.length_cons]
      omega

/-- The same with steps that are good whatever the state is. -/
theorem exists_zero {step : σ → ε → Option σ} {I : σ → Prop} {g : ε → Prop} (m : σ → Nat)
    (hdown : ∀ {s}, I s → m s ≠ 0 → ∃ e s', g e ∧ step s e = some s' ∧ I s' ∧ m s' < m s)
    {s : σ} (hs : I s) :
    ∃ es s', (∀ e ∈ es, g e) ∧ es.length ≤ m s ∧ exec step s es = some s' ∧ m s' = 0 := by
  obtain ⟨es, s', hall, hlen, hrun, hend⟩ :=
    exists_zero_allSteps (P := fun _ e => g e) m hdown hs
  exact ⟨es, s', (allSteps_iff_forall hrun).mp hall, hlen, hrun, hend⟩

/-- What every step from a state with `J` has, every event of a run has. -/
theorem forall_mem_of_exec {step : σ → ε → Option σ} {J : σ → Prop} {P : ε → Prop}
    (hJ : ∀ s e s', J s → step s e = some s' → J s')
    (hall : ∀ s e s', J s → step s e = some s' → P e) {s s' : σ} {es : List ε} (hs : J s)
    (hrun : exec step s es = some s') : ∀ e ∈ es, P e := by
  induction es generalizing s with
  | nil => simp
  | cons e es ih =>
    obtain ⟨t, hst, hts⟩ := exec_cons.mp hrun
    exact List.forall_mem_cons.mpr ⟨hall _ _ _ hs hst, ih (hJ _ _ _ hs hst) hts⟩

/-- Threads that get through.  `left` bounds the steps that a thread has still
to make.  `actor` is the thread whose step an event is, and `starts` the
thread that it gives new work. -/
structure Threads (step : σ → ε → Option σ) (ι : Type*) where
  Inv : σ → Prop
  left : σ → ι → Nat
  bound : Nat
  actor : ε → Option ι
  starts : ε → Option ι
  inv_step : ∀ {s e s'}, Inv s → step s e = some s' → Inv s'
  left_le : ∀ {s} i, Inv s → left s i ≤ bound
  actor_lt : ∀ {s e s' i}, Inv s → actor e = some i → step s e = some s' → left s' i < left s i
  other_le : ∀ {s e s' i}, Inv s → actor e ≠ some i → starts e ≠ some i →
    step s e = some s' → left s' i ≤ left s i

namespace Threads

variable [DecidableEq ι] {step : σ → ε → Option σ} (T : Threads step ι)

/-- The event is a step of thread `i`. -/
def ofThread (i : ι) (e : ε) : Bool := decide (T.actor e = some i)

/-- The event gives thread `i` new work. -/
def startsThread (i : ι) (e : ε) : Bool := decide (T.starts e = some i)

/-- One step: the thread makes it, or it is started, or it is not nearer to
more work than before. -/
theorem left_step {s s' : σ} {e : ε} (i : ι) (hs : T.Inv s) (hst : step s e = some s') :
    (if T.ofThread i e then 1 else 0) + T.left s' i ≤
      T.left s i + T.bound * if T.startsThread i e then 1 else 0 := by
  unfold ofThread startsThread
  by_cases hactor : T.actor e = some i
  · have hlt := T.actor_lt hs hactor hst
    rw [if_pos (decide_eq_true hactor)]
    omega
  · rw [if_neg (by simpa using hactor)]
    by_cases hstarts : T.starts e = some i
    · have hle := T.left_le i (T.inv_step hs hst)
      rw [if_pos (decide_eq_true hstarts)]
      omega
    · have hle := T.other_le hs hactor hstarts hst
      omega

/-- Over a run, the steps of a thread and those that it has left are within
those that it had left at the start, and `bound` for each time that it has
been started. -/
theorem count_le (i : ι) : ∀ {s s' : σ} {es : List ε}, T.Inv s → exec step s es = some s' →
    es.countP (T.ofThread i) + T.left s' i ≤
      T.left s i + T.bound * es.countP (T.startsThread i)
  | s, s', [], _, hrun => by
    obtain rfl : s = s' := Option.some.inj hrun
    simp
  | s, s', e :: es, hs, hrun => by
    obtain ⟨t, hst, hts⟩ := exec_cons.mp hrun
    have ih := count_le i (T.inv_step hs hst) hts
    have hstep := T.left_step i hs hst
    rw [List.countP_cons, List.countP_cons, Nat.mul_add]
    omega

omit [DecidableEq ι] in
/-- Left alone, a thread gets through that no other thread can block. -/
theorem exists_finish (i : ι)
    (hready : ∀ {s}, T.Inv s → T.left s i ≠ 0 → ∃ e s', T.actor e = some i ∧ step s e = some s')
    {s : σ} (hs : T.Inv s) :
    ∃ es s', (∀ e ∈ es, T.actor e = some i) ∧ es.length ≤ T.bound ∧
      exec step s es = some s' ∧ T.left s' i = 0 := by
  obtain ⟨es, s', hall, hlen, hrun, hend⟩ :=
    exists_zero (g := fun e => T.actor e = some i) (fun t => T.left t i)
      (fun ht hleft =>
        have ⟨e, t', hactor, hst⟩ := hready ht hleft
        ⟨e, t', hactor, hst, T.inv_step ht hst, T.actor_lt ht hactor hst⟩) hs
  exact ⟨es, s', hall, Nat.le_trans hlen (T.left_le i hs), hrun, hend⟩

section Rest

variable {J : σ → Prop}

/-- Where every step is one of a thread and starts none, and some step is
there as long as some thread is not through, each thread makes at most `bound`
steps, and no step is left exactly when every thread is through. -/
theorem rest (hJ : ∀ {s e s'}, J s → step s e = some s' → J s')
    (hall : ∀ {s e s'}, J s → step s e = some s' →
      T.starts e = none ∧ ∃ i, T.actor e = some i)
    (hready : ∀ {s i}, T.Inv s → J s → T.left s i ≠ 0 → ∃ e s', step s e = some s')
    {s s' : σ} {es : List ε} (hs : T.Inv s) (hJs : J s) (hrun : exec step s es = some s') :
    (∀ e ∈ es, ∃ i, T.actor e = some i) ∧ (∀ i, es.countP (T.ofThread i) ≤ T.bound) ∧
      ((∀ e, step s' e = none) ↔ ∀ i, T.left s' i = 0) := by
  have hI' : T.Inv s' ∧ J s' :=
    exec_invariant' (I := fun t => T.Inv t ∧ J t)
      (fun _ _ _ h hst => ⟨T.inv_step h.1 hst, hJ h.2 hst⟩) ⟨hs, hJs⟩ hrun
  have hevents : ∀ e ∈ es, T.starts e = none ∧ ∃ i, T.actor e = some i :=
    forall_mem_of_exec (P := fun e => T.starts e = none ∧ ∃ i, T.actor e = some i)
      (fun _ _ _ => hJ) (fun _ _ _ => hall) hJs hrun
  refine ⟨fun e he => (hevents e he).2, fun i => ?_, ?_⟩
  · have hcount := T.count_le i hs hrun
    have hnone : es.countP (T.startsThread i) = 0 := List.countP_eq_zero.mpr fun e he => by
      simp [startsThread, (hevents e he).1]
    rw [hnone, Nat.mul_zero, Nat.add_zero] at hcount
    exact Nat.le_trans (Nat.le_of_add_right_le hcount) (T.left_le i hs)
  · constructor
    · intro hnone i
      by_contra hleft
      obtain ⟨e, t, hst⟩ := hready hI'.1 hI'.2 hleft
      rw [hnone e] at hst
      cases hst
    · intro hzero e
      cases hst : step s' e with
      | none => rfl
      | some t =>
        obtain ⟨-, i, hactor⟩ := hall hI'.2 hst
        have hlt := T.actor_lt hI'.1 hactor hst
        rw [hzero i] at hlt
        exact absurd hlt (Nat.not_lt_zero _)

end Rest

end Threads

end Machine
