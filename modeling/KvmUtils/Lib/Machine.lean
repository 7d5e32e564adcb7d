import Mathlib.Data.List.Basic
import Mathlib.Order.Basic

/-!
# Event machines

A machine is a partial function `step : σ → ε → Option σ`: in a state, an
event is refused (`none`) or leads to one next state.  All the freedom of a
system, such as which thread moves and what the environment answers, is in
the events, so a run is a list of events and `exec` evaluates it.

The rules below are the only ones a proof about runs needs.

* `exec_invariant` carries an invariant over a run.  The run may be
  restricted by a condition on its steps, which `AllSteps` states.
* `measure_eq_iff` says that a quantity that never falls keeps its value
  over a run exactly when every step of the run is good.
* `exec_absTrace` is forward simulation.  Each concrete step is matched by
  a list of abstract events, and the empty list is a stutter.
-/

namespace Machine

variable {σ ε : Type*}

/-- Run a list of events.  A refused event ends the run without a state. -/
def exec (step : σ → ε → Option σ) : σ → List ε → Option σ
  | s, [] => some s
  | s, e :: es => (step s e).bind fun s' => exec step s' es

/-- Every step of the run of `es` from `s` satisfies `P`, which reads the
state before the step and its event. -/
def AllSteps (step : σ → ε → Option σ) (P : σ → ε → Prop) : σ → List ε → Prop
  | _, [] => True
  | s, e :: es => P s e ∧ ∀ s', step s e = some s' → AllSteps step P s' es

section Runs

variable {step : σ → ε → Option σ}

@[simp] theorem exec_nil (s : σ) : exec step s [] = some s := rfl

theorem exec_cons {s s'' : σ} {e : ε} {es : List ε} :
    exec step s (e :: es) = some s'' ↔
      ∃ s', step s e = some s' ∧ exec step s' es = some s'' := by
  simp [exec, Option.bind_eq_some_iff]

theorem exec_append (s : σ) (es fs : List ε) :
    exec step s (es ++ fs) = (exec step s es).bind fun s' => exec step s' fs := by
  induction es generalizing s with
  | nil => simp
  | cons e es ih =>
    simp only [List.cons_append, exec]
    cases step s e with
    | none => rfl
    | some s' => exact ih s'

/-- A run that is evaluated up to a test of its last state. -/
theorem exists_exec_of_map {s : σ} {es : List ε} {p : σ → Bool}
    (h : (exec step s es).map p = some true) : ∃ s', exec step s es = some s' ∧ p s' = true := by
  simpa only [Option.map_eq_some_iff] using h

/-- Two runs that meet compose. -/
theorem exec_trans {s s' s'' : σ} {es fs : List ε}
    (hes : exec step s es = some s') (hfs : exec step s' fs = some s'') :
    exec step s (es ++ fs) = some s'' := by
  rw [exec_append, hes]
  exact hfs

/-- A single step is a run of one event. -/
theorem exec_one {s s' : σ} {e : ε} (h : step s e = some s') :
    exec step s [e] = some s' :=
  exec_cons.mpr ⟨s', h, rfl⟩

/-- Whether every step of a run is allowed can be evaluated along the run. -/
instance decidableAllSteps {P : σ → ε → Prop} [∀ s e, Decidable (P s e)] :
    ∀ (s : σ) (es : List ε), Decidable (AllSteps step P s es)
  | _, [] => isTrue trivial
  | s, e :: es =>
    match hst : step s e with
    | none => decidable_of_iff (P s e) (by simp [AllSteps, hst])
    | some s' =>
      have := decidableAllSteps (P := P) s' es
      decidable_of_iff (P s e ∧ AllSteps step P s' es) (by simp [AllSteps, hst])

@[simp] theorem allSteps_nil {P : σ → ε → Prop} (s : σ) : AllSteps step P s [] := trivial

/-- A condition on a run of one event. -/
@[simp] theorem allSteps_one {P : σ → ε → Prop} {s : σ} {e : ε} :
    AllSteps step P s [e] ↔ P s e :=
  ⟨And.left, fun h => ⟨h, fun _ _ => trivial⟩⟩

/-- Along a run that keeps an invariant, a condition that `P` gives for one
step it gives for every step. -/
theorem allSteps_imp {I : σ → Prop} {P Q : σ → ε → Prop}
    (hI : ∀ s e s', I s → P s e → step s e = some s' → I s')
    (hPQ : ∀ s e s', I s → P s e → step s e = some s' → Q s e) :
    ∀ {s s' : σ} {es : List ε}, I s → exec step s es = some s' → AllSteps step P s es →
      AllSteps step Q s es
  | _, _, [], _, _, _ => trivial
  | s, s', e :: es, hs, hrun, hP => by
    obtain ⟨t, hst, hts⟩ := exec_cons.mp hrun
    refine ⟨hPQ s e t hs hP.1 hst, fun u hu => ?_⟩
    obtain rfl : t = u := Option.some.inj (hst.symm.trans hu)
    exact allSteps_imp hI hPQ (hI s e t hs hP.1 hst) hts (hP.2 t hst)

/-- A condition that every step meets holds of every run. -/
theorem allSteps_of_forall {P : σ → ε → Prop} (h : ∀ s e, P s e) :
    ∀ (s : σ) (es : List ε), AllSteps step P s es
  | _, [] => trivial
  | s, e :: es => ⟨h s e, fun s' _ => allSteps_of_forall h s' es⟩

/-- Two conditions on a run are one condition on its steps. -/
theorem allSteps_and {P Q : σ → ε → Prop} :
    ∀ {s : σ} {es : List ε}, AllSteps step P s es → AllSteps step Q s es →
      AllSteps step (fun s e => P s e ∧ Q s e) s es
  | _, [], _, _ => trivial
  | _, _ :: _, hP, hQ =>
    ⟨⟨hP.1, hQ.1⟩, fun s' hst => allSteps_and (hP.2 s' hst) (hQ.2 s' hst)⟩

/-- A condition on the events alone is one on the list of events. -/
theorem allSteps_iff_forall {Q : ε → Prop} {s s' : σ} {es : List ε}
    (hrun : exec step s es = some s') :
    AllSteps step (fun _ e => Q e) s es ↔ ∀ e ∈ es, Q e := by
  induction es generalizing s with
  | nil => simp
  | cons e es ih =>
    obtain ⟨t, hst, hts⟩ := exec_cons.mp hrun
    simp only [AllSteps, hst, Option.some.injEq, forall_eq', List.forall_mem_cons, ih hts]

theorem allSteps_congr {P Q : σ → ε → Prop} (h : ∀ s e, P s e ↔ Q s e) (s : σ) (es : List ε) :
    AllSteps step P s es ↔ AllSteps step Q s es := by
  have hPQ : P = Q := by
    funext s e
    exact propext (h s e)
  rw [hPQ]

theorem allSteps_append {P : σ → ε → Prop} {s s' : σ} {es fs : List ε}
    (hes : exec step s es = some s') :
    AllSteps step P s (es ++ fs) ↔ AllSteps step P s es ∧ AllSteps step P s' fs := by
  induction es generalizing s with
  | nil =>
    obtain rfl : s = s' := Option.some.inj hes
    simp [AllSteps]
  | cons e es ih =>
    obtain ⟨t, hst, htes⟩ := exec_cons.mp hes
    simp only [List.cons_append, AllSteps]
    constructor
    · rintro ⟨hP, hrest⟩
      have hboth := (ih htes).mp (hrest t hst)
      refine ⟨⟨hP, fun u hu => ?_⟩, hboth.2⟩
      obtain rfl : t = u := Option.some.inj (hst.symm.trans hu)
      exact hboth.1
    · rintro ⟨⟨hP, hrest⟩, hfs⟩
      refine ⟨hP, fun u hu => ?_⟩
      obtain rfl : t = u := Option.some.inj (hst.symm.trans hu)
      exact (ih htes).mpr ⟨hrest t hst, hfs⟩

/-- The induction over a run: an invariant that every allowed step keeps
holds at the end of a run of allowed steps. -/
theorem exec_invariant {I : σ → Prop} {P : σ → ε → Prop}
    (hstep : ∀ s e s', I s → P s e → step s e = some s' → I s') :
    ∀ {s s' : σ} {es : List ε}, I s → AllSteps step P s es →
      exec step s es = some s' → I s'
  | s, s', [], hI, _, hrun => by
    obtain rfl : s = s' := Option.some.inj hrun
    exact hI
  | s, s', e :: es, hI, hP, hrun => by
    obtain ⟨t, hst, hts⟩ := exec_cons.mp hrun
    exact exec_invariant hstep (hstep s e t hI hP.1 hst) (hP.2 t hst) hts

/-- An invariant that every step keeps holds at the end of every run. -/
theorem exec_invariant' {I : σ → Prop}
    (hstep : ∀ s e s', I s → step s e = some s' → I s')
    {s s' : σ} {es : List ε} (hI : I s) (hrun : exec step s es = some s') : I s' :=
  exec_invariant (P := fun _ _ => True) (fun s e s' hI _ h => hstep s e s' hI h) hI
    (allSteps_of_forall (fun _ _ => trivial) s es) hrun

/-- A preorder that every step goes up in is gone up in by every run. -/
theorem exec_mono {β : Type*} [Preorder β] {I : σ → Prop} {P : σ → ε → Prop} (m : σ → β)
    (hI : ∀ s e s', I s → P s e → step s e = some s' → I s')
    (hm : ∀ s e s', I s → P s e → step s e = some s' → m s ≤ m s')
    {s s' : σ} {es : List ε} (hs : I s) (hP : AllSteps step P s es)
    (hrun : exec step s es = some s') : m s ≤ m s' :=
  (exec_invariant (I := fun t => I t ∧ m s ≤ m t)
    (fun t e t' ht hPt hst =>
      ⟨hI t e t' ht.1 hPt hst, ht.2.trans (hm t e t' ht.1 hPt hst)⟩)
    ⟨hs, le_refl _⟩ hP hrun).2

/-- A quantity that never falls, and that a step leaves alone exactly when
the step is good, ends a run at its first value exactly when every step of
the run is good. -/
theorem measure_eq_iff {β : Type*} [PartialOrder β] {I : σ → Prop} {P : σ → ε → Prop}
    (m : σ → β) (hI : ∀ s e s', I s → step s e = some s' → I s')
    (hle : ∀ s e s', I s → step s e = some s' → m s ≤ m s')
    (heq : ∀ s e s', I s → step s e = some s' → (m s' = m s ↔ P s e)) :
    ∀ {s s' : σ} {es : List ε}, I s → exec step s es = some s' →
      (m s' = m s ↔ AllSteps step P s es)
  | s, s', [], _, hrun => by
    obtain rfl : s = s' := Option.some.inj hrun
    simp [AllSteps]
  | s, s', e :: es, hs, hrun => by
    obtain ⟨t, hst, hts⟩ := exec_cons.mp hrun
    have hIt := hI s e t hs hst
    have ih := measure_eq_iff m hI hle heq hIt hts
    have hst' : m t ≤ m s' :=
      exec_mono (P := fun _ _ => True) m (fun a b c h _ => hI a b c h)
        (fun a b c h _ => hle a b c h) hIt (allSteps_of_forall (fun _ _ => trivial) t es) hts
    constructor
    · intro h
      have hts' : m t = m s := le_antisymm (h ▸ hst') (hle s e t hs hst)
      refine ⟨(heq s e t hs hst).mp hts', fun u hu => ?_⟩
      obtain rfl : t = u := Option.some.inj (hst.symm.trans hu)
      exact ih.mp (h.trans hts'.symm)
    · rintro ⟨hP, hrest⟩
      exact (ih.mpr (hrest t hst)).trans ((heq s e t hs hst).mpr hP)

/-! ## Outputs

What the steps of a run put out, such as the values that one thread has read,
is read off the run. -/

/-- The outputs of a run, in order. -/
def outputs {β : Type*} (step : σ → ε → Option σ) (emit : σ → ε → List β) :
    σ → List ε → List β
  | _, [] => []
  | s, e :: es =>
    match step s e with
    | none => []
    | some s' => emit s e ++ outputs step emit s' es

/-- The induction over a run for an invariant that speaks of the outputs. -/
theorem exec_invariant_outputs {β : Type*} {f : σ → ε → List β} {I : σ → List β → Prop}
    {P : σ → ε → Prop}
    (hstep : ∀ s e s' o, I s o → P s e → step s e = some s' → I s' (o ++ f s e)) :
    ∀ {s s' : σ} {es : List ε} {o : List β}, I s o → AllSteps step P s es →
      exec step s es = some s' → I s' (o ++ outputs step f s es)
  | s, s', [], o, hI, _, hrun => by
    obtain rfl : s = s' := Option.some.inj hrun
    rwa [outputs, List.append_nil]
  | s, s', e :: es, o, hI, hP, hrun => by
    obtain ⟨t, hst, hts⟩ := exec_cons.mp hrun
    have hrest := exec_invariant_outputs hstep (hstep s e t o hI hP.1 hst) (hP.2 t hst) hts
    rw [List.append_assoc] at hrest
    simpa only [outputs, hst] using hrest

theorem outputs_one {β : Type*} (f : σ → ε → List β) {s s' : σ} {e : ε}
    (hrun : exec step s [e] = some s') : outputs step f s [e] = f s e := by
  obtain ⟨t, hst, -⟩ := exec_cons.mp hrun
  simp only [outputs, hst, List.append_nil]

theorem outputs_append {β : Type*} (f : σ → ε → List β) {s s' : σ} {es fs : List ε}
    (hrun : exec step s es = some s') :
    outputs step f s (es ++ fs) = outputs step f s es ++ outputs step f s' fs := by
  induction es generalizing s with
  | nil =>
    obtain rfl : s = s' := Option.some.inj hrun
    rfl
  | cons e es ih =>
    obtain ⟨t, hst, hts⟩ := exec_cons.mp hrun
    simp only [List.cons_append, outputs, hst, ih hts, List.append_assoc]

/-! ## Reaching a state

A part of a run that is put together from others is stated with `Reaches`. -/

/-- Some run leads from `s` to `s'`. -/
def Reaches (step : σ → ε → Option σ) (s s' : σ) : Prop := ∃ es, exec step s es = some s'

namespace Reaches

theorem refl (s : σ) : Reaches step s s := ⟨[], rfl⟩

theorem of_exec {s s' : σ} (es : List ε) (h : exec step s es = some s') : Reaches step s s' :=
  ⟨es, h⟩

theorem trans {s s' s'' : σ} (h : Reaches step s s') (h' : Reaches step s' s'') :
    Reaches step s s'' := by
  obtain ⟨es, hes⟩ := h
  obtain ⟨fs, hfs⟩ := h'
  exact ⟨es ++ fs, exec_trans hes hfs⟩

/-- A step, and then a run. -/
theorem head {s s' s'' : σ} {e : ε} (h : step s e = some s') (h' : Reaches step s' s'') :
    Reaches step s s'' :=
  (of_exec [e] (exec_one h)).trans h'

end Reaches

end Runs

/-! ## Forward simulation -/

section Simulation

variable {τ δ : Type*}

/-- A view of a concrete machine as an abstract one: under the invariant
`Inv`, each concrete step is a run of abstract events.  The empty run is a
stutter. -/
structure View (step : σ → ε → Option σ) (stepA : τ → δ → Option τ) where
  Inv : σ → Prop
  state : σ → τ
  events : σ → ε → List δ
  inv_step : ∀ {s e s'}, Inv s → step s e = some s' → Inv s'
  simulates : ∀ {s e s'}, Inv s → step s e = some s' →
    exec stepA (state s) (events s e) = some (state s')

namespace View

variable {step : σ → ε → Option σ} {stepA : τ → δ → Option τ} (V : View step stepA)

/-- The abstract events of a concrete run. -/
def trace : σ → List ε → List δ
  | _, [] => []
  | s, e :: es =>
    match step s e with
    | none => []
    | some s' => V.events s e ++ trace s' es

/-- The abstract events of the step satisfy `Q`. -/
def Lift (Q : τ → δ → Prop) (s : σ) (e : ε) : Prop :=
  AllSteps stepA Q (V.state s) (V.events s e)

theorem inv_exec {s s' : σ} {es : List ε} (hs : V.Inv s) (hrun : exec step s es = some s') :
    V.Inv s' :=
  exec_invariant' (fun _ _ _ hI hst => V.inv_step hI hst) hs hrun

/-- Forward simulation: the view of a run is the run of its trace. -/
theorem exec_trace : ∀ {s s' : σ} {es : List ε}, V.Inv s → exec step s es = some s' →
    exec stepA (V.state s) (V.trace s es) = some (V.state s')
  | s, s', [], _, hrun => by
    obtain rfl : s = s' := Option.some.inj hrun
    rfl
  | s, s', e :: es, hs, hrun => by
    obtain ⟨t, hst, hts⟩ := exec_cons.mp hrun
    simp only [trace, hst]
    exact exec_trans (V.simulates hs hst) (exec_trace (V.inv_step hs hst) hts)

/-- The trace of a run satisfies `Q` exactly when each of its steps does. -/
theorem allSteps_trace {Q : τ → δ → Prop} :
    ∀ {s s' : σ} {es : List ε}, V.Inv s → exec step s es = some s' →
      (AllSteps stepA Q (V.state s) (V.trace s es) ↔ AllSteps step (V.Lift Q) s es)
  | _, _, [], _, _ => Iff.rfl
  | s, s', e :: es, hs, hrun => by
    obtain ⟨t, hst, hts⟩ := exec_cons.mp hrun
    simp only [trace, hst]
    rw [allSteps_append (V.simulates hs hst), allSteps_trace (V.inv_step hs hst) hts]
    constructor
    · rintro ⟨hQ, hrest⟩
      refine ⟨hQ, fun u hu => ?_⟩
      obtain rfl : t = u := Option.some.inj (hst.symm.trans hu)
      exact hrest
    · rintro ⟨hQ, hrest⟩
      exact ⟨hQ, hrest t hst⟩

/-- What the steps of the trace put out is what the steps of the run put out,
when it is so for each step. -/
theorem outputs_trace {β : Type*} {g : τ → δ → List β} {f : σ → ε → List β}
    (hstep : ∀ {s e s'}, V.Inv s → step s e = some s' →
      outputs stepA g (V.state s) (V.events s e) = f s e) :
    ∀ {s s' : σ} {es : List ε}, V.Inv s → exec step s es = some s' →
      outputs stepA g (V.state s) (V.trace s es) = outputs step f s es
  | _, _, [], _, _ => rfl
  | s, s', e :: es, hs, hrun => by
    obtain ⟨t, hst, hts⟩ := exec_cons.mp hrun
    simp only [trace, outputs, hst]
    rw [outputs_append g (V.simulates hs hst), hstep hs hst,
      outputs_trace hstep (V.inv_step hs hst) hts]

end View

end Simulation

end Machine
