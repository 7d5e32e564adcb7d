import Mathlib.Algebra.Order.Group.Abs
import Mathlib.Algebra.Order.Ring.Int
import Mathlib.Data.List.Pairwise
import Mathlib.Logic.Function.Basic
import KvmUtils.Lib.Machine

/-!
# A rate-limited gate

Any number of threads share one lock and one time stamp.  A thread reads
the clock, tests its reading against the stamp, tries the lock, works inside,
stores its reading as the new stamp and leaves.  The test comes before the
lock, and the lock is tried once and never waited for.

Two questions are answered here, for every interleaving.

* Who is inside.  `Exclusive` says that at most one thread is, and that the
  lock is held while it is.  Every event keeps it, apart from a new
  initialisation of the lock, which keeps it exactly when nobody is inside.
* How far apart the entries are.  `Spaced` carries the order of the entry
  times.  It needs every entry to be fresh: the reading that passed the test
  must still pass it when the lock is taken.
-/

namespace TimedGate

open Machine Function

/-- Where a thread is.  `inside` lasts until the thread stores the stamp and
`stamped` from there until it leaves. -/
inductive Phase where
  | out
  | sampled (now : Int)
  | due (now : Int)
  | inside (now : Int)
  | stamped
  deriving DecidableEq

/-- The thread is between a successful try of the lock and its release. -/
def Phase.InSection : Phase → Prop
  | .inside _ | .stamped => True
  | .out | .sampled _ | .due _ => False

instance (p : Phase) : Decidable p.InSection := by
  cases p <;> unfold Phase.InSection <;> infer_instance

/-- The shared state.  `entered` lists the readings of the threads that took
the lock, the last one first. -/
structure Gate (ι : Type*) where
  held : Bool
  stamp : Int
  clock : Int
  phase : ι → Phase
  entered : List Int

inductive Event (ι : Type*) where
  | tick (t : Int)
  | sample (i : ι) (t : Int)
  | test (i : ι)
  | tryEnter (i : ι)
  | storeStamp (i : ι)
  | leave (i : ι)
  | reinit
  | restamp (t : Int)

variable {ι : Type*} [DecidableEq ι]

/-- One event.  `isDue now stamp` is the test of the reading. -/
def step (isDue : Int → Int → Bool) (g : Gate ι) : Event ι → Option (Gate ι)
  | .tick t => if g.clock ≤ t then some { g with clock := t } else none
  | .sample i t =>
    match g.phase i with
    | .out =>
      if g.clock ≤ t then
        some { g with clock := t, phase := update g.phase i (.sampled t) }
      else none
    | _ => none
  | .test i =>
    match g.phase i with
    | .sampled now =>
      if isDue now g.stamp then some { g with phase := update g.phase i (.due now) }
      else some { g with phase := update g.phase i .out }
    | _ => none
  | .tryEnter i =>
    match g.phase i with
    | .due now =>
      if g.held then some { g with phase := update g.phase i .out }
      else some { g with
        held := true, entered := now :: g.entered, phase := update g.phase i (.inside now) }
    | _ => none
  | .storeStamp i =>
    match g.phase i with
    | .inside now => some { g with stamp := now, phase := update g.phase i .stamped }
    | _ => none
  | .leave i =>
    match g.phase i with
    | .stamped => some { g with held := false, phase := update g.phase i .out }
    | _ => none
  | .reinit => some { g with held := false }
  | .restamp t => some { g with stamp := t }

/-- What one event can do.  `move_of_step` is the inversion of `step`. -/
inductive Move (isDue : Int → Int → Bool) (g : Gate ι) : Event ι → Gate ι → Prop where
  | tick {t} (hclock : g.clock ≤ t) : Move isDue g (.tick t) { g with clock := t }
  | sample {i t} (hphase : g.phase i = .out) (hclock : g.clock ≤ t) :
      Move isDue g (.sample i t)
        { g with clock := t, phase := update g.phase i (.sampled t) }
  | pass {i now} (hphase : g.phase i = .sampled now) (hdue : isDue now g.stamp = true) :
      Move isDue g (.test i) { g with phase := update g.phase i (.due now) }
  | early {i now} (hphase : g.phase i = .sampled now) :
      Move isDue g (.test i) { g with phase := update g.phase i .out }
  | enter {i now} (hphase : g.phase i = .due now) (hfree : g.held = false) :
      Move isDue g (.tryEnter i)
        { g with
          held := true, entered := now :: g.entered, phase := update g.phase i (.inside now) }
  | busy {i now} (hphase : g.phase i = .due now) (hheld : g.held = true) :
      Move isDue g (.tryEnter i) { g with phase := update g.phase i .out }
  | storeStamp {i now} (hphase : g.phase i = .inside now) :
      Move isDue g (.storeStamp i) { g with stamp := now, phase := update g.phase i .stamped }
  | leave {i} (hphase : g.phase i = .stamped) :
      Move isDue g (.leave i) { g with held := false, phase := update g.phase i .out }
  | reinit : Move isDue g .reinit { g with held := false }
  | restamp {t} : Move isDue g (.restamp t) { g with stamp := t }

theorem move_of_step {isDue : Int → Int → Bool} {g g' : Gate ι} {e : Event ι}
    (h : step isDue g e = some g') : Move isDue g e g' := by
  cases e with
  | tick t =>
    simp only [step, Option.ite_none_right_eq_some, Option.some.injEq] at h
    obtain ⟨hclock, rfl⟩ := h
    exact .tick hclock
  | sample i t =>
    simp only [step] at h
    split at h
    · rename_i hphase
      simp only [Option.ite_none_right_eq_some, Option.some.injEq] at h
      obtain ⟨hclock, rfl⟩ := h
      exact .sample hphase hclock
    · cases h
  | test i =>
    simp only [step] at h
    split at h
    · rename_i now hphase
      split at h
      · rename_i hdue
        cases h
        exact .pass hphase hdue
      · cases h
        exact .early hphase
    · cases h
  | tryEnter i =>
    simp only [step] at h
    split at h
    · rename_i now hphase
      split at h
      · rename_i hheld
        cases h
        exact .busy hphase hheld
      · rename_i hfree
        cases h
        exact .enter hphase (by simpa using hfree)
    · cases h
  | storeStamp i =>
    simp only [step] at h
    split at h
    · rename_i now hphase
      cases h
      exact .storeStamp hphase
    · cases h
  | leave i =>
    simp only [step] at h
    split at h
    · rename_i hphase
      cases h
      exact .leave hphase
    · cases h
  | reinit =>
    cases h
    exact .reinit
  | restamp t =>
    cases h
    exact .restamp

/-! ## Mutual exclusion -/

/-- At most one thread is inside, and the lock is held while one is. -/
structure Exclusive (g : Gate ι) : Prop where
  held_of_in : ∀ i, (g.phase i).InSection → g.held = true
  unique : ∀ i j, (g.phase i).InSection → (g.phase j).InSection → i = j

/-- The lock is initialised only while nobody is inside. -/
def ReinitOutside (g : Gate ι) : Event ι → Prop
  | .reinit => ∀ i, ¬ (g.phase i).InSection
  | _ => True

omit [DecidableEq ι] in
/-- A gate with nobody inside is exclusive. -/
theorem exclusive_of_forall_not_inSection {g : Gate ι} (h : ∀ i, ¬ (g.phase i).InSection) :
    Exclusive g :=
  ⟨fun i hi => absurd hi (h i), fun i _ hi _ => absurd hi (h i)⟩

/-- A move of one thread that leaves the lock alone and does not take the
thread inside keeps the exclusion. -/
theorem Exclusive.update_of_imp {g g' : Gate ι} {i : ι} {p : Phase} (h : Exclusive g)
    (hphase : g'.phase = update g.phase i p) (hheld : g'.held = g.held)
    (hp : p.InSection → (g.phase i).InSection) : Exclusive g' := by
  have hin : ∀ j, (g'.phase j).InSection → (g.phase j).InSection := by
    intro j hj
    rw [hphase] at hj
    by_cases hji : j = i
    · subst hji
      rw [update_self] at hj
      exact hp hj
    · rwa [update_of_ne hji] at hj
  refine ⟨fun j hj => ?_, fun j k hj hk => h.unique j k (hin j hj) (hin k hk)⟩
  rw [hheld]
  exact h.held_of_in j (hin j hj)

theorem Exclusive.move {isDue : Int → Int → Bool} {g g' : Gate ι} {e : Event ι}
    (h : Exclusive g) (hre : ReinitOutside g e) (hmove : Move isDue g e g') :
    Exclusive g' := by
  cases hmove with
  | tick _ | restamp => exact ⟨h.held_of_in, h.unique⟩
  | sample _ _ | pass _ _ | early _ | busy _ _ =>
    exact h.update_of_imp rfl rfl (by simp [Phase.InSection])
  | storeStamp hphase =>
    exact h.update_of_imp rfl rfl (by simp [hphase, Phase.InSection])
  | @enter i now hphase hfree =>
    have hnone : ∀ j, ¬ (g.phase j).InSection := fun j hj => by
      simp [h.held_of_in j hj] at hfree
    have honly : ∀ j, ((update g.phase i (.inside now)) j).InSection → j = i := by
      intro j hj
      by_contra hji
      rw [update_of_ne hji] at hj
      exact hnone j hj
    exact ⟨fun _ _ => rfl, fun j k hj hk => (honly j hj).trans (honly k hk).symm⟩
  | @leave i hphase =>
    have hi : (g.phase i).InSection := by simp [hphase, Phase.InSection]
    refine exclusive_of_forall_not_inSection fun j hj => ?_
    by_cases hji : j = i
    · subst hji
      simp [Phase.InSection] at hj
    · simp only [ne_eq, hji, not_false_eq_true, update_of_ne] at hj
      exact hji (h.unique j i hj hi)
  | reinit => exact exclusive_of_forall_not_inSection hre

/-- Mutual exclusion over a run: as long as the lock is initialised only
while nobody is inside, at most one thread is inside at any time. -/
theorem exclusive_of_exec {isDue : Int → Int → Bool} {g g' : Gate ι} {es : List (Event ι)}
    (h : Exclusive g) (hre : AllSteps (step isDue) ReinitOutside g es)
    (hrun : exec (step isDue) g es = some g') : Exclusive g' :=
  exec_invariant (fun _ _ _ hI hP hst => hI.move hP (move_of_step hst)) h hre hrun

/-! ## Spacing of the entries -/

/-- The entry is fresh: the reading that passed the test is still `gap`
after the stamp when the lock is taken.  The lock and the stamp are not set
from outside. -/
def Fresh (gap : Int) (g : Gate ι) : Event ι → Prop
  | .tryEnter i => g.held = false → ∀ now, g.phase i = .due now → g.stamp + gap ≤ now
  | .reinit | .restamp _ => False
  | .tick _ | .sample _ _ | .test _ | .storeStamp _ | .leave _ => True

/-- The order of the entries.  Each entry is `gap` after the one before it,
and the stamp has caught up with every entry apart from the one in progress. -/
structure Spaced (gap : Int) (g : Gate ι) : Prop where
  exclusive : Exclusive g
  spread : g.entered.Pairwise fun a b => b + gap ≤ a
  caught_up : (∀ i now, g.phase i ≠ .inside now) → ∀ n ∈ g.entered, n ≤ g.stamp
  in_progress : ∀ i now, g.phase i = .inside now →
    g.stamp + gap ≤ now ∧ ∃ rest, g.entered = now :: rest ∧ ∀ n ∈ rest, n ≤ g.stamp

/-- A thread that moves outside the section leaves the thread inside, and
with it the order of the entries, alone. -/
theorem Spaced.update_of_ne_inside {gap : Int} {g g' : Gate ι} {i : ι} {p : Phase}
    (h : Spaced gap g) (hphase : g'.phase = update g.phase i p) (hheld : g'.held = g.held)
    (hstamp : g'.stamp = g.stamp) (hentered : g'.entered = g.entered)
    (hi : ¬ (g.phase i).InSection) (hp : ¬ p.InSection) : Spaced gap g' := by
  have hsame : ∀ j now, g'.phase j = .inside now ↔ g.phase j = .inside now := by
    intro j now
    rw [hphase]
    by_cases hji : j = i
    · subst hji
      rw [update_self]
      constructor
      · rintro rfl
        exact absurd trivial hp
      · intro hj
        rw [hj] at hi
        exact absurd trivial hi
    · rw [update_of_ne hji]
  refine ⟨h.exclusive.update_of_imp hphase hheld fun hin => absurd hin hp, ?_, ?_, ?_⟩
  · rw [hentered]
    exact h.spread
  · intro hnone
    rw [hentered, hstamp]
    exact h.caught_up fun j now hj => hnone j now ((hsame j now).mpr hj)
  · intro j now hj
    rw [hentered, hstamp]
    exact h.in_progress j now ((hsame j now).mp hj)

theorem Spaced.move {isDue : Int → Int → Bool} {gap : Int} {g g' : Gate ι} {e : Event ι}
    (h : Spaced gap g) (hgap : 0 ≤ gap) (hfresh : Fresh gap g e) (hmove : Move isDue g e g') :
    Spaced gap g' ∧ g.stamp ≤ g'.stamp := by
  have hexcl : Exclusive g' := by
    refine h.exclusive.move ?_ hmove
    cases e <;> first | exact hfresh.elim | trivial
  cases hmove with
  | tick _ => exact ⟨⟨hexcl, h.spread, h.caught_up, h.in_progress⟩, le_refl _⟩
  | sample hphase _ | pass hphase _ | early hphase | busy hphase _ =>
    refine ⟨h.update_of_ne_inside rfl rfl rfl rfl ?_ (by simp [Phase.InSection]), le_refl _⟩
    simp [hphase, Phase.InSection]
  | @enter i now hphase hfree =>
    have hnow : g.stamp + gap ≤ now := hfresh hfree now hphase
    have hout : ∀ j n, g.phase j ≠ .inside n := fun j n hj => by
      have := h.exclusive.held_of_in j (by simp [hj, Phase.InSection])
      simp [this] at hfree
    have hle := h.caught_up hout
    refine ⟨⟨hexcl, ?_, ?_, ?_⟩, le_refl _⟩
    · refine List.pairwise_cons.mpr ⟨fun n hn => ?_, h.spread⟩
      have := hle n hn
      omega
    · intro hnone
      exact absurd (update_self i _ _) (hnone i now)
    · intro j n hj
      by_cases hji : j = i
      · subst hji
        obtain rfl : now = n := by simpa using hj
        exact ⟨hnow, g.entered, rfl, hle⟩
      · simp only [ne_eq, hji, not_false_eq_true, update_of_ne] at hj
        exact absurd hj (hout j n)
  | @storeStamp i now hphase =>
    obtain ⟨hnow, rest, hrest, hle⟩ := h.in_progress i now hphase
    have hout : ∀ j n, update g.phase i Phase.stamped j ≠ .inside n := by
      intro j n hj
      by_cases hji : j = i
      · subst hji
        simp at hj
      · rw [update_of_ne hji] at hj
        exact hji (h.exclusive.unique j i (by simp [hj, Phase.InSection])
          (by simp [hphase, Phase.InSection]))
    refine ⟨⟨hexcl, h.spread, fun _ n hn => ?_, fun j n hj => absurd hj (hout j n)⟩, ?_⟩
    · rw [hrest] at hn
      rcases List.mem_cons.mp hn with rfl | hn
      · exact le_refl _
      · have := hle n hn
        show n ≤ now
        omega
    · show g.stamp ≤ now
      omega
  | @leave i hphase =>
    have hout : ∀ j n, g.phase j ≠ .inside n := by
      intro j n hj
      have hji := h.exclusive.unique j i (by simp [hj, Phase.InSection])
        (by simp [hphase, Phase.InSection])
      rw [hji, hphase] at hj
      cases hj
    refine ⟨⟨hexcl, h.spread, fun _ => h.caught_up hout, fun j n hj => ?_⟩, le_refl _⟩
    by_cases hji : j = i
    · subst hji
      simp at hj
    · simp only [ne_eq, hji, not_false_eq_true, update_of_ne] at hj
      exact absurd hj (hout j n)
  | reinit | restamp => exact hfresh.elim

/-- The order of the entries over a run of fresh entries. -/
theorem spaced_of_exec {isDue : Int → Int → Bool} {gap : Int} {g g' : Gate ι}
    {es : List (Event ι)} (h : Spaced gap g) (hgap : 0 ≤ gap)
    (hfresh : AllSteps (step isDue) (Fresh gap) g es)
    (hrun : exec (step isDue) g es = some g') : Spaced gap g' :=
  exec_invariant (fun _ _ _ hI hP hst => (hI.move hgap hP (move_of_step hst)).1) h hfresh hrun

omit [DecidableEq ι] in
/-- A gate that nobody has entered yet. -/
theorem spaced_of_entered_nil {gap : Int} {g : Gate ι} (hent : g.entered = [])
    (hout : ∀ i, ¬ (g.phase i).InSection) : Spaced gap g := by
  refine ⟨exclusive_of_forall_not_inSection hout, by simp [hent], by simp [hent], ?_⟩
  intro i now hi
  exact absurd (by simp [hi, Phase.InSection]) (hout i)

/-- The event does not take the stamp back. -/
def StampRises (isDue : Int → Int → Bool) (g : Gate ι) (e : Event ι) : Prop :=
  ∀ g', step isDue g e = some g' → g.stamp ≤ g'.stamp

theorem stampRises_of_fresh {isDue : Int → Int → Bool} {gap : Int} {g g' : Gate ι}
    {es : List (Event ι)} (h : Spaced gap g) (hgap : 0 ≤ gap)
    (hfresh : AllSteps (step isDue) (Fresh gap) g es)
    (hrun : exec (step isDue) g es = some g') : AllSteps (step isDue) (StampRises isDue) g es := by
  refine allSteps_imp (fun _ _ _ hI hP hst => (hI.move hgap hP (move_of_step hst)).1)
    (fun _ _ t hI hP hst => ?_) h hrun hfresh
  intro u hu
  obtain rfl : t = u := Option.some.inj (hst.symm.trans hu)
  exact (hI.move hgap hP (move_of_step hst)).2

/-! ### The converse

An entry that is not fresh shows.  Its thread passed the test against an
older stamp, so the stamp it meets is the reading of another entry.  Either
the two readings are closer than `gap`, or the late thread takes the stamp
back when it stores its own. -/

/-- Where the stamp that a waiting thread meets comes from. -/
structure StampOrigin (gap : Int) (g : Gate ι) : Prop where
  due : ∀ i now, g.phase i = .due now → g.stamp + gap ≤ now ∨ g.stamp ∈ g.entered
  inside : ∀ i now, g.phase i = .inside now → now ∈ g.entered

omit [DecidableEq ι] in
/-- Nobody is inside, and nobody is past a stale test. -/
theorem stampOrigin_of_outside {gap : Int} {g : Gate ι} (hout : ∀ i, ¬ (g.phase i).InSection)
    (hdue : ∀ i now, g.phase i = .due now → g.stamp + gap ≤ now) : StampOrigin gap g := by
  refine ⟨fun i now hi => Or.inl (hdue i now hi), fun i now hi => ?_⟩
  have hin : (g.phase i).InSection := by
    rw [hi]
    trivial
  exact absurd hin (hout i)

/-- The lock and the stamp are not set from outside. -/
def FromInside : Event ι → Prop
  | .reinit | .restamp _ => False
  | .tick _ | .sample _ _ | .test _ | .tryEnter _ | .storeStamp _ | .leave _ => True

/-- A thread that becomes neither due nor inside leaves the origin of the
stamp alone. -/
theorem StampOrigin.update_of_idle {gap : Int} {g g' : Gate ι} {i : ι} {p : Phase}
    (h : StampOrigin gap g) (hphase : g'.phase = update g.phase i p)
    (hstamp : g'.stamp = g.stamp) (hentered : g'.entered = g.entered)
    (hdue : ∀ now, p ≠ .due now) (hin : ∀ now, p ≠ .inside now) : StampOrigin gap g' := by
  refine ⟨fun j now hj => ?_, fun j now hj => ?_⟩ <;> rw [hphase] at hj
  · by_cases hji : j = i
    · subst hji
      exact absurd (by simpa using hj) (hdue now)
    · rw [hstamp, hentered]
      exact h.due j now (by rwa [update_of_ne hji] at hj)
  · by_cases hji : j = i
    · subst hji
      exact absurd (by simpa using hj) (hin now)
    · rw [hentered]
      exact h.inside j now (by rwa [update_of_ne hji] at hj)

theorem StampOrigin.move {isDue : Int → Int → Bool} {gap : Int} {g g' : Gate ι}
    {e : Event ι} (hdue : ∀ now stamp, isDue now stamp = true → stamp + gap ≤ now)
    (h : StampOrigin gap g) (hfrom : FromInside e) (hmove : Move isDue g e g') :
    StampOrigin gap g' := by
  cases hmove with
  | tick _ => exact ⟨h.due, h.inside⟩
  | sample _ _ | early _ | busy _ _ | leave _ =>
    exact h.update_of_idle rfl rfl rfl (by simp) (by simp)
  | @pass i now hphase hpass =>
    refine ⟨fun j n hj => ?_, fun j n hj => ?_⟩ <;> by_cases hji : j = i
    · subst hji
      obtain rfl : now = n := by simpa using hj
      exact Or.inl (hdue now g.stamp hpass)
    · exact h.due j n (by simpa [update_of_ne hji] using hj)
    · subst hji
      simp at hj
    · exact h.inside j n (by simpa [update_of_ne hji] using hj)
  | @enter i now hphase hfree =>
    refine ⟨fun j n hj => ?_, fun j n hj => ?_⟩ <;> by_cases hji : j = i
    · subst hji
      simp at hj
    · have := h.due j n (by simpa [update_of_ne hji] using hj)
      exact this.imp_right (List.mem_cons_of_mem now)
    · subst hji
      obtain rfl : now = n := by simpa using hj
      exact List.mem_cons_self
    · exact List.mem_cons_of_mem now (h.inside j n (by simpa [update_of_ne hji] using hj))
  | @storeStamp i now hphase =>
    have hmem : now ∈ g.entered := h.inside i now hphase
    refine ⟨fun j n _ => Or.inr hmem, fun j n hj => ?_⟩
    by_cases hji : j = i
    · subst hji
      simp at hj
    · exact h.inside j n (by simpa [update_of_ne hji] using hj)
  | reinit | restamp => exact hfrom.elim

/-- Entries are only ever added. -/
theorem entered_suffix_of_move {isDue : Int → Int → Bool} {g g' : Gate ι} {e : Event ι}
    (hmove : Move isDue g e g') : g.entered <:+ g'.entered := by
  cases hmove with
  | enter _ _ => exact List.suffix_cons _ _
  | _ => exact List.suffix_rfl

theorem entered_suffix_of_exec {isDue : Int → Int → Bool} {g g' : Gate ι}
    {es : List (Event ι)} (hrun : exec (step isDue) g es = some g') :
    g.entered <:+ g'.entered :=
  exec_invariant' (I := fun t => g.entered <:+ t.entered)
    (fun _ _ _ hI hst => hI.trans (entered_suffix_of_move (move_of_step hst)))
    List.suffix_rfl hrun

/-- A thread that is inside stays there until it stores its reading. -/
theorem inside_or_stored_of_move {isDue : Int → Int → Bool} {g g' : Gate ι} {e : Event ι}
    {i : ι} {now : Int} (hi : g.phase i = .inside now) (hmove : Move isDue g e g') :
    g'.phase i = .inside now ∨ g'.stamp = now := by
  cases hmove with
  | tick _ | reinit | restamp => exact Or.inl hi
  | @storeStamp j n hphase =>
    by_cases hji : i = j
    · subst hji
      rw [hi] at hphase
      exact Or.inr (by cases hphase; rfl)
    · exact Or.inl (by simpa [update_of_ne hji] using hi)
  | sample hphase _ | pass hphase _ | early hphase | enter hphase _ | busy hphase _
  | leave hphase =>
    refine Or.inl ((update_of_ne ?_ _ _).trans hi)
    rintro rfl
    rw [hi] at hphase
    cases hphase

/-- When the stamp never falls, the stamp that a thread inside meets is at
most the reading it will store. -/
theorem stamp_le_of_stored {isDue : Int → Int → Bool} {i : ι} {now : Int} :
    ∀ {g g' : Gate ι} {es : List (Event ι)}, g.phase i = .inside now →
      AllSteps (step isDue) (StampRises isDue) g es →
      exec (step isDue) g es = some g' → g'.phase i ≠ .inside now → g.stamp ≤ now
  | g, g', [], hi, _, hrun, hout => by
    obtain rfl : g = g' := Option.some.inj hrun
    exact absurd hi hout
  | g, g', e :: es, hi, hrise, hrun, hout => by
    obtain ⟨t, hst, hts⟩ := exec_cons.mp hrun
    have hle : g.stamp ≤ t.stamp := hrise.1 t hst
    rcases inside_or_stored_of_move hi (move_of_step hst) with hti | hstored
    · exact hle.trans (stamp_le_of_stored hti (hrise.2 t hst) hts hout)
    · exact hstored ▸ hle

/-- The converse of `spaced_of_exec`.  In a run that ends with nobody
inside, entries that are `gap` apart and a stamp that never falls force
every entry to be fresh. -/
theorem fresh_of_spread {isDue : Int → Int → Bool} {gap : Int}
    (hdue : ∀ now stamp, isDue now stamp = true → stamp + gap ≤ now) (hgap : 0 < gap) :
    ∀ {g g' : Gate ι} {es : List (Event ι)}, StampOrigin gap g →
      AllSteps (step isDue) (fun _ e => FromInside e) g es →
      exec (step isDue) g es = some g' → (∀ i now, g'.phase i ≠ .inside now) →
      (g'.entered.Pairwise fun a b => gap ≤ |a - b|) →
      AllSteps (step isDue) (StampRises isDue) g es →
      AllSteps (step isDue) (Fresh gap) g es
  | _, _, [], _, _, _, _, _, _ => trivial
  | g, g', e :: es, horigin, hfrom, hrun, hout, hspread, hrise => by
    obtain ⟨t, hst, hts⟩ := exec_cons.mp hrun
    have hmove := move_of_step hst
    have horigin' : StampOrigin gap t := horigin.move hdue hfrom.1 hmove
    refine ⟨?_, fun u hu => ?_⟩
    · cases hmove with
      | tick _ | sample _ _ | pass _ _ | early _ | storeStamp _ | leave _ => trivial
      | reinit | restamp => exact hfrom.1.elim
      | @busy i n hphase hheld =>
        intro hfree
        simp [hheld] at hfree
      | @enter i n hphase hfree =>
        intro _ now hnow
        obtain rfl : n = now := by
          rw [hphase] at hnow
          cases hnow
          rfl
        -- the stamp met is either the one tested or another entry's reading
        rcases horigin.due i n hphase with hle | hmem
        · exact hle
        · by_contra hlt
          have hstored : g.stamp ≤ n :=
            stamp_le_of_stored (g := { g with
              held := true, entered := n :: g.entered, phase := update g.phase i (.inside n) })
              (by simp) (hrise.2 _ hst) hts (hout i n)
          have hpair : gap ≤ |n - g.stamp| := by
            have hsub := (entered_suffix_of_exec hts).sublist
            have := List.pairwise_cons.mp (hspread.sublist hsub)
            exact this.1 g.stamp hmem
          rw [abs_of_nonneg (by omega)] at hpair
          omega
    · obtain rfl : t = u := Option.some.inj (hst.symm.trans hu)
      exact fresh_of_spread hdue hgap horigin' (hfrom.2 t hst) hts hout hspread (hrise.2 t hst)

/-! ## Machines with a gate

A machine with a view as a gate inherits the rules.  The conditions are read
on the gate events of its steps. -/

section Views

variable {σ ε : Type*} {stepC : σ → ε → Option σ} {isDue : Int → Int → Bool}
  {V : View stepC (@step ι _ isDue)} {s s' : σ} {es : List ε}

theorem exclusive_of_view (hs : V.Inv s) (h : Exclusive (V.state s))
    (hre : AllSteps stepC (V.Lift ReinitOutside) s es) (hrun : exec stepC s es = some s') :
    Exclusive (V.state s') :=
  exclusive_of_exec h ((V.allSteps_trace hs hrun).mpr hre) (V.exec_trace hs hrun)

/-- The step of the machine does not take the stamp back. -/
def Rises (V : View stepC (@step ι _ isDue)) (s : σ) (e : ε) : Prop :=
  ∀ s', stepC s e = some s' → (V.state s).stamp ≤ (V.state s').stamp

/-- A step of at most one gate event takes the stamp back exactly when the
event does. -/
theorem lift_stampRises_iff {e : ε} (hs : V.Inv s) (hlen : (V.events s e).length ≤ 1)
    (hst : stepC s e = some s') : V.Lift (StampRises isDue) s e ↔ Rises V s e := by
  have hsim := V.simulates hs hst
  have hrises : Rises V s e ↔ (V.state s).stamp ≤ (V.state s').stamp := by
    constructor
    · exact fun h => h s' hst
    · intro h u hu
      obtain rfl : s' = u := Option.some.inj (hst.symm.trans hu)
      exact h
  rw [hrises, View.Lift]
  match hev : V.events s e with
  | [] =>
    rw [hev] at hsim
    have hstate : V.state s = V.state s' := Option.some.inj hsim
    simp [hstate]
  | [g] =>
    rw [hev] at hsim
    obtain ⟨t, ht, hts⟩ := exec_cons.mp hsim
    obtain rfl : t = V.state s' := Option.some.inj hts
    rw [allSteps_one]
    constructor
    · exact fun h => h _ ht
    · intro h u hu
      obtain rfl : V.state s' = u := Option.some.inj (ht.symm.trans hu)
      exact h
  | g :: g' :: rest =>
    rw [hev] at hlen
    simp at hlen

/-- Fresh entries keep their distance, and the stamp never falls. -/
theorem spaced_of_view {gap : Int} (hgap : 0 ≤ gap) (hs : V.Inv s)
    (hlen : ∀ s e, (V.events s e).length ≤ 1) (h : Spaced gap (V.state s))
    (hfresh : AllSteps stepC (V.Lift (Fresh gap)) s es) (hrun : exec stepC s es = some s') :
    ((V.state s').entered.Pairwise fun a b => gap ≤ |a - b|) ∧
      AllSteps stepC (Rises V) s es := by
  have hrunA := V.exec_trace hs hrun
  have hfreshA := (V.allSteps_trace hs hrun).mpr hfresh
  constructor
  · refine (spaced_of_exec h hgap hfreshA hrunA).spread.imp fun hab => ?_
    exact le_trans (by omega) (le_abs_self _)
  · refine allSteps_imp (fun _ _ _ hI _ hst => V.inv_step hI hst) ?_ hs hrun
      ((V.allSteps_trace hs hrun).mp (stampRises_of_fresh h hgap hfreshA hrunA))
    intro t e t' hI hP hst
    exact (lift_stampRises_iff hI (hlen t e) hst).mp hP

/-- Entries that keep their distance, and a stamp that never falls, make
every entry fresh in a run that ends with nobody inside. -/
theorem fresh_of_view {gap : Int} (hgap : 0 < gap)
    (hdue : ∀ now stamp, isDue now stamp = true → stamp + gap ≤ now) (hs : V.Inv s)
    (hlen : ∀ s e, (V.events s e).length ≤ 1) (h : StampOrigin gap (V.state s))
    (hfrom : AllSteps stepC (V.Lift fun _ g => FromInside g) s es)
    (hrun : exec stepC s es = some s') (hout : ∀ i, ¬ ((V.state s').phase i).InSection)
    (hspread : (V.state s').entered.Pairwise fun a b => gap ≤ |a - b|)
    (hrise : AllSteps stepC (Rises V) s es) : AllSteps stepC (V.Lift (Fresh gap)) s es := by
  have hriseL : AllSteps stepC (V.Lift (StampRises isDue)) s es := by
    refine allSteps_imp (fun _ _ _ hI _ hst => V.inv_step hI hst) ?_ hs hrun hrise
    intro t e t' hI hP hst
    exact (lift_stampRises_iff hI (hlen t e) hst).mpr hP
  have hinside : ∀ i now, (V.state s').phase i ≠ .inside now := by
    intro i now hi
    refine hout i ?_
    rw [hi]
    trivial
  exact (V.allSteps_trace hs hrun).mp (fresh_of_spread hdue hgap h
    ((V.allSteps_trace hs hrun).mpr hfrom) (V.exec_trace hs hrun) hinside hspread
    ((V.allSteps_trace hs hrun).mpr hriseL))

end Views

end TimedGate
