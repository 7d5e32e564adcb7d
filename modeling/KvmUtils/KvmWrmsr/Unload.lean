import KvmUtils.Lib.Progress
import KvmUtils.KvmWrmsr.Interleaved

/-!
# The handlers, their lock and the unload

A handler of `kvmwrmsr` tries `showing_lock` once and gives up when it is
taken.  The lock that it waits for is `other_msrs_lock`, which the functions on
the table take.  Here the machine of `Interleaved` runs with that lock: a call
on the table is a `spin_lock`, the body and a `spin_unlock`, and a CPU that
finds the lock taken does not go on.  The line that is printed from an answer
belongs to the body.

The machine starts in any state after `probe_init` has returned `0`, handlers
under way among them, and it is followed through `probe_exit`.  The kernel calls
that only on a module that has been loaded.

The holder of the lock waits for nothing, so it releases the lock after two
steps at most.  The loops of a handler run over the items of the report and
over the slots of the table.  So every handler returns, and the module comes
to rest once its probe is gone (`handlers_return_and_rest`).
-/

namespace KvmUtils.KvmWrmsr

open Function Machine

/-- The next step of `probe_exit`. -/
inductive ExitPc where
  | notCalled
  | unregister
  | returned
  deriving DecidableEq, Repr

/-- The module with `other_msrs_lock`, and how far its `probe_exit` is. -/
structure Life (ι : Type*) where
  inner : State ι
  exit : ExitPc
  /-- the CPU that holds the lock, and whether it is through the body -/
  holder : Option (ι × Bool)

inductive LifeEvent (ι : Type*) where
  /-- an event of the loaded module, a body on the table among them -/
  | inner (e : Event ι)
  /-- `spin_lock(&other_msrs_lock)` -/
  | lock (i : ι)
  /-- `spin_unlock(&other_msrs_lock)` -/
  | unlock (i : ι)
  /-- the next step of `probe_exit` -/
  | exitStep

/-- The next step of the handler is the body of a function on the table.
`record_wrmsr` calls one for the numbers without a counter. -/
def Pc.AtTable : Pc → Prop
  | .record _ msr => counterOf msr = .others
  | .otherGuard _ | .reset _ => True
  | .otherLoop _ idx => idx < OTHER_MSRS
  | _ => False

instance : DecidablePred Pc.AtTable
  | .record _ msr => inferInstanceAs (Decidable (counterOf msr = .others))
  | .otherGuard _ | .reset _ => isTrue trivial
  | .otherLoop _ idx => inferInstanceAs (Decidable (idx < OTHER_MSRS))
  | .idle | .sample _ | .inc _ _ | .check _ | .trylock _ | .printTotal _ | .setTotal _
  | .showItem _ _ | .storeKtime _ | .unlock => isFalse id

/-! ## The steps of a handler -/

/-- The steps that a handler at this point has still to make, at most. -/
def Pc.stepsLeft : Pc → Nat
  | .idle => 0
  | .unlock => 1
  | .storeKtime _ => 2
  | .reset _ => 3
  | .otherLoop _ idx => OTHER_MSRS - idx + 4
  | .otherGuard _ => OTHER_MSRS + 5
  | .showItem _ k => showItems.length - k + OTHER_MSRS + 6
  | .setTotal _ => showItems.length + OTHER_MSRS + 7
  | .printTotal _ => showItems.length + OTHER_MSRS + 8
  | .trylock _ => showItems.length + OTHER_MSRS + 9
  | .check _ => showItems.length + OTHER_MSRS + 10
  | .record _ _ => showItems.length + OTHER_MSRS + 11
  | .inc _ _ => showItems.length + OTHER_MSRS + 12
  | .sample _ => showItems.length + OTHER_MSRS + 13

/-- The steps of a handler from the hit to its return, at most, with a call on
the table as one step. -/
def HANDLER_STEPS : Nat := showItems.length + OTHER_MSRS + 13

theorem Pc.stepsLeft_le (p : Pc) : p.stepsLeft ≤ HANDLER_STEPS := by
  cases p <;> simp only [Pc.stepsLeft, HANDLER_STEPS] <;> omega

theorem Pc.stepsLeft_eq_zero {p : Pc} : p.stepsLeft = 0 ↔ p = .idle := by
  cases p <;> simp [Pc.stepsLeft]

section Handler

variable {ι : Type*} [DecidableEq ι]

/-- The CPU of the handler whose step the event is. -/
def Event.handler : Event ι → Option ι
  | .step i | .sample i _ => some i
  | .hit _ _ | .register _ | .initSample _ | .initStep => none

/-- The CPU on which the event starts a handler. -/
def Event.hitOn : Event ι → Option ι
  | .hit i _ => some i
  | .step _ | .sample _ _ | .register _ | .initSample _ | .initStep => none

variable {s s' : State ι} {e : Event ι} {i : ι}

theorem goto_pc_self (s : State ι) (i : ι) (p : Pc) : (s.goto i p).pc i = p := by
  simp [State.goto]

/-- Each step of a handler brings it nearer to its return. -/
theorem stepsLeft_lt_of_step (he : e.handler = some i) (hst : step s e = some s') :
    (s'.pc i).stepsLeft < (s.pc i).stepsLeft := by
  cases move_of_step hst with
  | sample hpc _ | inc hpc | record hpc | due hpc _ | early hpc _ | busy hpc _ | lock hpc _
  | printTotal hpc | setTotal hpc | endItems hpc _ | noOthers hpc _ | others hpc _
  | otherLine hpc _ _ | endOthers hpc _ | reset hpc | storeKtime hpc | unlock hpc =>
    obtain rfl := Option.some.inj he
    rw [goto_pc_self, hpc]
    simp only [Pc.stepsLeft]
    omega
  | showItem hpc hitem =>
    obtain rfl := Option.some.inj he
    have hlt := (List.getElem?_eq_some_iff.mp hitem).1
    rw [goto_pc_self, hpc]
    simp only [Pc.stepsLeft]
    omega
  | _ => cases he

/-- Nothing but its own steps and a hit on its CPU moves a handler. -/
theorem pc_of_step (he : e.handler ≠ some i) (hhit : e.hitOn ≠ some i)
    (hst : step s e = some s') : s'.pc i = s.pc i := by
  have hother : ∀ {j : ι} {p : Pc}, some j ≠ some i → update s.pc j p i = s.pc i := by
    intro j p hj
    exact update_of_ne (fun h => hj (congrArg some h.symm)) p s.pc
  cases move_of_step hst with
  | hit => exact hother hhit
  | sample | inc | record | due | early | busy | lock | printTotal | setTotal | showItem
  | endItems | noOthers | others | otherLine | endOthers | reset | storeKtime | unlock =>
    exact hother he
  | _ => rfl

/-- But for `other_msrs_lock`, a handler that is under way is never blocked. -/
theorem exists_step_of_busy (hbusy : s.pc i ≠ .idle) :
    ∃ e s', e.handler = some i ∧ step s e = some s' := by
  have hstep : ∀ {s'}, handlerStep s i = some s' →
      ∃ e s', e.handler = some i ∧ step s e = some s' :=
    fun h => ⟨.step i, _, rfl, h⟩
  cases hpc : s.pc i with
  | idle => exact absurd hpc hbusy
  | sample msr =>
    refine ⟨.sample i s.clock, s.goto i (.inc s.clock msr), rfl, ?_⟩
    simp [step, hpc, State.goto]
  | check now =>
    by_cases hdue : isDue now s.statics.ktime = true
    · exact hstep (by rw [handlerStep, hpc]; exact if_pos hdue)
    · exact hstep (by rw [handlerStep, hpc]; exact if_neg hdue)
  | trylock now =>
    by_cases hlock : s.statics.showingLock = true
    · exact hstep (by rw [handlerStep, hpc]; exact if_pos hlock)
    · exact hstep (by rw [handlerStep, hpc]; exact if_neg hlock)
  | showItem now k =>
    cases hitem : showItems[k]? with
    | none => exact hstep (by rw [handlerStep, hpc]; simp only [hitem]; rfl)
    | some item => exact hstep (by rw [handlerStep, hpc]; simp only [hitem]; rfl)
  | otherGuard now =>
    cases hrep : reportOtherWrmsr s.statics.msrs.otherMsrs 0 with
    | none => exact hstep (by rw [handlerStep, hpc]; simp only [hrep]; rfl)
    | some line => exact hstep (by rw [handlerStep, hpc]; simp only [hrep]; rfl)
  | otherLoop now idx =>
    by_cases hidx : idx < OTHER_MSRS
    · cases hrep : reportOtherWrmsr s.statics.msrs.otherMsrs idx with
      | none => exact hstep (by rw [handlerStep, hpc]; simp only [if_pos hidx, hrep]; rfl)
      | some line => exact hstep (by rw [handlerStep, hpc]; simp only [if_pos hidx, hrep]; rfl)
    · exact hstep (by rw [handlerStep, hpc]; exact if_neg hidx)
  | inc now msr | record now msr | printTotal now | setTotal now | reset now | storeKtime now
  | unlock => exact hstep (by rw [handlerStep, hpc])

/-- The body of a call on the table is not the last step of a handler. -/
theorem busy_of_atTable (htable : (s.pc i).AtTable) (he : e.handler = some i)
    (hst : step s e = some s') : s'.pc i ≠ .idle := by
  cases move_of_step hst with
  | early hpc _ | busy hpc _ | unlock hpc =>
    obtain rfl := Option.some.inj he
    rw [hpc] at htable
    exact htable.elim
  | sample hpc _ | inc hpc | record hpc | due hpc _ | lock hpc _ | printTotal hpc | setTotal hpc
  | showItem hpc | endItems hpc _ | noOthers hpc _ | others hpc _ | otherLine hpc _ _
  | endOthers hpc _ | reset hpc | storeKtime hpc =>
    obtain rfl := Option.some.inj he
    rw [goto_pc_self]
    exact nofun
  | _ => cases he

end Handler

/-! ## The life of the module -/

section Life

variable {ι : Type*} [DecidableEq ι]

omit [DecidableEq ι] in
/-- A step of `probe_exit`.  Removing a module whose `probe_init` has not
returned `0` is refused.  In the kernel `unregister_kprobe` also waits for the
handlers that are under way, so this machine reaches more states. -/
def exitStep (s : Life ι) : Option (Life ι) :=
  match s.exit with
  | .notCalled =>
    if s.inner.init = .returned 0 then some { s with exit := .unregister } else none
  | .unregister =>
    some { s with inner := { s.inner with registered := false }, exit := .returned }
  | .returned => none

/-- An event of the loaded module.  The body of a call on the table is for the
CPU that has taken the lock, and this CPU does nothing else before it has
released the lock. -/
def innerStep (s : Life ι) (e : Event ι) : Option (Life ι) :=
  match e.handler with
  | none => (step s.inner e).map fun t => { s with inner := t }
  | some i =>
    if (s.inner.pc i).AtTable then
      if s.holder = some (i, false) then
        (step s.inner e).map fun t => { s with inner := t, holder := some (i, true) }
      else none
    else if s.holder = some (i, true) then none
    else (step s.inner e).map fun t => { s with inner := t }

/-- One event in the life of the module. -/
def lifeStep (s : Life ι) : LifeEvent ι → Option (Life ι)
  | .inner e => innerStep s e
  | .lock i =>
    if (s.inner.pc i).AtTable ∧ s.holder = none then some { s with holder := some (i, false) }
    else none
  | .unlock i => if s.holder = some (i, true) then some { s with holder := none } else none
  | .exitStep => exitStep s

/-- `probe_init` has returned `0`, the probe is gone when `probe_exit` has
returned, and the holder of the lock is in a call on the table. -/
structure Life.Loaded (s : Life ι) : Prop where
  init : s.inner.init = .returned 0
  unregistered : s.exit = .returned → s.inner.registered = false
  calling : ∀ i done, s.holder = some (i, done) →
    s.inner.pc i ≠ .idle ∧ (done = false → (s.inner.pc i).AtTable)

/-- The CPU of the handler whose step the event is. -/
def LifeEvent.handler : LifeEvent ι → Option ι
  | .inner e => e.handler
  | .lock i | .unlock i => some i
  | .exitStep => none

/-- The CPU on which the event starts a handler. -/
def LifeEvent.hitOn : LifeEvent ι → Option ι
  | .inner e => e.hitOn
  | .lock _ | .unlock _ | .exitStep => none

/-- The CPU holds the lock. -/
def Life.HeldBy (s : Life ι) (i : ι) : Prop := ∃ done, s.holder = some (i, done)

/-- What one event can do. -/
inductive LifeMove (s : Life ι) : LifeEvent ι → Life ι → Prop where
  | other {e t} (he : e.handler = none) (hst : step s.inner e = some t) :
      LifeMove s (.inner e) { s with inner := t }
  | own {e i t} (he : e.handler = some i) (hfree : s.holder ≠ some (i, true))
      (htable : ¬ (s.inner.pc i).AtTable) (hst : step s.inner e = some t) :
      LifeMove s (.inner e) { s with inner := t }
  | body {e i t} (he : e.handler = some i) (hholder : s.holder = some (i, false))
      (htable : (s.inner.pc i).AtTable) (hst : step s.inner e = some t) :
      LifeMove s (.inner e) { s with inner := t, holder := some (i, true) }
  | lock {i} (htable : (s.inner.pc i).AtTable) (hfree : s.holder = none) :
      LifeMove s (.lock i) { s with holder := some (i, false) }
  | unlock {i} (hholder : s.holder = some (i, true)) :
      LifeMove s (.unlock i) { s with holder := none }
  | exitCalled (hexit : s.exit = .notCalled) :
      LifeMove s .exitStep { s with exit := .unregister }
  | unregister (hexit : s.exit = .unregister) :
      LifeMove s .exitStep
        { s with inner := { s.inner with registered := false }, exit := .returned }

variable {s s' : Life ι} {e : LifeEvent ι} {i : ι}

theorem lifeMove_of_step (hst : lifeStep s e = some s') : LifeMove s e s' := by
  cases e with
  | inner e =>
    simp only [lifeStep, innerStep] at hst
    split at hst
    · rename_i he
      obtain ⟨t, hin, rfl⟩ := Option.map_eq_some_iff.mp hst
      exact .other he hin
    · rename_i i he
      split_ifs at hst with htable hholder hholder
      · obtain ⟨t, hin, rfl⟩ := Option.map_eq_some_iff.mp hst
        exact .body he hholder htable hin
      · obtain ⟨t, hin, rfl⟩ := Option.map_eq_some_iff.mp hst
        exact .own he hholder htable hin
  | lock i =>
    simp only [lifeStep, Option.ite_none_right_eq_some, Option.some.injEq] at hst
    obtain ⟨⟨htable, hfree⟩, rfl⟩ := hst
    exact .lock htable hfree
  | unlock i =>
    simp only [lifeStep, Option.ite_none_right_eq_some, Option.some.injEq] at hst
    obtain ⟨hholder, rfl⟩ := hst
    exact .unlock hholder
  | exitStep =>
    simp only [lifeStep, exitStep] at hst
    split at hst
    · rename_i hexit
      simp only [Option.ite_none_right_eq_some, Option.some.injEq] at hst
      obtain ⟨-, rfl⟩ := hst
      exact .exitCalled hexit
    · rename_i hexit
      cases hst
      exact .unregister hexit
    · cases hst

/-! ## What stays true -/

/-- A module that `probe_init` has loaded registers and unregisters nothing
before `probe_exit`. -/
theorem frame_of_returned {s s' : State ι} {e : Event ι} (hinit : s.init = .returned 0)
    (hst : step s e = some s') : s'.init = .returned 0 ∧ s'.registered = s.registered := by
  cases move_of_step hst with
  | registerOk hi _ | registerFail hi _ | lockInit hi | initTotal hi | initWrmsr hi
  | initSample hi _ | initKtime hi => cases hinit.symm.trans hi
  | _ => exact ⟨hinit, rfl⟩

/-- A CPU in a call on the table is not hit. -/
theorem pc_of_busy {s s' : State ι} {e : Event ι} {i : ι} (he : e.handler ≠ some i)
    (hbusy : s.pc i ≠ .idle) (hst : step s e = some s') : s'.pc i = s.pc i := by
  refine pc_of_step he (fun hhit => ?_) hst
  cases move_of_step hst with
  | hit hpc _ =>
    obtain rfl := Option.some.inj hhit
    exact hbusy hpc
  | _ => cases hhit

theorem Life.Loaded.step (h : s.Loaded) (hst : lifeStep s e = some s') : s'.Loaded := by
  cases lifeMove_of_step hst with
  | @other e t he hin =>
    obtain ⟨hinit, hreg⟩ := frame_of_returned h.init hin
    refine ⟨hinit, fun hexit => hreg.trans (h.unregistered hexit), fun i done hholder => ?_⟩
    have hcalling := h.calling i done hholder
    rwa [pc_of_busy (by rw [he]; exact nofun) hcalling.1 hin]
  | @own e j t he hfree htable hin =>
    obtain ⟨hinit, hreg⟩ := frame_of_returned h.init hin
    refine ⟨hinit, fun hexit => hreg.trans (h.unregistered hexit), fun i done hholder => ?_⟩
    have hcalling := h.calling i done hholder
    have hne : e.handler ≠ some i := by
      rw [he]
      rintro heq
      obtain rfl := Option.some.inj heq
      cases done with
      | true => exact hfree hholder
      | false => exact htable (hcalling.2 rfl)
    rwa [pc_of_busy hne hcalling.1 hin]
  | @body e j t he hholder htable hin =>
    obtain ⟨hinit, hreg⟩ := frame_of_returned h.init hin
    refine ⟨hinit, fun hexit => hreg.trans (h.unregistered hexit), fun i done heq => ?_⟩
    cases heq
    exact ⟨busy_of_atTable htable he hin, nofun⟩
  | @lock j htable hfree =>
    refine ⟨h.init, h.unregistered, fun i done heq => ?_⟩
    cases heq
    refine ⟨fun hidle => ?_, fun _ => htable⟩
    rw [hidle] at htable
    exact htable
  | unlock => exact ⟨h.init, h.unregistered, nofun⟩
  | exitCalled => exact ⟨h.init, nofun, h.calling⟩
  | unregister => exact ⟨h.init, fun _ => rfl, h.calling⟩

theorem Life.Loaded.of_exec {es : List (LifeEvent ι)} (h : s.Loaded)
    (hrun : exec lifeStep s es = some s') : s'.Loaded :=
  exec_invariant' (I := Life.Loaded) (fun _ _ _ hI hst => hI.step hst) h hrun

/-! ## Handlers that get through -/

/-- The steps that the handler on CPU `i` has still to make, at most, when each
of them may be a call on the table. -/
def Life.left (s : Life ι) (i : ι) : Nat :=
  3 * (s.inner.pc i).stepsLeft + (if s.holder = some (i, true) then 1 else 0) -
    if s.holder = some (i, false) then 1 else 0

/-- The steps of a handler with those for the lock, at most. -/
def LOCKED_STEPS : Nat := 3 * HANDLER_STEPS + 1

theorem left_le (s : Life ι) (i : ι) : s.left i ≤ LOCKED_STEPS := by
  have hle := (s.inner.pc i).stepsLeft_le
  unfold Life.left LOCKED_STEPS
  split_ifs <;> omega

theorem left_of_not_holder (h : ∀ done, s.holder ≠ some (i, done)) :
    s.left i = 3 * (s.inner.pc i).stepsLeft := by
  rw [Life.left, if_neg (h true), if_neg (h false)]
  rfl

/-- The holder of the lock that is before its body. -/
theorem left_of_before (h : s.holder = some (i, false)) :
    s.left i = 3 * (s.inner.pc i).stepsLeft - 1 := by
  rw [Life.left, if_neg (by simp [h]), if_pos h]
  rfl

/-- The holder of the lock that is through its body. -/
theorem left_of_through (h : s.holder = some (i, true)) :
    s.left i = 3 * (s.inner.pc i).stepsLeft + 1 := by
  rw [Life.left, if_pos h, if_neg (by simp [h])]
  rfl

/-- A handler has no step left exactly when it is through. -/
theorem left_eq_zero (h : s.Loaded) : s.left i = 0 ↔ s.inner.pc i = .idle := by
  constructor
  · intro hzero
    by_contra hbusy
    have hpos : (s.inner.pc i).stepsLeft ≠ 0 := fun hnone => hbusy (Pc.stepsLeft_eq_zero.mp hnone)
    unfold Life.left at hzero
    split_ifs at hzero <;> omega
  · intro hidle
    rw [left_of_not_holder fun done hholder => (h.calling i done hholder).1 hidle, hidle]
    rfl

theorem left_lt (h : s.Loaded) (he : e.handler = some i) (hst : lifeStep s e = some s') :
    s'.left i < s.left i := by
  cases lifeMove_of_step hst with
  | other hnone _ => cases hnone.symm.trans he
  | @own e j t hown hfree htable hin =>
    obtain rfl : j = i := Option.some.inj (hown.symm.trans he)
    have hlt := stepsLeft_lt_of_step hown hin
    have hnot : ∀ done, s.holder ≠ some (j, done) := by
      intro done hholder
      cases done with
      | true => exact hfree hholder
      | false => exact htable ((h.calling j false hholder).2 rfl)
    have hbefore := left_of_not_holder hnot
    have hafter : ({ s with inner := t } : Life ι).left j = _ := left_of_not_holder hnot
    rw [hbefore, hafter]
    exact Nat.mul_lt_mul_of_pos_left hlt (by decide)
  | @body e j t hown hholder htable hin =>
    obtain rfl : j = i := Option.some.inj (hown.symm.trans he)
    have hlt := stepsLeft_lt_of_step hown hin
    rw [left_of_before hholder, left_of_through rfl]
    show 3 * (t.pc j).stepsLeft + 1 < _
    omega
  | @lock j htable hfree =>
    obtain rfl : j = i := Option.some.inj he
    have hpos : (s.inner.pc j).stepsLeft ≠ 0 := by
      intro hzero
      rw [Pc.stepsLeft_eq_zero.mp hzero] at htable
      exact htable
    have hbefore : s.left j = _ := left_of_not_holder (by simp [hfree])
    rw [hbefore, left_of_before rfl]
    show 3 * (s.inner.pc j).stepsLeft - 1 < _
    omega
  | @unlock j hholder =>
    obtain rfl : j = i := Option.some.inj he
    rw [left_of_through hholder, left_of_not_holder (by simp)]
    exact Nat.lt_succ_self _
  | exitCalled | unregister => cases he

theorem left_of_other (he : e.handler ≠ some i) (hhit : e.hitOn ≠ some i)
    (hst : lifeStep s e = some s') : s'.left i = s.left i := by
  cases lifeMove_of_step hst with
  | other hnone hin | own hown _ _ hin =>
    simp only [Life.left, pc_of_step he hhit hin]
  | @body e j t hown hholder _ hin =>
    have hji : j ≠ i := fun heq => he (hown.trans (congrArg some heq))
    rw [left_of_not_holder (by simp [hji]), left_of_not_holder (by simp [hholder, hji])]
    exact congrArg (3 * Pc.stepsLeft ·) (pc_of_step he hhit hin)
  | @lock j _ hfree =>
    have hji : j ≠ i := fun heq => he (congrArg some heq)
    rw [left_of_not_holder (by simp [hji]), left_of_not_holder (by simp [hfree])]
  | @unlock j hholder =>
    have hji : j ≠ i := fun heq => he (congrArg some heq)
    rw [left_of_not_holder (by simp), left_of_not_holder (by simp [hholder, hji])]
  | exitCalled | unregister => rfl

/-- The handlers, over the whole life of the module. -/
def handlers : Threads (@lifeStep ι _) ι where
  Inv := Life.Loaded
  left := Life.left
  bound := LOCKED_STEPS
  actor := LifeEvent.handler
  starts := LifeEvent.hitOn
  inv_step h hst := h.step hst
  left_le i _ := left_le _ i
  actor_lt h he hst := left_lt h he hst
  other_le _ he hhit hst := (left_of_other he hhit hst).le

/-- The body of a call on the table, by the CPU that has taken the lock. -/
theorem lifeStep_body {e : Event ι} {t : State ι} (he : e.handler = some i)
    (htable : (s.inner.pc i).AtTable) (hholder : s.holder = some (i, false))
    (hst : step s.inner e = some t) :
    lifeStep s (.inner e) = some { s with inner := t, holder := some (i, true) } := by
  simp only [lifeStep, innerStep, he, if_pos htable, hholder, if_true, hst, Option.map_some]

/-- The holder of the lock is not blocked. -/
theorem exists_step_of_holder (h : s.Loaded) {done : Bool} (hholder : s.holder = some (i, done)) :
    ∃ e s', e.handler = some i ∧ lifeStep s e = some s' := by
  obtain ⟨hbusy, htable⟩ := h.calling i done hholder
  cases done with
  | true => exact ⟨.unlock i, { s with holder := none }, rfl, if_pos hholder⟩
  | false =>
    obtain ⟨e, t, he, hst⟩ := exists_step_of_busy hbusy
    exact ⟨.inner e, _, he, lifeStep_body he (htable rfl) hholder hst⟩

/-- With a free lock no handler is blocked. -/
theorem exists_step_of_free (hfree : s.holder = none) (hbusy : s.inner.pc i ≠ .idle) :
    ∃ e s', e.handler = some i ∧ lifeStep s e = some s' := by
  by_cases htable : (s.inner.pc i).AtTable
  · exact ⟨.lock i, { s with holder := some (i, false) }, rfl, if_pos ⟨htable, hfree⟩⟩
  · obtain ⟨e, t, he, hst⟩ := exists_step_of_busy hbusy
    refine ⟨.inner e, { s with inner := t }, he, ?_⟩
    simp only [lifeStep, innerStep, he, if_neg htable, hfree, reduceCtorEq, if_false, hst,
      Option.map_some]

/-- The holder releases the lock by two steps of its own, at most. -/
theorem exists_release (h : s.Loaded) {j : ι} (hheld : s.HeldBy j) :
    ∃ fs t, (∀ e ∈ fs, e.handler = some j) ∧ fs.length ≤ 2 ∧ exec lifeStep s fs = some t ∧
      t.holder = none := by
  have hunlock : ∀ t : Life ι, t.holder = some (j, true) →
      lifeStep t (.unlock j) = some { t with holder := none } := fun t ht => if_pos ht
  obtain ⟨done, hholder⟩ := hheld
  cases done with
  | true => exact ⟨[.unlock j], _, by simp [LifeEvent.handler], by simp,
      exec_one (hunlock s hholder), rfl⟩
  | false =>
    obtain ⟨hbusy, htable⟩ := h.calling j false hholder
    obtain ⟨e, t, he, hst⟩ := exists_step_of_busy hbusy
    have hbody := lifeStep_body he (htable rfl) hholder hst
    refine ⟨[.inner e, .unlock j], _, by simp [LifeEvent.handler, he], by simp,
      exec_cons.mpr ⟨_, hbody, exec_one (hunlock _ rfl)⟩, rfl⟩

/-- The steps of a CPU let no other one take the lock. -/
theorem heldBy_of_own (hown : ∀ j, s.HeldBy j → j = i) (he : e.handler = some i)
    (hst : lifeStep s e = some s') : ∀ j, s'.HeldBy j → j = i := by
  cases lifeMove_of_step hst with
  | other | own => exact hown
  | @body e k t hk =>
    rintro j ⟨done, hholder⟩
    cases hholder
    exact Option.some.inj (hk.symm.trans he)
  | lock =>
    rintro j ⟨done, hholder⟩
    cases hholder
    exact Option.some.inj he
  | unlock =>
    rintro j ⟨done, hholder⟩
    cases hholder
  | exitCalled | unregister => cases he

/-- With no other CPU at the lock, a handler alone comes to its return. -/
theorem exists_return (h : s.Loaded) (hown : ∀ j, s.HeldBy j → j = i) :
    ∃ fs t, (∀ e ∈ fs, e.handler = some i) ∧ fs.length ≤ LOCKED_STEPS ∧
      exec lifeStep s fs = some t ∧ t.inner.pc i = .idle := by
  have hdown : ∀ {u : Life ι}, (u.Loaded ∧ ∀ j, u.HeldBy j → j = i) → u.left i ≠ 0 →
      ∃ e u', e.handler = some i ∧ lifeStep u e = some u' ∧
        (u'.Loaded ∧ ∀ j, u'.HeldBy j → j = i) ∧ u'.left i < u.left i := by
    intro u ⟨hu, halone⟩ hleft
    have hstep : ∃ e u', e.handler = some i ∧ lifeStep u e = some u' := by
      cases hholder : u.holder with
      | none => exact exists_step_of_free hholder fun hidle => hleft ((left_eq_zero hu).mpr hidle)
      | some k =>
        obtain rfl : k.1 = i := halone k.1 ⟨k.2, hholder⟩
        exact exists_step_of_holder hu hholder
    obtain ⟨e, u', he, hst⟩ := hstep
    exact ⟨e, u', he, hst, ⟨hu.step hst, heldBy_of_own halone he hst⟩, left_lt hu he hst⟩
  obtain ⟨fs, t, hall, hlen, hexec, hzero⟩ :=
    exists_zero (g := fun e : LifeEvent ι => e.handler = some i) (fun u : Life ι => u.left i)
      hdown ⟨h, hown⟩
  have hinv : t.Loaded := h.of_exec hexec
  exact ⟨fs, t, hall, hlen.trans (left_le s i), hexec, (left_eq_zero hinv).mp hzero⟩

/-- The module is unloaded: nothing but the handlers that are still under way
takes a step. -/
theorem handler_of_returned (h : s.Loaded) (hexit : s.exit = .returned)
    (hst : lifeStep s e = some s') :
    e.hitOn = none ∧ (∃ i, e.handler = some i) ∧ s'.exit = .returned := by
  have hinner : ∀ {e : Event ι} {t : State ι}, step s.inner e = some t →
      e.hitOn = none ∧ ∃ i, e.handler = some i := by
    intro e t hin
    cases move_of_step hin with
    | hit _ hreg => cases (h.unregistered hexit).symm.trans hreg
    | registerOk hi _ | registerFail hi _ | lockInit hi | initTotal hi | initWrmsr hi
    | initSample hi _ | initKtime hi => cases h.init.symm.trans hi
    | _ => exact ⟨rfl, _, rfl⟩
  cases lifeMove_of_step hst with
  | other _ hin | own _ _ _ hin | body _ _ _ hin =>
    exact ⟨(hinner hin).1, (hinner hin).2, hexit⟩
  | lock | unlock => exact ⟨rfl, ⟨_, rfl⟩, hexit⟩
  | exitCalled hnot | unregister hnot => cases hexit.symm.trans hnot

/-- Every handler of `kvmwrmsr` returns, and the module comes to rest.  In
every run of the loaded module, the steps of the handler on a CPU are at most
`LOCKED_STEPS` for each hit there, and for the handler that was under way there
when the run began.  Wherever the run has got to, this handler
returns by at most that many steps of its own, after at most two steps of the
CPU that holds `other_msrs_lock`.  Once `probe_exit` has returned, all further
steps are steps of handlers, at most `LOCKED_STEPS` of them on each CPU, and no
step is left exactly when every handler has returned. -/
theorem handlers_return_and_rest {s₀ : Life ι} {es : List (LifeEvent ι)} (h₀ : s₀.Loaded)
    (hrun : exec lifeStep s₀ es = some s) :
    (∀ i, es.countP (fun e => e.handler = some i) ≤
        LOCKED_STEPS *
          (es.countP (fun e => e.hitOn = some i) + if s₀.inner.pc i = .idle then 0 else 1) ∧
      ∃ gs fs t, (∀ e ∈ gs, ∃ j, s.HeldBy j ∧ e.handler = some j) ∧ gs.length ≤ 2 ∧
        (∀ e ∈ fs, e.handler = some i) ∧ fs.length ≤ LOCKED_STEPS ∧
        exec lifeStep s (gs ++ fs) = some t ∧ t.inner.pc i = .idle) ∧
    (s.exit = .returned → ∀ fs s', exec lifeStep s fs = some s' →
      (∀ e ∈ fs, ∃ i, e.handler = some i) ∧
        (∀ i, fs.countP (fun e => e.handler = some i) ≤ LOCKED_STEPS) ∧
        ((∀ e, lifeStep s' e = none) ↔ ∀ i, s'.inner.pc i = .idle)) := by
  have hinv : s.Loaded := h₀.of_exec hrun
  refine ⟨fun i => ⟨?_, ?_⟩, fun hexit fs s' hrest => ?_⟩
  · have hcount := Nat.le_of_add_right_le (handlers.count_le i h₀ hrun)
    have hfirst : handlers.left s₀ i ≤ LOCKED_STEPS * if s₀.inner.pc i = .idle then 0 else 1 := by
      by_cases hidle : s₀.inner.pc i = .idle
      · rw [if_pos hidle]
        exact ((left_eq_zero h₀).mpr hidle).le
      · rw [if_neg hidle, Nat.mul_one]
        exact left_le s₀ i
    rw [Nat.mul_add, Nat.add_comm]
    exact hcount.trans (Nat.add_le_add_right hfirst _)
  · cases hholder : s.holder with
    | none =>
      have hown : ∀ j, s.HeldBy j → j = i := by
        rintro j ⟨done, hheld⟩
        cases hholder.symm.trans hheld
      obtain ⟨fs, t, hall, hlen, hexec, hidle⟩ := exists_return hinv hown
      exact ⟨[], fs, t, by simp, by simp, hall, hlen, hexec, hidle⟩
    | some k =>
      have hheld : s.HeldBy k.1 := ⟨k.2, hholder⟩
      obtain ⟨gs, u, hgs, hgslen, hgsexec, hfree⟩ := exists_release hinv hheld
      have hinv' : u.Loaded := hinv.of_exec hgsexec
      have hown : ∀ j, u.HeldBy j → j = i := by
        rintro j ⟨done, hheld'⟩
        cases hfree.symm.trans hheld'
      obtain ⟨fs, t, hall, hlen, hexec, hidle⟩ := exists_return hinv' hown
      exact ⟨gs, fs, t, fun e he => ⟨k.1, hheld, hgs e he⟩, hgslen, hall, hlen,
        exec_trans hgsexec hexec, hidle⟩
  · have hend := handlers.rest (J := fun t => t.exit = .returned ∧ t.Loaded)
      (fun hJ hst => ⟨(handler_of_returned hJ.2 hJ.1 hst).2.2, hJ.2.step hst⟩)
      (fun hJ hst =>
        have h := handler_of_returned hJ.2 hJ.1 hst
        ⟨h.1, h.2.1⟩)
      (fun {t j} hI _ hleft => by
        cases hholder : t.holder with
        | none =>
          obtain ⟨e, t', -, hst⟩ :=
            exists_step_of_free hholder fun hidle => hleft ((left_eq_zero hI).mpr hidle)
          exact ⟨e, t', hst⟩
        | some k =>
          obtain ⟨e, t', -, hst⟩ := exists_step_of_holder hI hholder
          exact ⟨e, t', hst⟩)
      hinv ⟨hexit, hinv⟩ hrest
    refine ⟨hend.1, hend.2.1, ?_⟩
    have hinv' : s'.Loaded := hinv.of_exec hrest
    exact hend.2.2.trans (forall_congr' fun i => left_eq_zero hinv')

end Life

/-- The module is unloaded while the handler on CPU `i` is in a call on the
table and the one on CPU `j` waits for the lock. -/
def unloadUnderLock {ι : Type*} (i j : ι) : List (LifeEvent ι) :=
  [.inner (.hit i 0x10), .inner (.sample i 5), .inner (.step i), .lock i, .inner (.hit j 0x20),
    .inner (.sample j 7), .inner (.step j), .exitStep, .exitStep]

theorem handlers_return_and_rest_unloadUnderLock : ∃ s : Life Bool,
    exec lifeStep ⟨State.started 0, .notCalled, none⟩ (unloadUnderLock false true) = some s ∧
      s.HeldBy false ∧ (s.inner.pc true).AtTable ∧
      (∃ gs fs t, gs.length ≤ 2 ∧ fs.length ≤ LOCKED_STEPS ∧
        exec lifeStep s (gs ++ fs) = some t ∧ t.inner.pc true = .idle) ∧
      ∀ fs s', exec lifeStep s fs = some s' →
        fs.countP (fun e => e.handler = some true) ≤ LOCKED_STEPS := by
  have h : (exec lifeStep ⟨State.started 0, .notCalled, none⟩ (unloadUnderLock false true)).map
      (fun s => decide (s.holder = some (false, false) ∧ (s.inner.pc true).AtTable ∧
        s.exit = .returned)) = some true := by
    decide
  obtain ⟨s, hrun, hs⟩ := exists_exec_of_map h
  obtain ⟨hholder, htable, hexit⟩ := of_decide_eq_true hs
  have hloaded : (⟨State.started 0, .notCalled, none⟩ : Life Bool).Loaded :=
    ⟨rfl, nofun, nofun⟩
  obtain ⟨hreturn, hrest⟩ := handlers_return_and_rest hloaded hrun
  obtain ⟨gs, fs, t, -, hgslen, -, hlen, hexec, hidle⟩ := (hreturn true).2
  exact ⟨s, hrun, ⟨false, hholder⟩, htable, ⟨gs, fs, t, hgslen, hlen, hexec, hidle⟩,
    fun fs s' hfs => (hrest hexit fs s' hfs).2.1 true⟩

end KvmUtils.KvmWrmsr
