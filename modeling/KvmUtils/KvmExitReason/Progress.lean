import KvmUtils.Lib.Progress
import KvmUtils.KvmExitReason.Unload

/-!
# No thread of the module waits

A handler tries `showing_lock` once and gives up when it is taken, and its
only loop runs over the `REASON_NUM` reasons.  The loops of `probe_init` and
of `probe_exit` run over the table of the probes.  So each thread of the
module gets through in a bounded number of its own steps, whatever the others
do.

`Pc.stepsLeft` and `InitPc.stepsLeft` are the bounds.  With them the handlers
(`handlers`) and `probe_init` (`loader`) are threads in the sense of
`Machine.Threads`.
-/

namespace KvmUtils.KvmExitReason

open Function Machine

/-! ## Handlers -/

/-- The steps that a handler at this point has still to make, at most. -/
def Pc.stepsLeft : Pc → Nat
  | .idle => 0
  | .unlock => 1
  | .storeKtime _ => 2
  | .resetReason _ => 3
  | .setTotal _ => 4
  | .printLine _ idx => REASON_NUM - idx + 5
  | .printTotal _ => REASON_NUM + 6
  | .header _ => REASON_NUM + 7
  | .trylock _ => REASON_NUM + 8
  | .check _ => REASON_NUM + 9
  | .sample => REASON_NUM + 10
  | .inc => REASON_NUM + 11
  | .record _ => REASON_NUM + 12

/-- The steps of a handler from the hit to its return, at most. -/
def HANDLER_STEPS : Nat := REASON_NUM + 12

theorem Pc.stepsLeft_le (p : Pc) : p.stepsLeft ≤ HANDLER_STEPS := by
  cases p <;> simp only [Pc.stepsLeft, HANDLER_STEPS] <;> omega

theorem Pc.stepsLeft_eq_zero {p : Pc} : p.stepsLeft = 0 ↔ p = .idle := by
  cases p <;> simp [Pc.stepsLeft]

section Handler

variable {ι : Type*} [DecidableEq ι]

/-- The CPU of the handler whose step the event is. -/
def Event.handler : Event ι → Option ι
  | .step i | .sample i _ => some i
  | .hit _ _ | .register _ | .initSample _ | .initStep => none

/-- The CPU on which the event starts a handler. -/
def Event.hitOn : Event ι → Option ι
  | .hit i _ => some i
  | .step _ | .sample _ _ | .register _ | .initSample _ | .initStep => none

variable {table : List (Option String)} {s s' : State ι} {e : Event ι} {i : ι}

theorem goto_pc_self (s : State ι) (i : ι) (p : Pc) : (s.goto i p).pc i = p := by
  simp [State.goto]

/-- Each step of a handler brings it nearer to its return. -/
theorem stepsLeft_lt_of_step (he : e.handler = some i) (hst : step table s e = some s') :
    (s'.pc i).stepsLeft < (s.pc i).stepsLeft := by
  cases move_of_step table hst with
  | sample hpc _ | record hpc | inc hpc | due hpc _ | early hpc _ | busy hpc _ | lock hpc _
  | header hpc | printTotal hpc | setTotal hpc | resetReason hpc | storeKtime hpc
  | unlock hpc =>
    obtain rfl := Option.some.inj he
    rw [goto_pc_self, hpc]
    simp only [Pc.stepsLeft]
    omega
  | printLine hpc hidx | endLines hpc hidx =>
    obtain rfl := Option.some.inj he
    rw [goto_pc_self, hpc]
    simp only [Pc.stepsLeft]
    omega
  | _ => cases he

/-- Nothing but its own steps and a hit on its CPU moves a handler. -/
theorem pc_of_step (he : e.handler ≠ some i) (hhit : e.hitOn ≠ some i)
    (hst : step table s e = some s') : s'.pc i = s.pc i := by
  have hother : ∀ {j : ι} {p : Pc}, some j ≠ some i → update s.pc j p i = s.pc i := by
    intro j p hj
    exact update_of_ne (fun h => hj (congrArg some h.symm)) p s.pc
  cases move_of_step table hst with
  | hit => exact hother hhit
  | sample | record | inc | due | early | busy | lock | header | printTotal | printLine
  | endLines | setTotal | resetReason | storeKtime | unlock => exact hother he
  | _ => rfl

/-- A handler that is under way is never blocked. -/
theorem exists_step_of_busy (table : List (Option String)) (hbusy : s.pc i ≠ .idle) :
    ∃ e s', e.handler = some i ∧ step table s e = some s' := by
  have hstep : ∀ {s'}, handlerStep s i = some s' →
      ∃ e s', e.handler = some i ∧ step table s e = some s' :=
    fun h => ⟨.step i, _, rfl, h⟩
  cases hpc : s.pc i with
  | idle => exact absurd hpc hbusy
  | sample =>
    refine ⟨.sample i s.clock, s.goto i (.check s.clock), rfl, ?_⟩
    simp [step, hpc, State.goto]
  | check now =>
    by_cases hdue : isDue now s.ktime = true
    · exact hstep (by rw [handlerStep, hpc]; exact if_pos hdue)
    · exact hstep (by rw [handlerStep, hpc]; exact if_neg hdue)
  | trylock now =>
    by_cases hlock : s.showingLock = true
    · exact hstep (by rw [handlerStep, hpc]; exact if_pos hlock)
    · exact hstep (by rw [handlerStep, hpc]; exact if_neg hlock)
  | printLine now idx =>
    by_cases hidx : idx < REASON_NUM
    · exact hstep (by rw [handlerStep, hpc]; exact if_pos hidx)
    · exact hstep (by rw [handlerStep, hpc]; exact if_neg hidx)
  | record r | inc | header now | printTotal now | setTotal now | resetReason now
  | storeKtime now | unlock => exact hstep (by rw [handlerStep, hpc])

end Handler

section Life

variable {ι : Type*} [DecidableEq ι]

/-- The CPU of the handler whose step the event is. -/
def LifeEvent.handler : LifeEvent ι → Option ι
  | .inner e => e.handler
  | .exitStep => none

/-- The CPU on which the event starts a handler. -/
def LifeEvent.hitOn : LifeEvent ι → Option ι
  | .inner e => e.hitOn
  | .exitStep => none

variable {table : List (Option String)} {s s' : Life ι}

omit [DecidableEq ι] in
/-- `probe_exit` moves no handler. -/
theorem pc_of_exitStep (hst : exitStep table s = some s') : s'.inner.pc = s.inner.pc := by
  unfold exitStep at hst
  split at hst
  · simp only [Option.ite_none_right_eq_some, Option.some.injEq] at hst
    rw [← hst.2]
  · split at hst <;> cases hst <;> rfl
  · cases hst

/-- The handlers, over the whole life of the module. -/
def handlers (table : List (Option String)) : Threads (@lifeStep ι table _) ι where
  Inv _ := True
  left s i := (s.inner.pc i).stepsLeft
  bound := HANDLER_STEPS
  actor := LifeEvent.handler
  starts := LifeEvent.hitOn
  inv_step _ _ := trivial
  left_le i _ := Pc.stepsLeft_le _
  actor_lt {s e s' i} _ he hst := by
    cases e with
    | exitStep => cases he
    | inner e =>
      obtain ⟨t, hin, rfl⟩ := Option.map_eq_some_iff.mp hst
      exact stepsLeft_lt_of_step he hin
  other_le {s e s' i} _ he hhit hst := by
    cases e with
    | exitStep => rw [pc_of_exitStep hst]
    | inner e =>
      obtain ⟨t, hin, rfl⟩ := Option.map_eq_some_iff.mp hst
      exact (congrArg Pc.stepsLeft (pc_of_step he hhit hin)).le

/-- A handler that is under way is never blocked, in any part of the life of
the module. -/
theorem handlers_ready {i : ι} (hleft : (handlers table).left s i ≠ 0) :
    ∃ e s', (handlers table).actor e = some i ∧ lifeStep table s e = some s' := by
  have hbusy : s.inner.pc i ≠ .idle := fun h => hleft (Pc.stepsLeft_eq_zero.mpr h)
  obtain ⟨e, t, he, hst⟩ := exists_step_of_busy table hbusy
  exact ⟨.inner e, { s with inner := t }, he, Option.map_eq_some_iff.mpr ⟨t, hst, rfl⟩⟩

/-- No handler waits: in every run from the load on, the steps of the handler
on a CPU are at most `HANDLER_STEPS` for each hit there, and wherever the run
has got to, this handler returns by at most `HANDLER_STEPS` steps of its
own. -/
theorem handler_never_waits {es : List (LifeEvent ι)} (i : ι)
    (hrun : exec (lifeStep table) Life.load es = some s) :
    es.countP (fun e => e.handler = some i) ≤
        HANDLER_STEPS * es.countP (fun e => e.hitOn = some i) ∧
      ∃ fs t, (∀ e ∈ fs, e.handler = some i) ∧ fs.length ≤ HANDLER_STEPS ∧
        exec (lifeStep table) s fs = some t ∧ t.inner.pc i = .idle := by
  constructor
  · have hcount := (handlers table).count_le i trivial hrun
    have hload : (handlers table).left (Life.load : Life ι) i = 0 := rfl
    rw [hload, Nat.zero_add] at hcount
    exact Nat.le_of_add_right_le hcount
  · obtain ⟨fs, t, hall, hlen, hexec, hzero⟩ := (handlers table).exists_finish i
      (fun _ hleft => handlers_ready hleft) (s := s) trivial
    exact ⟨fs, t, hall, hlen, hexec, Pc.stepsLeft_eq_zero.mp hzero⟩

/-! ## After `probe_exit` -/

/-- The module is unloaded: nothing but the handlers that are still under way
takes a step. -/
theorem handler_of_returned {e : LifeEvent ι} (hI : LifeInv table s)
    (hexit : s.exit = .returned) (hst : lifeStep table s e = some s') :
    e.hitOn = none ∧ (∃ i, e.handler = some i) ∧ s'.exit = .returned := by
  simp only [LifeInv, hexit] at hI
  obtain ⟨hinit, hnone⟩ := hI
  cases e with
  | exitStep =>
    simp only [lifeStep, exitStep, hexit] at hst
    cases hst
  | inner e =>
    obtain ⟨t, hin, rfl⟩ := Option.map_eq_some_iff.mp hst
    cases move_of_step table hin with
    | @hit i r _ hreg =>
      rw [hnone r] at hreg
      cases hreg
    | registerSkip hi _ | registerOk hi _ _ | registerFail hi _ _ | registerEnd hi _
    | unregisterSkip hi _ | unregister hi _ | unregisterEnd hi _ | initReasons hi | lockInit hi
    | initTotal hi | initSample hi _ | initKtime hi => cases hinit.symm.trans hi
    | _ => exact ⟨rfl, ⟨_, rfl⟩, hexit⟩

/-- Once `probe_exit` has returned, the module comes to rest: whatever the
schedule, all further steps are steps of handlers, at most `HANDLER_STEPS` of
them on each CPU, and no step is left exactly when every handler has
returned. -/
theorem rests_after_exit {es fs : List (LifeEvent ι)}
    (hrun : exec (lifeStep table) Life.load es = some s) (hexit : s.exit = .returned)
    (hrest : exec (lifeStep table) s fs = some s') :
    (∀ e ∈ fs, ∃ i, e.handler = some i) ∧
      (∀ i, fs.countP (fun e => e.handler = some i) ≤ HANDLER_STEPS) ∧
      ((∀ e, lifeStep table s' e = none) ↔ ∀ i, s'.inner.pc i = .idle) := by
  have hend := (handlers table).rest (J := fun t => LifeInv table t ∧ t.exit = .returned)
    (fun hJ hst => ⟨lifeInv_step hJ.1 hst, (handler_of_returned hJ.1 hJ.2 hst).2.2⟩)
    (fun hJ hst =>
      have h := handler_of_returned hJ.1 hJ.2 hst
      ⟨h.1, h.2.1⟩)
    (fun _ _ hleft =>
      have ⟨e, t, _, hst⟩ := handlers_ready hleft
      ⟨e, t, hst⟩)
    trivial ⟨lifeInv_of_run hrun, hexit⟩ hrest
  refine ⟨hend.1, hend.2.1, ?_⟩
  simpa only [handlers, Pc.stepsLeft_eq_zero] using hend.2.2

end Life

/-- The module is unloaded while the handler on the one CPU is under way. -/
def unloadUnderHandler : List (LifeEvent Unit) :=
  (initEvents gapTable 0).map .inner ++
    ([.inner (.hit () 0), .exitStep, .exitStep, .exitStep, .exitStep, .exitStep] :
      List (LifeEvent Unit))

/-- That handler returns early. -/
def lastSteps : List (LifeEvent Unit) :=
  [.inner (.step ()), .inner (.step ()), .inner (.sample () 5), .inner (.step ())]

theorem handler_never_waits_unloadUnderHandler : ∃ s : Life Unit,
    exec (lifeStep gapTable) Life.load unloadUnderHandler = some s ∧
      ∃ fs t, (∀ e ∈ fs, e.handler = some ()) ∧ fs.length ≤ HANDLER_STEPS ∧
        exec (lifeStep gapTable) s fs = some t ∧ t.inner.pc () = .idle := by
  have h : (exec (lifeStep gapTable) Life.load unloadUnderHandler).map (fun _ => true) =
      some true := by decide
  obtain ⟨s, hrun, -⟩ := exists_exec_of_map h
  exact ⟨s, hrun, (handler_never_waits () hrun).2⟩

theorem rests_after_exit_lastSteps : ∃ s s' : Life Unit,
    exec (lifeStep gapTable) Life.load unloadUnderHandler = some s ∧
      exec (lifeStep gapTable) s lastSteps = some s' ∧ ∀ e, lifeStep gapTable s' e = none := by
  have h : (exec (lifeStep gapTable) Life.load unloadUnderHandler).map
      (fun s => decide (s.exit = .returned ∧
        (exec (lifeStep gapTable) s lastSteps).map (fun s' => decide (s'.inner.pc () = .idle)) =
          some true)) = some true := by decide
  obtain ⟨s, hrun, hs⟩ := exists_exec_of_map h
  obtain ⟨hexit, hlast⟩ := of_decide_eq_true hs
  obtain ⟨s', hrest, hidle⟩ := exists_exec_of_map hlast
  exact ⟨s, s', hrun, hrest,
    (rests_after_exit hrun hexit hrest).2.2.mpr fun _ => of_decide_eq_true hidle⟩

/-! ## The load -/

/-- The steps that `probe_init` has still to make at this point, at most. -/
def InitPc.stepsLeft (slots : Nat) : InitPc → Nat
  | .register idx => slots - idx + slots + 7
  | .unregister idx => slots - idx + 1
  | .initReasons => 5
  | .lockInit => 4
  | .setTotal => 3
  | .sampleKtime => 2
  | .storeKtime _ => 1
  | .returned _ => 0

/-- The event is a step of `probe_init`. -/
def Event.ofLoad {ι : Type*} : Event ι → Bool
  | .register _ | .initSample _ | .initStep => true
  | .hit _ _ | .sample _ _ | .step _ => false

/-- The slot that an event passes to `register_kprobe`, with the answer. -/
def registerAnswers {ι : Type*} (s : State ι) : Event ι → List (Nat × Int)
  | .register ret =>
    match s.init with
    | .register idx => [(idx, ret)]
    | _ => []
  | _ => []

/-- The filled slots of the table below `n`, in order. -/
def filledSlots (table : List (Option String)) (n : Nat) : List Nat :=
  (List.range n).filter fun idx => (table[idx]?.join).isSome

section Load

variable {ι : Type*} [DecidableEq ι] {table : List (Option String)} {s s' : State ι} {e : Event ι}

theorem loadSteps_lt_of_step (he : e.ofLoad = true) (hst : step table s e = some s') :
    s'.init.stepsLeft table.length < s.init.stepsLeft table.length := by
  cases move_of_step table hst with
  | @registerSkip idx hinit hslot | @registerOk idx _ _ hinit hslot _
  | @registerFail idx _ _ hinit hslot _ | @unregisterSkip idx hinit hslot
  | @unregister idx _ hinit hslot =>
    have hlt : idx < table.length := (List.getElem?_eq_some_iff.mp hslot).1
    rw [hinit]
    simp only [InitPc.stepsLeft]
    omega
  | registerEnd hinit _ | unregisterEnd hinit _ | initReasons hinit | lockInit hinit
  | initTotal hinit | initSample hinit _ | initKtime hinit =>
    rw [hinit]
    simp only [InitPc.stepsLeft]
    omega
  | _ => cases he

theorem init_of_handlerStep (he : e.ofLoad = false) (hst : step table s e = some s') :
    s'.init = s.init := by
  cases move_of_step table hst with
  | registerSkip | registerOk | registerFail | registerEnd | unregisterSkip | unregister
  | unregisterEnd | initReasons | lockInit | initTotal | initSample | initKtime => cases he
  | _ => rfl

/-- `probe_init` is never blocked. -/
theorem exists_step_of_loading (table : List (Option String))
    (hload : ∀ ret, s.init ≠ .returned ret) :
    ∃ e s', e.ofLoad = true ∧ step table s e = some s' := by
  have hstep : ∀ {s'}, initStep table s = some s' →
      ∃ e s', e.ofLoad = true ∧ step table s e = some s' :=
    fun h => ⟨.initStep, _, rfl, h⟩
  cases hinit : s.init with
  | returned ret => exact absurd hinit (hload ret)
  | register idx =>
    match hslot : table[idx]? with
    | none => exact hstep (by rw [initStep, hinit]; simp only [hslot]; rfl)
    | some none => exact hstep (by rw [initStep, hinit]; simp only [hslot]; rfl)
    | some (some name) =>
      refine ⟨.register 0, { s with
        registered := update s.registered idx true, init := .register (idx + 1) }, rfl, ?_⟩
      simp [step, hinit, hslot]
  | unregister idx =>
    match hslot : table[idx]? with
    | none => exact hstep (by rw [initStep, hinit]; simp only [hslot]; rfl)
    | some none => exact hstep (by rw [initStep, hinit]; simp only [hslot]; rfl)
    | some (some name) => exact hstep (by rw [initStep, hinit]; simp only [hslot]; rfl)
  | sampleKtime =>
    refine ⟨.initSample s.clock, { s with init := .storeKtime s.clock }, rfl, ?_⟩
    simp [step, hinit]
  | initReasons | lockInit | setTotal | storeKtime now =>
    exact hstep (by rw [initStep, hinit])

/-- `probe_init`, with any handlers beside it. -/
def loader (table : List (Option String)) : Threads (@step ι _ table) Unit where
  Inv _ := True
  left s _ := s.init.stepsLeft table.length
  bound := 2 * table.length + 7
  actor e := if e.ofLoad then some () else none
  starts _ := none
  inv_step _ _ := trivial
  left_le {s} _ _ := by
    cases s.init <;> simp only [InitPc.stepsLeft] <;> omega
  actor_lt _ he hst := loadSteps_lt_of_step (by simpa using he) hst
  other_le _ he _ hst := by
    rw [init_of_handlerStep (by simpa using he) hst]

/-- `probe_init` is never blocked before its return. -/
theorem loader_ready (hleft : (loader table).left s () ≠ 0) :
    ∃ e s', (loader table).actor e = some () ∧ step table s e = some s' := by
  have hload : ∀ ret, s.init ≠ .returned ret := by
    intro ret hret
    exact hleft (congrArg (InitPc.stepsLeft table.length) hret)
  obtain ⟨e, s', he, hst⟩ := exists_step_of_loading table hload
  exact ⟨e, s', if_pos he, hst⟩

theorem filledSlots_succ_of_some {n : Nat} {name : String} (h : table[n]? = some (some name)) :
    filledSlots table (n + 1) = filledSlots table n ++ [n] := by
  simp [filledSlots, List.range_succ, h]

theorem filledSlots_succ_of_none {n : Nat} (h : table[n]? = some none) :
    filledSlots table (n + 1) = filledSlots table n := by
  simp [filledSlots, List.range_succ, h]

theorem filledSlots_prefix {m n : Nat} (h : m ≤ n) :
    filledSlots table m <+: filledSlots table n := by
  obtain ⟨k, rfl⟩ := Nat.exists_eq_add_of_le h
  rw [filledSlots, filledSlots, List.range_add, List.filter_append]
  exact List.prefix_append _ _

/-- The slots of `asked` are the filled ones below `n`, and `register_kprobe`
has taken each of them. -/
def AllTaken (table : List (Option String)) (n : Nat) (asked : List (Nat × Int)) : Prop :=
  asked.map Prod.fst = filledSlots table n ∧ ∀ call ∈ asked, 0 ≤ call.2

/-- The last slot of `asked` is the first one that `register_kprobe` has
refused. -/
def LastRefused (table : List (Option String)) (asked : List (Nat × Int)) : Prop :=
  ∃ taken idx ret, asked = taken ++ [(idx, ret)] ∧ ret < 0 ∧ (∀ call ∈ taken, 0 ≤ call.2) ∧
    asked.map Prod.fst <+: filledSlots table table.length

/-- What `probe_init` has asked `register_kprobe` for at each of its steps. -/
def AskedInv (table : List (Option String)) (s : State ι) (asked : List (Nat × Int)) : Prop :=
  match s.init with
  | .register n => n ≤ table.length ∧ AllTaken table n asked
  | .unregister _ => LastRefused table asked
  | .returned ret =>
    (ret = 0 ∧ AllTaken table table.length asked) ∨ (ret = -1 ∧ LastRefused table asked)
  | _ => AllTaken table table.length asked

theorem askedInv_step {asked : List (Nat × Int)} (hI : AskedInv table s asked)
    (hst : step table s e = some s') : AskedInv table s' (asked ++ registerAnswers s e) := by
  cases move_of_step table hst with
  | @registerSkip idx hinit hslot =>
    simp only [AskedInv, hinit] at hI
    simp only [AskedInv, registerAnswers, List.append_nil]
    refine ⟨(List.getElem?_eq_some_iff.mp hslot).1, ?_, hI.2.2⟩
    rw [filledSlots_succ_of_none hslot]
    exact hI.2.1
  | @registerOk idx ret name hinit hslot hret =>
    simp only [AskedInv, hinit] at hI
    simp only [AskedInv, registerAnswers, hinit]
    refine ⟨(List.getElem?_eq_some_iff.mp hslot).1, ?_, ?_⟩
    · rw [filledSlots_succ_of_some hslot, List.map_append, hI.2.1]
      rfl
    · intro call hcall
      rcases List.mem_append.mp hcall with hold | hnew
      · exact hI.2.2 call hold
      · rw [List.mem_singleton.mp hnew]
        exact hret
  | @registerFail idx ret name hinit hslot hret =>
    simp only [AskedInv, hinit] at hI
    simp only [AskedInv, registerAnswers, hinit]
    refine ⟨asked, idx, ret, rfl, hret, hI.2.2, ?_⟩
    rw [List.map_append, hI.2.1]
    have hprefix : filledSlots table (idx + 1) <+: filledSlots table table.length :=
      filledSlots_prefix (Nat.succ_le_of_lt (List.getElem?_eq_some_iff.mp hslot).1)
    rwa [filledSlots_succ_of_some hslot] at hprefix
  | @registerEnd idx hinit hslot =>
    simp only [AskedInv, hinit] at hI
    simp only [AskedInv, registerAnswers, List.append_nil]
    have hend : idx = table.length :=
      le_antisymm hI.1 (List.getElem?_eq_none_iff.mp hslot)
    exact hend ▸ hI.2
  | unregisterSkip hinit _ | unregister hinit _ =>
    simp only [AskedInv, hinit] at hI
    simpa only [AskedInv, registerAnswers, List.append_nil] using hI
  | unregisterEnd hinit _ =>
    simp only [AskedInv, hinit] at hI
    simp only [AskedInv, registerAnswers, List.append_nil]
    exact Or.inr ⟨trivial, hI⟩
  | initReasons hinit | lockInit hinit | initTotal hinit | initSample hinit _ =>
    simp only [AskedInv, hinit] at hI
    simpa only [AskedInv, registerAnswers, List.append_nil] using hI
  | initKtime hinit =>
    simp only [AskedInv, hinit] at hI
    simp only [AskedInv, registerAnswers, List.append_nil]
    exact Or.inl ⟨trivial, hI⟩
  | _ =>
    simp only [registerAnswers, List.append_nil]
    exact hI

/-- `probe_init` always returns.  In every run from the load on it makes at
most `2 * table.length + 7` steps, and wherever the run has got to, its own
steps bring it to its return.  It returns `0` when `register_kprobe` has taken
every filled slot of the table, each asked for once and in order, and `-1`
when it has refused one, which is then the last one asked for. -/
theorem probe_init_returns {es : List (Event ι)}
    (hrun : exec (step table) State.load es = some s) :
    es.countP Event.ofLoad ≤ 2 * table.length + 7 ∧
      (∃ fs t ret, (∀ e ∈ fs, e.ofLoad = true) ∧ exec (step table) s fs = some t ∧
        t.init = .returned ret) ∧
      ∀ ret, s.init = .returned ret →
        (ret = 0 ∧
            AllTaken table table.length (outputs (step table) registerAnswers State.load es)) ∨
          (ret = -1 ∧ LastRefused table (outputs (step table) registerAnswers State.load es)) := by
  refine ⟨?_, ?_, fun ret hret => ?_⟩
  · have hcount := (loader table).count_le () trivial hrun
    have hbound := (loader table).left_le (s := (State.load : State ι)) () trivial
    have hnone : es.countP ((loader table).startsThread ()) = 0 := List.countP_eq_zero.mpr
      fun e _ => by simp [Threads.startsThread, loader]
    have hown : ((loader table).ofThread () : Event ι → Bool) = Event.ofLoad := by
      funext e
      cases he : e.ofLoad <;> simp [Threads.ofThread, loader, he]
    rw [hnone, hown] at hcount
    exact (Nat.le_of_add_right_le hcount).trans hbound
  · obtain ⟨fs, t, hown, -, hexec, hzero⟩ := (loader table).exists_finish ()
      (fun _ hleft => loader_ready hleft) (s := s) trivial
    cases hinit : t.init with
    | returned ret =>
      exact ⟨fs, t, ret, fun e he => by simpa [loader] using hown e he, hexec, hinit⟩
    | _ => simp [loader, hinit, InitPc.stepsLeft] at hzero
  · have hempty : AskedInv table (State.load : State ι) [] :=
      ⟨Nat.zero_le _, rfl, fun _ h => by cases h⟩
    have hlast := exec_invariant_outputs (P := fun _ _ => True)
      (fun _ _ _ _ hI _ hst => askedInv_step hI hst) hempty
      (allSteps_of_forall (fun _ _ => trivial) _ es) hrun
    simpa only [AskedInv, hret, List.nil_append] using hlast

end Load

/-- The second registration is refused. -/
theorem probe_init_returns_gapTable : ∃ s : State Unit,
    exec (step gapTable) State.load [.register 0, .initStep, .register (-2), .initStep, .initStep,
        .initStep, .initStep] = some s ∧
      s.init = .returned (-1) ∧ LastRefused gapTable (outputs (step gapTable) registerAnswers
        (State.load : State Unit) [.register 0, .initStep, .register (-2), .initStep, .initStep,
          .initStep, .initStep]) := by
  have h : (exec (step gapTable) (State.load : State Unit) [.register 0, .initStep,
      .register (-2), .initStep, .initStep, .initStep, .initStep]).map
        (fun s => decide (s.init = .returned (-1))) = some true := by decide
  obtain ⟨s, hrun, hs⟩ := exists_exec_of_map h
  have hinit := of_decide_eq_true hs
  rcases (probe_init_returns hrun).2.2 _ hinit with ⟨hret, -⟩ | ⟨-, hrefused⟩
  · cases hret
  · exact ⟨s, hrun, hinit, hrefused⟩

end KvmUtils.KvmExitReason
