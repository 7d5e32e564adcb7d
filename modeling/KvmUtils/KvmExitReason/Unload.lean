import KvmUtils.KvmExitReason.Init

/-!
# The probes from the load of the module to its unload

`probe_init` registers the filled slots of the table in order and calls
`unregister_all_probes` at the first failure; `probe_exit` calls it at the
unload.  The load is the machine of `Handlers`.  Here it is followed by
`probe_exit`, which the kernel calls only on a module that `probe_init` has
loaded, and which may overlap with handlers that are still running.

`unregister_all_probes` skips the slots that `probe_init` skips, so a loop of
it that is about to visit slot `idx` has left no slot before `idx` registered
(`Pending`).  `lifeInv_of_run` says what is registered at every point of every
run.
-/

namespace KvmUtils.KvmExitReason

open Function Machine

/-- The next step of `probe_exit`.  `unregister idx` is at the head of the
loop over the probe table. -/
inductive ExitPc where
  | notCalled
  | unregister (idx : Nat)
  | returned
  deriving DecidableEq, Repr

/-- The module, and how far its `probe_exit` is. -/
structure Life (ι : Type*) where
  inner : State ι
  exit : ExitPc

inductive LifeEvent (ι : Type*) where
  /-- an event of the loaded or loading module -/
  | inner (e : Event ι)
  /-- the next step of `probe_exit` -/
  | exitStep

section Life

variable {ι : Type*}

/-- The module before the first step of `probe_init`. -/
def Life.load : Life ι := ⟨State.load, .notCalled⟩

variable (table : List (Option String))

/-- A step of `probe_exit`.  Removing a module whose `probe_init` has not
returned `0` is refused.  The kernel's `unregister_kprobe` returns only when
the handlers under way have ended.  It does not wait here, so the machine has
all the states of the module and more. -/
def exitStep (s : Life ι) : Option (Life ι) :=
  match s.exit with
  | .notCalled =>
    if s.inner.init = .returned 0 then some { s with exit := .unregister 0 } else none
  | .unregister idx =>
    match table[idx]? with
    | some none => some { s with exit := .unregister (idx + 1) }
    | some (some _) =>
      some {
        inner := { s.inner with registered := update s.inner.registered idx false }
        exit := .unregister (idx + 1) }
    | none => some { s with exit := .returned }
  | .returned => none

/-- One event in the life of the module. -/
def lifeStep [DecidableEq ι] (s : Life ι) : LifeEvent ι → Option (Life ι)
  | .inner e => (step table s.inner e).map fun t => { s with inner := t }
  | .exitStep => exitStep table s

/-- The slot that an event passes to `register_kprobe`. -/
def registerCalls (s : Life ι) : LifeEvent ι → List Nat
  | .inner (.register _) =>
    match s.inner.init with
    | .register idx => [idx]
    | _ => []
  | _ => []

/-! ## What the two loops over the table keep -/

/-- No probe is registered. -/
def NoProbe (registered : Nat → Bool) : Prop := ∀ idx, registered idx = false

/-- Whatever is registered is a filled slot from `n` on, so a loop of
`unregister_all_probes` that is at slot `n` will still visit it. -/
def Pending (n : Nat) (registered : Nat → Bool) : Prop :=
  ∀ idx, registered idx = true → n ≤ idx ∧ (table[idx]?.join).isSome

variable {table}

theorem pending_filledBelow (n : Nat) : Pending table 0 (filledBelow table n) := by
  intro idx h
  simp only [filledBelow, Bool.and_eq_true] at h
  exact ⟨Nat.zero_le idx, h.2⟩

theorem Pending.skip {n : Nat} {registered : Nat → Bool} (h : Pending table n registered)
    (hslot : table[n]? = some none) : Pending table (n + 1) registered := by
  intro idx hidx
  obtain ⟨hle, hfilled⟩ := h idx hidx
  have hne : idx ≠ n := by
    rintro rfl
    simp [hslot] at hfilled
  exact ⟨by omega, hfilled⟩

theorem Pending.unregister {n : Nat} {registered : Nat → Bool}
    (h : Pending table n registered) : Pending table (n + 1) (update registered n false) := by
  intro idx hidx
  have hne : idx ≠ n := by
    rintro rfl
    simp at hidx
  rw [update_of_ne hne] at hidx
  obtain ⟨hle, hfilled⟩ := h idx hidx
  exact ⟨by omega, hfilled⟩

/-- At its end the loop has left nothing registered. -/
theorem Pending.noProbe {n : Nat} {registered : Nat → Bool} (h : Pending table n registered)
    (hslot : table[n]? = none) : NoProbe registered := by
  intro idx
  by_contra hreg
  obtain ⟨hle, hfilled⟩ := h idx (by simpa using hreg)
  have hlen : table.length ≤ idx := (List.getElem?_eq_none_iff.mp hslot).trans hle
  simp [List.getElem?_eq_none_iff.mpr hlen] at hfilled

/-- Beyond the end of the table there is no slot to register. -/
theorem filledBelow_of_none {n : Nat} (hslot : table[n]? = none) :
    filledBelow table n = filledBelow table table.length := by
  have hlen : table.length ≤ n := List.getElem?_eq_none_iff.mp hslot
  funext idx
  by_cases hidx : idx < table.length
  · have hlt : idx < n := by omega
    simp [filledBelow, hidx, hlt]
  · have hnone : table[idx]? = none := List.getElem?_eq_none_iff.mpr (by omega)
    simp [filledBelow, hnone]

theorem filledBelow_length (idx : Nat) :
    filledBelow table table.length idx = (table[idx]?.join).isSome := by
  by_cases hidx : idx < table.length
  · simp [filledBelow, hidx]
  · have hnone : table[idx]? = none := List.getElem?_eq_none_iff.mpr (by omega)
    simp [filledBelow, hnone]

/-! ## The registered slots at every point of the load -/

variable (table)

/-- The registered slots at each step of `probe_init`. -/
def LoadInv (s : State ι) : Prop :=
  match s.init with
  | .register n => s.registered = filledBelow table n
  | .unregister n => Pending table n s.registered
  | .returned ret =>
    (ret = 0 ∧ s.registered = filledBelow table table.length) ∨
      (ret = -1 ∧ NoProbe s.registered)
  | _ => s.registered = filledBelow table table.length

/-- The registered slots at each step of the life of the module. -/
def LifeInv (s : Life ι) : Prop :=
  match s.exit with
  | .notCalled => LoadInv table s.inner
  | .unregister n => s.inner.init = .returned 0 ∧ Pending table n s.inner.registered
  | .returned => s.inner.init = .returned 0 ∧ NoProbe s.inner.registered

variable {table}

theorem lifeInv_load : LifeInv table (Life.load : Life ι) := by
  funext idx
  simp [Life.load, State.load, filledBelow]

variable [DecidableEq ι]

theorem loadInv_step {s s' : State ι} {e : Event ι} (hI : LoadInv table s)
    (hst : step table s e = some s') : LoadInv table s' := by
  cases move_of_step table hst with
  | registerSkip hinit hslot =>
    simp only [LoadInv, hinit] at hI
    exact hI.trans (update_filledBelow_of_none (by rw [hslot]; rfl)).symm
  | @registerOk idx ret name hinit hslot hret =>
    simp only [LoadInv, hinit] at hI
    simp only [LoadInv, filledBelow_succ, hslot, hI]
    rfl
  | @registerFail idx ret name hinit hslot hret =>
    simp only [LoadInv, hinit] at hI
    simp only [LoadInv, hI]
    exact pending_filledBelow idx
  | registerEnd hinit hslot =>
    simp only [LoadInv, hinit] at hI
    exact hI.trans (filledBelow_of_none hslot)
  | unregisterSkip hinit hslot =>
    simp only [LoadInv, hinit] at hI
    exact hI.skip hslot
  | unregister hinit hslot =>
    simp only [LoadInv, hinit] at hI
    exact hI.unregister
  | unregisterEnd hinit hslot =>
    simp only [LoadInv, hinit] at hI
    exact .inr ⟨rfl, hI.noProbe hslot⟩
  | initReasons hinit | lockInit hinit | initTotal hinit | initSample hinit hclock =>
    simp only [LoadInv, hinit] at hI
    exact hI
  | initKtime hinit =>
    simp only [LoadInv, hinit] at hI
    exact .inl ⟨rfl, hI⟩
  | _ => exact hI

/-- Every step in the life of the module keeps the invariant. -/
theorem lifeInv_step {s s' : Life ι} {e : LifeEvent ι} (hI : LifeInv table s)
    (hst : lifeStep table s e = some s') : LifeInv table s' := by
  obtain ⟨t, x⟩ := s
  cases e with
  | inner e =>
    simp only [lifeStep, Option.map_eq_some_iff] at hst
    obtain ⟨t', hst, rfl⟩ := hst
    cases x with
    | notCalled => exact loadInv_step hI hst
    | unregister n | returned =>
      simp only [LifeInv] at hI ⊢
      obtain ⟨hinit, hreg⟩ := frame_of_returned table hI.1 hst
      exact ⟨hinit, hreg ▸ hI.2⟩
  | exitStep =>
    cases x with
    | notCalled =>
      simp only [lifeStep, exitStep, Option.ite_none_right_eq_some, Option.some.injEq] at hst
      obtain ⟨hinit, rfl⟩ := hst
      simp only [LifeInv, LoadInv, hinit, true_and] at hI ⊢
      -- the module is loaded, so its filled slots are the registered ones
      have hreg : t.registered = filledBelow table table.length := by simpa using hI
      exact hreg ▸ pending_filledBelow table.length
    | unregister n =>
      simp only [LifeInv] at hI
      simp only [lifeStep, exitStep] at hst
      split at hst <;> rename_i hslot <;> cases hst
      · exact ⟨hI.1, hI.2.skip hslot⟩
      · exact ⟨hI.1, hI.2.unregister⟩
      · exact ⟨hI.1, hI.2.noProbe hslot⟩
    | returned => cases hst

/-- The invariant holds at every point of every run. -/
theorem lifeInv_of_run {s : Life ι} {es : List (LifeEvent ι)}
    (hrun : exec (lifeStep table) Life.load es = some s) : LifeInv table s :=
  exec_invariant' (fun _ _ _ hI hst => lifeInv_step hI hst) lifeInv_load hrun

/-! ## No slot is registered twice -/

/-- The slots passed to `register_kprobe` so far are distinct, and the loop of
`probe_init` has gone past them. -/
def OnceInv (s : Life ι) (calls : List Nat) : Prop :=
  calls.Nodup ∧ ∀ n, s.inner.init = .register n → ∀ idx ∈ calls, idx < n

omit [DecidableEq ι] in
/-- A slot is passed to `register_kprobe` when the loop is at it. -/
theorem OnceInv.nodup_concat {s : Life ι} {calls : List Nat} {idx : Nat} (hI : OnceInv s calls)
    (hinit : s.inner.init = .register idx) : (calls ++ [idx]).Nodup := by
  refine List.nodup_append.mpr ⟨hI.1, List.nodup_singleton idx, ?_⟩
  intro a ha b hb
  rw [List.mem_singleton.mp hb]
  exact Nat.ne_of_lt (hI.2 idx hinit a ha)

theorem onceInv_step {s s' : Life ι} {e : LifeEvent ι} {calls : List Nat}
    (hI : OnceInv s calls) (hst : lifeStep table s e = some s') :
    OnceInv s' (calls ++ registerCalls s e) := by
  have hconcat : ∀ {idx}, s.inner.init = .register idx → (calls ++ [idx]).Nodup :=
    hI.nodup_concat
  obtain ⟨hnodup, hlt⟩ := hI
  cases e with
  | exitStep =>
    -- `probe_exit` leaves the program counter of `probe_init` where it is
    have hinit : s'.inner.init = s.inner.init := by
      simp only [lifeStep, exitStep] at hst
      split at hst
      · simp only [Option.ite_none_right_eq_some, Option.some.injEq] at hst
        obtain ⟨_, rfl⟩ := hst
        rfl
      · split at hst <;> cases hst <;> rfl
      · cases hst
    simp only [registerCalls, List.append_nil]
    exact ⟨hnodup, fun n hn => hlt n (hinit ▸ hn)⟩
  | inner e =>
    simp only [lifeStep, Option.map_eq_some_iff] at hst
    obtain ⟨t, hst, rfl⟩ := hst
    cases move_of_step table hst with
    | @registerOk idx ret name hinit hslot hret =>
      simp only [registerCalls, hinit]
      refine ⟨hconcat hinit, fun n hn a ha => ?_⟩
      obtain rfl : idx + 1 = n := InitPc.register.inj hn
      rcases List.mem_append.mp ha with ha | ha
      · exact Nat.lt_succ_of_lt (hlt idx hinit a ha)
      · rw [List.mem_singleton.mp ha]
        exact Nat.lt_succ_self idx
    | @registerFail idx ret name hinit hslot hret =>
      simp only [registerCalls, hinit]
      exact ⟨hconcat hinit, fun n hn => by cases hn⟩
    | @registerSkip idx hinit hslot =>
      simp only [registerCalls, List.append_nil]
      refine ⟨hnodup, fun n hn a ha => ?_⟩
      obtain rfl : idx + 1 = n := InitPc.register.inj hn
      exact Nat.lt_succ_of_lt (hlt idx hinit a ha)
    | registerEnd | unregisterSkip | unregister | unregisterEnd | initReasons | lockInit
    | initTotal | initSample | initKtime =>
      simp only [registerCalls, List.append_nil]
      exact ⟨hnodup, fun n hn => by cases hn⟩
    | _ =>
      simp only [registerCalls, List.append_nil]
      exact ⟨hnodup, hlt⟩

/-- Over a whole run the slots passed to `register_kprobe` are distinct. -/
theorem nodup_registerCalls {s : Life ι} {es : List (LifeEvent ι)}
    (hrun : exec (lifeStep table) Life.load es = some s) :
    (outputs (lifeStep table) registerCalls Life.load es).Nodup := by
  have hempty : OnceInv (Life.load : Life ι) [] := ⟨List.nodup_nil, fun _ _ _ h => by cases h⟩
  have hlast := exec_invariant_outputs (P := fun _ _ => True)
    (fun _ _ _ _ hI _ hst => onceInv_step hI hst) hempty
    (allSteps_of_forall (fun _ _ => trivial) _ es) hrun
  simpa only [List.nil_append] using hlast.1

/-- All or nothing: whatever `register_kprobe` returns, a load that fails
leaves no probe, a load that succeeds leaves exactly the filled slots of the
table registered, an unload leaves no probe, and no slot is ever registered
twice. -/
theorem all_or_nothing {s : Life ι} {es : List (LifeEvent ι)}
    (hrun : exec (lifeStep table) Life.load es = some s) :
    (s.inner.init = .returned (-1) → ∀ idx, s.inner.registered idx = false) ∧
      (s.inner.init = .returned 0 → s.exit = .notCalled →
        ∀ idx, s.inner.registered idx = true ↔ ∃ name, table[idx]? = some (some name)) ∧
      (s.exit = .returned → ∀ idx, s.inner.registered idx = false) ∧
      (outputs (lifeStep table) registerCalls Life.load es).Nodup := by
  have hI := lifeInv_of_run hrun
  refine ⟨fun hfail => ?_, fun hok hexit idx => ?_, fun hexit => ?_, nodup_registerCalls hrun⟩
  · cases hexit : s.exit with
    | notCalled =>
      simp only [LifeInv, LoadInv, hexit, hfail] at hI
      obtain ⟨hret, _⟩ | ⟨_, hnone⟩ := hI
      · cases hret
      · exact hnone
    | unregister n | returned =>
      -- only a module that has loaded is unloaded
      simp only [LifeInv, hexit, hfail] at hI
      cases hI.1
  · simp only [LifeInv, LoadInv, hexit, hok] at hI
    obtain ⟨_, hreg⟩ | ⟨hret, _⟩ := hI
    · rw [hreg, filledBelow_length, Option.isSome_iff_exists]
      simp only [Option.join_eq_some_iff]
    · cases hret
  · simp only [LifeInv, hexit] at hI
    exact hI.2

end Life

/-- A table with an empty slot between two filled ones. -/
def gapTable : List (Option String) := [some "handle_cpuid", none, some "handle_io"]

/-- The second registration fails, and `probe_init` rolls the first back. -/
def failedLoad : List (LifeEvent Unit) :=
  [.inner (.register 0), .inner .initStep, .inner (.register (-2)), .inner .initStep,
    .inner .initStep, .inner .initStep, .inner .initStep]

/-- The module is loaded and unloaded. -/
def loadUnload : List (LifeEvent Unit) :=
  (initEvents gapTable 0).map .inner ++ [.exitStep, .exitStep, .exitStep, .exitStep, .exitStep]

theorem all_or_nothing_gapTable :
    (∃ s, exec (lifeStep gapTable) Life.load failedLoad = some s ∧
        s.inner.init = .returned (-1) ∧ ∀ idx, s.inner.registered idx = false) ∧
      ∃ s, exec (lifeStep gapTable) Life.load loadUnload = some s ∧
        s.exit = .returned ∧ ∀ idx, s.inner.registered idx = false := by
  have hfailed : (exec (lifeStep gapTable) Life.load failedLoad).map
      (fun s => decide (s.inner.init = .returned (-1))) = some true := by decide
  have hunloaded : (exec (lifeStep gapTable) Life.load loadUnload).map
      (fun s => decide (s.exit = .returned)) = some true := by decide
  constructor
  · obtain ⟨s, hrun, hinit⟩ := exists_exec_of_map hfailed
    have hinit := of_decide_eq_true hinit
    exact ⟨s, hrun, hinit, (all_or_nothing hrun).1 hinit⟩
  · obtain ⟨s, hrun, hexit⟩ := exists_exec_of_map hunloaded
    have hexit := of_decide_eq_true hexit
    exact ⟨s, hrun, hexit, (all_or_nothing hrun).2.2.1 hexit⟩

end KvmUtils.KvmExitReason
