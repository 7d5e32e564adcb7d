import Mathlib.Data.List.Nodup
import KvmUtils.Lib.Machine
import KvmUtils.KvmExitReason.ExitReason

/-!
# The names in a report

`reason2str` calls `init_reasons` before it reads `reasons`, and `probe_init`
calls it too.  `init_reasons` sets `inited` first and fills the table after
that, so a CPU that finds the flag set may read an entry that another CPU has
not stored yet.  No lock covers the table.

The calls are embedded as an event machine in the sense of `Machine`, with a
step for each access to `inited` and to `reasons`.  Any number of CPUs call at
any time.

A name is never wrong, but it can be missing: `names_of_calls` says that every
call returns the name of its reason or `EXIT_REASON_UNKNOWN`, and that it
returns the name whenever no store of that entry is still to come.
-/

namespace KvmUtils.KvmExitReason.Names

open Function Machine

/-- The assignments of `init_reasons`, in their order. -/
def assignments : List (Nat × String) :=
  (List.range REASON_NUM).filterMap fun r => (reasons r).map fun name => (r, name)

/-- The next step of a CPU.  `call` is the argument of `reason2str`, and there
is none when `probe_init` calls `init_reasons`.  `reread` is the second access
to the entry, in `return reasons[r]`. -/
inductive Pc where
  | idle
  | test (call : Option Nat)
  | setInited (call : Option Nat)
  | assign (k : Nat) (call : Option Nat)
  | read (r : Nat)
  | reread (r : Nat)
  deriving DecidableEq, Repr

/-- `inited` and `reasons`, on a machine whose CPUs are `ι`. -/
structure State (ι : Type*) where
  inited : Bool
  reasons : Nat → Option String
  pc : ι → Pc

inductive Event (ι : Type*) where
  /-- CPU `i` calls `reason2str` or `init_reasons` -/
  | call (i : ι) (arg : Option Nat)
  /-- the next step of CPU `i` -/
  | step (i : ι)

/-- Where `init_reasons` returns to. -/
def Pc.afterInit : Option Nat → Pc
  | none => .idle
  | some r => .read r

section Machine

variable {ι : Type*} [DecidableEq ι]

/-- CPU `i` goes on to `p`. -/
def State.goto (s : State ι) (i : ι) (p : Pc) : State ι := { s with pc := update s.pc i p }

def callStep (s : State ι) (i : ι) (arg : Option Nat) : Option (State ι) :=
  match s.pc i with
  | .idle =>
    match arg with
    | none => some (s.goto i (.test none))
    | some r => if r ≥ REASON_NUM then some s else some (s.goto i (.test (some r)))
  | _ => none

def cpuStep (s : State ι) (i : ι) : Option (State ι) :=
  match s.pc i with
  | .idle => none
  | .test call =>
    if s.inited then some (s.goto i (Pc.afterInit call)) else some (s.goto i (.setInited call))
  | .setInited call => some ({ s with inited := true }.goto i (.assign 0 call))
  | .assign k call =>
    match assignments[k]? with
    | some (r, name) =>
      some ({ s with reasons := update s.reasons r (some name) }.goto i (.assign (k + 1) call))
    | none => some (s.goto i (Pc.afterInit call))
  | .read r =>
    match s.reasons r with
    | some _ => some (s.goto i (.reread r))
    | none => some (s.goto i .idle)
  | .reread _ => some (s.goto i .idle)

def step (s : State ι) : Event ι → Option (State ι)
  | .call i arg => callStep s i arg
  | .step i => cpuStep s i

/-- What the calls of `reason2str` return, each with its argument.  There is no
string when the second access finds no name. -/
def returned (s : State ι) : Event ι → List (Nat × Option String)
  | .call i (some r) =>
    if s.pc i = .idle ∧ r ≥ REASON_NUM then [(r, some "EXIT_REASON_OVERFLOW")] else []
  | .call _ none => []
  | .step i =>
    match s.pc i with
    | .read r => if s.reasons r = none then [(r, some "EXIT_REASON_UNKNOWN")] else []
    | .reread r => [(r, s.reasons r)]
    | .idle | .test _ | .setInited _ | .assign _ _ => []

/-- The module as it is loaded. -/
def State.load : State ι where
  inited := false
  reasons _ := none
  pc _ := .idle

end Machine

/-! ## The table -/

theorem mem_assignments {r : Nat} {name : String} :
    (r, name) ∈ assignments ↔ r < REASON_NUM ∧ reasons r = some name := by
  simp only [assignments, List.mem_filterMap, List.mem_range, Option.map_eq_some_iff,
    Prod.mk.injEq]
  constructor
  · rintro ⟨r', hr', name', hname, rfl, rfl⟩
    exact ⟨hr', hname⟩
  · rintro ⟨hr, hname⟩
    exact ⟨r, hr, name, hname, rfl, rfl⟩

/-- The CPU has its store of entry `r` still to make. -/
def Pc.Filling (r : Nat) : Pc → Prop
  | .setInited _ => ∃ name, (r, name) ∈ assignments
  | .assign k _ => ∃ name, (r, name) ∈ assignments.drop k
  | _ => False

/-- The name of the entry, when it has one, has been stored. -/
def Filled (entries : Nat → Option String) (r : Nat) : Prop :=
  ∀ name, (r, name) ∈ assignments → entries r = some name

/-- The name of a reason. -/
theorem reason2str_eq {r : Nat} {name : String} (h : (r, name) ∈ assignments) :
    reason2str r = name := by
  obtain ⟨hr, hname⟩ := mem_assignments.mp h
  rw [reason2str, if_neg (Nat.not_le.mpr hr), hname]

/-- A reason that has no name. -/
theorem reason2str_of_filled {entries : Nat → Option String} {r : Nat} (hr : r < REASON_NUM)
    (hfilled : Filled entries r) (hnone : entries r = none) :
    reason2str r = "EXIT_REASON_UNKNOWN" := by
  rw [reason2str, if_neg (Nat.not_le.mpr hr)]
  cases hname : reasons r with
  | none => rfl
  | some name =>
    have hsome := hfilled name (mem_assignments.mpr ⟨hr, hname⟩)
    rw [hnone] at hsome
    cases hsome

section Invariant

variable {ι : Type*} [DecidableEq ι] {s s' : State ι} {e : Event ι}

/-- What a step does. -/
inductive Move (s : State ι) : Event ι → State ι → Prop where
  | init {i} (hpc : s.pc i = .idle) : Move s (.call i none) (s.goto i (.test none))
  | overflow {i r} (hpc : s.pc i = .idle) (hr : REASON_NUM ≤ r) : Move s (.call i (some r)) s
  | call {i r} (hpc : s.pc i = .idle) (hr : r < REASON_NUM) :
      Move s (.call i (some r)) (s.goto i (.test (some r)))
  | skip {i call} (hpc : s.pc i = .test call) (hinited : s.inited = true) :
      Move s (.step i) (s.goto i (Pc.afterInit call))
  | fill {i call} (hpc : s.pc i = .test call) (hinited : s.inited = false) :
      Move s (.step i) (s.goto i (.setInited call))
  | setInited {i call} (hpc : s.pc i = .setInited call) :
      Move s (.step i) ({ s with inited := true }.goto i (.assign 0 call))
  | assign {i k call r name} (hpc : s.pc i = .assign k call)
      (hget : assignments[k]? = some (r, name)) :
      Move s (.step i)
        ({ s with reasons := update s.reasons r (some name) }.goto i (.assign (k + 1) call))
  | endAssign {i k call} (hpc : s.pc i = .assign k call) (hget : assignments[k]? = none) :
      Move s (.step i) (s.goto i (Pc.afterInit call))
  | found {i r} (hpc : s.pc i = .read r) (hsome : s.reasons r ≠ none) :
      Move s (.step i) (s.goto i (.reread r))
  | unknown {i r} (hpc : s.pc i = .read r) (hnone : s.reasons r = none) :
      Move s (.step i) (s.goto i .idle)
  | reread {i r} (hpc : s.pc i = .reread r) : Move s (.step i) (s.goto i .idle)

theorem move_of_step (h : step s e = some s') : Move s e s' := by
  cases e with
  | call i arg =>
    simp only [step, callStep] at h
    split at h
    · rename_i hpc
      cases arg with
      | none => cases h; exact .init hpc
      | some r =>
        simp only at h
        split at h <;> rename_i hr <;> cases h
        · exact .overflow hpc hr
        · exact .call hpc (Nat.lt_of_not_le hr)
    · cases h
  | step i =>
    simp only [step, cpuStep] at h
    split at h
    case h_1 => cases h
    case h_2 call hpc =>
      split at h <;> rename_i hinited <;> cases h
      · exact .skip hpc hinited
      · exact .fill hpc (by simpa using hinited)
    case h_3 call hpc => cases h; exact .setInited hpc
    case h_4 k call hpc =>
      split at h
      · rename_i r name hget
        cases h
        exact .assign hpc hget
      · rename_i hget
        cases h
        exact .endAssign hpc hget
    case h_5 r hpc =>
      split at h
      · rename_i name hname
        cases h
        exact .found hpc (by simp [hname])
      · rename_i hname
        cases h
        exact .unknown hpc hname
    case h_6 r hpc => cases h; exact .reread hpc

/-- The argument of the call that the CPU is in. -/
def Pc.arg : Pc → Option Nat
  | .test call | .setInited call | .assign _ call => call
  | .read r | .reread r => some r
  | .idle => none

/-- The CPU is past a test of `inited`, or past its own store of it. -/
def Pc.PastInited : Pc → Prop
  | .assign _ _ | .read _ => True
  | _ => False

/-- Every entry that has been stored is right.  Once `inited` is set, an entry
that is missing is still to be stored by some CPU. -/
structure NamesInv (s : State ι) : Prop where
  right : ∀ r name, s.reasons r = some name → (r, name) ∈ assignments
  filled : s.inited = true → ∀ r, Filled s.reasons r ∨ ∃ j, (s.pc j).Filling r
  inited : ∀ i, (s.pc i).PastInited → s.inited = true
  found : ∀ i r, s.pc i = .reread r → s.reasons r ≠ none
  arg_lt : ∀ i r, (s.pc i).arg = some r → r < REASON_NUM

omit [DecidableEq ι] in
theorem namesInv_load : NamesInv (State.load : State ι) where
  right _ _ h := by cases h
  filled h := by cases h
  inited _ h := h.elim
  found _ _ h := by cases h
  arg_lt _ _ h := by cases h

/-- What holds where CPU `i` goes, and of every CPU before, holds after the
step. -/
theorem forall_goto {i : ι} {p : Pc} {q : Pc → Prop} (hp : q p) (hall : ∀ j, q (s.pc j)) :
    ∀ j, q (update s.pc i p j) :=
  (forall_update_iff s.pc fun _ => q).mpr ⟨hp, fun j _ => hall j⟩

/-- A CPU that has no store to make goes on. -/
theorem NamesInv.goto (h : NamesInv s) {i : ι} {p : Pc} (hnot : ∀ r, ¬ (s.pc i).Filling r)
    (hinited : p.PastInited → s.inited = true) (hfound : ∀ r, p = .reread r → s.reasons r ≠ none)
    (harg : ∀ r, p.arg = some r → r < REASON_NUM) : NamesInv (s.goto i p) where
  right := h.right
  filled hset r := by
    rcases h.filled hset r with hfilled | ⟨j, hj⟩
    · exact Or.inl hfilled
    · have hji : j ≠ i := by
        rintro rfl
        exact hnot r hj
      exact Or.inr ⟨j, by simpa [State.goto, hji] using hj⟩
  inited := forall_goto (q := fun q => q.PastInited → s.inited = true) hinited h.inited
  found := forall_goto (q := fun q => ∀ r, q = .reread r → s.reasons r ≠ none) hfound h.found
  arg_lt := forall_goto (q := fun q => ∀ r, q.arg = some r → r < REASON_NUM) harg h.arg_lt

/-- A CPU sets `inited`, and has all entries to store. -/
theorem NamesInv.setInited (h : NamesInv s) {i : ι} {call : Option Nat}
    (hpc : s.pc i = .setInited call) :
    NamesInv ({ s with inited := true }.goto i (.assign 0 call)) where
  right := h.right
  filled _ r := by
    by_cases hname : ∃ name, (r, name) ∈ assignments
    · refine Or.inr ⟨i, ?_⟩
      simpa [State.goto, Pc.Filling] using hname
    · exact Or.inl fun name hmem => absurd ⟨name, hmem⟩ hname
  inited _ _ := rfl
  found := forall_goto (q := fun q => ∀ r, q = .reread r → s.reasons r ≠ none) (by simp) h.found
  arg_lt := forall_goto (q := fun q => ∀ r, q.arg = some r → r < REASON_NUM)
    (fun r hr => h.arg_lt i r (by rw [hpc]; exact hr)) h.arg_lt

/-- A name is stored once in the list of assignments. -/
theorem assignments_name {r : Nat} {name name' : String} (h : (r, name) ∈ assignments)
    (h' : (r, name') ∈ assignments) : name = name' :=
  Option.some.inj ((mem_assignments.mp h).2.symm.trans (mem_assignments.mp h').2)

/-- A CPU stores the next entry. -/
theorem NamesInv.assign (h : NamesInv s) {i : ι} {k r : Nat} {call : Option Nat} {name : String}
    (hpc : s.pc i = .assign k call) (hget : assignments[k]? = some (r, name)) :
    NamesInv ({ s with reasons := update s.reasons r (some name) }.goto i
      (.assign (k + 1) call)) where
  right r' name' hname := by
    by_cases hr : r' = r
    · subst hr
      simp only [State.goto, update_self, Option.some.injEq] at hname
      exact hname ▸ List.mem_of_getElem? hget
    · simp only [State.goto, update_of_ne hr] at hname
      exact h.right r' name' hname
  filled hset r' := by
    by_cases hr : r' = r
    · subst hr
      refine Or.inl fun name' hmem => ?_
      rw [assignments_name hmem (List.mem_of_getElem? hget)]
      exact update_self ..
    · rcases h.filled hset r' with hfilled | ⟨j, hj⟩
      · refine Or.inl fun name' hmem => ?_
        simp only [State.goto, update_of_ne hr]
        exact hfilled name' hmem
      · refine Or.inr ⟨j, ?_⟩
        by_cases hji : j = i
        · -- the entry that is stored is another one
          subst hji
          rw [hpc] at hj
          obtain ⟨name', hmem⟩ := hj
          obtain ⟨hlt, hk⟩ := List.getElem?_eq_some_iff.mp hget
          rw [List.drop_eq_getElem_cons hlt, hk, List.mem_cons] at hmem
          simp only [State.goto, update_self]
          rcases hmem with hfirst | hlater
          · exact absurd (Prod.mk.inj hfirst).1 hr
          · exact ⟨name', hlater⟩
        · simpa [State.goto, hji] using hj
  inited := forall_goto (q := fun q => q.PastInited → s.inited = true)
    (fun _ => h.inited i (by rw [hpc]; trivial)) h.inited
  found j r' hj := by
    have hj' : s.pc j = .reread r' := by
      by_cases hji : j = i
      · subst hji
        simp [State.goto] at hj
      · simpa [State.goto, hji] using hj
    by_cases hr : r' = r
    · subst hr
      simp [State.goto]
    · simp only [State.goto, update_of_ne hr]
      exact h.found j r' hj'
  arg_lt := forall_goto (q := fun q => ∀ r, q.arg = some r → r < REASON_NUM)
    (fun r hr => h.arg_lt i r (by rw [hpc]; exact hr)) h.arg_lt

/-- Where `init_reasons` returns to, with `inited` set. -/
theorem NamesInv.afterInit (h : NamesInv s) {i : ι} {call : Option Nat}
    (hnot : ∀ r, ¬ (s.pc i).Filling r) (harg : (s.pc i).arg = call) (hset : s.inited = true) :
    NamesInv (s.goto i (Pc.afterInit call)) := by
  cases call with
  | none => exact h.goto hnot (fun _ => hset) (fun r hr => by cases hr) (fun r hr => by cases hr)
  | some r =>
    refine h.goto hnot (fun _ => hset) (fun r hr => by cases hr) fun r' hr' => ?_
    exact h.arg_lt i r' (harg.trans hr')

theorem NamesInv.of_step (h : NamesInv s) (hst : step s e = some s') : NamesInv s' := by
  cases move_of_step hst with
  | init hpc =>
    exact h.goto (by simp [hpc, Pc.Filling]) (fun hp => hp.elim) (by simp) (by simp [Pc.arg])
  | overflow => exact h
  | call hpc hr =>
    refine h.goto (by simp [hpc, Pc.Filling]) (fun hp => hp.elim) (by simp) fun r' hr' => ?_
    rwa [← Option.some.inj hr']
  | skip hpc hset => exact h.afterInit (by simp [hpc, Pc.Filling]) (by rw [hpc]; rfl) hset
  | fill hpc hset =>
    refine h.goto (by simp [hpc, Pc.Filling]) (fun hp => hp.elim) (by simp) fun r' hr' => ?_
    exact h.arg_lt _ r' (by rw [hpc]; exact hr')
  | setInited hpc => exact h.setInited hpc
  | assign hpc hget => exact h.assign hpc hget
  | endAssign hpc hget =>
    refine h.afterInit (fun r hr => ?_) (by rw [hpc]; rfl) (h.inited _ (by rw [hpc]; trivial))
    rw [hpc] at hr
    obtain ⟨name, hmem⟩ := hr
    rw [List.drop_of_length_le (List.getElem?_eq_none_iff.mp hget)] at hmem
    cases hmem
  | found hpc hsome =>
    refine h.goto (by simp [hpc, Pc.Filling]) (fun hp => hp.elim) (fun r' hr' => ?_)
      fun r' hr' => h.arg_lt _ r' (by rw [hpc]; exact hr')
    rwa [← Pc.reread.inj hr']
  | unknown hpc | reread hpc =>
    exact h.goto (by simp [hpc, Pc.Filling]) (fun hp => hp.elim) (by simp) (by simp [Pc.arg])

/-! ## What the calls return -/

/-- When a call comes to the table, nobody has its entry still to store. -/
def FillSettled (s : State ι) : Event ι → Prop
  | .step i =>
    match s.pc i with
    | .read r => ∀ j, ¬ (s.pc j).Filling r
    | .idle | .test _ | .setInited _ | .assign _ _ | .reread _ => True
  | .call _ _ => True

omit [DecidableEq ι] in
/-- What one step returns. -/
theorem NamesInv.returned (h : NamesInv s) {call : Nat × Option String}
    (hcall : call ∈ returned s e) :
    call.2 = some (reason2str call.1) ∨
      call.2 = some "EXIT_REASON_UNKNOWN" ∧ ¬ FillSettled s e := by
  cases e with
  | call i arg =>
    cases arg with
    | none => cases hcall
    | some r =>
      simp only [Names.returned] at hcall
      split at hcall
      · rename_i hr
        obtain rfl := List.mem_singleton.mp hcall
        exact Or.inl (by rw [reason2str, if_pos hr.2])
      · cases hcall
  | step i =>
    simp only [Names.returned] at hcall
    cases hpc : s.pc i with
    | idle | test | setInited | assign =>
      rw [hpc] at hcall
      cases hcall
    | read r =>
      simp only [hpc] at hcall
      split at hcall
      · rename_i hnone
        obtain rfl := List.mem_singleton.mp hcall
        have hr := h.arg_lt i r (by rw [hpc]; rfl)
        rcases h.filled (h.inited i (by rw [hpc]; trivial)) r with hfilled | ⟨j, hj⟩
        · exact Or.inl (congrArg some (reason2str_of_filled hr hfilled hnone).symm)
        · refine Or.inr ⟨rfl, fun hsettled => ?_⟩
          simp only [FillSettled, hpc] at hsettled
          exact hsettled j hj
      · cases hcall
    | reread r =>
      simp only [hpc] at hcall
      obtain rfl := List.mem_singleton.mp hcall
      obtain ⟨name, hname⟩ := Option.ne_none_iff_exists'.mp (h.found i r hpc)
      exact Or.inl (hname.trans (congrArg some (reason2str_eq (h.right r name hname)).symm))

/-- The names that `reason2str` returns, on any number of CPUs and in any
interleaving of its calls with each other and with `probe_init`.

1. A call returns the name of its reason or `EXIT_REASON_UNKNOWN`, and never a
   null pointer.
2. Where no call comes to an entry that some CPU has still to store, every
   call returns the name. -/
theorem names_of_calls {es : List (Event ι)} (hrun : exec step State.load es = some s) :
    (∀ call ∈ outputs step returned State.load es,
      call.2 = some (reason2str call.1) ∨ call.2 = some "EXIT_REASON_UNKNOWN") ∧
    (AllSteps step FillSettled State.load es →
      ∀ call ∈ outputs step returned State.load es, call.2 = some (reason2str call.1)) := by
  constructor
  · have h := exec_invariant_outputs (f := returned) (P := fun _ _ => True)
      (I := fun t o => NamesInv t ∧ ∀ call ∈ o,
        call.2 = some (reason2str call.1) ∨ call.2 = some "EXIT_REASON_UNKNOWN")
      (fun t e t' o hI _ hst => ⟨hI.1.of_step hst, fun call hcall => by
        rcases List.mem_append.mp hcall with hold | hnew
        · exact hI.2 call hold
        · exact (hI.1.returned hnew).imp id And.left⟩)
      (o := []) ⟨namesInv_load, by simp⟩
      (allSteps_of_forall (fun _ _ => trivial) State.load es) hrun
    rw [List.nil_append] at h
    exact h.2
  · intro hsettled
    have h := exec_invariant_outputs (f := returned) (P := FillSettled)
      (I := fun t o => NamesInv t ∧ ∀ call ∈ o, call.2 = some (reason2str call.1))
      (fun t e t' o hI hP hst => ⟨hI.1.of_step hst, fun call hcall => by
        rcases List.mem_append.mp hcall with hold | hnew
        · exact hI.2 call hold
        · exact (hI.1.returned hnew).resolve_right fun hlate => hlate.2 hP⟩)
      (o := []) ⟨namesInv_load, by simp⟩ hsettled hrun
    rw [List.nil_append] at h
    exact h.2

end Invariant

/-- CPU `i` has set `inited` and stores the first entry, and meanwhile CPU `j`
asks for the name of `EXIT_REASON_HLT`. -/
def earlyName {ι : Type*} (i j : ι) : List (Event ι) :=
  [.call i none, .step i, .step i, .step i, .call j (some 12), .step j, .step j]

/-- The name is missing, so the call has come to an entry that is still to be
stored. -/
theorem names_of_calls_earlyName :
    outputs step returned State.load (earlyName (0 : Fin 2) 1) =
        [(12, some "EXIT_REASON_UNKNOWN")] ∧
      ¬ AllSteps step FillSettled State.load (earlyName (0 : Fin 2) 1) := by
  have hout : outputs step returned State.load (earlyName (0 : Fin 2) 1) =
      [(12, some "EXIT_REASON_UNKNOWN")] := by decide +kernel
  have h : (exec step State.load (earlyName (0 : Fin 2) 1)).map (fun _ => true) = some true := by
    decide +kernel
  obtain ⟨s, hrun, -⟩ := exists_exec_of_map h
  refine ⟨hout, fun hsettled => ?_⟩
  have hname := (names_of_calls hrun).2 hsettled (12, some "EXIT_REASON_UNKNOWN")
    (by rw [hout]; exact List.mem_singleton_self _)
  exact absurd hname (by decide)

end KvmUtils.KvmExitReason.Names
