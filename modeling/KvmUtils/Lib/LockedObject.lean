import Mathlib.Data.Fintype.Basic
import KvmUtils.Lib.Machine

/-!
# An object behind a lock

The operations of an object run step by step on shared data, and each of them
runs from a successful `acquire` of one lock to its `release`.  A thread that
finds the lock taken waits.

`Object` is the code of the operations.  `Implements` says that a body that
runs alone computes its operation, and it is the only thing to prove about an
object.  From it two facts follow for every schedule of the threads.

* `linearized_of_exec`: the calls answer as if each operation were one step,
  in the order in which the lock is released.
* `exists_acquire`: a thread that waits can be let in, since the thread that
  holds the lock releases it after a bounded number of its own steps.
-/

namespace LockedObject

open Function Machine

/-- The bodies of the operations.  A body starts at `start op`, takes the
steps of `next` until there is none, and answers `answer`. -/
structure Object (Op L D R : Type*) where
  start : Op → L
  next : L → D → Option (L × D)
  answer : L → R

/-- Where a thread is: outside, in front of the lock, or in the body. -/
inductive Pc (Op L : Type*) where
  | out
  | waiting (op : Op)
  | inside (op : Op) (l : L)
  deriving DecidableEq

def Pc.Inside {Op L : Type*} : Pc Op L → Prop
  | .inside _ _ => True
  | .out | .waiting _ => False

instance {Op L : Type*} : ∀ p : Pc Op L, Decidable p.Inside
  | .inside _ _ => isTrue trivial
  | .out | .waiting _ => isFalse id

structure State (ι Op L D : Type*) where
  held : Bool
  data : D
  pc : ι → Pc Op L

inductive Event (ι Op : Type*) where
  /-- thread `i` calls an operation -/
  | call (i : ι) (op : Op)
  /-- thread `i` finds the lock free and takes it -/
  | acquire (i : ι)
  /-- the next step of the body of thread `i` -/
  | work (i : ι)
  /-- thread `i` releases the lock and returns -/
  | release (i : ι)
  /-- the lock is initialised -/
  | reinit

variable {ι Op L D R : Type*}

section Machine

variable [DecidableEq ι] (O : Object Op L D R)

/-- One event of the object. -/
def step (s : State ι Op L D) : Event ι Op → Option (State ι Op L D)
  | .call i op =>
    match s.pc i with
    | .out => some { s with pc := update s.pc i (.waiting op) }
    | _ => none
  | .acquire i =>
    match s.pc i with
    | .waiting op =>
      if s.held then none
      else some { s with held := true, pc := update s.pc i (.inside op (O.start op)) }
    | _ => none
  | .work i =>
    match s.pc i with
    | .inside op l =>
      match O.next l s.data with
      | some (l', data) => some { s with data := data, pc := update s.pc i (.inside op l') }
      | none => none
    | _ => none
  | .release i =>
    match s.pc i with
    | .inside _ l =>
      match O.next l s.data with
      | some _ => none
      | none => some { s with held := false, pc := update s.pc i .out }
    | _ => none
  | .reinit => some { s with held := false }

/-- The call that an event completes, with its answer. -/
def completes (s : State ι Op L D) : Event ι Op → List (ι × Op × R)
  | .release i =>
    match s.pc i with
    | .inside op l => [(i, op, O.answer l)]
    | _ => []
  | _ => []

/-- What one event can do.  `move_of_step` is the inversion of `step`. -/
inductive Move (s : State ι Op L D) : Event ι Op → State ι Op L D → Prop where
  | call {i op} (hpc : s.pc i = .out) :
      Move s (.call i op) { s with pc := update s.pc i (.waiting op) }
  | acquire {i op} (hpc : s.pc i = .waiting op) (hfree : s.held = false) :
      Move s (.acquire i)
        { s with held := true, pc := update s.pc i (.inside op (O.start op)) }
  | work {i op l l' data} (hpc : s.pc i = .inside op l)
      (hnext : O.next l s.data = some (l', data)) :
      Move s (.work i) { s with data := data, pc := update s.pc i (.inside op l') }
  | release {i op l} (hpc : s.pc i = .inside op l) (hnext : O.next l s.data = none) :
      Move s (.release i) { s with held := false, pc := update s.pc i .out }
  | reinit : Move s .reinit { s with held := false }

variable {O}

theorem move_of_step {s s' : State ι Op L D} {e : Event ι Op} (h : step O s e = some s') :
    Move O s e s' := by
  cases e with
  | call i op =>
    simp only [step] at h
    split at h
    · rename_i hpc
      cases h
      exact .call hpc
    · cases h
  | acquire i =>
    simp only [step] at h
    split at h
    · rename_i op hpc
      simp only [Option.ite_none_left_eq_some, Option.some.injEq] at h
      obtain ⟨hfree, rfl⟩ := h
      exact .acquire hpc (by simpa using hfree)
    · cases h
  | work i =>
    simp only [step] at h
    split at h
    · rename_i op l hpc
      split at h
      · rename_i l' data hnext
        cases h
        exact .work hpc hnext
      · cases h
    · cases h
  | release i =>
    simp only [step] at h
    split at h
    · rename_i op l hpc
      split at h
      · cases h
      · rename_i hnext
        cases h
        exact .release hpc hnext
    · cases h
  | reinit =>
    cases h
    exact .reinit

end Machine

/-! ## The operations as single steps -/

/-- The operations as functions: the data and the answer. -/
abbrev Spec (Op D R : Type*) := Op → D → D × R

/-- The machine in which each call is one step.  A call is accepted with the
answer that the operation gives. -/
def atomicStep [DecidableEq R] (sem : Spec Op D R) (d : D) : ι × Op × R → Option D
  | (_, op, r) => if (sem op d).2 = r then some (sem op d).1 else none

/-- The data after these calls, one after the other. -/
def after (sem : Spec Op D R) (d : D) (calls : List (ι × Op × R)) : D :=
  calls.foldl (fun d call => (sem call.2.1 d).1) d

/-- The answers are those of the calls one after the other. -/
def Answers (sem : Spec Op D R) (d : D) (calls : List (ι × Op × R)) : Prop :=
  ∀ pre call post, calls = pre ++ call :: post → call.2.2 = (sem call.2.1 (after sem d pre)).2

theorem of_exec_atomicStep [DecidableEq R] {sem : Spec Op D R} {d d' : D}
    {calls : List (ι × Op × R)} (h : exec (atomicStep sem) d calls = some d') :
    d' = after sem d calls ∧ Answers sem d calls := by
  induction calls generalizing d with
  | nil =>
    obtain rfl : d = d' := Option.some.inj h
    exact ⟨rfl, fun pre call post hsplit => by simp at hsplit⟩
  | cons call calls ih =>
    obtain ⟨t, hst, hrest⟩ := exec_cons.mp h
    simp only [atomicStep, Option.ite_none_right_eq_some, Option.some.injEq] at hst
    obtain ⟨hanswer, rfl⟩ := hst
    obtain ⟨hafter, hall⟩ := ih hrest
    refine ⟨hafter, fun pre call' post hsplit => ?_⟩
    cases pre with
    | nil =>
      obtain ⟨rfl, rfl⟩ := List.cons.inj hsplit
      exact hanswer.symm
    | cons first pre =>
      obtain ⟨rfl, hsplit'⟩ := List.cons.inj hsplit
      exact hall pre call' post hsplit'

/-- A body that starts on `d` and runs alone computes the operation.  `Mid op
d l d'` says where it may be between its steps. -/
structure Implements (O : Object Op L D R) (sem : Spec Op D R) where
  Mid : Op → D → L → D → Prop
  /-- the steps that a body has still to make, at most -/
  left : L → Nat
  bound : Nat
  start : ∀ op d, Mid op d (O.start op) d
  next : ∀ {op d l d' l' d''}, Mid op d l d' → O.next l d' = some (l', d'') →
    Mid op d l' d'' ∧ left l' < left l
  finish : ∀ {op d l d'}, Mid op d l d' → O.next l d' = none → sem op d = (d', O.answer l)
  left_start : ∀ op, left (O.start op) ≤ bound

section Lock

variable {O : Object Op L D R} {sem : Spec Op D R} (H : Implements O sem)

/-- The calls that are completed have left the data `d`, and the thread that
holds the lock, if there is one, has started its body on `d`. -/
structure Linearized (s : State ι Op L D) (d : D) : Prop where
  unique : ∀ i j, (s.pc i).Inside → (s.pc j).Inside → i = j
  held_iff : s.held = true ↔ ∃ i, (s.pc i).Inside
  mid : ∀ i op l, s.pc i = .inside op l → H.Mid op d l s.data ∧ H.left l ≤ H.bound
  rest : (∀ i, ¬ (s.pc i).Inside) → s.data = d

/-- The lock is initialised only while no thread is inside. -/
def ReinitOutside (s : State ι Op L D) : Event ι Op → Prop
  | .reinit => ∀ i, ¬ (s.pc i).Inside
  | _ => True

instance [Fintype ι] : ∀ (s : State ι Op L D) (e : Event ι Op), Decidable (ReinitOutside s e)
  | s, .reinit => inferInstanceAs (Decidable (∀ i, ¬ (s.pc i).Inside))
  | _, .call _ _ | _, .acquire _ | _, .work _ | _, .release _ => isTrue trivial

variable {H}

/-- Nobody is inside and the lock is free. -/
theorem linearized_of_outside {s : State ι Op L D} (hout : ∀ i, ¬ (s.pc i).Inside)
    (hfree : s.held = false) : Linearized H s s.data where
  unique i _ hi := absurd hi (hout i)
  held_iff := by simp [hfree, hout]
  mid i op l hpc := absurd (by rw [hpc]; trivial) (hout i)
  rest _ := rfl

variable [DecidableEq ι]

/-- A thread is inside after a step of thread `i` to `p`. -/
theorem inside_update {pc : ι → Pc Op L} {i j : ι} {p : Pc Op L}
    (h : (update pc i p j).Inside) : j = i ∧ p.Inside ∨ j ≠ i ∧ (pc j).Inside := by
  by_cases hji : j = i
  · subst hji
    rw [update_self] at h
    exact Or.inl ⟨rfl, h⟩
  · rw [update_of_ne hji] at h
    exact Or.inr ⟨hji, h⟩

section Step

variable {s : State ι Op L D} {d : D} {i : ι}

/-- A thread that moves outside the lock. -/
theorem Linearized.outside (h : Linearized H s d) (hi : ¬ (s.pc i).Inside) {p : Pc Op L}
    (hp : ¬ p.Inside) : Linearized H { s with pc := update s.pc i p } d := by
  have hiff : ∀ j, (update s.pc i p j).Inside ↔ (s.pc j).Inside := by
    intro j
    by_cases hji : j = i
    · subst hji
      rw [update_self]
      exact iff_of_false hp hi
    · rw [update_of_ne hji]
  refine ⟨fun a b ha hb => h.unique a b ((hiff a).mp ha) ((hiff b).mp hb), ?_, ?_, ?_⟩
  · simpa only [hiff] using h.held_iff
  · intro j op l hpc
    have hj : (update s.pc i p j).Inside := by
      rw [show update s.pc i p j = _ from hpc]
      trivial
    rcases inside_update hj with ⟨-, hp'⟩ | ⟨hji, -⟩
    · exact absurd hp' hp
    · exact h.mid j op l (by rwa [← update_of_ne hji p s.pc])
  · exact fun hnone => h.rest fun j hj => hnone j ((hiff j).mpr hj)

/-- A thread takes the lock. -/
theorem Linearized.acquire (h : Linearized H s d) (hfree : s.held = false) (op : Op) :
    Linearized H { s with held := true, pc := update s.pc i (.inside op (O.start op)) } d := by
  have hout : ∀ j, ¬ (s.pc j).Inside := by
    intro j hj
    have hheld := h.held_iff.mpr ⟨j, hj⟩
    rw [hfree] at hheld
    cases hheld
  have honly : ∀ {j}, (update s.pc i (.inside op (O.start op)) j).Inside → j = i := by
    intro j hj
    rcases inside_update hj with ⟨rfl, -⟩ | ⟨-, hj⟩
    · rfl
    · exact absurd hj (hout j)
  refine ⟨fun a b ha hb => (honly ha).trans (honly hb).symm, ?_, ?_, ?_⟩
  · exact iff_of_true rfl ⟨i, by simp [Pc.Inside]⟩
  · intro j op' l hpc
    obtain rfl : j = i := honly (by rw [show update _ _ _ j = _ from hpc]; trivial)
    obtain ⟨rfl, rfl⟩ : op = op' ∧ O.start op = l := by simpa using hpc
    show H.Mid op d _ s.data ∧ _
    rw [h.rest hout]
    exact ⟨H.start op d, H.left_start op⟩
  · exact fun hnone => absurd (by simp [Pc.Inside]) (hnone i)

/-- The thread inside takes a step. -/
theorem Linearized.work (h : Linearized H s d) {op : Op} {l l' : L} {data : D}
    (hpc : s.pc i = .inside op l) (hnext : O.next l s.data = some (l', data)) :
    Linearized H { s with data := data, pc := update s.pc i (.inside op l') } d := by
  have hi : (s.pc i).Inside := by
    rw [hpc]
    trivial
  have honly : ∀ {j}, (update s.pc i (.inside op l') j).Inside → j = i := by
    intro j hj
    rcases inside_update hj with ⟨rfl, -⟩ | ⟨-, hj⟩
    · rfl
    · exact h.unique j i hj hi
  obtain ⟨hmid, hle⟩ := h.mid i op l hpc
  obtain ⟨hmid', hlt⟩ := H.next hmid hnext
  refine ⟨fun a b ha hb => (honly ha).trans (honly hb).symm, ?_, ?_, ?_⟩
  · exact iff_of_true (h.held_iff.mpr ⟨i, hi⟩) ⟨i, by simp [Pc.Inside]⟩
  · intro j op' k hpc'
    obtain rfl : j = i := honly (by rw [show update _ _ _ j = _ from hpc']; trivial)
    obtain ⟨rfl, rfl⟩ : op = op' ∧ l' = k := by simpa using hpc'
    exact ⟨hmid', by omega⟩
  · exact fun hnone => absurd (by simp [Pc.Inside]) (hnone i)

/-- The thread inside releases the lock, and its operation has taken
effect. -/
theorem Linearized.release (h : Linearized H s d) {op : Op} {l : L}
    (hpc : s.pc i = .inside op l) (hnext : O.next l s.data = none) :
    sem op d = (s.data, O.answer l) ∧
      Linearized H { s with held := false, pc := update s.pc i .out } s.data := by
  have hi : (s.pc i).Inside := by
    rw [hpc]
    trivial
  have hout : ∀ j, ¬ (update s.pc i .out j : Pc Op L).Inside := by
    intro j hj
    rcases inside_update hj with ⟨-, hp⟩ | ⟨hji, hj⟩
    · exact hp
    · exact hji (h.unique j i hj hi)
  refine ⟨H.finish (h.mid i op l hpc).1 hnext, ?_⟩
  exact linearized_of_outside (s := { s with held := false, pc := update s.pc i .out }) hout rfl

end Step

/-- One step of the object is one step of the operations when it completes a
call, and none otherwise. -/
theorem linearized_step [DecidableEq R] {s s' : State ι Op L D} {e : Event ι Op} {d : D}
    (h : Linearized H s d) (hreinit : ReinitOutside s e) (hst : step O s e = some s') :
    ∃ d', exec (atomicStep sem) d (completes O s e) = some d' ∧ Linearized H s' d' := by
  cases move_of_step hst with
  | call hpc => exact ⟨d, rfl, h.outside (by rw [hpc]; exact id) id⟩
  | acquire hpc hfree => exact ⟨d, rfl, h.acquire hfree _⟩
  | work hpc hnext => exact ⟨d, rfl, h.work hpc hnext⟩
  | release hpc hnext =>
    obtain ⟨hsem, hlin⟩ := h.release hpc hnext
    refine ⟨s.data, ?_, hlin⟩
    simp [completes, hpc, exec, atomicStep, hsem]
  | reinit =>
    have hfree : ({ s with held := false } : State ι Op L D).held = false := rfl
    refine ⟨d, rfl, ?_⟩
    rw [← h.rest hreinit]
    exact linearized_of_outside hreinit hfree

/-- Every run linearizes.  The calls that it completes are a run of the
operations, in the order in which the lock is released. -/
theorem linearized_of_exec [DecidableEq R] {s s' : State ι Op L D} {es : List (Event ι Op)} {d : D}
    (h : Linearized H s d) (hreinit : AllSteps (step O) ReinitOutside s es)
    (hrun : exec (step O) s es = some s') :
    ∃ d', exec (atomicStep sem) d (outputs (step O) (completes O) s es) = some d' ∧
      Linearized H s' d' := by
  have hinv := exec_invariant_outputs (f := completes O) (o := [])
    (I := fun t done => ∃ d', exec (atomicStep sem) d done = some d' ∧ Linearized H t d')
    (fun t e t' done ⟨d₁, hdone, hlin⟩ hP hst => by
      obtain ⟨d₂, hstep, hlin'⟩ := linearized_step hlin hP hst
      exact ⟨d₂, exec_trans hdone hstep, hlin'⟩)
    ⟨d, rfl, h⟩ hreinit hrun
  simpa only [List.nil_append] using hinv

/-! ## The lock is released -/

/-- The thread inside goes through its body and releases the lock. -/
theorem exists_release {s : State ι Op L D} {d : D} {i : ι} {op : Op} {l : L}
    (h : Linearized H s d) (hpc : s.pc i = .inside op l) :
    ∃ es s', es.length ≤ H.left l + 1 ∧ (∀ e ∈ es, e = .work i ∨ e = .release i) ∧
      exec (step O) s es = some s' ∧ s'.held = false ∧ s'.pc = update s.pc i .out := by
  induction hn : H.left l using Nat.strongRecOn generalizing s l with
  | ind n ih =>
    cases hnext : O.next l s.data with
    | none =>
      refine ⟨[.release i], { s with held := false, pc := update s.pc i .out }, by simp, by simp,
        exec_one ?_, rfl, rfl⟩
      simp only [step, hpc, hnext]
    | some next =>
      obtain ⟨l', data⟩ := next
      have hst : step O s (.work i) =
          some { s with data := data, pc := update s.pc i (.inside op l') } := by
        simp only [step, hpc, hnext]
      have hlt := (H.next (h.mid i op l hpc).1 hnext).2
      obtain ⟨es, s', hlen, hall, hrun, hfree, hout⟩ :=
        ih _ (hn ▸ hlt) (h.work hpc hnext) (update_self i _ s.pc) rfl
      refine ⟨.work i :: es, s', ?_, List.forall_mem_cons.mpr ⟨Or.inl rfl, hall⟩,
        exec_cons.mpr ⟨_, hst, hrun⟩, hfree, ?_⟩
      · rw [List.length_cons]
        omega
      · rw [hout]
        exact update_idem _ _ _

/-- The event is a step of the thread that holds the lock, within its body or
out of it. -/
def OfHolder (s : State ι Op L D) (e : Event ι Op) : Prop :=
  ∃ j, (s.pc j).Inside ∧ (e = .work j ∨ e = .release j)

/-- No thread waits in vain: wherever a run has got to, a thread that waits
takes the lock after at most `bound + 2` further steps, by the thread that
holds the lock and then by itself. -/
theorem exists_acquire {s : State ι Op L D} {d : D} {i : ι} {op : Op} (h : Linearized H s d)
    (hpc : s.pc i = .waiting op) :
    ∃ es s', es.length ≤ H.bound + 2 ∧ (∀ e ∈ es, OfHolder s e ∨ e = .acquire i) ∧
      exec (step O) s es = some s' ∧ s'.pc i = .inside op (O.start op) := by
  have htake : ∀ t : State ι Op L D, t.held = false → t.pc i = .waiting op →
      ∃ t', step O t (.acquire i) = some t' ∧ t'.pc i = .inside op (O.start op) := by
    intro t hfree ht
    refine ⟨{ t with held := true, pc := update t.pc i (.inside op (O.start op)) }, ?_,
      update_self _ _ _⟩
    simp [step, ht, hfree]
  cases hheld : s.held with
  | false =>
    obtain ⟨t, hst, ht⟩ := htake s hheld hpc
    exact ⟨[.acquire i], t, by simp, by simp, exec_one hst, ht⟩
  | true =>
    obtain ⟨j, hj⟩ := h.held_iff.mp hheld
    cases hjpc : s.pc j with
    | inside op' l =>
      have hij : i ≠ j := by
        rintro rfl
        cases hpc.symm.trans hjpc
      obtain ⟨es, t, hlen, hall, hrun, hfree, hout⟩ := exists_release h hjpc
      have hwait : t.pc i = .waiting op := by
        rw [hout, update_of_ne hij, hpc]
      obtain ⟨t', hst, ht'⟩ := htake t hfree hwait
      have hle := (h.mid j op' l hjpc).2
      refine ⟨es ++ [.acquire i], t', ?_, fun e he => ?_, exec_trans hrun (exec_one hst), ht'⟩
      · rw [List.length_append, List.length_singleton]
        omega
      · rcases List.mem_append.mp he with hmem | hlast
        · exact Or.inl ⟨j, hj, hall e hmem⟩
        · exact Or.inr (List.mem_singleton.mp hlast)
    | out =>
      rw [hjpc] at hj
      exact hj.elim
    | waiting op' =>
      rw [hjpc] at hj
      exact hj.elim

end Lock

end LockedObject
