import Mathlib.Data.List.Perm.Basic
import KvmUtils.Lib.Machine

/-!
# Asynchronous calls

A function makes calls one after the other.  A call sends messages, which
carry a pointer to the frame of the function, and the messages are delivered
in any order.  With `wait` set, a call returns only after its own messages
have been delivered.  Without it, a call may return at once.

`flight_empty_of_wait` says that with `wait` set no message outlives the
frame, and `run_accounts` that no message is lost or delivered twice.  The
calls are told apart by a tag of type `κ`, and nothing is assumed of the
messages.
-/

namespace AsyncCall

open Machine

variable {κ M : Type*} [DecidableEq κ]

/-- The frame of the function: whether the function has still to return, the
call that it is in, and the messages that have not been delivered, with the
calls that have sent them. -/
structure Frame (κ M : Type*) where
  alive : Bool
  current : Option κ
  flight : List (κ × M)

inductive Act (κ M : Type*) where
  /-- call `k` starts and sends its messages -/
  | send (k : κ) (ms : List M)
  /-- the `i`-th message is delivered -/
  | deliver (i : Nat)
  /-- the call returns -/
  | callReturns
  /-- the function returns -/
  | leave

/-- One step of the function, or of the network. -/
def step (wait : Bool) (f : Frame κ M) : Act κ M → Option (Frame κ M)
  | .send k ms =>
    if f.alive = true ∧ f.current = none then
      some { f with current := some k, flight := f.flight ++ ms.map (k, ·) }
    else none
  | .deliver i =>
    if i < f.flight.length then some { f with flight := f.flight.eraseIdx i } else none
  | .callReturns =>
    match f.current with
    | none => none
    | some k =>
      if wait = true ∧ ∃ m ∈ f.flight, m.1 = k then none else some { f with current := none }
  | .leave =>
    if f.alive = true ∧ f.current = none then some { f with alive := false } else none

/-- All messages in flight belong to the current call, and a function that has
returned is in no call. -/
structure Awaited (f : Frame κ M) : Prop where
  mine : ∀ m ∈ f.flight, f.current = some m.1
  idle : f.alive = false → f.current = none

theorem Awaited.step {f f' : Frame κ M} {a : Act κ M} (h : Awaited f)
    (hst : AsyncCall.step true f a = some f') : Awaited f' := by
  cases a with
  | send k ms =>
    simp only [AsyncCall.step, Option.ite_none_right_eq_some, Option.some.injEq] at hst
    obtain ⟨⟨halive, hnone⟩, rfl⟩ := hst
    refine ⟨fun m hm => ?_, fun hdead => ?_⟩
    · rcases List.mem_append.mp hm with hold | hnew
      · have hcur := h.mine m hold
        rw [hnone] at hcur
        cases hcur
      · obtain ⟨m', -, rfl⟩ := List.mem_map.mp hnew
        rfl
    · rw [halive] at hdead
      cases hdead
  | deliver i =>
    simp only [AsyncCall.step, Option.ite_none_right_eq_some, Option.some.injEq] at hst
    obtain ⟨-, rfl⟩ := hst
    exact ⟨fun m hm => h.mine m (List.mem_of_mem_eraseIdx hm), h.idle⟩
  | callReturns =>
    simp only [AsyncCall.step] at hst
    split at hst
    · cases hst
    · rename_i k hcur
      split at hst
      · cases hst
      · rename_i hdelivered
        obtain rfl := Option.some.inj hst
        refine ⟨fun m hm => ?_, fun _ => rfl⟩
        have hmine := h.mine m hm
        rw [hcur] at hmine
        exact absurd ⟨trivial, m, hm, (Option.some.inj hmine).symm⟩ hdelivered
  | leave =>
    simp only [AsyncCall.step, Option.ite_none_right_eq_some, Option.some.injEq] at hst
    obtain ⟨⟨-, hnone⟩, rfl⟩ := hst
    exact ⟨h.mine, fun _ => hnone⟩

/-- The function as it is entered. -/
def Frame.enter : Frame κ M where
  alive := true
  current := none
  flight := []

omit [DecidableEq κ] in
theorem awaited_enter : Awaited (Frame.enter : Frame κ M) where
  mine _ hm := absurd hm List.not_mem_nil
  idle _ := rfl

/-- With `wait` set, no message is in flight once the function has
returned. -/
theorem flight_empty_of_wait {wait : Bool} (hwait : wait = true) {f : Frame κ M}
    {as : List (Act κ M)} (hrun : exec (AsyncCall.step wait) Frame.enter as = some f)
    (hleft : f.alive = false) : f.flight = [] := by
  subst hwait
  have hawaited : Awaited f :=
    exec_invariant' (fun _ _ _ hI hst => hI.step hst) awaited_enter hrun
  apply List.eq_nil_iff_forall_not_mem.mpr
  intro m hm
  have hcur := hawaited.mine m hm
  rw [hawaited.idle hleft] at hcur
  cases hcur

/-! ## The messages of a run

What has been sent has been delivered or is in flight.  Nothing is lost, and
nothing is delivered twice. -/

/-- The messages that a step sends. -/
def sent (_ : Frame κ M) : Act κ M → List M
  | .send _ ms => ms
  | _ => []

/-- The message that a step delivers. -/
def delivered (f : Frame κ M) : Act κ M → List M
  | .deliver i => (f.flight[i]?.map Prod.snd).toList
  | _ => []

theorem step_accounts {wait : Bool} {f f' : Frame κ M} {a : Act κ M}
    (hst : AsyncCall.step wait f a = some f') :
    (f.flight.map Prod.snd ++ sent f a).Perm (delivered f a ++ f'.flight.map Prod.snd) := by
  cases a with
  | send k ms =>
    simp only [AsyncCall.step, Option.ite_none_right_eq_some, Option.some.injEq] at hst
    obtain ⟨-, rfl⟩ := hst
    simp [sent, delivered, Function.comp_def]
  | deliver i =>
    simp only [AsyncCall.step, Option.ite_none_right_eq_some, Option.some.injEq] at hst
    obtain ⟨hi, rfl⟩ := hst
    have hperm := (List.getElem_cons_eraseIdx_perm hi).symm.map Prod.snd
    simpa [sent, delivered, hi] using hperm
  | callReturns =>
    simp only [AsyncCall.step] at hst
    split at hst
    · cases hst
    · split at hst
      · cases hst
      · obtain rfl := Option.some.inj hst
        simp [sent, delivered]
  | leave =>
    simp only [AsyncCall.step, Option.ite_none_right_eq_some, Option.some.injEq] at hst
    obtain ⟨-, rfl⟩ := hst
    simp [sent, delivered]

/-- The messages in flight at the beginning and those that a run sends are
those that it delivers and those in flight at its end. -/
theorem run_accounts {wait : Bool} {f f' : Frame κ M} {as : List (Act κ M)}
    (hrun : exec (AsyncCall.step wait) f as = some f') :
    (f.flight.map Prod.snd ++ outputs (AsyncCall.step wait) sent f as).Perm
      (outputs (AsyncCall.step wait) delivered f as ++ f'.flight.map Prod.snd) := by
  induction as generalizing f with
  | nil =>
    obtain rfl : f = f' := Option.some.inj hrun
    simp [outputs]
  | cons a as ih =>
    obtain ⟨g, hst, hrest⟩ := exec_cons.mp hrun
    simp only [outputs, hst]
    calc f.flight.map Prod.snd ++ (sent f a ++ outputs (AsyncCall.step wait) sent g as)
      _ = (f.flight.map Prod.snd ++ sent f a) ++ outputs (AsyncCall.step wait) sent g as :=
        (List.append_assoc ..).symm
      List.Perm _ ((delivered f a ++ g.flight.map Prod.snd) ++
          outputs (AsyncCall.step wait) sent g as) := (step_accounts hst).append_right _
      _ = delivered f a ++
          (g.flight.map Prod.snd ++ outputs (AsyncCall.step wait) sent g as) :=
        List.append_assoc ..
      List.Perm _ (delivered f a ++
          (outputs (AsyncCall.step wait) delivered g as ++ f'.flight.map Prod.snd)) :=
        (ih hrest).append_left _
      _ = (delivered f a ++ outputs (AsyncCall.step wait) delivered g as) ++
          f'.flight.map Prod.snd := (List.append_assoc ..).symm

end AsyncCall
