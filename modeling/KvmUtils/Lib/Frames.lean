import Mathlib.Data.List.Basic
import Mathlib.Logic.Function.Basic

/-!
# A log that is written in frames

Writers append lines to one log.  A writer may write while it is inside, and
the lines from its entry to its exit are a frame.  As long as at most one
writer is inside, the frames do not mix: what is added to the log is the whole
frames of the writers that have left, one after the other, and then what the
writer inside has written so far.

A `Protocol` says what a frame may be.  `Framed` is the invariant, and there
is one rule for each kind of step: `outside`, `enter`, `write` and `leave`.
Where what a writer may have written depends on data that the writers share,
the protocol is a family over that data, and `share` moves along it.
-/

namespace Frames

open Function

/-- The points of a writer.  `Part p lines` says that a writer at `p` may have
written `lines` since it has entered, and `Whole` is a frame. -/
structure Protocol (P α : Type*) where
  Inside : P → Prop
  Part : P → List α → Prop
  Whole : List α → Prop

variable {ι P α : Type*}

/-- After `base`, the log is the frames of the writers that have left and
`part`, which the writer inside has written.  `entered` counts the entries,
`before` of which belong to `base`. -/
structure Framed (F : Protocol P α) (base : List α) (before : Nat) (pc : ι → P) (log : List α)
    (entered : Nat) (frames : List (List α)) (part : List α) : Prop where
  log_eq : log = base ++ frames.flatten ++ part
  whole : ∀ frame ∈ frames, F.Whole frame
  part_of_inside : ∀ i, F.Inside (pc i) →
    F.Part (pc i) part ∧ entered = before + frames.length + 1
  part_of_outside : (∀ i, ¬ F.Inside (pc i)) → part = [] ∧ entered = before + frames.length

variable {F : Protocol P α} {base : List α} {before : Nat} {pc : ι → P} {log : List α}
  {entered : Nat} {frames : List (List α)} {part : List α}

/-- Nobody is inside, and nothing has been added to the log. -/
theorem framed_nil (h : ∀ i, ¬ F.Inside (pc i)) : Framed F base before pc base before [] [] :=
  ⟨by simp, by simp, fun i hi => absurd hi (h i), fun _ => ⟨rfl, rfl⟩⟩

/-- The shared data changes, which leaves what the writer inside has written a
part. -/
theorem Framed.share {F' : Protocol P α} (h : Framed F base before pc log entered frames part)
    (hinside : F'.Inside = F.Inside) (hwhole : F'.Whole = F.Whole)
    (hpart : ∀ i, F.Inside (pc i) → F.Part (pc i) part → F'.Part (pc i) part) :
    Framed F' base before pc log entered frames part := by
  refine ⟨h.log_eq, hwhole ▸ h.whole, fun i hi => ?_, hinside ▸ h.part_of_outside⟩
  rw [hinside] at hi
  obtain ⟨hold, hcount⟩ := h.part_of_inside i hi
  exact ⟨hpart i hi hold, hcount⟩

section Step

variable [DecidableEq ι] {i : ι} {p : P}

/-- After a step of writer `i` to `p`, a writer inside is at `p` or was inside
before. -/
theorem inside_update {j : ι} (hj : F.Inside (update pc i p j)) :
    j = i ∧ F.Inside p ∨ j ≠ i ∧ F.Inside (pc j) := by
  by_cases hji : j = i
  · subst hji
    rw [update_self] at hj
    exact Or.inl ⟨rfl, hj⟩
  · rw [update_of_ne hji] at hj
    exact Or.inr ⟨hji, hj⟩

/-- A writer that is outside and stays there. -/
theorem Framed.outside (h : Framed F base before pc log entered frames part)
    (hi : ¬ F.Inside (pc i)) (hp : ¬ F.Inside p) :
    Framed F base before (update pc i p) log entered frames part := by
  refine ⟨h.log_eq, h.whole, fun j hj => ?_, fun hnone => h.part_of_outside fun j hj => ?_⟩
  · rcases inside_update hj with ⟨-, hp'⟩ | ⟨hji, hj⟩
    · exact absurd hp' hp
    · rw [update_of_ne hji]
      exact h.part_of_inside j hj
  · have hji : j ≠ i := by
      rintro rfl
      exact hi hj
    exact hnone j (by rwa [update_of_ne hji])

/-- A writer enters while nobody is inside. -/
theorem Framed.enter (h : Framed F base before pc log entered frames part)
    (hfree : ∀ j, ¬ F.Inside (pc j)) (hp : F.Inside p) (hpart : F.Part p []) :
    Framed F base before (update pc i p) log (entered + 1) frames [] := by
  obtain ⟨hnil, hcount⟩ := h.part_of_outside hfree
  refine ⟨hnil ▸ h.log_eq, h.whole, fun j hj => ?_, fun hnone => ?_⟩
  · rcases inside_update hj with ⟨rfl, -⟩ | ⟨-, hj⟩
    · rw [update_self]
      exact ⟨hpart, by rw [hcount]⟩
    · exact absurd hj (hfree j)
  · exact absurd hp (by simpa using hnone i)

/-- The writer inside appends `lines`, which may be none. -/
theorem Framed.write {lines : List α} (h : Framed F base before pc log entered frames part)
    (hi : F.Inside (pc i)) (hunique : ∀ j, F.Inside (pc j) → j = i) (hp : F.Inside p)
    (hpart : F.Part (pc i) part → F.Part p (part ++ lines)) :
    Framed F base before (update pc i p) (log ++ lines) entered frames (part ++ lines) := by
  obtain ⟨hold, hcount⟩ := h.part_of_inside i hi
  refine ⟨by rw [h.log_eq, List.append_assoc], h.whole, fun j hj => ?_, fun hnone => ?_⟩
  · rcases inside_update hj with ⟨rfl, -⟩ | ⟨hji, hj⟩
    · rw [update_self]
      exact ⟨hpart hold, hcount⟩
    · exact absurd (hunique j hj) hji
  · exact absurd hp (by simpa using hnone i)

/-- The writer inside appends nothing. -/
theorem Framed.stay (h : Framed F base before pc log entered frames part) (hi : F.Inside (pc i))
    (hunique : ∀ j, F.Inside (pc j) → j = i) (hp : F.Inside p)
    (hpart : F.Part (pc i) part → F.Part p part) :
    Framed F base before (update pc i p) log entered frames part := by
  have hwrite : Framed F base before (update pc i p) (log ++ []) entered frames (part ++ []) :=
    h.write hi hunique hp (by simpa using hpart)
  simpa using hwrite

/-- The writer inside leaves, and its frame is whole. -/
theorem Framed.leave (h : Framed F base before pc log entered frames part) (hi : F.Inside (pc i))
    (hunique : ∀ j, F.Inside (pc j) → j = i) (hp : ¬ F.Inside p)
    (hwhole : F.Part (pc i) part → F.Whole part) :
    Framed F base before (update pc i p) log entered (frames ++ [part]) [] := by
  obtain ⟨hold, hcount⟩ := h.part_of_inside i hi
  refine ⟨?_, ?_, fun j hj => ?_, fun _ => ⟨rfl, ?_⟩⟩
  · rw [h.log_eq]
    simp
  · intro frame hframe
    rcases List.mem_append.mp hframe with hmem | hlast
    · exact h.whole frame hmem
    · rw [List.mem_singleton.mp hlast]
      exact hwhole hold
  · rcases inside_update hj with ⟨-, hp'⟩ | ⟨hji, hj⟩
    · exact absurd hp' hp
    · exact absurd (hunique j hj) hji
  · rw [hcount, List.length_append, List.length_singleton]
    rfl

end Step

end Frames
