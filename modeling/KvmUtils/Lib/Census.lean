import Mathlib.Data.Finset.Card
import Mathlib.Data.Fintype.Card
import Mathlib.Logic.Function.Basic

/-!
# Counting the threads at a point

A shared counter that every thread adds one to when it passes a point holds
the number of the threads past that point.  `census S P f` is that number for
the threads `S`, when thread `i` is at `f i` and `P` holds past the point.
-/

open Function

variable {ι κ : Type*} [DecidableEq ι]

/-- The number of threads of `S` that are at a point where `P` holds. -/
def census (S : Finset ι) (P : κ → Prop) [DecidablePred P] (f : ι → κ) : Nat :=
  (S.filter fun i => P (f i)).card

namespace census

variable {S : Finset ι} {P : κ → Prop} [DecidablePred P] {f : ι → κ} {i : ι} {x : κ}

omit [DecidableEq ι] in
theorem le_card : census S P f ≤ S.card := Finset.card_filter_le _ _

omit [DecidableEq ι] in
/-- The count is full exactly when every thread is past the point. -/
theorem eq_card_iff : census S P f = S.card ↔ ∀ j ∈ S, P (f j) :=
  Finset.card_filter_eq_iff

omit [DecidableEq ι] in
/-- A count that reaches the number of all possible threads counts each of
them. -/
theorem all_of_card_le {T : Finset ι} (hsub : S ⊆ T) (hall : T.card ≤ census S P f) :
    ∀ i ∈ T, i ∈ S ∧ P (f i) := by
  have hle : census S P f ≤ S.card := le_card
  have hcard : S.card ≤ T.card := Finset.card_le_card hsub
  have hfull : S = T := Finset.eq_of_subset_of_card_le hsub (by omega)
  subst hfull
  have heq : census S P f = S.card := by omega
  intro i hi
  exact ⟨hi, eq_card_iff.mp heq i hi⟩

/-- A thread that stays on its side of the point leaves the count alone. -/
theorem update_of_iff (h : P x ↔ P (f i)) : census S P (update f i x) = census S P f := by
  unfold census
  congr 1
  refine Finset.filter_congr fun j _ => ?_
  by_cases hji : j = i
  · subst hji
    rw [update_self, h]
  · rw [update_of_ne hji]

/-- A thread that passes the point adds one. -/
theorem update_of_pass (hi : i ∈ S) (hbefore : ¬ P (f i)) (hafter : P x) :
    census S P (update f i x) = census S P f + 1 := by
  unfold census
  have hset : (S.filter fun j => P (update f i x j)) = insert i (S.filter fun j => P (f j)) := by
    ext j
    by_cases hji : j = i
    · subst hji
      simp [hi, hafter]
    · simp [hji]
  rw [hset, Finset.card_insert_of_notMem]
  simp [hbefore]

/-- A new thread that starts before the point leaves the count alone. -/
theorem insert_of_before (hi : i ∉ S) (hx : ¬ P x) :
    census (insert i S) P (update f i x) = census S P f := by
  unfold census
  rw [Finset.filter_insert, update_self, if_neg hx]
  congr 1
  refine Finset.filter_congr fun j hj => ?_
  have hji : j ≠ i := by
    rintro rfl
    exact hi hj
  rw [update_of_ne hji]

end census
