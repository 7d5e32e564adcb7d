import Mathlib.Data.List.Nodup
import Mathlib.Data.List.Infix

/-!
# Walks over siblings

A loop over a list of siblings puts out, for each of them in turn, what its
visit puts out.  `walk` is the output of the whole loop.  A visit knows the
position of its sibling, so that equal siblings can be told apart.

Nested walks are walks whose visits are walks.  `mem_walk` says what is put
out and `pairwise_walk` in which order; both go through nested walks one level
at a time.  What is then needed of a list without repeated keys is at the end.
-/

namespace SiblingWalk

variable {α β κ : Type*}

/-- The output of a loop over `siblings`, where `visit i x` is that of the
visit of `x` at position `i`. -/
def walk (visit : ℕ → α → List β) (siblings : List α) : List β :=
  siblings.zipIdx.flatMap fun x => visit x.2 x.1

@[simp] theorem mem_walk {visit : ℕ → α → List β} {siblings : List α} {b : β} :
    b ∈ walk visit siblings ↔ ∃ i x, siblings[i]? = some x ∧ b ∈ visit i x := by
  simp only [walk, List.mem_flatMap, Prod.exists, List.mk_mem_zipIdx_iff_getElem?]
  exact exists_comm

/-- The outputs are in a relation if they are within each visit and between
visits of different siblings. -/
theorem pairwise_walk {visit : ℕ → α → List β} {siblings : List α} {R : β → β → Prop}
    (hwithin : ∀ i x, siblings[i]? = some x → (visit i x).Pairwise R)
    (hbetween : ∀ i j x y, i < j → ∀ a ∈ visit i x, ∀ b ∈ visit j y, R a b) :
    (walk visit siblings).Pairwise R := by
  refine List.pairwise_flatMap.mpr ⟨?_, ?_⟩
  · rintro ⟨x, i⟩ hmem
    exact hwithin i x (List.mk_mem_zipIdx_iff_getElem?.mp hmem)
  · have hlt : siblings.zipIdx.Pairwise fun x y => x.2 < y.2 := by
      rw [← List.pairwise_map (R := (· < ·)), List.zipIdx_map_snd]
      exact List.pairwise_lt_range'
    exact hlt.imp fun {x y} hxy a ha b hb => hbetween x.2 y.2 x.1 y.1 hxy a ha b hb

/-! ## Lists without repeated keys -/

variable {key : β → κ} {l : List β}

/-- A key that no other element has picks out its element. -/
theorem filter_key_eq [DecidableEq κ] (hkeys : (l.map key).Nodup) {a : β} (ha : a ∈ l) :
    l.filter (fun b => key b = key a) = [a] := by
  induction l with
  | nil => cases ha
  | cons b l ih =>
    rw [List.map_cons, List.nodup_cons] at hkeys
    obtain ⟨hb, hkeys⟩ := hkeys
    by_cases hab : key b = key a
    · have hrest : ∀ c ∈ l, key c ≠ key a := by
        intro c hc heq
        exact hb (hab ▸ heq ▸ List.mem_map_of_mem hc)
      obtain rfl | ha := List.mem_cons.mp ha
      · simpa using hrest
      · exact absurd rfl (hrest a ha)
    · obtain rfl | ha := List.mem_cons.mp ha
      · exact absurd rfl hab
      · rw [List.filter_cons_of_neg (by simpa using hab), ih hkeys ha]

/-- A list has at most one element exactly when it has at most one key. -/
theorem length_le_one_iff (hkeys : (l.map key).Nodup) :
    l.length ≤ 1 ↔ ∀ a ∈ l, ∀ b ∈ l, key a = key b := by
  match l, hkeys with
  | [], _ => simp
  | [a], _ => simp
  | a :: b :: rest, hkeys =>
    have hne : key a ≠ key b := by
      intro heq
      rw [List.map_cons, List.map_cons, heq] at hkeys
      exact (List.nodup_cons.mp hkeys).1 List.mem_cons_self
    constructor
    · intro hlen
      simp at hlen
    · intro hall
      exact absurd (hall a (by simp) b (by simp)) hne

end SiblingWalk
