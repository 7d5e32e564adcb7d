import Mathlib.Data.List.Basic
import Mathlib.Data.List.Pairwise
import Mathlib.Order.Basic

/-!
# Address spaces of owned ranges

An address space is a list of mapped ranges of addresses.  Every range has an
owner, and no two ranges overlap.  To map adds a range that is apart from all
others, and to unmap cuts a range of addresses out of whatever is mapped
there, whoever owns it.

`owned_map_self`, `owned_map_of_ne`, `owned_unmap_self` and
`owned_unmap_of_ne` say what the two operations do to the ranges of each
owner, as long as only whole ranges are unmapped.
-/

namespace AddressSpace

variable {ι : Type*}

/-- The mapped addresses from `lo` up to `hi`. -/
structure Range (ι : Type*) where
  owner : ι
  lo : ℕ
  hi : ℕ
  lt : lo < hi
  deriving DecidableEq

/-- The range does not meet the addresses from `lo` up to `hi`. -/
def Range.Avoids (r : Range ι) (lo hi : ℕ) : Prop := r.hi ≤ lo ∨ hi ≤ r.lo

instance (r : Range ι) (lo hi : ℕ) : Decidable (r.Avoids lo hi) :=
  inferInstanceAs (Decidable (_ ∨ _))

/-- The mapped ranges, no two of which overlap. -/
structure Space (ι : Type*) where
  ranges : List (Range ι)
  apart : ranges.Pairwise fun r m => m.Avoids r.lo r.hi

def Space.empty : Space ι where
  ranges := []
  apart := List.Pairwise.nil

/-- Map a range that does not meet those that are mapped. -/
def Space.map (s : Space ι) (r : Range ι) (h : ∀ m ∈ s.ranges, m.Avoids r.lo r.hi) : Space ι where
  ranges := r :: s.ranges
  apart := List.pairwise_cons.mpr ⟨h, s.apart⟩

/-- What is left of a range when the addresses from `a` up to `b` are cut
out. -/
def Range.cut (r : Range ι) (a b : ℕ) : List (Range ι) :=
  if r.Avoids a b then [r]
  else
    (if h : r.lo < a then [⟨r.owner, r.lo, a, h⟩] else []) ++
      if h : b < r.hi then [⟨r.owner, b, r.hi, h⟩] else []

theorem mem_cut {r m : Range ι} {a b : ℕ} (h : m ∈ r.cut a b) : r.lo ≤ m.lo ∧ m.hi ≤ r.hi := by
  unfold Range.cut at h
  split_ifs at h with havoids hleft hright hright
  · obtain rfl := List.mem_singleton.mp h
    exact ⟨Nat.le_refl _, Nat.le_refl _⟩
  · unfold Range.Avoids at havoids
    rcases List.mem_pair.mp h with rfl | rfl
    · exact ⟨Nat.le_refl _, show a ≤ r.hi by omega⟩
    · exact ⟨show r.lo ≤ b by omega, Nat.le_refl _⟩
  · unfold Range.Avoids at havoids
    obtain rfl := List.mem_singleton.mp h
    exact ⟨Nat.le_refl _, show a ≤ r.hi by omega⟩
  · unfold Range.Avoids at havoids
    obtain rfl := List.mem_singleton.mp h
    exact ⟨show r.lo ≤ b by omega, Nat.le_refl _⟩
  · cases h

theorem pairwise_cut (r : Range ι) {a b : ℕ} (hab : a < b) :
    (r.cut a b).Pairwise fun m m' => m'.Avoids m.lo m.hi := by
  unfold Range.cut
  split_ifs with havoids hleft hright hright
  · exact List.pairwise_singleton _ _
  · refine List.pairwise_pair.mpr (Or.inr ?_)
    show a ≤ b
    omega
  · exact List.pairwise_singleton _ _
  · exact List.pairwise_singleton _ _
  · exact List.Pairwise.nil

/-- To cut out a whole range leaves nothing of it. -/
theorem cut_self (r : Range ι) : r.cut r.lo r.hi = [] := by
  have hlt := r.lt
  have hmeets : ¬ r.Avoids r.lo r.hi := by
    unfold Range.Avoids
    omega
  rw [Range.cut, if_neg hmeets, dif_neg (Nat.lt_irrefl _), dif_neg (Nat.lt_irrefl _)]
  rfl

/-- Unmap the addresses from `a` up to `b`. -/
def Space.unmap (s : Space ι) (a b : ℕ) (hab : a < b) : Space ι where
  ranges := s.ranges.flatMap (·.cut a b)
  apart := by
    refine List.pairwise_flatMap.mpr ⟨fun r _ => pairwise_cut r hab, ?_⟩
    refine s.apart.imp fun {r m} hrm x hx y hy => ?_
    have hx := mem_cut hx
    have hy := mem_cut hy
    unfold Range.Avoids at hrm ⊢
    omega

/-- The address is mapped. -/
def Space.Mapped (s : Space ι) (a : ℕ) : Prop := ∃ r ∈ s.ranges, r.lo ≤ a ∧ a < r.hi

instance (s : Space ι) (a : ℕ) : Decidable (s.Mapped a) :=
  inferInstanceAs (Decidable (∃ r ∈ s.ranges, _))

/-! ## What an owner owns -/

section Owned

variable [DecidableEq ι]

/-- The ranges of the owner `i`. -/
def Space.owned (s : Space ι) (i : ι) : List (Range ι) := s.ranges.filter fun r => r.owner = i

variable {s : Space ι} {r : Range ι} {i : ι}

theorem mem_of_owned_eq (h : s.owned i = [r]) : r ∈ s.ranges := by
  have hmem : r ∈ s.owned i := by
    rw [h]
    exact List.mem_singleton.mpr rfl
  exact List.mem_of_mem_filter hmem

theorem owned_map_self (h : ∀ m ∈ s.ranges, m.Avoids r.lo r.hi) :
    (s.map r h).owned r.owner = r :: s.owned r.owner :=
  List.filter_cons_of_pos (decide_eq_true rfl)

theorem owned_map_of_ne (h : ∀ m ∈ s.ranges, m.Avoids r.lo r.hi) (hi : i ≠ r.owner) :
    (s.map r h).owned i = s.owned i :=
  List.filter_cons_of_neg (by simpa using hi.symm)

omit [DecidableEq ι] in
/-- Two mapped ranges are the same, or apart. -/
theorem avoids_of_ne {m : Range ι} (hr : r ∈ s.ranges) (hm : m ∈ s.ranges) (hne : m ≠ r) :
    m.Avoids r.lo r.hi := by
  have : Std.Symm fun r m : Range ι => m.Avoids r.lo r.hi := by
    refine ⟨fun r m h => ?_⟩
    unfold Range.Avoids at h ⊢
    omega
  exact s.apart.forall hr hm hne.symm

/-- To unmap a whole range takes away that range only. -/
theorem ranges_unmap (hr : r ∈ s.ranges) :
    (s.unmap r.lo r.hi r.lt).ranges = s.ranges.filter (· ≠ r) := by
  have hcut : ∀ m ∈ s.ranges, m.cut r.lo r.hi = if m ≠ r then [m] else [] := by
    intro m hm
    by_cases hmr : m = r
    · rw [if_neg (not_not.mpr hmr), hmr, cut_self]
    · rw [if_pos hmr, Range.cut, if_pos (avoids_of_ne hr hm hmr)]
  show s.ranges.flatMap (·.cut r.lo r.hi) = _
  rw [List.flatMap_congr hcut]
  induction s.ranges with
  | nil => rfl
  | cons m ms ih =>
    rw [List.flatMap_cons, ih]
    by_cases hmr : m = r
    · simp [hmr]
    · simp [hmr]

theorem owned_unmap_self (h : s.owned i = [r]) : (s.unmap r.lo r.hi r.lt).owned i = [] := by
  have hmem := mem_of_owned_eq h
  unfold Space.owned at h ⊢
  rw [ranges_unmap hmem, List.filter_filter]
  have hcomm : (s.ranges.filter fun m => decide (m.owner = i) && decide (m ≠ r)) =
      (s.ranges.filter fun m => m.owner = i).filter (· ≠ r) := by
    rw [List.filter_filter]
    exact List.filter_congr fun m _ => Bool.and_comm _ _
  rw [hcomm, h]
  simp

theorem owned_unmap_of_ne (hr : r ∈ s.ranges) (hi : i ≠ r.owner) :
    (s.unmap r.lo r.hi r.lt).owned i = s.owned i := by
  unfold Space.owned
  rw [ranges_unmap hr, List.filter_filter]
  refine List.filter_congr fun m _ => ?_
  by_cases hm : m.owner = i
  · have hne : m ≠ r := by
      rintro rfl
      exact hi hm.symm
    simp [hm, hne]
  · simp [hm]

end Owned

end AddressSpace
