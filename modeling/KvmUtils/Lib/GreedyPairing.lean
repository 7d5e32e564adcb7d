import Mathlib.Algebra.Group.Nat.Even
import Mathlib.Data.Finset.Card

/-!
# Greedy pairing within classes

Items are paired off one turn after the other.  A turn takes any item that is
left, and then any partner of it.  `kind` says which partners an item has: an
item of class `k` needs one of class `k`, and an item without a class (`none`)
takes any other item.

The choices are free, so a turn may leave an item without a partner although
another order of the choices would not have.  `neverStuck_iff_roomy` says when
this cannot happen in `r` turns.  A class has to be so large that `r` turns do
not use it up, or it has to be used up in pairs: it is of even size, and no
item without a class can take a single item from it.
-/

namespace GreedyPairing

variable {α κ : Type*} [DecidableEq α] [DecidableEq κ] (kind : α → Option κ)

/-- The items of class `k` in `S`. -/
def classOf (S : Finset α) (k : κ) : Finset α := S.filter fun a => kind a = some k

/-- `b` will do as a partner of `a`. -/
def Partner (a b : α) : Prop := ∀ k, kind a = some k → kind b = some k

/-- In none of `r` turns that start with the items `S` an item or a partner of
it is missing, whatever is chosen. -/
def NeverStuck : ℕ → Finset α → Prop
  | 0, _ => True
  | r + 1, S =>
    S.Nonempty ∧ ∀ a ∈ S, (∃ b ∈ S.erase a, Partner kind a b) ∧
      ∀ b ∈ S.erase a, Partner kind a b → NeverStuck r ((S.erase a).erase b)

/-- Each class lasts for `r` turns, or is used up in pairs only. -/
def Roomy (r : ℕ) (S : Finset α) : Prop :=
  ∀ k, (classOf kind S k).card ≠ 0 →
    r ≤ (classOf kind S k).card / 2 ∨
      (classOf kind S k).card % 2 = 0 ∧ ∀ a ∈ S, kind a ≠ none

variable {kind} {S : Finset α} {a b : α} {k : κ} {r : ℕ}

omit [DecidableEq κ] in
/-- How a pairing gets stuck: there is no item, or one without a partner, or
the turns after the first get stuck. -/
theorem not_neverStuck_succ :
    ¬ NeverStuck kind (r + 1) S ↔ ¬ S.Nonempty ∨ ∃ a ∈ S,
      (¬ ∃ b ∈ S.erase a, Partner kind a b) ∨
      ∃ b ∈ S.erase a, Partner kind a b ∧ ¬ NeverStuck kind r ((S.erase a).erase b) := by
  simp only [NeverStuck, not_and_or, not_forall, exists_prop]

omit [DecidableEq α] in
@[simp] theorem mem_classOf : a ∈ classOf kind S k ↔ a ∈ S ∧ kind a = some k := by
  simp [classOf]

theorem classOf_erase : classOf kind (S.erase a) k = (classOf kind S k).erase a := by
  ext b
  simp [and_assoc]

/-- Taking away one item makes a class smaller by one at most. -/
theorem card_classOf_erase_of_mem (ha : a ∈ classOf kind S k) :
    (classOf kind (S.erase a) k).card + 1 = (classOf kind S k).card := by
  rw [classOf_erase]
  exact Finset.card_erase_add_one ha

theorem card_classOf_erase_of_notMem (ha : a ∉ classOf kind S k) :
    (classOf kind (S.erase a) k).card = (classOf kind S k).card := by
  rw [classOf_erase, Finset.erase_eq_of_notMem ha]

theorem card_classOf_erase_le :
    (classOf kind S k).card ≤ (classOf kind (S.erase a) k).card + 1 := by
  by_cases ha : a ∈ classOf kind S k
  · rw [card_classOf_erase_of_mem ha]
  · rw [card_classOf_erase_of_notMem ha]
    exact Nat.le_succ _

/-- As long as the classes are roomy, every item that is left has a
partner. -/
theorem Roomy.exists_partner (h : Roomy kind (r + 1) S) (hcard : 2 ≤ S.card) (ha : a ∈ S) :
    ∃ b ∈ S.erase a, Partner kind a b := by
  cases hk : kind a with
  | none =>
    have hother : 0 < (S.erase a).card := by
      rw [Finset.card_erase_of_mem ha]
      omega
    obtain ⟨b, hb⟩ := Finset.card_pos.mp hother
    refine ⟨b, hb, fun k hka => ?_⟩
    rw [hk] at hka
    cases hka
  | some k =>
    have hmem : a ∈ classOf kind S k := mem_classOf.mpr ⟨ha, hk⟩
    have hone := card_classOf_erase_of_mem hmem
    have hroom := h k (by omega)
    have hother : 0 < (classOf kind (S.erase a) k).card := by omega
    obtain ⟨b, hb⟩ := Finset.card_pos.mp hother
    rw [mem_classOf] at hb
    refine ⟨b, hb.1, fun j hj => ?_⟩
    rw [hk] at hj
    rw [← hj]
    exact hb.2

/-- A turn leaves the classes roomy for the turns after it. -/
theorem Roomy.turn (h : Roomy kind (r + 1) S) (ha : a ∈ S) (hb : b ∈ S.erase a)
    (hpartner : Partner kind a b) : Roomy kind r ((S.erase a).erase b) := by
  intro k hne
  have hfirst : (classOf kind S k).card ≤ (classOf kind (S.erase a) k).card + 1 :=
    card_classOf_erase_le
  have hsecond : (classOf kind (S.erase a) k).card ≤
      (classOf kind ((S.erase a).erase b) k).card + 1 := card_classOf_erase_le
  have hmono : (classOf kind ((S.erase a).erase b) k).card ≤ (classOf kind S k).card := by
    rw [classOf_erase, classOf_erase]
    exact (Finset.card_le_card (Finset.erase_subset _ _)).trans
      (Finset.card_le_card (Finset.erase_subset _ _))
  rcases h k (by omega) with hroom | ⟨heven, hkinds⟩
  · exact Or.inl (by omega)
  · refine Or.inr ⟨?_, fun c hc => ?_⟩
    · -- the two items are both of class `k`, or both of another one
      have hboth : a ∈ classOf kind S k ↔ b ∈ classOf kind (S.erase a) k := by
        rw [mem_classOf, mem_classOf]
        constructor
        · rintro ⟨-, hka⟩
          exact ⟨hb, hpartner k hka⟩
        · rintro ⟨-, hkb⟩
          refine ⟨ha, ?_⟩
          obtain ⟨j, hj⟩ := Option.ne_none_iff_exists'.mp (hkinds a ha)
          have hkj := hpartner j hj
          rw [hkb] at hkj
          rw [hj, hkj]
      by_cases hka : a ∈ classOf kind S k
      · have h₁ := card_classOf_erase_of_mem hka
        have h₂ := card_classOf_erase_of_mem (hboth.mp hka)
        omega
      · rw [card_classOf_erase_of_notMem (hboth.not.mp hka), card_classOf_erase_of_notMem hka]
        exact heven
    · exact hkinds c (Finset.mem_of_mem_erase (Finset.mem_of_mem_erase hc))

theorem neverStuck_of_roomy (h : Roomy kind r S) (hcard : 2 * r ≤ S.card) :
    NeverStuck kind r S := by
  induction r generalizing S with
  | zero => trivial
  | succ r ih =>
    refine ⟨Finset.card_pos.mp (by omega), fun a ha => ⟨?_, fun b hb hpartner => ?_⟩⟩
    · exact h.exists_partner (by omega) ha
    · refine ih (h.turn ha hb hpartner) ?_
      rw [Finset.card_erase_of_mem hb, Finset.card_erase_of_mem ha]
      omega

/-- Choices that use up a class leave its last item without a partner. -/
theorem roomy_of_neverStuck (h : NeverStuck kind r S) : Roomy kind r S := by
  induction r generalizing S with
  | zero => exact fun _ _ => Or.inl (Nat.zero_le _)
  | succ r ih =>
    obtain ⟨-, hturn⟩ := h
    intro k hne
    by_contra hstuck
    rw [not_or, not_and, Nat.not_le] at hstuck
    obtain ⟨hfew, hwild⟩ := hstuck
    obtain ⟨a, ha⟩ := Finset.card_pos.mp (Nat.pos_of_ne_zero hne)
    have haS := mem_classOf.mp ha
    have hlast := card_classOf_erase_of_mem ha
    by_cases heven : (classOf kind S k).card % 2 = 0
    · -- an item without a class takes one of the class
      obtain ⟨c, hc, hnone⟩ : ∃ c ∈ S, kind c = none := by
        by_contra hall
        exact hwild heven fun c hc hnone => hall ⟨c, hc, hnone⟩
      have hac : a ≠ c := by
        rintro rfl
        rw [hnone] at haS
        cases haS.2
      have hcclass : c ∉ classOf kind S k := by
        rw [mem_classOf, hnone]
        exact fun hmem => by cases hmem.2
      have hpartner : Partner kind c a := fun j hj => by
        rw [hnone] at hj
        cases hj
      have hrest := ih ((hturn c hc).2 a (Finset.mem_erase.mpr ⟨hac, haS.1⟩) hpartner)
      have hmem : a ∈ classOf kind (S.erase c) k :=
        mem_classOf.mpr ⟨Finset.mem_erase.mpr ⟨hac, haS.1⟩, haS.2⟩
      have h₁ := card_classOf_erase_of_notMem hcclass
      have h₂ := card_classOf_erase_of_mem hmem
      rcases hrest k (by omega) with hroom | ⟨heven', -⟩ <;> omega
    · by_cases hone : (classOf kind S k).card = 1
      · -- the last item of the class
        obtain ⟨b, hb, hpartner⟩ := (hturn a haS.1).1
        have hmem : b ∈ classOf kind (S.erase a) k := mem_classOf.mpr ⟨hb, hpartner k haS.2⟩
        have hpos := Finset.card_pos.mpr ⟨b, hmem⟩
        omega
      · -- two items of the class
        have hmore : 0 < (classOf kind (S.erase a) k).card := by omega
        obtain ⟨b, hb⟩ := Finset.card_pos.mp hmore
        have hbS := mem_classOf.mp hb
        have hpartner : Partner kind a b := fun j hj => by
          rw [haS.2] at hj
          rw [← hj]
          exact hbS.2
        have hrest := ih ((hturn a haS.1).2 b hbS.1 hpartner)
        have h₂ := card_classOf_erase_of_mem hb
        rcases hrest k (by omega) with hroom | ⟨heven', -⟩ <;> omega

/-- When `r` turns cannot get stuck. -/
theorem neverStuck_iff_roomy (hcard : 2 * r ≤ S.card) : NeverStuck kind r S ↔ Roomy kind r S :=
  ⟨roomy_of_neverStuck, fun h => neverStuck_of_roomy h hcard⟩

end GreedyPairing
