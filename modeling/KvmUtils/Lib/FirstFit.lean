import Mathlib.Algebra.GroupWithZero.Nat
import Mathlib.Data.List.Dedup
import Mathlib.Data.List.Nodup
import Mathlib.Data.Finset.Card
import Mathlib.Logic.Function.Iterate

/-!
# First-fit tables

A first-fit table is a list of slots that is searched from the front.  A
record of a key stops at the first slot that holds the key or is free, and
touches that slot.  A free slot is marked by a key of its own, so the table
has no separate notion of presence.

The first result is `recordAll_replicate`: as long as the marker is never
recorded and the keys fit, the table holds one slot for each key, in the order
in which the keys were first seen, and the slot has been touched once for each
record of its key.

The second one, `map_key_recordAll`, holds for every list of keys.  The
records of the marker, and those that find no slot, leave the keys of the
table alone, so these are the first keys that were seen, as many as there are
slots.
-/

namespace FirstFit

variable {κ S : Type*}

/-- The slots of a table: the key of a slot, the marker of a free one, and
what a record of a key does to a slot. -/
structure Slots (κ S : Type*) where
  key : S → κ
  free : κ
  touch : κ → S → S
  key_touch : ∀ k s, key (touch k s) = k

variable [DecidableEq κ] (o : Slots κ S)

/-- Record one key: touch the first slot that holds it or is free. -/
def record (k : κ) : List S → List S
  | [] => []
  | s :: rest =>
    if k = o.key s ∨ o.key s = o.free then o.touch k s :: rest else s :: record k rest

/-- Record a list of keys, the first one first. -/
def recordAll (ks : List κ) (table : List S) : List S :=
  ks.foldl (fun t k => record o k t) table

@[simp] theorem recordAll_nil (table : List S) : recordAll o [] table = table := rfl

theorem recordAll_concat (ks : List κ) (k : κ) (table : List S) :
    recordAll o (ks ++ [k]) table = record o k (recordAll o ks table) := by
  simp [recordAll]

@[simp] theorem length_record (k : κ) (table : List S) :
    (record o k table).length = table.length := by
  induction table with
  | nil => rfl
  | cons s rest ih =>
    rw [record]
    split_ifs
    · rfl
    · simp [ih]

/-- The search passes over slots of other keys. -/
theorem record_append {k : κ} {front back : List S}
    (h : ∀ s ∈ front, k ≠ o.key s ∧ o.key s ≠ o.free) :
    record o k (front ++ back) = front ++ record o k back := by
  induction front with
  | nil => rfl
  | cons s front ih =>
    obtain ⟨hk, hfree⟩ := h s List.mem_cons_self
    rw [List.cons_append, record, if_neg (not_or.mpr ⟨hk, hfree⟩),
      ih fun t ht => h t (List.mem_cons_of_mem s ht), List.cons_append]

/-- The search stops at a slot of the key, or at a free one. -/
theorem record_cons_of_match {k : κ} {s : S} {rest : List S}
    (h : k = o.key s ∨ o.key s = o.free) :
    record o k (s :: rest) = o.touch k s :: rest := by
  rw [record, if_pos h]

/-- What a record does to slot `i`: nothing, or the touch of the slot that
stops the search. -/
theorem getElem?_record (k : κ) (table : List S) (i : ℕ) :
    (record o k table)[i]? = table[i]? ∨
      ∃ s, table.find? (fun s => k = o.key s ∨ o.key s = o.free) = some s ∧
        table[i]? = some s ∧ (record o k table)[i]? = some (o.touch k s) := by
  induction table generalizing i with
  | nil => exact Or.inl rfl
  | cons s rest ih =>
    by_cases hs : k = o.key s ∨ o.key s = o.free
    · rw [record_cons_of_match o hs]
      cases i with
      | zero => exact Or.inr ⟨s, List.find?_cons_of_pos (decide_eq_true hs), rfl, rfl⟩
      | succ i => exact Or.inl rfl
    · rw [record, if_neg hs, List.find?_cons_of_neg (by simpa using hs)]
      cases i with
      | zero => exact Or.inl rfl
      | succ i => exact ih i

/-! ## The order in which keys are first seen -/

/-- The keys of a list without repeats, each at its first place. -/
def firstSeen (ks : List κ) : List κ :=
  ks.foldl (fun seen k => if k ∈ seen then seen else seen ++ [k]) []

@[simp] theorem firstSeen_nil : firstSeen ([] : List κ) = [] := rfl

theorem firstSeen_concat (ks : List κ) (k : κ) :
    firstSeen (ks ++ [k]) =
      if k ∈ firstSeen ks then firstSeen ks else firstSeen ks ++ [k] :=
  List.foldl_concat _ [] k ks

@[simp] theorem mem_firstSeen {k : κ} {ks : List κ} : k ∈ firstSeen ks ↔ k ∈ ks := by
  induction ks using List.reverseRecOn with
  | nil => simp
  | append_singleton ks j ih =>
    rw [firstSeen_concat]
    split_ifs with hj
    · rw [ih, List.mem_append, List.mem_singleton]
      constructor
      · exact Or.inl
      · rintro (h | rfl)
        · exact h
        · exact ih.mp hj
    · simp [ih]

theorem nodup_firstSeen (ks : List κ) : (firstSeen ks).Nodup := by
  induction ks using List.reverseRecOn with
  | nil => simp
  | append_singleton ks k ih =>
    rw [firstSeen_concat]
    split_ifs with hk
    · exact ih
    · refine List.nodup_append.mpr ⟨ih, List.nodup_singleton k, ?_⟩
      intro a ha b hb hab
      rw [List.mem_singleton.mp hb] at hab
      exact hk (hab ▸ ha)

/-- There are as many first places as distinct keys. -/
theorem length_firstSeen (ks : List κ) : (firstSeen ks).length = ks.toFinset.card := by
  rw [← List.toFinset_card_of_nodup (nodup_firstSeen ks)]
  congr 1
  ext k
  simp

/-- A prefix has no more distinct keys than the list. -/
theorem length_firstSeen_le_concat (ks : List κ) (k : κ) :
    (firstSeen ks).length ≤ (firstSeen (ks ++ [k])).length := by
  rw [firstSeen_concat]
  split_ifs
  · exact le_refl _
  · simp

/-- A search for a key that is not among the first `j` keys finds the next
one, and comes to the end of the list when there is none. -/
theorem find?_not_mem_take_firstSeen (ks : List κ) (j : ℕ) :
    ks.find? (fun k => k ∉ (firstSeen ks).take j) = (firstSeen ks)[j]? := by
  induction ks using List.reverseRecOn with
  | nil => simp
  | append_singleton ks k ih =>
    rw [firstSeen_concat, List.find?_append]
    by_cases hk : k ∈ firstSeen ks
    · rw [if_pos hk, ih]
      by_cases hj : j < (firstSeen ks).length
      · simp [hj]
      · have htake : (firstSeen ks).take j = firstSeen ks := List.take_of_length_le (by omega)
        rw [htake, List.find?_singleton]
        simp [hk]
    · rw [if_neg hk]
      by_cases hj : j < (firstSeen ks).length
      · rw [List.take_append_of_le_length hj.le, ih, List.getElem?_append_left hj]
        simp [hj]
      · -- all the keys of `ks` are among the first `j`
        have htake : (firstSeen ks ++ [k]).take j =
            firstSeen ks ++ [k].take (j - (firstSeen ks).length) := by
          rw [List.take_append, List.take_of_length_le (by omega)]
        have hnone : ks.find? (fun a => a ∉ (firstSeen ks ++ [k]).take j) = none := by
          rw [List.find?_eq_none]
          intro a ha
          have hmem : a ∈ firstSeen ks := mem_firstSeen.mpr ha
          rw [htake]
          simp [hmem]
        rw [hnone, Option.none_or, List.find?_singleton, htake,
          List.getElem?_append_right (by omega)]
        cases hd : j - (firstSeen ks).length with
        | zero => simp [hk]
        | succ d => simp

/-! ## The table after a list of records -/

/-- The slot of a key that has been recorded `n` times. -/
def touched (blank : S) (k : κ) (n : ℕ) : S := (o.touch k)^[n] blank

omit [DecidableEq κ] in
theorem key_touched (blank : S) (k : κ) {n : ℕ} (hn : 0 < n) :
    o.key (touched o blank k n) = k := by
  obtain ⟨m, rfl⟩ : ∃ m, n = m + 1 := ⟨n - 1, by omega⟩
  rw [touched, Function.iterate_succ_apply']
  exact o.key_touch k _

omit [DecidableEq κ] in
theorem touch_touched (blank : S) (k : κ) (n : ℕ) :
    o.touch k (touched o blank k n) = touched o blank k (n + 1) :=
  (Function.iterate_succ_apply' (o.touch k) n blank).symm

/-- One slot for each key of `ks`, in the order in which they were first
seen, each touched once for each record of its key. -/
def taken (blank : S) (ks : List κ) : List S :=
  (firstSeen ks).map fun k => touched o blank k (ks.count k)

theorem key_of_mem_taken {blank : S} {ks : List κ} {s : S} (hs : s ∈ taken o blank ks) :
    o.key s ∈ ks := by
  obtain ⟨k, hk, rfl⟩ := List.mem_map.mp hs
  have hk' : k ∈ ks := mem_firstSeen.mp hk
  rwa [key_touched o blank k (List.count_pos_iff.mpr hk')]

/-- A record of another key leaves the slot of `j` as it is. -/
theorem touched_count_concat_of_ne {blank : S} {ks : List κ} {j k : κ} (h : j ≠ k) :
    touched o blank j ((ks ++ [k]).count j) = touched o blank j (ks.count j) := by
  rw [List.count_append, List.count_singleton, if_neg (by simpa using h.symm), Nat.add_zero]

theorem touched_count_concat_self (blank : S) (ks : List κ) (k : κ) :
    touched o blank k ((ks ++ [k]).count k) = o.touch k (touched o blank k (ks.count k)) := by
  rw [touch_touched, List.count_append, List.count_singleton_self]

/-- A record of a key that has a slot touches that slot. -/
theorem record_taken_of_mem {blank : S} {ks : List κ} {k : κ} (hfree : o.free ∉ ks)
    (hk : k ∈ ks) (back : List S) :
    record o k (taken o blank ks ++ back) = taken o blank (ks ++ [k]) ++ back := by
  obtain ⟨front, rest, hsplit⟩ := List.append_of_mem (mem_firstSeen.mpr hk)
  have hnodup := nodup_firstSeen ks
  rw [hsplit, List.nodup_middle, List.nodup_cons, List.mem_append, not_or] at hnodup
  obtain ⟨⟨hfront, hrest⟩, -⟩ := hnodup
  have hsame : firstSeen (ks ++ [k]) = firstSeen ks := by
    rw [firstSeen_concat, if_pos (mem_firstSeen.mpr hk)]
  have hothers : ∀ l : List κ, k ∉ l →
      l.map (fun j => touched o blank j ((ks ++ [k]).count j)) =
        l.map fun j => touched o blank j (ks.count j) := by
    intro l hl
    refine List.map_congr_left fun j hj => touched_count_concat_of_ne o ?_
    rintro rfl
    exact hl hj
  have hpass : ∀ s ∈ front.map (fun j => touched o blank j (ks.count j)),
      k ≠ o.key s ∧ o.key s ≠ o.free := by
    intro s hs
    obtain ⟨j, hj, rfl⟩ := List.mem_map.mp hs
    have hjks : j ∈ ks := by
      rw [← mem_firstSeen, hsplit]
      exact List.mem_append_left _ hj
    rw [key_touched o blank j (List.count_pos_iff.mpr hjks)]
    exact ⟨fun h => hfront (h ▸ hj), fun h => hfree (h ▸ hjks)⟩
  have hkey : o.key (touched o blank k (ks.count k)) = k :=
    key_touched o blank k (List.count_pos_iff.mpr hk)
  rw [taken, taken, hsame, hsplit, List.map_append, List.map_append, List.map_cons,
    List.map_cons, hothers front hfront, hothers rest hrest, touched_count_concat_self,
    List.append_assoc, List.append_assoc, record_append o hpass, List.cons_append,
    record_cons_of_match o (Or.inl hkey.symm), List.cons_append]

/-- A record of a new key takes the first free slot. -/
theorem record_taken_of_not_mem {blank : S} {ks : List κ} {k : κ} (hfree : o.free ∉ ks)
    (hblank : o.key blank = o.free) (hk : k ∉ ks) (back : List S) :
    record o k (taken o blank ks ++ blank :: back) = taken o blank (ks ++ [k]) ++ back := by
  have hseen : k ∉ firstSeen ks := fun h => hk (mem_firstSeen.mp h)
  have hpass : ∀ s ∈ taken o blank ks, k ≠ o.key s ∧ o.key s ≠ o.free := by
    intro s hs
    have hmem := key_of_mem_taken o hs
    exact ⟨fun h => hk (h ▸ hmem), fun h => hfree (h ▸ hmem)⟩
  have hfirst : firstSeen (ks ++ [k]) = firstSeen ks ++ [k] := by
    rw [firstSeen_concat, if_neg hseen]
  have hothers : (firstSeen ks).map (fun j => touched o blank j ((ks ++ [k]).count j)) =
      (firstSeen ks).map fun j => touched o blank j (ks.count j) := by
    refine List.map_congr_left fun j hj => touched_count_concat_of_ne o ?_
    rintro rfl
    exact hseen hj
  have hnew : touched o blank k ((ks ++ [k]).count k) = o.touch k blank := by
    rw [touched_count_concat_self, List.count_eq_zero.mpr hk]
    rfl
  rw [record_append o hpass, record_cons_of_match o (Or.inr hblank)]
  simp only [taken, hfirst, List.map_append, List.map_cons, List.map_nil, hothers, hnew,
    List.append_assoc, List.singleton_append]

/-- The table after a list of records: the taken slots, then blanks. -/
theorem recordAll_replicate {blank : S} (hblank : o.key blank = o.free) {n : ℕ} {ks : List κ}
    (hfree : o.free ∉ ks) (hfit : (firstSeen ks).length ≤ n) :
    recordAll o ks (List.replicate n blank) =
      taken o blank ks ++ List.replicate (n - (firstSeen ks).length) blank := by
  induction ks using List.reverseRecOn with
  | nil => simp [taken]
  | append_singleton ks k ih =>
    have hfree' : o.free ∉ ks := fun h => hfree (List.mem_append_left _ h)
    have ih := ih hfree' ((length_firstSeen_le_concat ks k).trans hfit)
    rw [recordAll_concat, ih]
    by_cases hk : k ∈ ks
    · have hsame : firstSeen (ks ++ [k]) = firstSeen ks := by
        rw [firstSeen_concat, if_pos (mem_firstSeen.mpr hk)]
      rw [record_taken_of_mem o hfree' hk, hsame]
    · have hlen : (firstSeen (ks ++ [k])).length = (firstSeen ks).length + 1 := by
        rw [firstSeen_concat, if_neg fun h => hk (mem_firstSeen.mp h)]
        simp
      have hroom : n - (firstSeen ks).length = n - (firstSeen (ks ++ [k])).length + 1 := by
        omega
      rw [hroom, List.replicate_succ, record_taken_of_not_mem o hfree' hblank hk]

/-! ## Tables in which the marker is recorded as well -/

variable {o}

/-- What a record does to the keys of a table whose used slots come first. -/
theorem map_key_record {k : κ} {keys : List κ} {r : ℕ} {table : List S}
    (hkeys : table.map o.key = keys ++ List.replicate r o.free) (hfree : o.free ∉ keys) :
    (record o k table).map o.key =
      if k = o.free ∨ k ∈ keys ∨ r = 0 then keys ++ List.replicate r o.free
      else (keys ++ [k]) ++ List.replicate (r - 1) o.free := by
  induction keys generalizing table with
  | nil =>
    cases table with
    | nil =>
      obtain rfl : r = 0 := by simpa using (congrArg List.length hkeys).symm
      simp [record]
    | cons s rest =>
      obtain ⟨r, rfl⟩ : ∃ n, r = n + 1 := by
        cases r with
        | zero => simp at hkeys
        | succ n => exact ⟨n, rfl⟩
      rw [List.map_cons, List.nil_append, List.replicate_succ, List.cons.injEq] at hkeys
      rw [record_cons_of_match o (Or.inr hkeys.1), List.map_cons, o.key_touch, hkeys.2]
      by_cases hk : k = o.free
      · simp [hk, List.replicate_succ]
      · simp [hk]
  | cons j keys ih =>
    cases table with
    | nil => simp at hkeys
    | cons s rest =>
      rw [List.map_cons, List.cons_append, List.cons.injEq] at hkeys
      rw [List.mem_cons, not_or] at hfree
      have hused : o.key s ≠ o.free := by
        rw [hkeys.1]
        exact fun h => hfree.1 h.symm
      by_cases hkj : k = j
      · subst hkj
        rw [record_cons_of_match o (Or.inl hkeys.1.symm), List.map_cons, o.key_touch, hkeys.2]
        simp
      · have hpass : ¬ (k = o.key s ∨ o.key s = o.free) := by
          rw [hkeys.1]
          rintro (h | h)
          · exact hkj h
          · exact hfree.1 h.symm
        rw [record, if_neg hpass, List.map_cons, ih hkeys.2 hfree.2, hkeys.1]
        by_cases hstay : k = o.free ∨ k ∈ keys ∨ r = 0
        · have hstay' : k = o.free ∨ k ∈ j :: keys ∨ r = 0 :=
            hstay.imp_right (Or.imp_left (List.mem_cons_of_mem j))
          rw [if_pos hstay, if_pos hstay', List.cons_append]
        · have hmove : ¬ (k = o.free ∨ k ∈ j :: keys ∨ r = 0) := by
            simpa [hkj] using hstay
          rw [if_neg hstay, if_neg hmove, List.cons_append, List.cons_append]

variable (o)

/-- The keys of a table after any list of records. -/
theorem map_key_recordAll (blank : S) (hblank : o.key blank = o.free) (n : ℕ) (ks : List κ) :
    (recordAll o ks (List.replicate n blank)).map o.key =
      (firstSeen (ks.filter (· ≠ o.free))).take n ++
        List.replicate (n - (firstSeen (ks.filter (· ≠ o.free))).length) o.free := by
  induction ks using List.reverseRecOn with
  | nil => simp [hblank]
  | append_singleton ks k ih =>
    have hfree : o.free ∉ (firstSeen (ks.filter (· ≠ o.free))).take n := by
      intro hmem
      simpa using mem_firstSeen.mp (List.mem_of_mem_take hmem)
    rw [recordAll_concat, map_key_record ih hfree, List.filter_append, List.filter_singleton]
    generalize hseen : firstSeen (ks.filter (· ≠ o.free)) = seen at hfree ih ⊢
    by_cases hk : k = o.free
    · have hdrop : decide (k ≠ o.free) = false := by simpa using hk
      rw [if_pos (Or.inl hk), hdrop, cond_false, List.append_nil, hseen]
    · have hkeep : decide (k ≠ o.free) = true := by simpa using hk
      rw [hkeep, cond_true, firstSeen_concat, hseen]
      by_cases hroom : seen.length < n
      · have htake : seen.take n = seen := List.take_of_length_le hroom.le
        rw [htake]
        by_cases hmem : k ∈ seen
        · rw [if_pos (Or.inr (Or.inl hmem)), if_pos hmem, htake]
        · have hnew : ¬ (k = o.free ∨ k ∈ seen ∨ n - seen.length = 0) := by
            rw [not_or, not_or]
            exact ⟨hk, hmem, by omega⟩
          rw [if_neg hnew, if_neg hmem, List.take_of_length_le (by simp; omega)]
          simp [Nat.sub_sub]
      · -- the table is full, and its keys are the first `n` that were seen
        have hfull : n - seen.length = 0 := by omega
        rw [if_pos (Or.inr (Or.inr hfull))]
        by_cases hmem : k ∈ seen
        · rw [if_pos hmem]
        · have hfull' : n - (seen ++ [k]).length = 0 := by simp; omega
          rw [if_neg hmem, hfull, hfull', List.take_append_of_le_length (by omega)]

/-- A key that is seen later leaves the earlier ones in their places. -/
theorem firstSeen_prefix (ks js : List κ) : firstSeen ks <+: firstSeen (ks ++ js) := by
  induction js using List.reverseRecOn with
  | nil => simp
  | append_singleton js j ih =>
    rw [← List.append_assoc, firstSeen_concat]
    split_ifs
    · exact ih
    · exact ih.trans (List.prefix_append _ _)

/-- Some slot stops the search for `k`. -/
def Stops (k : κ) (table : List S) : Prop := ∃ s ∈ table, k = o.key s ∨ o.key s = o.free

instance (k : κ) (table : List S) : Decidable (Stops o k table) :=
  inferInstanceAs (Decidable (∃ s ∈ table, _))

/-- When a touch adds one to a weight, a record adds one to the total weight
of the table if it finds a slot, and nothing otherwise. -/
theorem sum_record {w : S → ℕ} {k : κ} (table : List S)
    (hw : ∀ s ∈ table, w (o.touch k s) = w s + 1) :
    ((record o k table).map w).sum =
      (table.map w).sum + if Stops o k table then 1 else 0 := by
  induction table with
  | nil => simp [record, Stops]
  | cons s rest ih =>
    have ih := ih fun t ht => hw t (List.mem_cons_of_mem s ht)
    by_cases hs : k = o.key s ∨ o.key s = o.free
    · have hstop : Stops o k (s :: rest) := ⟨s, List.mem_cons_self, hs⟩
      rw [record_cons_of_match o hs, if_pos hstop, List.map_cons, List.map_cons, List.sum_cons,
        List.sum_cons, hw s List.mem_cons_self]
      omega
    · have hstop : Stops o k (s :: rest) ↔ Stops o k rest := by
        simp [Stops, hs]
      rw [record, if_neg hs, List.map_cons, List.map_cons, List.sum_cons, List.sum_cons, ih]
      simp only [hstop]
      omega

end FirstFit
