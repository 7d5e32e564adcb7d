import KvmUtils.ApicIpi.Bench

/-!
# The IPIs that each CPU gets

A round of `bench` sends `LOOP` IPIs to its target.  The search walks the
online CPUs in order, so the target of a node is its lowest CPU, the current
one aside.  `ipis_to_cpu` says which online CPUs get IPIs and how many, `LOOP`
of them or none, on every machine on which the rounds stay within `numa[]`.
The rounds that find no CPU and send their IPIs to `nr_cpu_ids` are among
them.
-/

namespace KvmUtils.ApicIpi

open FirstFit

/-- The IPIs of one round. -/
def LOOP : Nat := 100000

/-- The IPIs of some rounds, each by the CPU that it goes to. -/
def ipis (its : List Iteration) : List Nat :=
  its.flatMap fun it => it.target.toList.flatMap fun targetcpu => List.replicate LOOP targetcpu

/-- No other CPU of its node comes before this one, the current one aside. -/
structure Topology.FirstOnNode (t : Topology) (cpu : Nat) : Prop where
  online : cpu ∈ t.online
  ne_current : cpu ≠ t.current
  le : ∀ other ∈ t.online, other ≠ t.current → t.cpuToNode other = t.cpuToNode cpu → cpu ≤ other

instance (t : Topology) (cpu : Nat) : Decidable (t.FirstOnNode cpu) :=
  decidable_of_iff (cpu ∈ t.online ∧ cpu ≠ t.current ∧ ∀ other ∈ t.online, other ≠ t.current →
      t.cpuToNode other = t.cpuToNode cpu → cpu ≤ other)
    ⟨fun h => ⟨h.1, h.2.1, h.2.2⟩, fun h => ⟨h.online, h.ne_current, h.le⟩⟩

/-- So many rounds access no entry outside `numa[]`: the nodes that they come
to have an entry, and so has the node of `nr_cpu_ids` if there are rounds that
find no CPU. -/
structure StaysWithin (t : Topology) (rounds : Nat) : Prop where
  nodes : ∀ node ∈ (reachableNodes t).take rounds, node < MAXNUMA
  exhausted : rounds ≤ (reachableNodes t).length ∨ t.cpuToNode t.nrCpuIds < MAXNUMA

instance (t : Topology) (rounds : Nat) : Decidable (StaysWithin t rounds) :=
  decidable_of_iff ((∀ node ∈ (reachableNodes t).take rounds, node < MAXNUMA) ∧
      (rounds ≤ (reachableNodes t).length ∨ t.cpuToNode t.nrCpuIds < MAXNUMA))
    ⟨fun h => ⟨h.1, h.2⟩, fun h => ⟨h.nodes, h.exhausted⟩⟩

/-- The IPIs to a CPU are those of the rounds whose target it is. -/
theorem count_ipis (its : List Iteration) (cpu : Nat) :
    (ipis its).count cpu = LOOP * (its.map Iteration.target).count (some cpu) := by
  induction its with
  | nil => rfl
  | cons it rest ih =>
    have hcons : ipis (it :: rest) =
        (it.target.toList.flatMap fun targetcpu => List.replicate LOOP targetcpu) ++ ipis rest :=
      List.flatMap_cons
    rw [hcons, List.count_append, ih, List.map_cons, List.count_cons, Nat.mul_add, Nat.add_comm]
    congr 1
    cases htarget : it.target with
    | none => simp
    | some targetcpu =>
      by_cases heq : targetcpu = cpu
      · simp [heq]
      · simp [heq, List.count_replicate]

section Rounds

variable {t : Topology} {visited : List Nat} {cpu : Nat}

/-- Two CPUs that are the first on one node are the same. -/
theorem Topology.FirstOnNode.eq {other : Nat} (h : t.FirstOnNode cpu)
    (hother : t.FirstOnNode other) (hnode : t.cpuToNode other = t.cpuToNode cpu) : other = cpu :=
  Nat.le_antisymm (hother.le cpu h.online h.ne_current hnode.symm)
    (h.le other hother.online hother.ne_current hnode)

/-- The search stops at the first CPU of a node. -/
theorem firstOnNode_of_find? (hfind : t.online.find? (stopsAt t visited) = some cpu) :
    t.FirstOnNode cpu ∧ t.cpuToNode cpu ∉ visited := by
  obtain ⟨hstop, before, after, honline, hbefore⟩ := List.find?_eq_some_iff_append.mp hfind
  simp only [stopsAt, Bool.and_eq_true, decide_eq_true_eq] at hstop
  refine ⟨⟨List.mem_of_find?_eq_some hfind, hstop.1, fun other hother hcur hnode => ?_⟩, hstop.2⟩
  have hsorted := t.sorted
  rw [honline, List.pairwise_append, List.pairwise_cons] at hsorted
  rw [honline, List.mem_append, List.mem_cons] at hother
  obtain hother | rfl | hother := hother
  · -- the search would have stopped at `other`
    have hpassed := hbefore other hother
    have hfresh : stopsAt t visited other = true := by
      simp [stopsAt, hcur, hnode, hstop.2]
    rw [hfresh] at hpassed
    cases hpassed
  · exact Nat.le_refl _
  · exact Nat.le_of_lt (hsorted.2.1.1 other hother)

/-- The targets of the rounds when the first search comes to the end. -/
theorem targets_succ_none (left : Nat) (hvisited : ∀ n ∈ visited, n < MAXNUMA)
    (hfind : t.online.find? (stopsAt t visited) = none)
    (hlt : t.cpuToNode t.nrCpuIds < MAXNUMA) :
    (nodeLoop t (left + 1) (marks visited)).map Iteration.target =
      some t.nrCpuIds ::
        (nodeLoop t left (marks (visited ++ [t.cpuToNode t.nrCpuIds]))).map Iteration.target := by
  obtain ⟨passed, -, hsearch⟩ := searchTarget_eq hvisited t.online
  rw [hfind] at hsearch
  simp only [nodeLoop, hsearch, searchEnd, length_marks, set_marks, List.map_cons, hlt, if_true]

/-- The targets of the rounds when the first search stops at a CPU. -/
theorem targets_succ_some (left : Nat) (hvisited : ∀ n ∈ visited, n < MAXNUMA)
    (hfind : t.online.find? (stopsAt t visited) = some cpu) (hlt : t.cpuToNode cpu < MAXNUMA) :
    (nodeLoop t (left + 1) (marks visited)).map Iteration.target =
      some cpu ::
        (nodeLoop t left (marks (visited ++ [t.cpuToNode cpu]))).map Iteration.target := by
  obtain ⟨passed, -, hsearch⟩ := searchTarget_eq hvisited t.online
  rw [hfind] at hsearch
  simp only [nodeLoop, hsearch, searchEnd, length_marks, set_marks, List.map_cons, hlt, if_true]

/-- When no CPU is left to send to, a further round finds none either. -/
theorem find?_stopsAt_append_of_none (node : Nat)
    (hnone : t.online.find? (stopsAt t visited) = none) :
    t.online.find? (stopsAt t (visited ++ [node])) = none := by
  rw [List.find?_eq_none] at hnone ⊢
  intro other hother hstop
  refine hnone other hother ?_
  simp only [stopsAt, Bool.and_eq_true, decide_eq_true_eq, List.mem_append, not_or] at hstop ⊢
  exact ⟨hstop.1, hstop.2.1⟩

theorem forall_append_singleton {node : Nat} (hvisited : ∀ n ∈ visited, n < MAXNUMA)
    (hlt : node < MAXNUMA) : ∀ n ∈ visited ++ [node], n < MAXNUMA := by
  intro n hn
  obtain hn | hn := List.mem_append.mp hn
  · exact hvisited n hn
  · exact List.mem_singleton.mp hn ▸ hlt

/-- When no CPU is left to send to, none gets any further IPIs. -/
theorem count_targets_of_exhausted (left : Nat) (hvisited : ∀ n ∈ visited, n < MAXNUMA)
    (hnone : t.online.find? (stopsAt t visited) = none)
    (hlt : t.cpuToNode t.nrCpuIds < MAXNUMA) (hcpu : cpu ∈ t.online) :
    ((nodeLoop t left (marks visited)).map Iteration.target).count (some cpu) = 0 := by
  have hne : t.nrCpuIds ≠ cpu := Nat.ne_of_gt (t.online_lt cpu hcpu)
  induction left generalizing visited with
  | zero => rfl
  | succ left ih =>
    have ih := ih (forall_append_singleton hvisited hlt) (find?_stopsAt_append_of_none _ hnone)
    rw [targets_succ_none left hvisited hnone hlt, List.count_cons, ih, Nat.zero_add]
    simp [hne]

/-- The rounds from the `j`-th on have a CPU as target once, if it is the
first of a node that they come to, and not at all if not. -/
theorem count_targets {left j : Nat} (hcpu : cpu ∈ t.online)
    (hvisited : ∀ n ∈ (reachableNodes t).take j, n < MAXNUMA)
    (hnodes : ∀ n ∈ ((reachableNodes t).drop j).take left, n < MAXNUMA)
    (hend : j + left ≤ (reachableNodes t).length ∨ t.cpuToNode t.nrCpuIds < MAXNUMA) :
    ((nodeLoop t left (marks ((reachableNodes t).take j))).map Iteration.target).count (some cpu) =
      if t.FirstOnNode cpu ∧ t.cpuToNode cpu ∈ ((reachableNodes t).drop j).take left
      then 1 else 0 := by
  induction left generalizing j with
  | zero => simp [nodeLoop]
  | succ left ih =>
    have hnode := find?_stopsAt t j
    cases hfind : t.online.find? (stopsAt t ((reachableNodes t).take j)) with
    | none =>
      rw [hfind, Option.map_none] at hnode
      have hle : (reachableNodes t).length ≤ j := List.getElem?_eq_none_iff.mp hnode.symm
      have hlt : t.cpuToNode t.nrCpuIds < MAXNUMA := by
        obtain hmore | hlt := hend
        · omega
        · exact hlt
      rw [count_targets_of_exhausted _ hvisited hfind hlt hcpu, List.drop_eq_nil_of_le hle]
      simp
    | some found =>
      rw [hfind, Option.map_some] at hnode
      obtain ⟨hlen, hget⟩ := List.getElem?_eq_some_iff.mp hnode.symm
      obtain ⟨hfirst, -⟩ := firstOnNode_of_find? hfind
      rw [List.drop_eq_getElem_cons hlen, List.take_succ_cons, hget, List.forall_mem_cons]
        at hnodes
      obtain ⟨hlt, hrest⟩ := hnodes
      have hnext : (reachableNodes t).take j ++ [t.cpuToNode found] =
          (reachableNodes t).take (j + 1) := by
        rw [List.take_add_one, ← hnode]
        rfl
      have hlater : t.cpuToNode found ∉ ((reachableNodes t).drop (j + 1)).take left := by
        intro hmem
        have hnodup : ((reachableNodes t).drop j).Nodup :=
          (nodup_firstSeen _).sublist (List.drop_sublist j _)
        rw [List.drop_eq_getElem_cons hlen, List.nodup_cons, hget] at hnodup
        exact hnodup.1 (List.mem_of_mem_take hmem)
      have ih := ih (forall_take_succ hnode.symm hlt hvisited) hrest (hend.imp_left (by omega))
      rw [targets_succ_some left hvisited hfind hlt, hnext, List.count_cons, ih,
        List.drop_eq_getElem_cons hlen, List.take_succ_cons, hget]
      simp only [List.mem_cons]
      by_cases heq : found = cpu
      · subst heq
        simp [hlater, hfirst]
      · have hother : ¬ (t.FirstOnNode cpu ∧ t.cpuToNode cpu = t.cpuToNode found) :=
          fun h => heq (h.1.eq hfirst h.2.symm)
        simp only [and_or_left, hother, false_or, Option.some.injEq, beq_iff_eq, heq, if_false,
          Nat.add_zero]

/-- Once no CPU is left, the rounds stay within `numa[]` if the node of
`nr_cpu_ids` has an entry. -/
theorem indices_of_exhausted (left : Nat) (hvisited : ∀ n ∈ visited, n < MAXNUMA)
    (hnone : t.online.find? (stopsAt t visited) = none) :
    (∀ it ∈ nodeLoop t left (marks visited), ∀ i ∈ it.indices, i < MAXNUMA) ↔
      left = 0 ∨ t.cpuToNode t.nrCpuIds < MAXNUMA := by
  induction left generalizing visited with
  | zero => simp [nodeLoop]
  | succ left ih =>
    obtain ⟨passed, hpassed, hsearch⟩ := searchTarget_eq hvisited t.online
    have hpassed' : ∀ n ∈ passed, n < MAXNUMA := fun n hn => hvisited n (hpassed n hn)
    rw [hnone] at hsearch
    simp only [nodeLoop, hsearch, searchEnd, length_marks, set_marks, List.forall_mem_cons,
      List.forall_mem_append, Nat.succ_ne_zero, false_or]
    by_cases hlt : t.cpuToNode t.nrCpuIds < MAXNUMA
    · have ih := ih (forall_append_singleton hvisited hlt) (find?_stopsAt_append_of_none _ hnone)
      simp only [hlt, if_true, ih, or_true, and_true, iff_true]
      exact ⟨hpassed', by simp⟩
    · simp [hlt]

/-- The rounds from the `j`-th on stay within `numa[]` exactly when the nodes
that they come to have an entry. -/
theorem indices_nodeLoop_iff {left j : Nat}
    (hvisited : ∀ n ∈ (reachableNodes t).take j, n < MAXNUMA) :
    (∀ it ∈ nodeLoop t left (marks ((reachableNodes t).take j)),
        ∀ i ∈ it.indices, i < MAXNUMA) ↔
      (∀ n ∈ ((reachableNodes t).drop j).take left, n < MAXNUMA) ∧
        (left = 0 ∨ j + left ≤ (reachableNodes t).length ∨
          t.cpuToNode t.nrCpuIds < MAXNUMA) := by
  induction left generalizing j with
  | zero => simp [nodeLoop]
  | succ left ih =>
    have hnode := find?_stopsAt t j
    cases hfind : t.online.find? (stopsAt t ((reachableNodes t).take j)) with
    | none =>
      rw [hfind, Option.map_none] at hnode
      have hle : (reachableNodes t).length ≤ j := List.getElem?_eq_none_iff.mp hnode.symm
      have hmore : ¬ j + (left + 1) ≤ (reachableNodes t).length := by omega
      rw [indices_of_exhausted _ hvisited hfind, List.drop_eq_nil_of_le hle]
      simp [hmore]
    | some found =>
      rw [hfind, Option.map_some] at hnode
      obtain ⟨hlen, hget⟩ := List.getElem?_eq_some_iff.mp hnode.symm
      obtain ⟨passed, hpassed, hsearch⟩ := searchTarget_eq hvisited t.online
      have hpassed' : ∀ n ∈ passed, n < MAXNUMA := fun n hn => hvisited n (hpassed n hn)
      rw [hfind] at hsearch
      rw [List.drop_eq_getElem_cons hlen, List.take_succ_cons, hget, List.forall_mem_cons]
      by_cases hlt : t.cpuToNode found < MAXNUMA
      · have hnext : (reachableNodes t).take j ++ [t.cpuToNode found] =
            (reachableNodes t).take (j + 1) := by
          rw [List.take_add_one, ← hnode]
          rfl
        have ih := ih (forall_take_succ hnode.symm hlt hvisited)
        have hleft : (left = 0 ∨ j + 1 + left ≤ (reachableNodes t).length ∨
              t.cpuToNode t.nrCpuIds < MAXNUMA) ↔
            (left + 1 = 0 ∨ j + (left + 1) ≤ (reachableNodes t).length ∨
              t.cpuToNode t.nrCpuIds < MAXNUMA) := by
          omega
        simp only [nodeLoop, hsearch, searchEnd, length_marks, set_marks, hlt, if_true, hnext,
          List.forall_mem_cons, List.forall_mem_append, ih, hleft, true_and]
        exact ⟨fun h => h.2, fun h => ⟨⟨⟨hpassed', by simp⟩, by simp⟩, h⟩⟩
      · simp only [nodeLoop, hsearch, searchEnd, hlt, if_false, List.forall_mem_cons,
          List.forall_mem_append, false_and, and_false]

end Rounds

/-- `bench` accesses no entry outside `numa[]` exactly when its rounds come to
nodes that have one. -/
theorem staysWithin_iff (t : Topology) (nodes : Int) :
    (∀ it ∈ bench t nodes, ∀ i ∈ it.indices, i < MAXNUMA) ↔ StaysWithin t (rounds nodes) := by
  have hnone : ∀ n ∈ (reachableNodes t).take 0, n < MAXNUMA := by simp
  have hindices := @indices_nodeLoop_iff t (rounds nodes) 0 hnone
  rw [List.take_zero, List.drop_zero, marks_nil, Nat.zero_add] at hindices
  rw [bench, hindices]
  constructor
  · rintro ⟨hnodes, hend⟩
    exact ⟨hnodes, by omega⟩
  · intro h
    exact ⟨h.nodes, .inr h.exhausted⟩

/-- Which online CPUs get IPIs from `bench`, as long as it stays within
`numa[]`.  The first CPU of a node, the current one aside, gets `LOOP` of them
if its node is among those that the rounds come to, and every other online CPU
gets none. -/
theorem ipis_to_cpu {t : Topology} {nodes : Int} {cpu : Nat}
    (hwithin : StaysWithin t (rounds nodes)) (hcpu : cpu ∈ t.online) :
    (ipis (bench t nodes)).count cpu =
      if t.FirstOnNode cpu ∧ t.cpuToNode cpu ∈ (reachableNodes t).take (rounds nodes)
      then LOOP else 0 := by
  have hnone : ∀ n ∈ (reachableNodes t).take 0, n < MAXNUMA := by simp
  have hcount := @count_targets t cpu (rounds nodes) 0 hcpu hnone hwithin.nodes
    (hwithin.exhausted.imp_left (by omega))
  rw [List.take_zero, List.drop_zero, marks_nil] at hcount
  rw [count_ipis, bench, hcount]
  split_ifs
  · exact Nat.mul_one LOOP
  · exact Nat.mul_zero LOOP

/-- Two rounds on two nodes: the second of the two CPUs gets the IPIs of the
first round, and the second round finds no CPU. -/
theorem ipis_to_cpu_twoNodes : (ipis (bench twoNodes 2)).count 1 = LOOP :=
  (ipis_to_cpu (by decide) (by decide)).trans (if_pos (by decide))

end KvmUtils.ApicIpi
