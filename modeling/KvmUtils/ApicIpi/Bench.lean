import Mathlib.Data.List.Nodup
import KvmUtils.Lib.FirstFit

/-!
# The targets of `apic_ipi`

`bench` sends IPIs from the current CPU to one CPU on each NUMA node.  In
every round it searches the online CPUs for one whose node has not had its
turn, and it marks the node of the CPU that it has found in `numa[]`.

Nothing tells the end of a search from a hit: the target is what the variable
of the search loop holds afterwards, which is `nr_cpu_ids` when no CPU is
left.  And `numa[]` has `MAXNUMA` entries while a node number can be larger.
`goodTargets_nodeLoop` says for which machines neither matters.
-/

namespace KvmUtils.ApicIpi

open FirstFit

/-- The entries of `numa[]`. -/
def MAXNUMA : Nat := 4

/-- What `bench` sees of the machine.  `online` lists the online CPUs in the
order of `for_each_online_cpu`, which leaves its variable at `nrCpuIds`, a
number above all of them, when it comes to the end.  `current` is the result
of `get_cpu`. -/
structure Topology where
  online : List Nat
  nrCpuIds : Nat
  cpuToNode : Nat → Nat
  current : Nat
  sorted : online.Pairwise (· < ·)
  online_lt : ∀ cpu ∈ online, cpu < nrCpuIds

/-- One round of the node loop: the indices at which it reads and writes
`numa[]`, in order, and the CPU that it sends its IPIs to.  There is none when
a read of `numa[]` has left the array, since nothing is known of what follows. -/
structure Iteration where
  indices : List Nat
  target : Option Nat
  deriving DecidableEq, Repr

variable (t : Topology)

/-- The search for a target, with the CPUs that are still to be looked at. -/
def searchTarget (numa : List UInt8) : List Nat → Iteration
  | [] => ⟨[], some t.nrCpuIds⟩
  | cpu :: rest =>
    if cpu = t.current then searchTarget numa rest
    else
      match numa[t.cpuToNode cpu]? with
      | none => ⟨[t.cpuToNode cpu], none⟩
      | some visited =>
        if visited ≠ 0 then
          let found := searchTarget numa rest
          { found with indices := t.cpuToNode cpu :: found.indices }
        else ⟨[t.cpuToNode cpu], some cpu⟩

/-- The node loop, with the number of rounds that are left.  It is followed up
to the first access outside `numa[]`. -/
def nodeLoop : Nat → List UInt8 → List Iteration
  | 0, _ => []
  | left + 1, numa =>
    let found := searchTarget t numa t.online
    match found.target with
    | none => [found]
    | some targetcpu =>
      let node := t.cpuToNode targetcpu
      { found with indices := found.indices ++ [node] } ::
        if node < numa.length then nodeLoop left (numa.set node 1) else []

/-- The number of rounds of the node loop, which runs while
`node < nodes && node < MAXNUMA`. -/
def rounds (nodes : Int) : Nat := if nodes < MAXNUMA then nodes.toNat else MAXNUMA

theorem lt_rounds {nodes : Int} {node : Nat} :
    node < rounds nodes ↔ (node : Int) < nodes ∧ node < MAXNUMA := by
  unfold rounds
  split_ifs <;> omega

/-- The rounds of `bench`. -/
def bench (nodes : Int) : List Iteration :=
  nodeLoop t (rounds nodes) (List.replicate MAXNUMA 0)

/-! ## The load of the module -/

/-- The functions that can be benchmarked. -/
def ipiFuncs : List String :=
  ["kvm_send_ipi_mask", "default_send_IPI_mask_sequence_phys", "flat_send_IPI_mask",
    "x2apic_send_IPI_mask"]

/-- The benchmarks that `apic_ipi_init` runs, each with the function that it
is about.  `topology i` is the machine as the benchmark of `ipi_funcs[i]`
finds it, and `nodes` is the result of `num_online_nodes`. -/
def apicIpiInit (options : BitVec 32) (nodes : Int) (topology : Nat → Topology) :
    List (String × List Iteration) :=
  if options = 0 then []
  else (ipiFuncs.zipIdx.filter fun f => options.getLsbD f.2).map fun f =>
    (f.1, bench (topology f.2) nodes)

/-! ## The order in which the nodes come up -/

/-- The nodes that have a CPU to send to, in the order in which the search
meets them. -/
def reachableNodes : List Nat :=
  firstSeen ((t.online.filter (· ≠ t.current)).map t.cpuToNode)

/-- The contents of `numa[]` when the nodes of `visited` have had their turn. -/
def marks (visited : List Nat) : List UInt8 :=
  (List.range MAXNUMA).map fun node => if node ∈ visited then 1 else 0

@[simp] theorem length_marks (visited : List Nat) : (marks visited).length = MAXNUMA := by
  simp [marks]

theorem marks_nil : marks [] = List.replicate MAXNUMA 0 := rfl

theorem getElem?_marks_of_lt {visited : List Nat} {node : Nat} (h : node < MAXNUMA) :
    (marks visited)[node]? = some (if node ∈ visited then 1 else 0) := by
  simp [marks, h]

theorem getElem?_marks_of_le {visited : List Nat} {node : Nat} (h : MAXNUMA ≤ node) :
    (marks visited)[node]? = none := by
  simp [h]

/-- Marking a node. -/
theorem set_marks {visited : List Nat} {node : Nat} :
    (marks visited).set node 1 = marks (visited ++ [node]) := by
  refine List.ext_getElem? fun i => ?_
  by_cases hi : i < MAXNUMA
  · rw [List.getElem?_set, getElem?_marks_of_lt hi, getElem?_marks_of_lt hi]
    by_cases hne : node = i
    · subst hne
      simp [hi]
    · have hmem : i ∈ visited ++ [node] ↔ i ∈ visited := by
        simp [Ne.symm hne]
      simp only [hne, if_false, hmem]
  · have hle : MAXNUMA ≤ i := by omega
    rw [getElem?_marks_of_le hle, List.getElem?_eq_none (by simpa using hle)]

/-! ## One search -/

variable {t}

/-- A CPU that the search stops at when the nodes of `visited` have had their
turn. -/
def stopsAt (t : Topology) (visited : List Nat) (cpu : Nat) : Bool :=
  decide (cpu ≠ t.current) && decide (t.cpuToNode cpu ∉ visited)

/-- How a search ends that has passed over the nodes of `passed` and stops at
`stop`. -/
def searchEnd (t : Topology) (passed : List Nat) : Option Nat → Iteration
  | none => ⟨passed, some t.nrCpuIds⟩
  | some cpu =>
    ⟨passed ++ [t.cpuToNode cpu], if t.cpuToNode cpu < MAXNUMA then some cpu else none⟩

theorem searchEnd_cons (node : Nat) (passed : List Nat) (stop : Option Nat) :
    searchEnd t (node :: passed) stop =
      { searchEnd t passed stop with indices := node :: (searchEnd t passed stop).indices } := by
  cases stop <;> rfl

/-- The first CPU of the search is the current one, or its node has had its
turn. -/
theorem searchTarget_cons_of_not_stopsAt {visited rest : List Nat} {cpu : Nat}
    (hvisited : ∀ n ∈ visited, n < MAXNUMA) (hstop : stopsAt t visited cpu = false) :
    searchTarget t (marks visited) (cpu :: rest) = searchTarget t (marks visited) rest ∨
      t.cpuToNode cpu ∈ visited ∧ searchTarget t (marks visited) (cpu :: rest) =
        { searchTarget t (marks visited) rest with
          indices := t.cpuToNode cpu :: (searchTarget t (marks visited) rest).indices } := by
  by_cases hcur : cpu = t.current
  · exact .inl (by simp [searchTarget, hcur])
  · have hmem : t.cpuToNode cpu ∈ visited := by simpa [stopsAt, hcur] using hstop
    have hget : (marks visited)[t.cpuToNode cpu]? = some 1 := by
      rw [getElem?_marks_of_lt (hvisited _ hmem), if_pos hmem]
    refine .inr ⟨hmem, ?_⟩
    rw [searchTarget, if_neg hcur, hget]
    rfl

/-- The search stops at its first CPU. -/
theorem searchTarget_cons_of_stopsAt {visited rest : List Nat} {cpu : Nat}
    (hstop : stopsAt t visited cpu = true) :
    searchTarget t (marks visited) (cpu :: rest) = searchEnd t [] (some cpu) := by
  simp only [stopsAt, Bool.and_eq_true, decide_eq_true_eq] at hstop
  obtain ⟨hcur, hmem⟩ := hstop
  rw [searchTarget, if_neg hcur]
  by_cases hlt : t.cpuToNode cpu < MAXNUMA
  · rw [getElem?_marks_of_lt hlt, if_neg hmem]
    simp [searchEnd, hlt]
  · rw [getElem?_marks_of_le (Nat.not_lt.mp hlt)]
    simp [searchEnd, hlt]

/-- A search passes over nodes that have had their turn, and it stops at the
first CPU of another node. -/
theorem searchTarget_eq {visited : List Nat} (hvisited : ∀ n ∈ visited, n < MAXNUMA)
    (cpus : List Nat) : ∃ passed, (∀ n ∈ passed, n ∈ visited) ∧
      searchTarget t (marks visited) cpus =
        searchEnd t passed (cpus.find? (stopsAt t visited)) := by
  induction cpus with
  | nil => exact ⟨[], by simp, rfl⟩
  | cons cpu rest ih =>
    obtain ⟨passed, hpassed, heq⟩ := ih
    cases hstop : stopsAt t visited cpu with
    | true =>
      rw [List.find?_cons_of_pos hstop]
      exact ⟨[], by simp, searchTarget_cons_of_stopsAt hstop⟩
    | false =>
      rw [List.find?_cons_of_neg (by simp [hstop])]
      obtain hskip | ⟨hmem, hpass⟩ := searchTarget_cons_of_not_stopsAt hvisited hstop
      · exact ⟨passed, hpassed, hskip.trans heq⟩
      · refine ⟨t.cpuToNode cpu :: passed, List.forall_mem_cons.mpr ⟨hmem, hpassed⟩, ?_⟩
        rw [hpass, heq, searchEnd_cons]

/-- When the first `j` reachable nodes have had their turn, the search stops at
a CPU of the next one. -/
theorem find?_stopsAt (t : Topology) (j : Nat) :
    (t.online.find? (stopsAt t ((reachableNodes t).take j))).map t.cpuToNode =
      (reachableNodes t)[j]? := by
  rw [reachableNodes, ← find?_not_mem_take_firstSeen, List.find?_map, List.find?_filter]
  congr 2
  funext cpu
  simp [stopsAt]

/-! ## The rounds of the node loop -/

/-- One round sends its IPIs to an online CPU other than the current one and
stays within `numa[]`. -/
def Iteration.Good (t : Topology) (it : Iteration) : Prop :=
  (∃ cpu ∈ t.online, it.target = some cpu ∧ cpu ≠ t.current) ∧ ∀ i ∈ it.indices, i < MAXNUMA

/-- Every round is good, and no two rounds have targets on one node. -/
def GoodTargets (t : Topology) (its : List Iteration) : Prop :=
  (∀ it ∈ its, it.Good t) ∧
    its.Pairwise fun a b => a.target.map t.cpuToNode ≠ b.target.map t.cpuToNode

instance (it : Iteration) : Decidable (it.Good t) :=
  inferInstanceAs (Decidable ((∃ cpu ∈ t.online, _) ∧ ∀ i ∈ it.indices, _))

instance (its : List Iteration) : Decidable (GoodTargets t its) :=
  inferInstanceAs (Decidable ((∀ it ∈ its, it.Good t) ∧ List.Pairwise _ its))

variable (t)

/-- The nodes that the rounds from the `j`-th on send to, if all goes well:
there are `left` of them, and they all have an entry in `numa[]`. -/
def RoomFor (j left : Nat) : Prop :=
  j + left ≤ (reachableNodes t).length ∧
    ∀ node ∈ ((reachableNodes t).drop j).take left, node < MAXNUMA

instance (j left : Nat) : Decidable (RoomFor t j left) :=
  inferInstanceAs (Decidable (_ ≤ _ ∧ ∀ node ∈ ((reachableNodes t).drop j).take left, _))

variable {t}

theorem roomFor_succ {j left : Nat} :
    RoomFor t j (left + 1) ↔
      ∃ node, (reachableNodes t)[j]? = some node ∧ node < MAXNUMA ∧ RoomFor t (j + 1) left := by
  unfold RoomFor
  constructor
  · rintro ⟨hlen, hall⟩
    have hj : j < (reachableNodes t).length := by omega
    rw [List.drop_eq_getElem_cons hj, List.take_succ_cons, List.forall_mem_cons] at hall
    exact ⟨_, List.getElem?_eq_getElem hj, hall.1, by omega, hall.2⟩
  · rintro ⟨node, hget, hnode, hlen, hall⟩
    obtain ⟨hj, rfl⟩ := List.getElem?_eq_some_iff.mp hget
    refine ⟨by omega, ?_⟩
    rw [List.drop_eq_getElem_cons hj, List.take_succ_cons, List.forall_mem_cons]
    exact ⟨hnode, hall⟩

/-- What one round of the node loop does when the first `j` reachable nodes
have had their turn. -/
inductive Round (t : Topology) (j left : Nat) : List Iteration → Prop where
  /-- no CPU is left, and the target is no CPU at all -/
  | exhausted {it rest} (hnode : (reachableNodes t)[j]? = none)
      (htarget : it.target = some t.nrCpuIds) : Round t j left (it :: rest)
  /-- the next node has no entry in `numa[]` -/
  | left {it node} (hnode : (reachableNodes t)[j]? = some node) (hle : MAXNUMA ≤ node)
      (hindex : node ∈ it.indices) : Round t j left [it]
  /-- the next node gets its IPIs -/
  | sent {it cpu} (hnode : (reachableNodes t)[j]? = some (t.cpuToNode cpu))
      (hlt : t.cpuToNode cpu < MAXNUMA) (htarget : it.target = some cpu)
      (hgood : it.Good t) :
      Round t j left (it :: nodeLoop t left (marks ((reachableNodes t).take (j + 1))))

theorem round_of_nodeLoop (j left : Nat)
    (hvisited : ∀ n ∈ (reachableNodes t).take j, n < MAXNUMA) :
    Round t j left (nodeLoop t (left + 1) (marks ((reachableNodes t).take j))) := by
  obtain ⟨passed, hpassed, hsearch⟩ := searchTarget_eq hvisited t.online
  have hnode := find?_stopsAt t j
  cases hfind : t.online.find? (stopsAt t ((reachableNodes t).take j)) with
  | none =>
    rw [hfind, Option.map_none] at hnode
    rw [hfind] at hsearch
    simp only [nodeLoop, hsearch, searchEnd]
    exact .exhausted hnode.symm rfl
  | some cpu =>
    rw [hfind, Option.map_some] at hnode
    rw [hfind] at hsearch
    by_cases hlt : t.cpuToNode cpu < MAXNUMA
    · have hstop := List.find?_some hfind
      simp only [stopsAt, Bool.and_eq_true, decide_eq_true_eq] at hstop
      have hnext : (reachableNodes t).take (j + 1) =
          (reachableNodes t).take j ++ [t.cpuToNode cpu] := by
        rw [List.take_add_one, ← hnode]
        rfl
      simp only [nodeLoop, hsearch, searchEnd, hlt, if_true, length_marks, set_marks, ← hnext]
      refine .sent hnode.symm hlt rfl ⟨⟨cpu, List.mem_of_find?_eq_some hfind, rfl, hstop.1⟩, ?_⟩
      intro i hi
      simp only [List.mem_append, List.mem_singleton] at hi
      obtain (hi | rfl) | rfl := hi
      · exact hvisited i (hpassed i hi)
      · exact hlt
      · exact hlt
    · simp only [nodeLoop, hsearch, searchEnd, hlt, if_false]
      exact .left hnode.symm (Nat.not_lt.mp hlt) (by simp)

theorem forall_take_succ {j node : Nat} (hnode : (reachableNodes t)[j]? = some node)
    (hlt : node < MAXNUMA) (hvisited : ∀ n ∈ (reachableNodes t).take j, n < MAXNUMA) :
    ∀ n ∈ (reachableNodes t).take (j + 1), n < MAXNUMA := by
  intro n hn
  rw [List.take_add_one, hnode] at hn
  obtain hn | hn := List.mem_append.mp hn
  · exact hvisited n hn
  · rw [Option.toList_some, List.mem_singleton] at hn
    exact hn ▸ hlt

/-- The rounds from the `j`-th on are good exactly when the nodes suffice for
them. -/
theorem good_nodeLoop_iff {left j : Nat} (hj : j ≤ (reachableNodes t).length)
    (hvisited : ∀ n ∈ (reachableNodes t).take j, n < MAXNUMA) :
    (∀ it ∈ nodeLoop t left (marks ((reachableNodes t).take j)), it.Good t) ↔
      RoomFor t j left := by
  induction left generalizing j with
  | zero => simp [nodeLoop, RoomFor, hj]
  | succ left ih =>
    rw [roomFor_succ]
    have hround := round_of_nodeLoop j left hvisited
    generalize nodeLoop t (left + 1) (marks ((reachableNodes t).take j)) = its at hround ⊢
    cases hround with
    | @exhausted it rest hnode htarget =>
      simp only [hnode, List.forall_mem_cons, reduceCtorEq, false_and, exists_false, iff_false]
      rintro ⟨⟨⟨cpu, hcpu, htarget', _⟩, _⟩, _⟩
      obtain rfl : t.nrCpuIds = cpu := Option.some.inj (htarget.symm.trans htarget')
      exact Nat.lt_irrefl _ (t.online_lt _ hcpu)
    | @left it node hnode hle hindex =>
      constructor
      · intro hgood
        have hlt := (hgood it List.mem_cons_self).2 node hindex
        exact absurd hlt (Nat.not_lt.mpr hle)
      · rintro ⟨next, hnext, hlt, _⟩
        obtain rfl : node = next := Option.some.inj (hnode.symm.trans hnext)
        exact absurd hlt (Nat.not_lt.mpr hle)
    | @sent it cpu hnode hlt htarget hgood =>
      obtain ⟨hlen, _⟩ := List.getElem?_eq_some_iff.mp hnode
      have ih := ih hlen (forall_take_succ hnode hlt hvisited)
      rw [List.forall_mem_cons, ih]
      simp only [hnode, Option.some.injEq, exists_eq_left', hlt, hgood, true_and]

/-- The targets are on the reachable nodes, in order. -/
theorem targets_nodeLoop {left j : Nat}
    (hvisited : ∀ n ∈ (reachableNodes t).take j, n < MAXNUMA) (hroom : RoomFor t j left) :
    (nodeLoop t left (marks ((reachableNodes t).take j))).map
        (fun it => it.target.map t.cpuToNode) =
      (((reachableNodes t).drop j).take left).map some := by
  induction left generalizing j with
  | zero => simp [nodeLoop]
  | succ left ih =>
    obtain ⟨next, hnext, hnextlt, hrest⟩ := roomFor_succ.mp hroom
    obtain ⟨hlen, hget⟩ := List.getElem?_eq_some_iff.mp hnext
    rw [List.drop_eq_getElem_cons hlen, List.take_succ_cons, List.map_cons, hget]
    have hround := round_of_nodeLoop j left hvisited
    generalize nodeLoop t (left + 1) (marks ((reachableNodes t).take j)) = its at hround ⊢
    cases hround with
    | exhausted hnode _ => cases hnode.symm.trans hnext
    | @left it node hnode hle _ =>
      obtain rfl : node = next := Option.some.inj (hnode.symm.trans hnext)
      exact absurd hnextlt (Nat.not_lt.mpr hle)
    | @sent it cpu hnode hlt htarget _ =>
      obtain rfl : t.cpuToNode cpu = next := Option.some.inj (hnode.symm.trans hnext)
      rw [List.map_cons, htarget, ih (forall_take_succ hnode hlt hvisited) hrest]
      rfl

/-- The rounds of a node loop have good targets on distinct nodes exactly when
there are as many reachable nodes as rounds and the first of them have an
entry in `numa[]`. -/
theorem goodTargets_nodeLoop (rounds : Nat) :
    GoodTargets t (nodeLoop t rounds (marks [])) ↔ RoomFor t 0 rounds := by
  have hnone : ∀ n ∈ (reachableNodes t).take 0, n < MAXNUMA := by simp
  have hgood : (∀ it ∈ nodeLoop t rounds (marks []), it.Good t) ↔ RoomFor t 0 rounds := by
    simpa only [List.take_zero] using good_nodeLoop_iff (Nat.zero_le _) hnone
  constructor
  · exact fun h => hgood.mp h.1
  · intro hroom
    have htargets := targets_nodeLoop hnone hroom
    rw [List.take_zero, List.drop_zero] at htargets
    refine ⟨hgood.mpr hroom, List.pairwise_map.mp ?_⟩
    rw [htargets]
    exact ((nodup_firstSeen _).sublist (List.take_sublist _ _)).map (Option.some_injective _)

/-- The IPIs of `bench` go to online CPUs other than the current one, on
distinct nodes, with every access to `numa[]` inside the array, exactly when
the machine has a CPU to send to on as many nodes as there are rounds, and the
first of these nodes, in the order of the CPUs, have numbers below
`MAXNUMA`. -/
theorem bench_goodTargets_iff (t : Topology) (nodes : Int) :
    GoodTargets t (bench t nodes) ↔
      rounds nodes ≤ (reachableNodes t).length ∧
        ∀ node ∈ (reachableNodes t).take (rounds nodes), node < MAXNUMA := by
  rw [bench, ← marks_nil, goodTargets_nodeLoop, RoomFor, Nat.zero_add, List.drop_zero]

/-- Two online CPUs on a node each, the first one running `bench`. -/
def twoNodes : Topology where
  online := [0, 1]
  nrCpuIds := 2
  cpuToNode cpu := cpu % 2
  current := 0
  sorted := by decide
  online_lt := by decide

/-- The second round finds no CPU and sends its IPIs to CPU `nr_cpu_ids`. -/
theorem target_not_online : ¬ GoodTargets twoNodes (bench twoNodes 2) := by
  decide

/-- The same for the benchmarks that `apic_ipi_init` runs, each of which may
find another machine. -/
theorem goodTargets_of_mem_apicIpiInit {options : BitVec 32} {nodes : Int}
    {topology : Nat → Topology} {run : String × List Iteration}
    (hrun : run ∈ apicIpiInit options nodes topology) :
    ∃ i, ipiFuncs[i]? = some run.1 ∧ options.getLsbD i = true ∧
      (GoodTargets (topology i) run.2 ↔ RoomFor (topology i) 0 (rounds nodes)) := by
  unfold apicIpiInit at hrun
  split_ifs at hrun
  · cases hrun
  · obtain ⟨⟨func, i⟩, hmem, rfl⟩ := List.mem_map.mp hrun
    obtain ⟨hfunc, hbit⟩ := List.mem_filter.mp hmem
    refine ⟨i, List.mem_zipIdx_iff_getElem?.mp hfunc, hbit, ?_⟩
    rw [bench, ← marks_nil, goodTargets_nodeLoop]

end KvmUtils.ApicIpi
