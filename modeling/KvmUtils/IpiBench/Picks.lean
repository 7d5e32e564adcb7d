import KvmUtils.IpiBench.Jobs

/-!
# The picks of the CPUs

`ipi_bench_mesh` and `ipi_bench_all` choose their CPUs by calls of
`__random_unused_cpu_in_cpumask`.  A call either returns a CPU that is not in
the `cpumask` and, if the `node` is not negative, belongs to it (`Fits`), or
gives up with `-1`.

A `Pick` is one such call: the arguments and the result.  `picksOf` is the
list of the calls that a loop makes.
-/

namespace KvmUtils.IpiBench

/-- The CPUs at both ends of a list of pairs. -/
def ends (cpus : List (Int × Int)) : List Int := cpus.flatMap fun pair => [pair.1, pair.2]

/-- An online CPU that is not in the `cpumask` and, if `node` is not negative,
belongs to it. -/
def Topology.Fits (topo : Topology) (cpumask : Finset Int) (node cpu : Int) : Prop :=
  0 ≤ cpu ∧ cpu < topo.numCpus ∧ cpu ∉ cpumask ∧ (0 ≤ node → topo.cpuToNode cpu = node)

section RandomUnusedCpu

variable {topo : Topology} {random : Nat → UInt64} {cpumask : Finset Int} {node : Int}

/-- A pick gives up and leaves the `cpumask` alone, or returns a CPU that fits
and adds it. -/
theorem randomUnusedCpuLoop_spec (hn : 0 < topo.numCpus) (random : Nat → UInt64)
    (cpumask : Finset Int) (node : Int) (retry pos : Nat) :
    (randomUnusedCpuLoop topo random node retry pos cpumask).1 = -1 ∧
        (randomUnusedCpuLoop topo random node retry pos cpumask).2.1 = cpumask ∨
      topo.Fits cpumask node (randomUnusedCpuLoop topo random node retry pos cpumask).1 ∧
        (randomUnusedCpuLoop topo random node retry pos cpumask).2.1 =
          insert (randomUnusedCpuLoop topo random node retry pos cpumask).1 cpumask := by
  induction retry generalizing pos with
  | zero => exact Or.inl ⟨rfl, rfl⟩
  | succ retry ih =>
    simp only [randomUnusedCpuLoop]
    split_ifs with hused hnode
    · exact ih (pos + 1)
    · exact ih (pos + 1)
    · refine Or.inr ⟨⟨?_, ?_, hused, fun hpos => ?_⟩, rfl⟩
      · exact Int.emod_nonneg _ (by omega)
      · exact Int.emod_lt_of_pos _ (by omega)
      · by_contra hne
        exact hnode ⟨hpos, hne⟩

theorem randomUnusedCpu_spec (hn : 0 < topo.numCpus) {pos pos' : Nat} {cpu : Int}
    {cpumask' : Finset Int} (hpick : randomUnusedCpu topo random cpumask node pos =
      (cpu, cpumask', pos')) :
    cpu = -1 ∧ cpumask' = cpumask ∨ topo.Fits cpumask node cpu ∧ cpumask' = insert cpu cpumask := by
  have hspec := randomUnusedCpuLoop_spec hn random cpumask node RETRY pos
  rw [randomUnusedCpu] at hpick
  rwa [hpick] at hspec

/-- A pick that returns a CPU returns one that fits. -/
theorem fits_of_pick (hn : 0 < topo.numCpus) {pos pos' : Nat} {cpu : Int}
    {cpumask' : Finset Int} (hpick : randomUnusedCpu topo random cpumask node pos =
      (cpu, cpumask', pos')) (hcpu : ¬ cpu < 0) :
    topo.Fits cpumask node cpu ∧ cpumask' = insert cpu cpumask := by
  rcases randomUnusedCpu_spec hn hpick with ⟨hfail, -⟩ | hfits
  · omega
  · exact hfits

/-- The only negative result of a pick is `-1`. -/
theorem pick_neg_iff (hn : 0 < topo.numCpus) {pos pos' : Nat} {cpu : Int}
    {cpumask' : Finset Int} (hpick : randomUnusedCpu topo random cpumask node pos =
      (cpu, cpumask', pos')) : cpu < 0 ↔ cpu = -1 := by
  constructor
  · intro hneg
    rcases randomUnusedCpu_spec hn hpick with ⟨hfail, -⟩ | ⟨hfits, -⟩
    · exact hfail
    · exact absurd hneg (not_lt.mpr hfits.1)
  · rintro rfl
    decide

end RandomUnusedCpu

/-! ## The calls of a loop -/

/-- A call of `__random_unused_cpu_in_cpumask`: the `cpumask` and the `node`
that it is given, and the CPU that it returns. -/
structure Pick where
  cpumask : Finset Int
  node : Int
  cpu : Int

/-- The two calls in one turn of the loop of `ipi_bench_mesh`. -/
def meshCalls (topo : Topology) (acrossnuma : Bool) (random : Nat → UInt64) (st : Picking) :
    List Pick :=
  let (src, cpumask, pos) := randomUnusedCpu topo random st.cpumask (-1) st.pos
  let node := if acrossnuma then st.node else topo.cpuToNode src
  let (dst, _, _) := randomUnusedCpu topo random cpumask node pos
  [⟨st.cpumask, -1, src⟩, ⟨cpumask, node, dst⟩]

/-- The call in one turn of the loop of `ipi_bench_all`. -/
def allCalls (topo : Topology) (random : Nat → UInt64) (st : Picking) : List Pick :=
  let (src, _, _) := randomUnusedCpu topo random st.cpumask (-1) st.pos
  [⟨st.cpumask, -1, src⟩]

/-- The calls in `n` turns of a loop, which ends with the first turn that
fails. -/
def picksOf (turn : Picking → Option ((Int × Int) × Picking)) (calls : Picking → List Pick) :
    Nat → Picking → List Pick
  | 0, _ => []
  | n + 1, st =>
    calls st ++
      match turn st with
      | none => []
      | some (_, st) => picksOf turn calls n st

/-- The calls of `ipi_bench_mesh`. -/
def meshPicks (topo : Topology) (pairs : Int) (acrossnuma : Bool) (random : Nat → UInt64) :
    List Pick :=
  picksOf (meshTurn topo acrossnuma random) (meshCalls topo acrossnuma random) pairs.toNat
    Picking.start

/-- The calls of `ipi_bench_all`. -/
def allPicks (topo : Topology) (broadcasts : Int) (random : Nat → UInt64) : List Pick :=
  picksOf (allTurn topo random) (allCalls topo random) broadcasts.toNat Picking.start

/-- If a turn fails exactly when one of its picks does, then so does the
loop. -/
theorem pickLoop_eq_none_iff {turn : Picking → Option ((Int × Int) × Picking)}
    {calls : Picking → List Pick}
    (hturn : ∀ st, turn st = none ↔ ∃ pick ∈ calls st, pick.cpu = -1) {n : Nat} {st : Picking} :
    pickLoop turn n st = none ↔ ∃ pick ∈ picksOf turn calls n st, pick.cpu = -1 := by
  induction n generalizing st with
  | zero => simp [pickLoop, picksOf]
  | succ n ih =>
    rw [pickLoop, picksOf]
    cases hst : turn st with
    | none =>
      rw [List.append_nil]
      exact iff_of_true rfl ((hturn st).mp hst)
    | some next =>
      have hfine : ¬ ∃ pick ∈ calls st, pick.cpu = -1 := by
        rw [← hturn st, hst]
        simp
      simp only [Option.map_eq_none_iff, ih, List.mem_append]
      constructor
      · rintro ⟨pick, hmem, hfail⟩
        exact ⟨pick, Or.inr hmem, hfail⟩
      · rintro ⟨pick, hmem | hmem, hfail⟩
        · exact absurd ⟨pick, hmem, hfail⟩ hfine
        · exact ⟨pick, hmem, hfail⟩

section Turns

variable {topo : Topology} {random : Nat → UInt64} {acrossnuma : Bool} {st st' : Picking}

/-- The first pick of a turn of `ipi_bench_mesh`. -/
def firstPick (topo : Topology) (random : Nat → UInt64) (st : Picking) : Int × Finset Int × Nat :=
  randomUnusedCpu topo random st.cpumask (-1) st.pos

/-- The second pick of such a turn, when the first one has returned
`picked`. -/
def secondPick (topo : Topology) (acrossnuma : Bool) (random : Nat → UInt64) (st : Picking)
    (picked : Int × Finset Int × Nat) : Int × Finset Int × Nat :=
  randomUnusedCpu topo random picked.2.1
    (if acrossnuma then st.node else topo.cpuToNode picked.1) picked.2.2

theorem meshCalls_eq {picked picked' : Int × Finset Int × Nat}
    (hfirst : firstPick topo random st = picked)
    (hsecond : secondPick topo acrossnuma random st picked = picked') :
    meshCalls topo acrossnuma random st = [⟨st.cpumask, -1, picked.1⟩,
      ⟨picked.2.1, if acrossnuma then st.node else topo.cpuToNode picked.1, picked'.1⟩] := by
  obtain ⟨src, cpumask, pos⟩ := picked
  obtain ⟨dst, cpumask', pos'⟩ := picked'
  unfold firstPick at hfirst
  unfold secondPick at hsecond
  unfold meshCalls
  rw [hfirst]
  simp only at hsecond ⊢
  rw [hsecond]

theorem meshTurn_eq {picked picked' : Int × Finset Int × Nat}
    (hfirst : firstPick topo random st = picked)
    (hsecond : secondPick topo acrossnuma random st picked = picked') :
    meshTurn topo acrossnuma random st =
      if picked.1 < 0 ∨ picked'.1 < 0 then none else some ((picked.1, picked'.1),
        ⟨picked'.2.2, picked'.2.1,
          if acrossnuma then st.node else topo.cpuToNode picked.1⟩) := by
  obtain ⟨src, cpumask, pos⟩ := picked
  obtain ⟨dst, cpumask', pos'⟩ := picked'
  unfold firstPick at hfirst
  unfold secondPick at hsecond
  unfold meshTurn
  rw [hfirst]
  simp only at hsecond ⊢
  rw [hsecond]

theorem meshTurn_eq_none_iff (hn : 0 < topo.numCpus) :
    meshTurn topo acrossnuma random st = none ↔
      ∃ pick ∈ meshCalls topo acrossnuma random st, pick.cpu = -1 := by
  rcases hfirst : firstPick topo random st with ⟨src, cpumask, pos⟩
  rcases hsecond : secondPick topo acrossnuma random st (src, cpumask, pos) with
    ⟨dst, cpumask', pos'⟩
  rw [meshTurn_eq hfirst hsecond, meshCalls_eq hfirst hsecond]
  simp only [pick_neg_iff hn hfirst, pick_neg_iff hn hsecond, List.mem_cons, List.not_mem_nil,
    or_false, exists_eq_or_imp, exists_eq_left]
  exact ite_eq_left_iff.trans (by simp [or_iff_not_imp_left])

theorem allTurn_eq_none_iff (hn : 0 < topo.numCpus) :
    allTurn topo random st = none ↔ ∃ pick ∈ allCalls topo random st, pick.cpu = -1 := by
  unfold allTurn allCalls
  rcases hsrc : randomUnusedCpu topo random st.cpumask (-1) st.pos with ⟨src, cpumask, pos⟩
  simp only [pick_neg_iff hn hsrc]
  simp

/-- What a turn of `ipi_bench_mesh` that does not fail has picked. -/
structure MeshTurned (topo : Topology) (acrossnuma : Bool) (st : Picking) (cpus : Int × Int)
    (st' : Picking) : Prop where
  src : topo.Fits st.cpumask (-1) cpus.1
  dst : topo.Fits (insert cpus.1 st.cpumask) st'.node cpus.2
  cpumask : st'.cpumask = insert cpus.2 (insert cpus.1 st.cpumask)
  node : st'.node = if acrossnuma then st.node else topo.cpuToNode cpus.1

theorem meshTurned_of_turn (hn : 0 < topo.numCpus) {cpus : Int × Int}
    (h : meshTurn topo acrossnuma random st = some (cpus, st')) :
    MeshTurned topo acrossnuma st cpus st' := by
  rcases hfirst : firstPick topo random st with ⟨src, cpumask, pos⟩
  rcases hsecond : secondPick topo acrossnuma random st (src, cpumask, pos) with
    ⟨dst, cpumask', pos'⟩
  rw [meshTurn_eq hfirst hsecond] at h
  by_cases hfail : src < 0 ∨ dst < 0
  · rw [if_pos hfail] at h
    cases h
  · rw [if_neg hfail] at h
    cases h
    rw [not_or] at hfail
    obtain ⟨hfits, rfl⟩ := fits_of_pick hn hfirst hfail.1
    obtain ⟨hfits', rfl⟩ := fits_of_pick hn hsecond hfail.2
    exact ⟨hfits, hfits', rfl, rfl⟩

theorem allTurn_spec (hn : 0 < topo.numCpus) {cpus : Int × Int} :
    allTurn topo random st = some (cpus, st') →
      topo.Fits st.cpumask (-1) cpus.1 ∧ st'.cpumask = insert cpus.1 st.cpumask := by
  unfold allTurn
  rcases hsrc : randomUnusedCpu topo random st.cpumask (-1) st.pos with ⟨src, cpumask, pos⟩
  simp only
  by_cases hfail : src < 0
  · rw [if_pos hfail]
    exact nofun
  · rw [if_neg hfail]
    intro h
    cases h
    exact fits_of_pick hn hsrc hfail

end Turns

end KvmUtils.IpiBench
