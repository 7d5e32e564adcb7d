import Mathlib.Data.Finset.Insert

/-!
# The benchmarks of one load

`ipi_bench_init` runs up to four benchmarks, one after the other, as the bits
of `options` ask.  A benchmark is embedded as a `Job`: the thread function its
workers run, the number it stores in `should_run`, and the choice of the CPUs
its workers are bound to.  `ipi_bench_mesh` and `ipi_bench_all` draw those CPUs
at random and may fail.

`random` is the stream of values that `__random` returns in the course of a
benchmark.
-/

namespace KvmUtils.IpiBench

def SELF_IPI : UInt32 := (1 : UInt32) <<< 0
def SINGLE_IPI : UInt32 := (1 : UInt32) <<< 1
def MESH_IPI : UInt32 := (1 : UInt32) <<< 2
def ALL_IPI : UInt32 := (1 : UInt32) <<< 3

/-- The module parameters, as `ipi_bench_init_params` leaves them.  `wait` and
`acrossnuma` are read as truth values. -/
structure Params where
  loops : Int
  srccpu : Int
  dstcpu : Int
  pairs : Int
  acrossnuma : Bool
  broadcasts : Int
  wait : Bool
  options : UInt32

/-- The CPUs of the machine: the value of `num_online_cpus` and
`cpu_to_node`. -/
structure Topology where
  numCpus : Nat
  cpuToNode : Int → Int

/-- The loop of `__random_unused_cpu_in_cpumask` with `retry` turns left, from
the `pos`-th random value on.  The result is the CPU, or `-1`, with the new
`cpumask` and the new position. -/
def randomUnusedCpuLoop (topo : Topology) (random : Nat → UInt64) (node : Int) :
    Nat → Nat → Finset Int → Int × Finset Int × Nat
  | 0, pos, cpumask => (-1, cpumask, pos)
  | retry + 1, pos, cpumask =>
    let cpu : Int := (random pos).toNat % topo.numCpus
    if cpu ∈ cpumask then randomUnusedCpuLoop topo random node retry (pos + 1) cpumask
    else if 0 ≤ node ∧ topo.cpuToNode cpu ≠ node then
      randomUnusedCpuLoop topo random node retry (pos + 1) cpumask
    else (cpu, insert cpu cpumask, pos + 1)

/-- The first value of `retry`.  It is irreducible, so that no proof unfolds
the loop a hundred thousand times. -/
@[irreducible] def RETRY : Nat := 100000

/-- `__random_unused_cpu_in_cpumask`. -/
def randomUnusedCpu (topo : Topology) (random : Nat → UInt64) (cpumask : Finset Int)
    (node : Int) (pos : Nat) : Int × Finset Int × Nat :=
  randomUnusedCpuLoop topo random node RETRY pos cpumask

/-- What the loops that choose CPUs carry from one turn to the next: the
position in the random stream, the `cpumask` and the local `node`. -/
structure Picking where
  pos : Nat
  cpumask : Finset Int
  node : Int

/-- As `ipi_bench_mesh` and `ipi_bench_all` start. -/
def Picking.start : Picking where
  pos := 0
  cpumask := ∅
  node := -1

/-- One turn of the loop of `ipi_bench_mesh` that builds the pairs.  `none` is
`init mesh failed`. -/
def meshTurn (topo : Topology) (acrossnuma : Bool) (random : Nat → UInt64) (st : Picking) :
    Option ((Int × Int) × Picking) :=
  let (src, cpumask, pos) := randomUnusedCpu topo random st.cpumask (-1) st.pos
  let node := if acrossnuma then st.node else topo.cpuToNode src
  let (dst, cpumask, pos) := randomUnusedCpu topo random cpumask node pos
  if src < 0 ∨ dst < 0 then none else some ((src, dst), ⟨pos, cpumask, node⟩)

/-- One turn of the loop of `ipi_bench_all` that builds the workers.  `dst`
stays as `kzalloc` leaves it. -/
def allTurn (topo : Topology) (random : Nat → UInt64) (st : Picking) :
    Option ((Int × Int) × Picking) :=
  let (src, cpumask, pos) := randomUnusedCpu topo random st.cpumask (-1) st.pos
  if src < 0 then none else some ((src, 0), ⟨pos, cpumask, st.node⟩)

/-- `n` turns of such a loop.  The first one that fails ends it. -/
def pickLoop (turn : Picking → Option ((Int × Int) × Picking)) :
    Nat → Picking → Option (List (Int × Int))
  | 0, _ => some []
  | n + 1, st =>
    match turn st with
    | none => none
    | some (cpus, st) => (pickLoop turn n st).map (cpus :: ·)

/-- A loop that succeeds has a first turn that does. -/
theorem pickLoop_succ_eq_some {turn : Picking → Option ((Int × Int) × Picking)} {n : Nat}
    {st : Picking} {cpus : List (Int × Int)} :
    pickLoop turn (n + 1) st = some cpus ↔
      ∃ pair st' rest, turn st = some (pair, st') ∧ pickLoop turn n st' = some rest ∧
        pair :: rest = cpus := by
  rw [pickLoop]
  cases turn st with
  | none => simp
  | some result =>
    obtain ⟨pair, st'⟩ := result
    constructor
    · intro h
      obtain ⟨rest, hrest, hcpus⟩ := Option.map_eq_some_iff.mp h
      exact ⟨pair, st', rest, rfl, hrest, hcpus⟩
    · intro ⟨_, _, rest, hturn, hrest, hcpus⟩
      cases hturn
      exact Option.map_eq_some_iff.mpr ⟨rest, hrest, hcpus⟩

theorem length_pickLoop {turn : Picking → Option ((Int × Int) × Picking)} {n : Nat}
    {st : Picking} {cpus : List (Int × Int)} (h : pickLoop turn n st = some cpus) :
    cpus.length = n := by
  induction n generalizing st cpus with
  | zero =>
    obtain rfl := Option.some.inj h
    rfl
  | succ n ih =>
    obtain ⟨_, _, rest, -, hrest, rfl⟩ := pickLoop_succ_eq_some.mp h
    rw [List.length_cons, ih hrest]

/-- The thread function of a worker: `ipi_bench_single_task` or
`ipi_bench_many_task`. -/
inductive Task where
  | single
  | many
  deriving DecidableEq, Repr

/-- One benchmark.  `shouldRun` is what it stores in `should_run`, and the
length of the array of `bench_args`.  `cpus` gives the `src` and `dst` of each
entry, and `timed` says whether the benchmark reads the clock around its
wait. -/
structure Job where
  task : Task
  timed : Bool
  shouldRun : Int
  cpus : (Nat → UInt64) → Option (List (Int × Int))
  length_cpus : ∀ {random cpuList}, cpus random = some cpuList →
    cpuList.length = shouldRun.toNat

/-- `ipi_bench_self` and `ipi_bench_single`. -/
def benchPair (src dst : Int) : Job where
  task := .single
  timed := false
  shouldRun := 1
  cpus _ := some [(src, dst)]
  length_cpus h := by
    cases h
    rfl

def benchSelf (src : Int) : Job := benchPair src src

def benchSingle (src dst : Int) : Job := benchPair src dst

/-- `ipi_bench_mesh`. -/
def benchMesh (topo : Topology) (pairs : Int) (acrossnuma : Bool) : Job where
  task := .single
  timed := true
  shouldRun := pairs
  cpus random := pickLoop (meshTurn topo acrossnuma random) pairs.toNat Picking.start
  length_cpus h := length_pickLoop h

/-- `ipi_bench_all`. -/
def benchAll (topo : Topology) (broadcasts : Int) : Job where
  task := .many
  timed := true
  shouldRun := broadcasts
  cpus random := pickLoop (allTurn topo random) broadcasts.toNat Picking.start
  length_cpus h := length_pickLoop h

/-- `ipi_bench_init`: the benchmarks that the bits of `options` select, in
order. -/
def benchInit (topo : Topology) (p : Params) : List Job :=
  (if p.options &&& SELF_IPI ≠ 0 then [benchSelf p.srccpu] else []) ++
    (if p.options &&& SINGLE_IPI ≠ 0 then [benchSingle p.srccpu p.dstcpu] else []) ++
    (if p.options &&& MESH_IPI ≠ 0 then [benchMesh topo p.pairs p.acrossnuma] else []) ++
    (if p.options &&& ALL_IPI ≠ 0 then [benchAll topo p.broadcasts] else [])

end KvmUtils.IpiBench
