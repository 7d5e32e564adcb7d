import KvmUtils.IpiBench.CpuUses
import KvmUtils.IpiBench.Pairing
import KvmUtils.IpiBench.Params

/-!
# Only valid CPUs

The numbers of the online CPUs need not be consecutive, and a module parameter
need not be the number of a CPU at all.  `ipi_bench_init_params` compares
`srccpu` and `dstcpu` with `num_online_cpus` only, `__random() % num_cpus` is
taken for the number of an online CPU, and `ipi_bench_mesh` asks for the node
of `ba->src` before it looks whether there is one.

`valid_cpus_iff` says for which parameters and which sets of online CPUs no
run uses a number that is not that of an online CPU.
-/

namespace KvmUtils.IpiBench

open Function Machine

/-- The numbers of the online CPUs. -/
structure OnlineMask (topo : Topology) where
  cpus : Finset Int
  nonneg : ∀ cpu ∈ cpus, 0 ≤ cpu
  card_eq : cpus.card = topo.numCpus
  small : topo.numCpus < 2 ^ 31

/-- The numbers of the online CPUs are those below `num_online_cpus`. -/
def OnlineMask.Dense {topo : Topology} (mask : OnlineMask topo) : Prop :=
  ∀ cpu, topo.Drawable cpu → cpu ∈ mask.cpus

/-- A first pair for `ipi_bench_mesh` with `acrossnuma` equal to zero. -/
def Topology.HasPair (topo : Topology) : Prop :=
  ∃ src dst, topo.Drawable src ∧ topo.Drawable dst ∧ src ≠ dst ∧
    (0 ≤ topo.cpuToNode src → topo.cpuToNode dst = topo.cpuToNode src)

/-- The benchmarks that are selected have only online CPUs to use. -/
structure OnlineMask.Covers {topo : Topology} (mask : OnlineMask topo) (p : Params) : Prop where
  src : p.options &&& SELF_IPI ≠ 0 ∨ p.options &&& SINGLE_IPI ≠ 0 →
    ∀ cpu, p.SrcMayBe topo cpu → cpu ∈ mask.cpus
  dst : p.options &&& SINGLE_IPI ≠ 0 → ∀ cpu, p.DstMayBe topo cpu → cpu ∈ mask.cpus
  mesh : p.options &&& MESH_IPI ≠ 0 → 1 ≤ p.setPairs topo →
    mask.Dense ∧ (p.acrossnuma = true ∨ p.setPairs topo = 1 ∨ ¬ topo.HasPair)
  all : p.options &&& ALL_IPI ≠ 0 → 1 ≤ p.setBroadcasts → p.setBroadcasts ≤ topo.numCpus →
    mask.Dense

/-! ## What the benchmarks can choose -/

section Choices

variable {topo : Topology} {random : Nat → UInt64} {cpumask : Finset Int} {node : Int}
  {st : Picking} {n : Nat}

theorem drawable_iff_mem_online {cpu : Int} : topo.Drawable cpu ↔ cpu ∈ topo.online :=
  mem_online.symm

theorem drawable_of_mem_nodes (hn : 0 < topo.numCpus) {retry pos : Nat} {cpu : Int}
    (h : cpu ∈ randomUnusedCpuNodes topo random node retry pos cpumask) :
    topo.Drawable cpu := by
  induction retry generalizing pos with
  | zero => cases h
  | succ retry ih =>
    rw [randomUnusedCpuNodes] at h
    split_ifs at h with hused hnode hother
    · exact ih h
    · rcases List.mem_cons.mp h with rfl | h
      · exact drawable_draw hn _
      · exact ih h
    · obtain rfl := List.mem_singleton.mp h
      exact drawable_draw hn _
    · cases h

/-- Without a node, no node is asked for. -/
theorem randomUnusedCpuNodes_of_neg (hnode : node < 0) (retry pos : Nat) :
    randomUnusedCpuNodes topo random node retry pos cpumask = [] := by
  induction retry generalizing pos with
  | zero => rfl
  | succ retry ih =>
    rw [randomUnusedCpuNodes]
    split_ifs with hused hpos
    · exact ih (pos + 1)
    · omega
    · omega
    · rfl

/-- A pick that only draws CPUs of the `cpumask` gives up. -/
theorem randomUnusedCpuLoop_of_used {retry pos : Nat}
    (h : ∀ i, pos ≤ i → ((random i).toNat : Int) % topo.numCpus ∈ cpumask) :
    (randomUnusedCpuLoop topo random node retry pos cpumask).1 = -1 := by
  induction retry generalizing pos with
  | zero => rfl
  | succ retry ih =>
    rw [randomUnusedCpuLoop]
    simp only [if_pos (h pos (le_refl pos))]
    exact ih fun i hi => h i (by omega)

theorem fits_start {cpu : Int} : topo.Fits ∅ (-1) cpu ↔ topo.Drawable cpu := by
  unfold Topology.Fits Topology.Drawable
  simp

/-- The first pick of a benchmark succeeds at once. -/
theorem firstPick_start (hn : 0 < topo.numCpus) :
    topo.Drawable (firstPick topo random Picking.start).1 := by
  have hdraw := drawable_draw hn (random 0)
  have hpick : firstPick topo random Picking.start = _ :=
    randomUnusedCpu_of_draw rfl (fits_start.mpr hdraw)
  rw [hpick]
  exact hdraw

theorem meshTurnNodes_eq {acrossnuma : Bool} {picked : Int × Finset Int × Nat}
    (hfirst : firstPick topo random st = picked) :
    meshTurnNodes topo acrossnuma random st =
      (if acrossnuma then [] else [picked.1]) ++ randomUnusedCpuNodes topo random
        (if acrossnuma then st.node else topo.cpuToNode picked.1) RETRY picked.2.2 picked.2.1 := by
  obtain ⟨src, cpumask, pos⟩ := picked
  unfold firstPick at hfirst
  unfold meshTurnNodes
  rw [hfirst, randomUnusedCpuNodes_of_neg (by decide)]
  rfl

/-- A turn of `ipi_bench_mesh` asks for the nodes of CPUs that can be drawn,
and of its `src`. -/
theorem mem_meshTurnNodes (hn : 0 < topo.numCpus) {acrossnuma : Bool} {cpu : Int}
    (h : cpu ∈ meshTurnNodes topo acrossnuma random st) :
    acrossnuma = false ∧ cpu = (firstPick topo random st).1 ∨ topo.Drawable cpu := by
  rw [meshTurnNodes_eq rfl] at h
  rcases List.mem_append.mp h with hsrc | hdraw
  · cases acrossnuma with
    | true => cases hsrc
    | false => exact Or.inl ⟨rfl, List.mem_singleton.mp hsrc⟩
  · exact Or.inr (drawable_of_mem_nodes hn hdraw)

theorem drawable_of_mem_meshTurnNodes_start (hn : 0 < topo.numCpus) {acrossnuma : Bool} {cpu : Int}
    (h : cpu ∈ meshTurnNodes topo acrossnuma random Picking.start) : topo.Drawable cpu := by
  rcases mem_meshTurnNodes hn h with ⟨-, rfl⟩ | hdraw
  · exact firstPick_start hn
  · exact hdraw

/-- If no two CPUs make a pair, then the first turn fails. -/
theorem meshTurn_start_eq_none (hn : 0 < topo.numCpus) (h : ¬ topo.HasPair) :
    meshTurn topo false random Picking.start = none := by
  cases hturn : meshTurn topo false random Picking.start with
  | none => rfl
  | some next =>
    obtain ⟨⟨src, dst⟩, st'⟩ := next
    have hturned := meshTurned_of_turn hn hturn
    obtain ⟨hsrcPos, hsrcLt, -, -⟩ := hturned.src
    obtain ⟨hdstPos, hdstLt, hunused, hnode⟩ := hturned.dst
    have hst : st'.node = topo.cpuToNode src := hturned.node
    rw [hst] at hnode
    refine absurd ⟨src, dst, ⟨hsrcPos, hsrcLt⟩, ⟨hdstPos, hdstLt⟩, ?_, hnode⟩ h
    rintro rfl
    exact hunused (Finset.mem_insert_self _ _)

/-- `ipi_bench_mesh` asks for the nodes of CPUs that can be drawn only, if no
pick of a `src` can fail. -/
theorem drawable_of_mem_mesh_nodes (hn : 0 < topo.numCpus) {pairs : Int} {acrossnuma : Bool}
    (h : acrossnuma = true ∨ pairs = 1 ∨ ¬ topo.HasPair) {cpu : Int}
    (hcpu : cpu ∈ (Bench.mesh topo pairs acrossnuma).nodes random) : topo.Drawable cpu := by
  have hacross : ∀ n st, cpu ∈ nodesOf (meshTurn topo true random)
      (meshTurnNodes topo true random) n st → topo.Drawable cpu := by
    intro n
    induction n with
    | zero => exact fun _ => nofun
    | succ n ih =>
      intro st hmem
      rcases List.mem_append.mp hmem with hturn | hrest
      · exact (mem_meshTurnNodes hn hturn).resolve_left fun h => by cases h.1
      · split at hrest
        · cases hrest
        · exact ih _ hrest
  replace hcpu : cpu ∈ nodesOf (meshTurn topo acrossnuma random)
    (meshTurnNodes topo acrossnuma random) pairs.toNat Picking.start := hcpu
  cases acrossnuma with
  | true => exact hacross _ _ hcpu
  | false =>
    cases hpairs : pairs.toNat with
    | zero =>
      rw [hpairs] at hcpu
      cases hcpu
    | succ n =>
      rw [hpairs] at hcpu
      rcases List.mem_append.mp hcpu with hturn | hrest
      · exact drawable_of_mem_meshTurnNodes_start hn hturn
      · rcases h with hfalse | hone | hpair
        · cases hfalse
        · obtain rfl : n = 0 := by omega
          split at hrest <;> cases hrest
        · rw [meshTurn_start_eq_none hn hpair] at hrest
          cases hrest

/-- `ipi_bench_all` asks for no node while it chooses its CPUs. -/
theorem all_nodes {broadcasts : Int} : (Bench.all topo broadcasts).nodes random = [] := by
  have hall : ∀ n st, nodesOf (allTurn topo random) (allTurnNodes topo random) n st = [] := by
    intro n
    induction n with
    | zero => exact fun _ => rfl
    | succ n ih =>
      intro st
      rw [nodesOf, allTurnNodes, randomUnusedCpuNodes_of_neg (by decide)]
      split
      · rfl
      · exact ih _
  exact hall _ _

end Choices

/-! ## Streams of random values that succeed -/

section Streams

variable {topo : Topology} {random : Nat → UInt64} {n : Nat} {cpus : List Int}

/-- `ipi_bench_mesh` takes distinct CPUs as they are drawn, two for a turn. -/
theorem pickLoop_mesh_of_draws (st : Picking) (hnode : st.node = -1) (hlen : cpus.length = 2 * n)
    (hnodup : cpus.Nodup) (hunused : ∀ cpu ∈ cpus, cpu ∈ topo.unused st.cpumask)
    (hdraws : Draws topo random st.pos cpus) :
    ∃ pairs, pickLoop (meshTurn topo true random) n st = some pairs ∧ ends pairs = cpus := by
  induction n generalizing st cpus with
  | zero =>
    obtain rfl := List.eq_nil_of_length_eq_zero hlen
    exact ⟨[], rfl, rfl⟩
  | succ n ih =>
    match cpus, hlen with
    | src :: dst :: rest, hlen =>
      obtain ⟨hdraw, hdraws⟩ := draws_cons.mp hdraws
      obtain ⟨hdraw', hdraws⟩ := draws_cons.mp hdraws
      obtain ⟨hsrc, hnodup⟩ := List.nodup_cons.mp hnodup
      obtain ⟨hdst, hnodup⟩ := List.nodup_cons.mp hnodup
      rw [List.forall_mem_cons, List.forall_mem_cons] at hunused
      obtain ⟨hsrcUnused, hdstUnused, hrestUnused⟩ := hunused
      rw [List.mem_cons, not_or] at hsrc
      have hsrcFits := fits_iff_mem_unused.mpr hsrcUnused
      have hdstFits : topo.Fits (insert src st.cpumask) (-1) dst := by
        rw [fits_iff_mem_unused, unused_insert]
        exact Finset.mem_erase.mpr ⟨fun heq => hsrc.1 heq.symm, hdstUnused⟩
      have hfirst : firstPick topo random st = (src, insert src st.cpumask, st.pos + 1) :=
        randomUnusedCpu_of_draw hdraw hsrcFits
      have hsecond : secondPick topo true random st (src, insert src st.cpumask, st.pos + 1) =
          (dst, insert dst (insert src st.cpumask), st.pos + 1 + 1) := by
        unfold secondPick
        rw [if_pos rfl, hnode]
        exact randomUnusedCpu_of_draw hdraw' hdstFits
      have hgo : ¬ (src < 0 ∨ dst < 0) :=
        not_or.mpr ⟨not_lt.mpr hsrcFits.1, not_lt.mpr hdstFits.1⟩
      have hrest : rest.length = 2 * n := by
        simp only [List.length_cons] at hlen
        omega
      obtain ⟨pairs, hpairs, hends⟩ := ih ⟨st.pos + 1 + 1,
        insert dst (insert src st.cpumask), st.node⟩ hnode hrest hnodup
        (fun cpu hcpu => by
          rw [unused_insert, unused_insert, Finset.mem_erase, Finset.mem_erase]
          refine ⟨?_, ?_, hrestUnused cpu hcpu⟩
          · rintro rfl
            exact hdst hcpu
          · rintro rfl
            exact hsrc.2 hcpu) hdraws
      refine ⟨(src, dst) :: pairs, ?_, ?_⟩
      · refine pickLoop_succ_eq_some.mpr ⟨_, _, pairs, ?_, hpairs, rfl⟩
        rw [meshTurn_eq hfirst hsecond, if_neg hgo]
        simp only [if_true]
      · show src :: dst :: ends pairs = _
        rw [hends]

/-- `ipi_bench_all` takes distinct CPUs as they are drawn, one for a turn. -/
theorem pickLoop_all_of_draws (st : Picking) (hlen : cpus.length = n) (hnodup : cpus.Nodup)
    (hunused : ∀ cpu ∈ cpus, cpu ∈ topo.unused st.cpumask)
    (hdraws : Draws topo random st.pos cpus) :
    ∃ pairs, pickLoop (allTurn topo random) n st = some pairs ∧ pairs.map Prod.fst = cpus := by
  induction n generalizing st cpus with
  | zero =>
    obtain rfl := List.eq_nil_of_length_eq_zero hlen
    exact ⟨[], rfl, rfl⟩
  | succ n ih =>
    match cpus, hlen with
    | src :: rest, hlen =>
      obtain ⟨hdraw, hdraws⟩ := draws_cons.mp hdraws
      obtain ⟨hsrc, hnodup⟩ := List.nodup_cons.mp hnodup
      rw [List.forall_mem_cons] at hunused
      have hfits := fits_iff_mem_unused.mpr hunused.1
      have hpick : randomUnusedCpu topo random st.cpumask (-1) st.pos =
          (src, insert src st.cpumask, st.pos + 1) := randomUnusedCpu_of_draw hdraw hfits
      obtain ⟨pairs, hpairs, hsrcs⟩ := ih ⟨st.pos + 1, insert src st.cpumask, st.node⟩
        (Nat.succ.inj hlen) hnodup
        (fun cpu hcpu => by
          rw [unused_insert, Finset.mem_erase]
          refine ⟨?_, hunused.2 cpu hcpu⟩
          rintro rfl
          exact hsrc hcpu) hdraws
      refine ⟨(src, 0) :: pairs, ?_, ?_⟩
      · have hturn : allTurn topo random st =
            some ((src, 0), ⟨st.pos + 1, insert src st.cpumask, st.node⟩) := by
          unfold allTurn
          rw [hpick]
          exact if_neg (not_lt.mpr hfits.1)
        exact pickLoop_succ_eq_some.mpr ⟨_, _, pairs, hturn, hpairs, rfl⟩
      · rw [List.map_cons, hsrcs]

/-- Distinct CPUs that can be drawn, with a given one first. -/
theorem exists_nodup_from {cpu : Int} (hcpu : topo.Drawable cpu) {m : Nat} (hpos : 0 < m)
    (hm : m ≤ topo.numCpus) :
    ∃ rest : List Int, (cpu :: rest).length = m ∧ (cpu :: rest).Nodup ∧
      ∀ c ∈ cpu :: rest, c ∈ topo.online := by
  have hmem := drawable_iff_mem_online.mp hcpu
  refine ⟨(topo.online.erase cpu).toList.take (m - 1), ?_, ?_, ?_⟩
  · rw [List.length_cons, List.length_take, Finset.length_toList, Finset.card_erase_of_mem hmem,
      card_online]
    omega
  · refine List.nodup_cons.mpr ⟨fun h => ?_, ?_⟩
    · have herase := Finset.mem_toList.mp (List.mem_of_mem_take h)
      exact Finset.notMem_erase cpu _ herase
    · exact (Finset.nodup_toList _).sublist (List.take_sublist _ _)
  · rw [List.forall_mem_cons]
    refine ⟨hmem, fun c hc => ?_⟩
    exact Finset.mem_of_mem_erase (Finset.mem_toList.mp (List.mem_of_mem_take hc))

theorem unused_start : topo.unused Picking.start.cpumask = topo.online := Finset.sdiff_empty

/-- `ipi_bench_mesh` can start with any CPU that can be drawn. -/
theorem exists_mesh_from (hsize : topo.numCpus ≤ 2 ^ 64) {pairs : Int} (hpos : 1 ≤ pairs)
    (hpairs : pairs ≤ topo.numCpus / 2) {cpu : Int} (hcpu : topo.Drawable cpu) :
    ∃ random dst rest, (benchMesh topo pairs true).cpus random = some ((cpu, dst) :: rest) := by
  obtain ⟨rest, hlen, hnodup, honline⟩ :=
    exists_nodup_from hcpu (m := 2 * pairs.toNat) (by omega) (by omega)
  obtain ⟨random, hdraws⟩ := exists_random_of_draws hsize honline
  obtain ⟨chosen, hchosen, hends⟩ := pickLoop_mesh_of_draws Picking.start rfl hlen hnodup
    (by rwa [unused_start]) hdraws
  match chosen, hends with
  | pair :: others, hends =>
    obtain ⟨rfl, -⟩ := List.cons.inj hends
    exact ⟨random, pair.2, others, hchosen⟩

/-- `ipi_bench_all` can start with any CPU that can be drawn, if there are
CPUs for all workers. -/
theorem exists_all_from (hsize : topo.numCpus ≤ 2 ^ 64) {broadcasts : Int} (hpos : 1 ≤ broadcasts)
    (hle : broadcasts ≤ topo.numCpus) {cpu : Int} (hcpu : topo.Drawable cpu) :
    ∃ random dst rest, (benchAll topo broadcasts).cpus random = some ((cpu, dst) :: rest) := by
  obtain ⟨rest, hlen, hnodup, honline⟩ :=
    exists_nodup_from hcpu (m := broadcasts.toNat) (by omega) (by omega)
  obtain ⟨random, hdraws⟩ := exists_random_of_draws hsize honline
  obtain ⟨chosen, hchosen, hsrcs⟩ := pickLoop_all_of_draws Picking.start hlen hnodup
    (by rwa [unused_start]) hdraws
  match chosen, hsrcs with
  | pair :: others, hsrcs =>
    obtain ⟨rfl, -⟩ := List.cons.inj hsrcs
    exact ⟨random, pair.2, others, hchosen⟩

/-- `ipi_bench_mesh` with `acrossnuma` equal to zero asks for the node of any
CPU that can be drawn. -/
theorem exists_mesh_nodes_from (hsize : topo.numCpus ≤ 2 ^ 64) {pairs : Int} (hpos : 1 ≤ pairs)
    {cpu : Int} (hcpu : topo.Drawable cpu) :
    ∃ random, cpu ∈ (Bench.mesh topo pairs false).nodes random := by
  obtain ⟨n, hn⟩ : ∃ n, pairs.toNat = n + 1 := ⟨pairs.toNat - 1, by omega⟩
  refine ⟨fun _ => UInt64.ofNat cpu.toNat, ?_⟩
  have hfirst : firstPick topo (fun _ => UInt64.ofNat cpu.toNat) Picking.start = _ :=
    randomUnusedCpu_of_draw (mod_of_drawable hsize hcpu) (fits_start.mpr hcpu)
  unfold Bench.mesh
  simp only [hn]
  rw [nodesOf, meshTurnNodes_eq hfirst]
  exact List.mem_append_left _ (List.mem_append_left _ (List.mem_singleton.mpr rfl))

/-- If `ipi_bench_mesh` with `acrossnuma` equal to zero can come to a second
turn, then the pick of a `src` can fail there, and the node of CPU `-1` is
asked for. -/
theorem exists_mesh_nodes_neg (hsize : topo.numCpus ≤ 2 ^ 64) {pairs : Int} (hpairs : 2 ≤ pairs)
    (h : topo.HasPair) : ∃ random, -1 ∈ (Bench.mesh topo pairs false).nodes random := by
  obtain ⟨src, dst, hsrc, hdst, hne, hnode⟩ := h
  obtain ⟨n, hn⟩ : ∃ n, pairs.toNat = n + 1 + 1 := ⟨pairs.toNat - 2, by omega⟩
  obtain ⟨random, hrandom⟩ : ∃ random : Nat → UInt64, random = fun i =>
    if i = 1 then UInt64.ofNat dst.toNat else UInt64.ofNat src.toNat := ⟨_, rfl⟩
  have hdraw : ∀ i, i ≠ 1 → ((random i).toNat : Int) % topo.numCpus = src := by
    intro i hi
    rw [hrandom]
    simp only [if_neg hi]
    exact mod_of_drawable hsize hsrc
  have hdraw' : ((random 1).toNat : Int) % topo.numCpus = dst := by
    rw [hrandom]
    exact mod_of_drawable hsize hdst
  have hdstFits : topo.Fits {src} (topo.cpuToNode src) dst :=
    ⟨hdst.1, hdst.2, fun hmem => hne (Finset.mem_singleton.mp hmem).symm, hnode⟩
  have hfirst : firstPick topo random Picking.start = (src, {src}, 1) :=
    randomUnusedCpu_of_draw (hdraw 0 (by decide)) (fits_start.mpr hsrc)
  have hsecond : secondPick topo false random Picking.start (src, {src}, 1) =
      (dst, {dst, src}, 2) := randomUnusedCpu_of_draw hdraw' hdstFits
  have hgo : ¬ (src < 0 ∨ dst < 0) := not_or.mpr ⟨not_lt.mpr hsrc.1, not_lt.mpr hdst.1⟩
  -- the second turn draws a CPU that is in the `cpumask`, again and again
  have hfail : (firstPick topo random ⟨2, {dst, src}, topo.cpuToNode src⟩).1 = -1 := by
    refine randomUnusedCpuLoop_of_used fun i hi => ?_
    have hlate : 2 ≤ i := hi
    rw [hdraw i (by omega)]
    exact Finset.mem_insert_of_mem (Finset.mem_singleton_self src)
  refine ⟨random, ?_⟩
  unfold Bench.mesh
  simp only [hn]
  rw [nodesOf, meshTurn_eq hfirst hsecond, if_neg hgo]
  refine List.mem_append_right _ (List.mem_append_left _ ?_)
  rw [meshTurnNodes_eq rfl]
  exact List.mem_append_left _ (List.mem_singleton.mpr hfail.symm)

end Streams

/-! ## Benchmarks that use online CPUs only -/

/-- No step of any run uses a CPU outside of `S`. -/
def UsesWithin (p : Params) (bs : List Bench) (S : Finset Int) : Prop :=
  ∀ es s e s', exec (step p (bs.map Bench.job)) State.load es = some s →
    step p (bs.map Bench.job) s e = some s' → ∀ use ∈ usesOf bs s e, use.cpu ∈ S

section UsesWithin

variable {topo : Topology} {p : Params} {bs : List Bench} {bench : Bench} {S : Finset Int}

theorem getElem?_job {j : Nat} (h : bs[j]? = some bench) :
    (bs.map Bench.job)[j]? = some bench.job := by
  rw [List.getElem?_map, h]
  rfl

/-- A benchmark that gets its memory comes to the choice of its CPUs. -/
theorem UsesWithin.nodes (h : UsesWithin p bs S) (hbench : bench ∈ bs)
    (hlen : 0 ≤ bench.job.shouldRun) (random : Nat → UInt64) :
    ∀ cpu ∈ bench.nodes random, cpu ∈ S := by
  obtain ⟨j, hj⟩ := List.mem_iff_getElem?.mp hbench
  have hjob := getElem?_job hj
  obtain ⟨s', hst⟩ : ∃ s', step p (bs.map Bench.job) (State.building bench.job j)
      (.build random) = some s' := by
    have hcur : (bs.map Bench.job)[(State.building bench.job j).job]? = some bench.job := hjob
    simp only [step, buildStep, hcur]
    simp only [State.building]
    split
    · exact ⟨_, rfl⟩
    · exact ⟨_, rfl⟩
  intro cpu hcpu
  obtain ⟨es, hrun⟩ := reaches_building (p := p) hjob hlen
  refine h es _ _ _ hrun hst (.cpuToNode cpu) ?_
  have hcur : bs[(State.building bench.job j).job]? = some bench := hj
  simp only [usesOf, hcur]
  exact List.mem_map_of_mem hcpu

/-- A benchmark that has chosen its CPUs creates its first worker. -/
theorem UsesWithin.src (h : UsesWithin p bs S) (hbench : bench ∈ bs)
    {random : Nat → UInt64} {src dst : Int} {rest : List (Int × Int)}
    (hcpus : bench.job.cpus random = some ((src, dst) :: rest)) : src ∈ S := by
  obtain ⟨j, hj⟩ := List.mem_iff_getElem?.mp hbench
  have hjob := getElem?_job hj
  have hcount := bench.job.length_cpus hcpus
  rw [List.length_cons] at hcount
  have hlen : 0 < bench.job.shouldRun := by omega
  obtain ⟨s, hst, hcur, hmain, hsrc⟩ : ∃ s, step p (bs.map Bench.job)
      (State.building bench.job j) (.build random) = some s ∧ s.job = j ∧ s.main = .launch 0 ∧
        (s.args (j, 0)).src = src := by
    have hcur : (bs.map Bench.job)[(State.building bench.job j).job]? = some bench.job := hjob
    simp only [step, buildStep, hcur]
    simp [State.building, State.skipped, hcpus, BenchArgs.fresh]
  obtain ⟨s', hst'⟩ : ∃ s', step p (bs.map Bench.job) s (.launch true) = some s' := by
    subst hcur
    simp [step, launchStep, hmain, hjob, hlen]
  obtain ⟨es, hrun⟩ := reaches_building (p := p) hjob hlen.le
  refine h _ _ _ _ (exec_trans hrun (exec_one hst)) hst' (.cpuToNode src) ?_
  simp only [usesOf, hmain, hcur, hsrc]
  exact List.mem_cons_self

theorem UsesWithin.pairSrc (h : UsesWithin p bs S) {src dst : Int}
    (hbench : Bench.pair src dst ∈ bs) : src ∈ S :=
  h.src hbench (show (benchPair src dst).cpus (fun _ => 0) = some [(src, dst)] from rfl)

/-- `ipi_bench_single` sends to its `dst`, or it reports on it. -/
theorem UsesWithin.dst (h : UsesWithin p bs S) {src dst : Int}
    (hbench : Bench.pair src dst ∈ bs) : dst ∈ S := by
  obtain ⟨j, hj⟩ := List.mem_iff_getElem?.mp hbench
  have hjob : (bs.map Bench.job)[j]? = some (benchPair src dst) := getElem?_job hj
  obtain ⟨s, hreach, hs⟩ := reaches_one (p := p) hjob
  obtain ⟨es, hrun⟩ := (reaches_building (p := p) hjob
    (show (0 : Int) ≤ 1 by decide)).trans hreach
  cases hloops : p.loops.toNat with
  | zero =>
    rw [hloops] at hs
    obtain ⟨s₁, hfinish, hcur, hmain, hdst, hfield⟩ := reaches_finish p
      (bs.map Bench.job) hs
    have hjob₁ : (bs.map Bench.job)[s₁.job]? = some (benchPair src dst) := by rw [hcur, hjob]
    obtain ⟨es', hrun'⟩ := ((Reaches.of_exec es hrun).trans hfinish).trans
      (reaches_report (p := p) hjob₁ hmain)
    have hbench₁ : bs[s₁.job]? = some (Bench.pair src dst) := by rw [hcur, hj]
    have hlen : ((reportFields .single).map (s₁.args (s₁.job, 0)).field).length = 5 := rfl
    have hthird : ((reportFields .single).map (s₁.args (s₁.job, 0)).field).getD 2 0 = 1 := by
      rw [hcur]
      exact hfield
    obtain ⟨s₂, hst⟩ : ∃ s₂, step p (bs.map Bench.job) { s₁ with
        main := .report 0 0 ((reportFields .single).map (s₁.args (s₁.job, 0)).field) } .main =
          some s₂ := by
      simp only [step, mainStep, hjob₁, hlen]
      exact ⟨_, rfl⟩
    refine h _ _ _ _ hrun' hst (.cpuToNode dst) ?_
    simp only [usesOf, hbench₁, hlen, hthird]
    rw [if_pos ⟨show (0 : Int) < 1 by decide, rfl, by decide⟩, hcur, ← hdst]
    exact List.mem_cons_of_mem _ List.mem_cons_self
  | succ n =>
    rw [hloops] at hs
    obtain ⟨s', hst, hclock, hpc⟩ : ∃ s',
        step p (bs.map Bench.job) s (.sample (j, 0) 0) = some s' ∧
          s'.clock = 0 ∧ s'.pc (j, 0) = .call dst (n + 1) 0 0 := by
      simp [step, sampleStep, hs.pc, hs.clock, State.goto]
    obtain ⟨s'', hst'⟩ : ∃ s'', step p (bs.map Bench.job) s' (.call (j, 0) (-1) 0) = some s'' := by
      simp [step, callStep, hclock, hpc]
    refine h _ _ _ _ (exec_trans hrun (exec_one hst)) hst' (.smpCall dst) ?_
    simp only [usesOf, hpc]
    exact List.mem_cons_self

theorem within_pair {src dst : Int} (hsrc : src ∈ S) (hdst : dst ∈ S) :
    (Bench.pair src dst).Within S := by
  refine ⟨fun _ => nofun, fun random cpus hcpus pair hpair => ?_,
    fun random cpus hcpus _ pair hpair => ?_⟩
  · obtain rfl := Option.some.inj hcpus
    obtain rfl := List.mem_singleton.mp hpair
    exact hsrc
  · obtain rfl := Option.some.inj hcpus
    obtain rfl := List.mem_singleton.mp hpair
    exact hdst

variable {mask : OnlineMask topo}

theorem within_mesh (hn : 0 < topo.numCpus) {pairs : Int} {acrossnuma : Bool}
    (h : 1 ≤ pairs → mask.Dense ∧ (acrossnuma = true ∨ pairs = 1 ∨ ¬ topo.HasPair)) :
    (Bench.mesh topo pairs acrossnuma).Within mask.cpus := by
  by_cases hpairs : 1 ≤ pairs
  · obtain ⟨hdense, hpick⟩ := h hpairs
    have hmem : ∀ random cpus, (benchMesh topo pairs acrossnuma).cpus random = some cpus →
        ∀ cpu ∈ ends cpus, cpu ∈ mask.cpus := by
      intro random cpus hcpus cpu hcpu
      obtain ⟨-, hrange, -⟩ := pickLoop_mesh hn hcpus
      exact hdense cpu ⟨(hrange cpu hcpu).1, (hrange cpu hcpu).2.1⟩
    refine ⟨fun random cpu hcpu => hdense cpu (drawable_of_mem_mesh_nodes hn hpick hcpu),
      fun random cpus hcpus pair hpair => hmem random cpus hcpus _ ?_,
      fun random cpus hcpus _ pair hpair => hmem random cpus hcpus _ ?_⟩
    · exact List.mem_flatMap.mpr ⟨pair, hpair, List.mem_cons_self⟩
    · exact List.mem_flatMap.mpr ⟨pair, hpair, List.mem_cons_of_mem _ List.mem_cons_self⟩
  · -- there is nothing to choose
    have hzero : pairs.toNat = 0 := by omega
    have hnone : ∀ random cpus, (benchMesh topo pairs acrossnuma).cpus random = some cpus →
        cpus = [] := by
      intro random cpus hcpus
      exact List.eq_nil_of_length_eq_zero
        (((benchMesh topo pairs acrossnuma).length_cpus hcpus).trans hzero)
    refine ⟨fun random cpu hcpu => ?_, fun random cpus hcpus => ?_,
      fun random cpus hcpus _ => ?_⟩
    · unfold Bench.mesh at hcpu
      simp only [hzero] at hcpu
      cases hcpu
    · rw [hnone random cpus hcpus]
      exact nofun
    · rw [hnone random cpus hcpus]
      exact nofun

theorem within_all (hn : 0 < topo.numCpus) {broadcasts : Int}
    (h : 1 ≤ broadcasts → broadcasts ≤ topo.numCpus → mask.Dense) :
    (Bench.all topo broadcasts).Within mask.cpus := by
  refine ⟨fun random cpu hcpu => ?_, fun random cpus hcpus pair hpair => ?_,
    fun random cpus hcpus htask => by cases htask⟩
  · rw [all_nodes] at hcpu
    cases hcpu
  · obtain ⟨hnodup, hrange⟩ := pickLoop_all hn hcpus
    have hlen : cpus.length = broadcasts.toNat := (benchAll topo broadcasts).length_cpus hcpus
    have hpos := List.length_pos_of_mem hpair
    have hfits : (cpus.map Prod.fst).length ≤ topo.online.card := by
      rw [← List.toFinset_card_of_nodup hnodup]
      refine Finset.card_le_card fun c hc => mem_online.mpr ?_
      have hmem := hrange c (List.mem_toFinset.mp hc)
      exact ⟨hmem.1, hmem.2.1⟩
    rw [List.length_map, card_online] at hfits
    have hmem := hrange _ (List.mem_map_of_mem hpair)
    exact h (by omega) (by omega) pair.1 ⟨hmem.1, hmem.2.1⟩

end UsesWithin

/-! ## The loads that use online CPUs only -/

section Loads

variable {topo : Topology} {p q : Params} {mask : OnlineMask topo}

theorem mem_benches {bench : Bench} :
    bench ∈ benches topo q ↔
      q.options &&& SELF_IPI ≠ 0 ∧ bench = Bench.pair q.srccpu q.srccpu ∨
      q.options &&& SINGLE_IPI ≠ 0 ∧ bench = Bench.pair q.srccpu q.dstcpu ∨
      q.options &&& MESH_IPI ≠ 0 ∧ bench = Bench.mesh topo q.pairs q.acrossnuma ∨
      q.options &&& ALL_IPI ≠ 0 ∧ bench = Bench.all topo q.broadcasts := by
  have hite : ∀ (b : Bench) (flag : UInt32),
      (bench ∈ if q.options &&& flag ≠ 0 then [b] else []) ↔
        q.options &&& flag ≠ 0 ∧ bench = b := by
    intro b flag
    split
    · rename_i hopt
      rw [List.mem_singleton]
      exact (and_iff_right hopt).symm
    · rename_i hopt
      exact iff_of_false nofun fun h => hopt h.1
  rw [benches, List.mem_append, List.mem_append, List.mem_append, hite, hite, hite, hite,
    or_assoc, or_assoc]

/-- The benchmarks of a load, with the parameters that it runs with. -/
theorem mem_benches_settle {src dst : Int} {bench : Bench} :
    bench ∈ benches topo (p.settle topo src dst) ↔
      p.options &&& SELF_IPI ≠ 0 ∧ bench = Bench.pair src src ∨
      p.options &&& SINGLE_IPI ≠ 0 ∧ bench = Bench.pair src dst ∨
      p.options &&& MESH_IPI ≠ 0 ∧ bench = Bench.mesh topo (p.setPairs topo) p.acrossnuma ∨
      p.options &&& ALL_IPI ≠ 0 ∧ bench = Bench.all topo p.setBroadcasts :=
  mem_benches

theorem setPairs_le (h : p.Accepted topo) : p.setPairs topo ≤ topo.numCpus / 2 := by
  unfold Params.setPairs
  split
  · exact le_refl _
  · exact h.pairs

/-- A load with online CPUs to use chooses online CPUs. -/
theorem OnlineMask.Covers.within (h : mask.Covers p) (hn : 0 < topo.numCpus) {src dst : Int}
    (hsrc : p.SrcMayBe topo src) (hdst : p.DstMayBe topo dst) :
    ∀ bench ∈ benches topo (p.settle topo src dst), bench.Within mask.cpus := by
  intro bench hbench
  rcases mem_benches_settle.mp hbench with ⟨hopt, rfl⟩ | ⟨hopt, rfl⟩ | ⟨hopt, rfl⟩ | ⟨hopt, rfl⟩
  · have hmem := h.src (Or.inl hopt) src hsrc
    exact within_pair hmem hmem
  · exact within_pair (h.src (Or.inr hopt) src hsrc) (h.dst hopt dst hdst)
  · exact within_mesh hn (h.mesh hopt)
  · exact within_all hn (h.all hopt)

/-- Loads that use online CPUs only have only online CPUs to use. -/
theorem covers_of_usesWithin (haccepted : p.Accepted topo)
    (h : ∀ src dst, p.SrcMayBe topo src → p.DstMayBe topo dst → src ≠ dst →
      UsesWithin (p.settle topo src dst) (benches topo (p.settle topo src dst)) mask.cpus) :
    mask.Covers p := by
  have hsize : topo.numCpus ≤ 2 ^ 64 := by
    have hsmall := mask.small
    omega
  -- some load that runs with the parameters
  obtain ⟨src₀, hsrc₀⟩ : ∃ src, p.SrcMayBe topo src := by
    unfold Params.SrcMayBe
    split
    · exact exists_drawable_ne haccepted.cpus p.dstcpu
    · exact ⟨_, rfl⟩
  obtain ⟨dst₀, hdst₀, hne₀⟩ := exists_dst_of_src haccepted hsrc₀
  have hload := h src₀ dst₀ hsrc₀ hdst₀ hne₀
  constructor
  · intro hopt src hsrc
    obtain ⟨dst, hdst, hne⟩ := exists_dst_of_src haccepted hsrc
    rcases hopt with hself | hsingle
    · exact (h src dst hsrc hdst hne).pairSrc
        (mem_benches_settle.mpr (Or.inl ⟨hself, rfl⟩))
    · exact (h src dst hsrc hdst hne).pairSrc
        (mem_benches_settle.mpr (Or.inr (Or.inl ⟨hsingle, rfl⟩)))
  · intro hopt dst hdst
    obtain ⟨src, hsrc, hne⟩ := exists_src_of_dst haccepted hdst
    exact (h src dst hsrc hdst hne).dst (mem_benches_settle.mpr (Or.inr (Or.inl ⟨hopt, rfl⟩)))
  · intro hopt hpos
    have hmem : Bench.mesh topo (p.setPairs topo) p.acrossnuma ∈
        benches topo (p.settle topo src₀ dst₀) :=
      mem_benches_settle.mpr (Or.inr (Or.inr (Or.inl ⟨hopt, rfl⟩)))
    have hlen : 0 ≤ (Bench.mesh topo (p.setPairs topo) p.acrossnuma).job.shouldRun :=
      le_trans (by decide) hpos
    cases hacross : p.acrossnuma with
    | true =>
      rw [hacross] at hmem
      refine ⟨fun cpu hcpu => ?_, Or.inl rfl⟩
      obtain ⟨random, dst, rest, hcpus⟩ :=
        exists_mesh_from hsize hpos (setPairs_le haccepted) hcpu
      exact hload.src hmem hcpus
    | false =>
      rw [hacross] at hmem
      refine ⟨fun cpu hcpu => ?_, Or.inr ?_⟩
      · obtain ⟨random, hnode⟩ := exists_mesh_nodes_from hsize hpos hcpu
        exact hload.nodes hmem hlen random cpu hnode
      · by_cases hone : p.setPairs topo = 1
        · exact Or.inl hone
        · refine Or.inr fun hpair => ?_
          have hmore : 2 ≤ p.setPairs topo := by omega
          obtain ⟨random, hnode⟩ := exists_mesh_nodes_neg hsize hmore hpair
          exact absurd (mask.nonneg _ (hload.nodes hmem hlen random _ hnode)) (by decide)
  · intro hopt hpos hle cpu hcpu
    obtain ⟨random, dst, rest, hcpus⟩ := exists_all_from hsize hpos hle hcpu
    exact hload.src (mem_benches_settle.mpr (Or.inr (Or.inr (Or.inr ⟨hopt, rfl⟩)))) hcpus

/-- A load passes online CPUs only to `cpu_to_node`, `kthread_bind` and
`smp_call_function_single`, in all of its steps and with all random values,
and `ipi_bench_single` has two different CPUs. -/
def OnlyValidCpus (topo : Topology) (mask : OnlineMask topo) (p : Params) : Prop :=
  ∀ random fuel q, initParams topo random fuel p = some (0, q) →
    (∀ es s e s', exec (step q (benchInit topo q)) State.load es = some s →
      step q (benchInit topo q) s e = some s' →
      ∀ use ∈ usesOf (benches topo q) s e, use.cpu ∈ mask.cpus) ∧
    (q.options &&& SINGLE_IPI ≠ 0 → q.srccpu ≠ q.dstcpu)

theorem covers_of_onlyValidCpus (haccepted : p.Accepted topo) (h : OnlyValidCpus topo mask p) :
    mask.Covers p := by
  have hsmall := mask.small
  refine covers_of_usesWithin haccepted fun src dst hsrc hdst hne => ?_
  obtain ⟨random, fuel, hinit⟩ := exists_initParams (by omega) haccepted hsrc hdst hne
  unfold UsesWithin
  rw [map_job_benches]
  exact (h random fuel _ hinit).1

/-- A load uses valid CPUs only exactly when `ipi_bench_init_params` rejects
its parameters, or the benchmarks that are selected have only online CPUs to
use.  A worker that reads `dst` after the `kfree` of its array is taken to find
there what the benchmark has stored, as `State.args` has it. -/
theorem valid_cpus_iff (topo : Topology) (mask : OnlineMask topo) (p : Params) :
    OnlyValidCpus topo mask p ↔ (p.Accepted topo → mask.Covers p) := by
  constructor
  · intro h haccepted
    exact covers_of_onlyValidCpus haccepted h
  · intro h random fuel q hinit
    have haccepted := accepted_of_initParams hinit
    have hcpus := haccepted.cpus
    obtain ⟨src, dst, hsrc, hdst, hne, rfl⟩ := initParams_spec hinit
    refine ⟨fun es s e s' hrun hst => ?_, fun _ => hne⟩
    rw [← map_job_benches] at hrun hst
    exact uses_mem_of_step ((h haccepted).within (by omega) hsrc hdst) hrun hst

end Loads

/-- CPUs 0 and 1 are online. -/
def OnlineMask.two : OnlineMask ⟨2, fun _ => 0⟩ where
  cpus := {0, 1}
  nonneg := by decide
  card_eq := by decide
  small := by decide

/-- `ipi_bench_init_params` accepts `srccpu` equal to `-2`, and
`ipi_bench_self` asks for the node of CPU `-2`. -/
theorem negative_srccpu_used :
    ¬ ∀ (topo : Topology) (mask : OnlineMask topo) (p : Params), OnlyValidCpus topo mask p := by
  intro h
  have hcovers := covers_of_onlyValidCpus ⟨by decide, by decide, by decide, by decide⟩
    (h _ OnlineMask.two ⟨1, -2, 0, -1, true, -1, true, SELF_IPI⟩)
  have hmem := hcovers.src (Or.inl (by decide)) (-2) rfl
  revert hmem
  decide

end KvmUtils.IpiBench
