import Mathlib.Data.Finset.Image
import KvmUtils.Lib.GreedyPairing
import KvmUtils.IpiBench.Picks

/-!
# The pairs of `ipi_bench_mesh`

`ipi_bench_mesh` draws its pairs one by one at random.  With `acrossnuma`
equal to zero that is a greedy pairing in the sense of `GreedyPairing`, with
the nodes as the classes.  A CPU on a negative node has no class, because the
second pick then ignores the node.

A pairing of this kind can leave a CPU without a partner although the nodes
have room for all pairs.  `everyPickFits_iff` says for which topologies no
stream of random values does so.
-/

namespace KvmUtils.IpiBench

open GreedyPairing

/-- The online CPUs. -/
def Topology.online (topo : Topology) : Finset Int :=
  (Finset.range topo.numCpus).image Int.ofNat

theorem mem_online {topo : Topology} {cpu : Int} :
    cpu ∈ topo.online ↔ 0 ≤ cpu ∧ cpu < topo.numCpus := by
  rw [Topology.online, Finset.mem_image]
  constructor
  · rintro ⟨i, hi, rfl⟩
    exact ⟨Int.natCast_nonneg i, Int.ofNat_lt.mpr (Finset.mem_range.mp hi)⟩
  · rintro ⟨hpos, hlt⟩
    exact ⟨cpu.toNat, Finset.mem_range.mpr (by omega), Int.toNat_of_nonneg hpos⟩

theorem card_online (topo : Topology) : topo.online.card = topo.numCpus := by
  rw [Topology.online, Finset.card_image_of_injective _ fun _ _ h => Int.ofNat.inj h,
    Finset.card_range]

/-- The node on which a partner of the CPU has to be, if the code asks for
one. -/
def Topology.kind (topo : Topology) (acrossnuma : Bool) (cpu : Int) : Option Int :=
  if acrossnuma = false ∧ 0 ≤ topo.cpuToNode cpu then some (topo.cpuToNode cpu) else none

/-- Every call of `__random_unused_cpu_in_cpumask` finds a CPU that fits, as
long as the calls before it have succeeded. -/
def EveryPickFits (topo : Topology) : List Pick → Prop
  | [] => True
  | pick :: picks =>
    (∃ cpu, topo.Fits pick.cpumask pick.node cpu) ∧
      (pick.cpu ≠ -1 → EveryPickFits topo picks)

section Turns

variable {topo : Topology} {random : Nat → UInt64} {acrossnuma : Bool} {st : Picking} {n : Nat}

/-- The CPUs that are left. -/
def Topology.unused (topo : Topology) (cpumask : Finset Int) : Finset Int :=
  topo.online \ cpumask

theorem mem_unused {cpumask : Finset Int} {cpu : Int} :
    cpu ∈ topo.unused cpumask ↔ (0 ≤ cpu ∧ cpu < topo.numCpus) ∧ cpu ∉ cpumask := by
  rw [Topology.unused, Finset.mem_sdiff, mem_online]

theorem unused_insert (cpumask : Finset Int) (cpu : Int) :
    topo.unused (insert cpu cpumask) = (topo.unused cpumask).erase cpu := by
  ext c
  rw [mem_unused, Finset.mem_erase, mem_unused, Finset.mem_insert, not_or]
  exact and_left_comm

/-- A pick without a node takes any CPU that is left. -/
theorem fits_iff_mem_unused {cpumask : Finset Int} {cpu : Int} :
    topo.Fits cpumask (-1) cpu ↔ cpu ∈ topo.unused cpumask := by
  rw [mem_unused]
  unfold Topology.Fits
  constructor
  · rintro ⟨hpos, hlt, hunused, -⟩
    exact ⟨⟨hpos, hlt⟩, hunused⟩
  · rintro ⟨⟨hpos, hlt⟩, hunused⟩
    exact ⟨hpos, hlt, hunused, fun hneg => absurd hneg (by decide)⟩

/-- The second pick of a turn takes any partner of the first CPU that is
left. -/
theorem fits_iff_partner {src dst : Int} (hnode : acrossnuma = true → st.node = -1) :
    topo.Fits (insert src st.cpumask) (if acrossnuma then st.node else topo.cpuToNode src) dst ↔
      dst ∈ (topo.unused st.cpumask).erase src ∧ Partner (topo.kind acrossnuma) src dst := by
  rw [← unused_insert, mem_unused]
  unfold Topology.Fits Partner Topology.kind
  cases acrossnuma with
  | true =>
    simp [hnode rfl, and_assoc]
  | false =>
    simp only [Bool.false_eq_true, if_false, true_and, and_assoc]
    refine and_congr_right fun _ => and_congr_right fun _ => and_congr_right fun _ => ?_
    by_cases hsrc : 0 ≤ topo.cpuToNode src
    · simp only [hsrc, forall_const, if_true, Option.some.injEq, forall_eq']
      constructor
      · intro heq
        rw [heq, if_pos hsrc]
      · intro heq
        split_ifs at heq
        exact Option.some.inj heq
    · simp [hsrc]

/-- If the pairing cannot get stuck, then every pick has a CPU to find,
whatever the random values are. -/
theorem everyPickFits_of_neverStuck (hn : 0 < topo.numCpus)
    (hnode : acrossnuma = true → st.node = -1)
    (h : NeverStuck (topo.kind acrossnuma) n (topo.unused st.cpumask)) :
    EveryPickFits topo
      (picksOf (meshTurn topo acrossnuma random) (meshCalls topo acrossnuma random) n st) := by
  induction n generalizing st with
  | zero => trivial
  | succ n ih =>
    obtain ⟨⟨cpu, hcpu⟩, hturn⟩ := h
    rcases hfirst : firstPick topo random st with ⟨src, cpumask, pos⟩
    rcases hsecond : secondPick topo acrossnuma random st (src, cpumask, pos) with
      ⟨dst, cpumask', pos'⟩
    rw [picksOf, meshCalls_eq hfirst hsecond, meshTurn_eq hfirst hsecond]
    refine ⟨⟨cpu, fits_iff_mem_unused.mpr hcpu⟩, fun hsrc => ?_⟩
    have hsrc' : ¬ src < 0 := (pick_neg_iff hn hfirst).not.mpr hsrc
    obtain ⟨hfits, rfl⟩ := fits_of_pick hn hfirst hsrc'
    obtain ⟨⟨partner, hleft, hpartner⟩, hrest⟩ := hturn src (fits_iff_mem_unused.mp hfits)
    refine ⟨⟨partner, (fits_iff_partner hnode).mpr ⟨hleft, hpartner⟩⟩, fun hdst => ?_⟩
    have hdst' : ¬ dst < 0 := (pick_neg_iff hn hsecond).not.mpr hdst
    obtain ⟨hfits', rfl⟩ := fits_of_pick hn hsecond hdst'
    rw [if_neg (not_or.mpr ⟨hsrc', hdst'⟩)]
    obtain ⟨hleft', hpartner'⟩ := (fits_iff_partner hnode).mp hfits'
    refine ih (fun hacross => ?_) ?_
    · show (if acrossnuma then st.node else topo.cpuToNode src) = -1
      rw [if_pos hacross]
      exact hnode hacross
    · show NeverStuck _ n (topo.unused (insert dst (insert src st.cpumask)))
      rw [unused_insert, unused_insert]
      exact hrest dst hleft' hpartner'

/-! ## Streams of random values that get stuck -/

/-- The values of `__random` from `pos` on draw the given CPUs. -/
def Draws (topo : Topology) (random : Nat → UInt64) (pos : Nat) (cpus : List Int) : Prop :=
  ∀ i cpu, cpus[i]? = some cpu → ((random (pos + i)).toNat : Int) % topo.numCpus = cpu

theorem draws_cons {pos : Nat} {cpu : Int} {cpus : List Int} :
    Draws topo random pos (cpu :: cpus) ↔
      ((random pos).toNat : Int) % topo.numCpus = cpu ∧ Draws topo random (pos + 1) cpus := by
  constructor
  · intro h
    refine ⟨h 0 cpu rfl, fun i c hc => ?_⟩
    rw [Nat.add_right_comm]
    exact h (i + 1) c hc
  · rintro ⟨hfirst, hrest⟩ i c hc
    cases i with
    | zero =>
      obtain rfl := Option.some.inj hc
      exact hfirst
    | succ i =>
      have hnext := hrest i c hc
      rwa [Nat.add_right_comm] at hnext

/-- A pick takes the first CPU that is drawn, if that one fits. -/
theorem randomUnusedCpu_of_draw {cpumask : Finset Int} {node cpu : Int} {pos : Nat}
    (hdraw : ((random pos).toNat : Int) % topo.numCpus = cpu)
    (hfits : topo.Fits cpumask node cpu) :
    randomUnusedCpu topo random cpumask node pos = (cpu, insert cpu cpumask, pos + 1) := by
  obtain ⟨retry, hretry⟩ : ∃ retry, RETRY = retry + 1 := by
    refine ⟨99999, ?_⟩
    unfold RETRY
    rfl
  have hnode : ¬ (0 ≤ node ∧ topo.cpuToNode cpu ≠ node) := fun h => h.2 (hfits.2.2.2 h.1)
  rw [randomUnusedCpu, hretry, randomUnusedCpuLoop]
  simp only [hdraw, if_neg hfits.2.2.1, if_neg hnode]

/-- A pairing that can get stuck gets stuck with some stream of random
values. -/
theorem exists_draws_of_stuck (acrossnuma : Bool) (cpumask : Finset Int)
    (h : ¬ NeverStuck (topo.kind acrossnuma) n (topo.unused cpumask)) :
    ∃ cpus : List Int, (∀ cpu ∈ cpus, cpu ∈ topo.online) ∧
      ∀ (random : Nat → UInt64) (st : Picking), st.cpumask = cpumask →
        (acrossnuma = true → st.node = -1) → Draws topo random st.pos cpus →
        ¬ EveryPickFits topo
          (picksOf (meshTurn topo acrossnuma random) (meshCalls topo acrossnuma random) n st) := by
  induction n generalizing cpumask with
  | zero => exact absurd trivial h
  | succ n ih =>
    rcases not_neverStuck_succ.mp h with hempty | ⟨src, hsrc, hturn⟩
    · -- there is no CPU left at all
      refine ⟨[], nofun, ?_⟩
      intro random st hmask hnode hdraws hevery
      subst hmask
      rcases hfirst : firstPick topo random st with ⟨src, cpumask, pos⟩
      rcases hsecond : secondPick topo acrossnuma random st (src, cpumask, pos) with
        ⟨dst, cpumask', pos'⟩
      rw [picksOf, meshCalls_eq hfirst hsecond] at hevery
      obtain ⟨cpu, hcpu⟩ := hevery.1
      exact hempty ⟨cpu, fits_iff_mem_unused.mp hcpu⟩
    have honline : src ∈ topo.online := (Finset.mem_sdiff.mp hsrc).1
    have hfits := fits_iff_mem_unused.mpr hsrc
    have hne : src ≠ -1 := fun heq => absurd hfits.1 (by rw [heq]; decide)
    rcases hturn with hnone | ⟨dst, hdst, hwill, hstuck⟩
    · -- the second pick finds nothing
      refine ⟨[src], by simpa using honline, ?_⟩
      intro random st hmask hnode hdraws hevery
      subst hmask
      have hfirst : firstPick topo random st = (src, insert src st.cpumask, st.pos + 1) :=
        randomUnusedCpu_of_draw (draws_cons.mp hdraws).1 hfits
      rcases hsecond : secondPick topo acrossnuma random st
        (src, insert src st.cpumask, st.pos + 1) with ⟨dst, cpumask', pos'⟩
      rw [picksOf, meshCalls_eq hfirst hsecond] at hevery
      obtain ⟨⟨other, hother⟩, -⟩ := hevery.2 hne
      exact hnone ⟨other, (fits_iff_partner hnode).mp hother⟩
    · -- the turn goes on, and the rest of the pairing gets stuck
      rw [← unused_insert, ← unused_insert] at hstuck
      obtain ⟨cpus, hcpus, hrest⟩ := ih _ hstuck
      have honline' : dst ∈ topo.online :=
        (Finset.mem_sdiff.mp (Finset.mem_of_mem_erase hdst)).1
      refine ⟨src :: dst :: cpus, ?_, ?_⟩
      · simp only [List.mem_cons, forall_eq_or_imp]
        exact ⟨honline, honline', hcpus⟩
      · intro random st hmask hnode hdraws hevery
        subst hmask
        obtain ⟨hdraw, hdraws⟩ := draws_cons.mp hdraws
        obtain ⟨hdraw', hdraws⟩ := draws_cons.mp hdraws
        have hfirst : firstPick topo random st = (src, insert src st.cpumask, st.pos + 1) :=
          randomUnusedCpu_of_draw hdraw hfits
        have hfits' := (fits_iff_partner hnode).mpr ⟨hdst, hwill⟩
        have hsecond : secondPick topo acrossnuma random st
            (src, insert src st.cpumask, st.pos + 1) =
              (dst, insert dst (insert src st.cpumask), st.pos + 1 + 1) :=
          randomUnusedCpu_of_draw hdraw' hfits'
        have hne' : dst ≠ -1 := fun heq => absurd hfits'.1 (by rw [heq]; decide)
        have hgo : ¬ (src < 0 ∨ dst < 0) :=
          not_or.mpr ⟨not_lt.mpr hfits.1, not_lt.mpr hfits'.1⟩
        rw [picksOf, meshCalls_eq hfirst hsecond, meshTurn_eq hfirst hsecond, if_neg hgo] at hevery
        refine hrest random _ rfl (fun hacross => ?_) hdraws ((hevery.2 hne).2 hne')
        show (if acrossnuma then st.node else topo.cpuToNode src) = -1
        rw [if_pos hacross]
        exact hnode hacross

/-- A stream that draws given online CPUs. -/
theorem exists_random_of_draws (hsize : topo.numCpus ≤ 2 ^ 64) {cpus : List Int}
    (hcpus : ∀ cpu ∈ cpus, cpu ∈ topo.online) : ∃ random, Draws topo random 0 cpus := by
  refine ⟨fun i => UInt64.ofNat (cpus.getD i 0).toNat, fun i cpu hcpu => ?_⟩
  have honline : 0 ≤ cpu ∧ cpu < topo.numCpus :=
    mem_online.mp (hcpus cpu (List.mem_of_getElem? hcpu))
  have hget : cpus.getD (0 + i) 0 = cpu := by
    rw [Nat.zero_add, List.getD_eq_getElem?_getD, hcpu]
    rfl
  have hfit : cpu.toNat < 2 ^ 64 := by omega
  show ((UInt64.ofNat (cpus.getD (0 + i) 0).toNat).toNat : Int) % topo.numCpus = cpu
  rw [hget, UInt64.toNat_ofNat', Nat.mod_eq_of_lt hfit, Int.toNat_of_nonneg honline.1]
  exact Int.emod_eq_of_lt honline.1 honline.2

/-! ## The topologies without dead ends -/

/-- The picks of `ipi_bench_mesh` have a CPU to find with every stream of
random values exactly when the greedy pairing cannot get stuck. -/
theorem everyPickFits_iff_neverStuck {pairs : Int} (hn : 0 < topo.numCpus)
    (hsize : topo.numCpus ≤ 2 ^ 64) :
    (∀ random, EveryPickFits topo (meshPicks topo pairs acrossnuma random)) ↔
      NeverStuck (topo.kind acrossnuma) pairs.toNat topo.online := by
  have hstart : topo.unused Picking.start.cpumask = topo.online := Finset.sdiff_empty
  constructor
  · intro hevery
    by_contra hstuck
    rw [← hstart] at hstuck
    obtain ⟨cpus, hcpus, hbad⟩ := exists_draws_of_stuck acrossnuma _ hstuck
    obtain ⟨random, hdraws⟩ := exists_random_of_draws hsize hcpus
    exact hbad random Picking.start rfl (fun _ => rfl) hdraws (hevery random)
  · intro hnever random
    rw [← hstart] at hnever
    exact everyPickFits_of_neverStuck hn (fun _ => rfl) hnever

/-- How many online CPUs are on the node. -/
def Topology.nodeSize (topo : Topology) (node : Int) : Nat :=
  (topo.online.filter fun cpu => topo.cpuToNode cpu = node).card

/-- Every node that has CPUs has two for each of the `pairs` pairs, or its
CPUs can be used up in pairs only: their number is even, and no CPU is on a
negative node. -/
def Topology.NodesRoomy (topo : Topology) (pairs : Int) : Prop :=
  ∀ node, 0 ≤ node → topo.nodeSize node ≠ 0 →
    pairs ≤ (topo.nodeSize node / 2 : Nat) ∨
      topo.nodeSize node % 2 = 0 ∧ ∀ cpu ∈ topo.online, 0 ≤ topo.cpuToNode cpu

theorem kind_eq_some_iff {cpu node : Int} :
    topo.kind acrossnuma cpu = some node ↔
      acrossnuma = false ∧ 0 ≤ node ∧ topo.cpuToNode cpu = node := by
  unfold Topology.kind
  split_ifs with h
  · rw [Option.some.injEq]
    constructor
    · rintro rfl
      exact ⟨h.1, h.2, rfl⟩
    · exact fun hnode => hnode.2.2
  · refine iff_of_false nofun ?_
    rintro ⟨hwithin, hpos, rfl⟩
    exact h ⟨hwithin, hpos⟩

theorem kind_ne_none_iff {cpu : Int} :
    topo.kind false cpu ≠ none ↔ 0 ≤ topo.cpuToNode cpu := by
  simp [Topology.kind]

/-- The classes of the pairing are roomy when the nodes are. -/
theorem roomy_kind_iff {pairs : Int} :
    Roomy (topo.kind acrossnuma) pairs.toNat topo.online ↔
      acrossnuma = true ∨ topo.NodesRoomy pairs := by
  cases acrossnuma with
  | true =>
    refine iff_of_true (fun k hne => absurd (Finset.card_eq_zero.mpr ?_) hne) (Or.inl rfl)
    refine Finset.filter_eq_empty_iff.mpr fun cpu _ hk => ?_
    cases (kind_eq_some_iff.mp hk).1
  | false =>
    have hclass : ∀ node : Int, 0 ≤ node →
        (classOf (topo.kind false) topo.online node).card = topo.nodeSize node := by
      intro node hpos
      unfold classOf Topology.nodeSize
      congr 1
      refine Finset.filter_congr fun cpu _ => ?_
      rw [kind_eq_some_iff]
      exact ⟨fun h => h.2.2, fun h => ⟨rfl, hpos, h⟩⟩
    have hneg : ∀ node : Int, (classOf (topo.kind false) topo.online node).card ≠ 0 →
        0 ≤ node := by
      intro node hne
      obtain ⟨cpu, hcpu⟩ := Finset.card_pos.mp (Nat.pos_of_ne_zero hne)
      exact (kind_eq_some_iff.mp (mem_classOf.mp hcpu).2).2.1
    unfold Roomy Topology.NodesRoomy
    simp only [kind_ne_none_iff, Bool.false_eq_true, false_or]
    constructor
    · intro h node hpos hne
      rcases h node (by rwa [hclass node hpos]) with hroom | heven
      · rw [hclass node hpos] at hroom
        exact Or.inl (by omega)
      · rw [hclass node hpos] at heven
        exact Or.inr heven
    · intro h node hne
      have hpos := hneg node hne
      rw [hclass node hpos] at hne ⊢
      rcases h node hpos hne with hroom | heven
      · exact Or.inl (by omega)
      · exact Or.inr heven

/-- For which topologies and parameters no stream of random values leads
`ipi_bench_mesh` to a pick for which there is no CPU. -/
theorem mesh_everyPickFits_iff {pairs : Int} (hn : 2 ≤ topo.numCpus)
    (hsize : topo.numCpus < 2 ^ 31) (hpairs : pairs ≤ (topo.numCpus / 2 : Nat)) :
    (∀ random, EveryPickFits topo (meshPicks topo pairs acrossnuma random)) ↔
      acrossnuma = true ∨ topo.NodesRoomy pairs := by
  have hcard : 2 * pairs.toNat ≤ topo.online.card := by
    rw [card_online]
    omega
  rw [everyPickFits_iff_neverStuck (by omega) (by omega), neverStuck_iff_roomy hcard,
    roomy_kind_iff]

end Turns

/-- The topology has `pairs` disjoint pairs of CPUs on one node each. -/
def Topology.Admits (topo : Topology) (pairs : Int) : Prop :=
  ∃ cpus : List (Int × Int), cpus.length = pairs.toNat ∧ (ends cpus).Nodup ∧
    (∀ cpu ∈ ends cpus, cpu ∈ topo.online) ∧
    ∀ pair ∈ cpus, topo.cpuToNode pair.1 = topo.cpuToNode pair.2

/-- CPU 0 is alone on its node, and CPUs 1 and 2 share one.  If the first pick
takes CPU 0, then there is no CPU for the second one. -/
theorem mesh_dead_end :
    ¬ ∀ (topo : Topology) (pairs : Int) (acrossnuma : Bool), 2 ≤ topo.numCpus →
      topo.numCpus < 2 ^ 31 → pairs ≤ (topo.numCpus / 2 : Nat) →
      acrossnuma = true ∨ topo.Admits pairs →
      ∀ random, EveryPickFits topo (meshPicks topo pairs acrossnuma random) := by
  intro h
  have hevery := h ⟨3, fun cpu => if cpu = 0 then 0 else 1⟩ 1 false (by decide) (by decide)
    (by decide) (Or.inr ⟨[(1, 2)], by decide, by decide, by decide, by decide⟩)
  rw [everyPickFits_iff_neverStuck (by decide) (by decide)] at hevery
  have hroomy := roomy_kind_iff.mp (roomy_of_neverStuck hevery)
  rcases hroomy.resolve_left (by decide) 0 (le_refl _) (by decide) with hroom | ⟨heven, -⟩
  · revert hroom
    decide
  · revert heven
    decide

/-- Four CPUs on two nodes of two have no dead end. -/
theorem mesh_everyPickFits_of_two_nodes :
    EveryPickFits ⟨4, fun cpu => cpu / 2⟩
      (meshPicks ⟨4, fun cpu => cpu / 2⟩ 2 false fun i => UInt64.ofNat i) := by
  refine (mesh_everyPickFits_iff (by decide) (by decide) (by decide)).mpr (Or.inr ?_) _
  intro node hpos hne
  obtain ⟨cpu, hcpu⟩ := Finset.card_pos.mp (Nat.pos_of_ne_zero hne)
  obtain ⟨honline, hnode⟩ := Finset.mem_filter.mp hcpu
  have hrange : 0 ≤ cpu ∧ cpu < 4 := mem_online.mp honline
  have hhalf : cpu / 2 = node := hnode
  have hcases : node = 0 ∨ node = 1 := by omega
  rcases hcases with rfl | rfl
  · exact Or.inr (by decide)
  · exact Or.inr (by decide)

end KvmUtils.IpiBench
