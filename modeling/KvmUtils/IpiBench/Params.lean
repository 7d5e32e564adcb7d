import Mathlib.Algebra.GroupWithZero.Nat
import KvmUtils.IpiBench.Jobs

/-!
# The parameters of a load

`ipi_bench_init_params` rejects some values of the module parameters, and
fills in those that are left at `-1`.  `srccpu` and `dstcpu` are drawn at
random until they are neither `-1` nor equal.

`exists_initParams_iff` says with which parameters a load can run.
-/

namespace KvmUtils.IpiBench

/-- The two loops of `ipi_bench_init_params`, from the `pos`-th random value
on: `cpu` is drawn again as long as it is `-1` or the other CPU.  `none` is a
loop that has not ended after `fuel` tests. -/
def redrawLoop (topo : Topology) (random : Nat → UInt64) (other : Int) :
    Nat → Int → Nat → Option (Int × Nat)
  | 0, _, _ => none
  | fuel + 1, cpu, pos =>
    if cpu = -1 ∨ cpu = other then
      redrawLoop topo random other fuel ((random pos).toNat % topo.numCpus) (pos + 1)
    else some (cpu, pos)

/-- The value of `pairs` that a load runs with. -/
def Params.setPairs (p : Params) (topo : Topology) : Int :=
  if p.pairs = -1 then topo.numCpus / 2 else p.pairs

/-- The value of `broadcasts` that a load runs with. -/
def Params.setBroadcasts (p : Params) : Int := if p.broadcasts = -1 then 1 else p.broadcasts

/-- The parameters with the CPUs `src` and `dst`, and with the defaults for
`pairs` and `broadcasts`. -/
def Params.settle (p : Params) (topo : Topology) (src dst : Int) : Params :=
  { p with
    srccpu := src
    dstcpu := dst
    pairs := p.setPairs topo
    broadcasts := p.setBroadcasts }

/-- `ipi_bench_init_params`: its result, and the parameters as it leaves
them. -/
def initParams (topo : Topology) (random : Nat → UInt64) (fuel : Nat) (p : Params) :
    Option (Int × Params) :=
  if topo.numCpus < 2 then some (-1, p)
  else if topo.numCpus ≤ p.srccpu ∨ topo.numCpus ≤ p.dstcpu then some (-1, p)
  else if topo.numCpus / 2 < p.pairs then some (-1, p)
  else
    match redrawLoop topo random p.dstcpu fuel p.srccpu 0 with
    | none => none
    | some (src, pos) =>
      match redrawLoop topo random src fuel p.dstcpu pos with
      | none => none
      | some (dst, _) => some (0, p.settle topo src dst)

/-- The parameters pass the checks of `ipi_bench_init_params`.  None of these
asks for a lower bound. -/
structure Params.Accepted (p : Params) (topo : Topology) : Prop where
  cpus : 2 ≤ topo.numCpus
  src : p.srccpu < topo.numCpus
  dst : p.dstcpu < topo.numCpus
  pairs : p.pairs ≤ topo.numCpus / 2

/-- The CPU can be what `__random() % num_cpus` is. -/
def Topology.Drawable (topo : Topology) (cpu : Int) : Prop := 0 ≤ cpu ∧ cpu < topo.numCpus

/-- `cpu` can be the `srccpu` of a load with the parameters `p`. -/
def Params.SrcMayBe (p : Params) (topo : Topology) (cpu : Int) : Prop :=
  if p.srccpu = -1 ∨ p.srccpu = p.dstcpu then topo.Drawable cpu ∧ cpu ≠ p.dstcpu
  else cpu = p.srccpu

/-- `cpu` can be the `dstcpu` of a load with the parameters `p`. -/
def Params.DstMayBe (p : Params) (topo : Topology) (cpu : Int) : Prop :=
  if p.dstcpu = -1 then topo.Drawable cpu ∧ cpu ≠ p.srccpu else cpu = p.dstcpu

section Redraw

variable {topo : Topology} {random : Nat → UInt64} {other cpu c : Int} {fuel pos pos' : Nat}

theorem drawable_draw (hn : 0 < topo.numCpus) (v : UInt64) :
    topo.Drawable (v.toNat % topo.numCpus) := by
  constructor
  · apply Int.emod_nonneg
    omega
  · apply Int.emod_lt_of_pos
    omega

/-- A loop that ends has kept a CPU that will do, or drawn another one. -/
theorem redrawLoop_spec (hn : 0 < topo.numCpus)
    (h : redrawLoop topo random other fuel cpu pos = some (c, pos')) :
    c ≠ -1 ∧ c ≠ other ∧ if cpu = -1 ∨ cpu = other then topo.Drawable c else c = cpu := by
  induction fuel generalizing cpu pos with
  | zero => cases h
  | succ fuel ih =>
    rw [redrawLoop] at h
    by_cases hredraw : cpu = -1 ∨ cpu = other
    · rw [if_pos hredraw] at h ⊢
      obtain ⟨hne, hother, hnext⟩ := ih h
      refine ⟨hne, hother, ?_⟩
      split at hnext
      · exact hnext
      · rw [hnext]
        exact drawable_draw hn _
    · rw [if_neg hredraw] at h ⊢
      obtain ⟨rfl, -⟩ := Prod.mk.inj (Option.some.inj h)
      exact ⟨fun heq => hredraw (Or.inl heq), fun heq => hredraw (Or.inr heq), rfl⟩

theorem redrawLoop_of_keep (h : ¬ (cpu = -1 ∨ cpu = other)) :
    redrawLoop topo random other (fuel + 1) cpu pos = some (cpu, pos) := by
  rw [redrawLoop, if_neg h]

/-- The loop ends with the first CPU that it draws, if that one will do. -/
theorem redrawLoop_of_draw (h : cpu = -1 ∨ cpu = other)
    (hdraw : ((random pos).toNat : Int) % topo.numCpus = c) (hc : ¬ (c = -1 ∨ c = other)) :
    redrawLoop topo random other (fuel + 2) cpu pos = some (c, pos + 1) := by
  rw [redrawLoop, if_pos h, hdraw]
  exact redrawLoop_of_keep hc

end Redraw

section InitParams

variable {topo : Topology} {random : Nat → UInt64} {p q : Params} {fuel : Nat}

theorem Topology.Drawable.ne_neg_one {cpu : Int} (h : topo.Drawable cpu) : cpu ≠ -1 := by
  rintro rfl
  exact absurd h.1 (by decide)

/-- The parameters that `ipi_bench_init_params` accepts go through the two
loops. -/
theorem initParams_of_accepted (h : p.Accepted topo) :
    initParams topo random fuel p =
      match redrawLoop topo random p.dstcpu fuel p.srccpu 0 with
      | none => none
      | some (src, pos) =>
        match redrawLoop topo random src fuel p.dstcpu pos with
        | none => none
        | some (dst, _) => some (0, p.settle topo src dst) := by
  have hcpus := h.cpus
  have hsrc := h.src
  have hdst := h.dst
  have hpairs := h.pairs
  rw [initParams, if_neg (by omega), if_neg (by omega), if_neg (by omega)]

theorem accepted_of_initParams (h : initParams topo random fuel p = some (0, q)) :
    p.Accepted topo := by
  unfold initParams at h
  split_ifs at h with hcpus hrange hpairs
  · cases h
  · cases h
  · cases h
  · exact ⟨by omega, by omega, by omega, by omega⟩

/-- What `ipi_bench_init_params` leaves when it returns 0. -/
theorem initParams_spec (h : initParams topo random fuel p = some (0, q)) :
    ∃ src dst, p.SrcMayBe topo src ∧ p.DstMayBe topo dst ∧ src ≠ dst ∧
      q = p.settle topo src dst := by
  have haccepted := accepted_of_initParams h
  have hn : 0 < topo.numCpus := by
    have hcpus := haccepted.cpus
    omega
  rw [initParams_of_accepted haccepted] at h
  split at h
  · cases h
  · rename_i src pos hsrc
    split at h
    · cases h
    · rename_i dst pos' hdst
      obtain ⟨-, rfl⟩ := Prod.mk.inj (Option.some.inj h)
      obtain ⟨hsrcNe, hsrcOther, hsrcFrom⟩ := redrawLoop_spec hn hsrc
      obtain ⟨-, hdstOther, hdstFrom⟩ := redrawLoop_spec hn hdst
      refine ⟨src, dst, ?_, ?_, fun heq => hdstOther heq.symm, rfl⟩
      · unfold Params.SrcMayBe
        split_ifs with hredraw
        · rw [if_pos hredraw] at hsrcFrom
          exact ⟨hsrcFrom, hsrcOther⟩
        · rwa [if_neg hredraw] at hsrcFrom
      · unfold Params.DstMayBe
        split_ifs with hredraw
        · rw [if_pos (Or.inl hredraw)] at hdstFrom
          refine ⟨hdstFrom, fun heq => ?_⟩
          -- a `srccpu` that is kept is the one that the second loop avoids
          by_cases hkeep : p.srccpu = -1 ∨ p.srccpu = p.dstcpu
          · have hneg : dst = -1 := by
              rcases hkeep with hneg | hsame
              · rw [heq, hneg]
              · rw [heq, hsame, hredraw]
            exact hdstFrom.ne_neg_one hneg
          · rw [if_neg hkeep] at hsrcFrom
            exact hdstOther (heq.trans hsrcFrom.symm)
        · rwa [if_neg (not_or.mpr ⟨hredraw, fun heq => hsrcOther heq.symm⟩)] at hdstFrom

theorem mod_of_drawable (hsize : topo.numCpus ≤ 2 ^ 64) {cpu : Int} (h : topo.Drawable cpu) :
    ((UInt64.ofNat cpu.toNat).toNat : Int) % topo.numCpus = cpu := by
  obtain ⟨hpos, hlt⟩ := h
  have hfit : cpu.toNat < 2 ^ 64 := by omega
  rw [UInt64.toNat_ofNat', Nat.mod_eq_of_lt hfit, Int.toNat_of_nonneg hpos]
  exact Int.emod_eq_of_lt hpos hlt

/-- Whatever `srccpu` and `dstcpu` may be, some random values lead to. -/
theorem exists_initParams (hsize : topo.numCpus ≤ 2 ^ 64) (haccepted : p.Accepted topo)
    {src dst : Int} (hsrc : p.SrcMayBe topo src) (hdst : p.DstMayBe topo dst) (hne : src ≠ dst) :
    ∃ random fuel, initParams topo random fuel p = some (0, p.settle topo src dst) := by
  unfold Params.SrcMayBe at hsrc
  unfold Params.DstMayBe at hdst
  -- the second loop, on a stream that goes on with `dst`
  have hsecond : ∀ (random : Nat → UInt64) (pos : Nat),
      random pos = UInt64.ofNat dst.toNat → ∃ pos',
        redrawLoop topo random src 2 p.dstcpu pos = some (dst, pos') := by
    intro random pos hrandom
    by_cases hredraw : p.dstcpu = -1
    · rw [if_pos hredraw] at hdst
      refine ⟨pos + 1, redrawLoop_of_draw (Or.inl hredraw) ?_ ?_⟩
      · rw [hrandom]
        exact mod_of_drawable hsize hdst.1
      · exact not_or.mpr ⟨hdst.1.ne_neg_one, hne.symm⟩
    · rw [if_neg hredraw] at hdst
      subst hdst
      exact ⟨pos, redrawLoop_of_keep (not_or.mpr ⟨hredraw, hne.symm⟩)⟩
  by_cases hredraw : p.srccpu = -1 ∨ p.srccpu = p.dstcpu
  · rw [if_pos hredraw] at hsrc
    have hfirst : redrawLoop topo
        (fun i => if i = 0 then UInt64.ofNat src.toNat else UInt64.ofNat dst.toNat)
        p.dstcpu 2 p.srccpu 0 = some (src, 1) :=
      redrawLoop_of_draw hredraw (mod_of_drawable hsize hsrc.1)
        (not_or.mpr ⟨hsrc.1.ne_neg_one, hsrc.2⟩)
    obtain ⟨pos', hend⟩ := hsecond
      (fun i => if i = 0 then UInt64.ofNat src.toNat else UInt64.ofNat dst.toNat) 1 rfl
    refine ⟨fun i => if i = 0 then UInt64.ofNat src.toNat else UInt64.ofNat dst.toNat, 2, ?_⟩
    rw [initParams_of_accepted haccepted, hfirst]
    simp only [hend]
  · rw [if_neg hredraw] at hsrc
    subst hsrc
    have hfirst : redrawLoop topo (fun _ => UInt64.ofNat dst.toNat) p.dstcpu 2 p.srccpu 0 =
        some (p.srccpu, 0) := redrawLoop_of_keep hredraw
    obtain ⟨pos', hend⟩ := hsecond (fun _ => UInt64.ofNat dst.toNat) 0 rfl
    refine ⟨fun _ => UInt64.ofNat dst.toNat, 2, ?_⟩
    rw [initParams_of_accepted haccepted, hfirst]
    simp only [hend]

/-- The parameters that a load can run with. -/
theorem exists_initParams_iff (hsize : topo.numCpus ≤ 2 ^ 64) :
    (∃ random fuel, initParams topo random fuel p = some (0, q)) ↔
      p.Accepted topo ∧ ∃ src dst, p.SrcMayBe topo src ∧ p.DstMayBe topo dst ∧ src ≠ dst ∧
        q = p.settle topo src dst := by
  constructor
  · rintro ⟨random, fuel, h⟩
    exact ⟨accepted_of_initParams h, initParams_spec h⟩
  · rintro ⟨haccepted, src, dst, hsrc, hdst, hne, rfl⟩
    exact exists_initParams hsize haccepted hsrc hdst hne

/-- Another CPU than a given one can always be drawn. -/
theorem exists_drawable_ne (hn : 2 ≤ topo.numCpus) (cpu : Int) :
    ∃ c, topo.Drawable c ∧ c ≠ cpu := by
  by_cases h : cpu = 0
  · refine ⟨1, ⟨by decide, by omega⟩, ?_⟩
    rw [h]
    decide
  · exact ⟨0, ⟨le_refl _, by omega⟩, fun heq => h heq.symm⟩

/-- Every `srccpu` that a load may have goes with some `dstcpu`. -/
theorem exists_dst_of_src (h : p.Accepted topo) {src : Int} (hsrc : p.SrcMayBe topo src) :
    ∃ dst, p.DstMayBe topo dst ∧ src ≠ dst := by
  unfold Params.SrcMayBe at hsrc
  unfold Params.DstMayBe
  by_cases hdst : p.dstcpu = -1
  · simp only [if_pos hdst]
    by_cases hkeep : p.srccpu = -1
    · obtain ⟨c, hc, hne⟩ := exists_drawable_ne h.cpus src
      refine ⟨c, ⟨hc, ?_⟩, hne.symm⟩
      rw [hkeep]
      exact hc.ne_neg_one
    · rw [if_neg (not_or.mpr ⟨hkeep, by rwa [hdst]⟩)] at hsrc
      obtain ⟨c, hc, hne⟩ := exists_drawable_ne h.cpus p.srccpu
      exact ⟨c, ⟨hc, hne⟩, by rw [hsrc]; exact hne.symm⟩
  · simp only [if_neg hdst]
    refine ⟨p.dstcpu, rfl, ?_⟩
    split_ifs at hsrc with hredraw
    · exact hsrc.2
    · rw [hsrc]
      exact fun heq => hredraw (Or.inr heq)

/-- Every `dstcpu` that a load may have goes with some `srccpu`. -/
theorem exists_src_of_dst (h : p.Accepted topo) {dst : Int} (hdst : p.DstMayBe topo dst) :
    ∃ src, p.SrcMayBe topo src ∧ src ≠ dst := by
  unfold Params.DstMayBe at hdst
  unfold Params.SrcMayBe
  by_cases hredraw : p.srccpu = -1 ∨ p.srccpu = p.dstcpu
  · simp only [if_pos hredraw]
    obtain ⟨c, hc, hne⟩ := exists_drawable_ne h.cpus dst
    refine ⟨c, ⟨hc, ?_⟩, hne⟩
    split_ifs at hdst with hneg
    · rw [hneg]
      exact hc.ne_neg_one
    · rwa [← hdst]
  · simp only [if_neg hredraw]
    refine ⟨p.srccpu, rfl, ?_⟩
    split_ifs at hdst with hneg
    · exact hdst.2.symm
    · rw [hdst]
      exact fun heq => hredraw (Or.inr heq)

end InitParams

end KvmUtils.IpiBench
