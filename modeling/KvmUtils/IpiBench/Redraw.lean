import KvmUtils.IpiBench.Params

/-!
# Whether the parameters settle

The two loops of `ipi_bench_init_params` draw a CPU until it will do, and
nothing bounds the number of draws.  Whether a load gets past them depends on
the random values alone: a loop goes on as long as it draws the other CPU.

`init_params_returns_iff` says for which random values `ipi_bench_init_params`
returns.
-/

namespace KvmUtils.IpiBench

/-- The CPU that the `k`-th random value draws. -/
def Topology.draw (topo : Topology) (random : Nat → UInt64) (k : Nat) : Int :=
  (random k).toNat % topo.numCpus

/-- A loop that keeps away from `other` draws again when it has `cpu`. -/
def Redraws (other cpu : Int) : Prop := cpu = -1 ∨ cpu = other

/-- From the `pos`-th value on, a loop that keeps away from `other` draws a CPU
that will do. -/
def Topology.Settles (topo : Topology) (random : Nat → UInt64) (other : Int) (pos : Nat) : Prop :=
  ∃ k, pos ≤ k ∧ topo.draw random k ≠ other

section Loop

variable {topo : Topology} {random : Nat → UInt64} {other cpu c : Int} {fuel pos pos' : Nat}

/-- What is drawn is a CPU. -/
theorem draw_ne_neg_one (hn : 0 < topo.numCpus) (k : Nat) : topo.draw random k ≠ -1 :=
  @Topology.Drawable.ne_neg_one topo _ (drawable_draw hn (random k))

theorem redraws_draw_iff (hn : 0 < topo.numCpus) (k : Nat) :
    Redraws other (topo.draw random k) ↔ topo.draw random k = other :=
  or_iff_right (draw_ne_neg_one hn k)

/-- A loop that has something to draw makes one turn. -/
theorem redrawLoop_of_redraws (h : Redraws other cpu) :
    redrawLoop topo random other (fuel + 1) cpu pos =
      redrawLoop topo random other fuel (topo.draw random pos) (pos + 1) := by
  rw [redrawLoop]
  exact if_pos h

/-- A loop that ends has kept its CPU, or it has found another one after
values that would not do. -/
theorem redrawLoop_settles (hn : 0 < topo.numCpus)
    (h : redrawLoop topo random other fuel cpu pos = some (c, pos')) :
    ¬ Redraws other cpu ∧ c = cpu ∧ pos' = pos ∨
      Redraws other cpu ∧ ∃ k, pos ≤ k ∧ pos' = k + 1 ∧ c = topo.draw random k ∧ c ≠ other ∧
        ∀ m, pos ≤ m → m < k → topo.draw random m = other := by
  induction fuel generalizing cpu pos with
  | zero => cases h
  | succ fuel ih =>
    by_cases hredraw : Redraws other cpu
    · rw [redrawLoop_of_redraws hredraw] at h
      refine Or.inr ⟨hredraw, ?_⟩
      rcases ih h with ⟨hkeep, rfl, rfl⟩ | ⟨hagain, k, hk, hpos, hc, hne, hbefore⟩
      · refine ⟨pos, Nat.le_refl pos, rfl, rfl, fun heq => hkeep (Or.inr heq), fun m hm hlt => ?_⟩
        omega
      · refine ⟨k, by omega, hpos, hc, hne, fun m hm hlt => ?_⟩
        rcases Nat.eq_or_lt_of_le hm with rfl | hlater
        · exact (redraws_draw_iff hn pos).mp hagain
        · exact hbefore m hlater hlt
    · rw [redrawLoop_of_keep hredraw] at h
      obtain ⟨rfl, rfl⟩ := Prod.mk.inj (Option.some.inj h)
      exact Or.inl ⟨hredraw, rfl, rfl⟩

/-- A loop ends as soon as it draws a CPU that will do. -/
theorem exists_redrawLoop (hn : 0 < topo.numCpus)
    (h : Redraws other cpu → topo.Settles random other pos) :
    ∃ fuel c pos', redrawLoop topo random other fuel cpu pos = some (c, pos') := by
  have hdraws : ∀ n k, pos ≤ k → k - pos = n → topo.draw random k ≠ other →
      ∃ fuel c pos', redrawLoop topo random other fuel cpu pos = some (c, pos') := by
    intro n
    induction n generalizing cpu pos with
    | zero =>
      intro k hk hn' hne
      obtain rfl : k = pos := by omega
      by_cases hredraw : Redraws other cpu
      · refine ⟨2, _, _, (redrawLoop_of_redraws hredraw).trans (redrawLoop_of_keep ?_)⟩
        exact fun hagain => hne ((redraws_draw_iff hn k).mp hagain)
      · exact ⟨1, _, _, redrawLoop_of_keep hredraw⟩
    | succ n ih =>
      intro k hk hn' hne
      by_cases hredraw : Redraws other cpu
      · obtain ⟨fuel, c, pos', hloop⟩ := @ih (topo.draw random pos) (pos + 1)
          (fun _ => ⟨k, by omega, hne⟩) k (by omega) (by omega) hne
        exact ⟨fuel + 1, c, pos', (redrawLoop_of_redraws hredraw).trans hloop⟩
      · exact ⟨1, _, _, redrawLoop_of_keep hredraw⟩
  by_cases hredraw : Redraws other cpu
  · obtain ⟨k, hk, hne⟩ := h hredraw
    exact hdraws _ k hk rfl hne
  · exact ⟨1, _, _, redrawLoop_of_keep hredraw⟩

theorem redrawLoop_succ (h : redrawLoop topo random other fuel cpu pos = some (c, pos')) :
    redrawLoop topo random other (fuel + 1) cpu pos = some (c, pos') := by
  induction fuel generalizing cpu pos with
  | zero => cases h
  | succ fuel ih =>
    by_cases hredraw : Redraws other cpu
    · rw [redrawLoop_of_redraws hredraw] at h ⊢
      exact ih h
    · rw [redrawLoop_of_keep hredraw] at h ⊢
      exact h

/-- More fuel changes nothing. -/
theorem redrawLoop_mono {fuel' : Nat} (hle : fuel ≤ fuel')
    (h : redrawLoop topo random other fuel cpu pos = some (c, pos')) :
    redrawLoop topo random other fuel' cpu pos = some (c, pos') := by
  induction hle with
  | refl => exact h
  | step _ ih => exact redrawLoop_succ ih

end Loop

/-- The random values settle `srccpu`. -/
def Params.SrcSettles (p : Params) (topo : Topology) (random : Nat → UInt64) : Prop :=
  p.srccpu = -1 ∨ p.srccpu = p.dstcpu → topo.Settles random p.dstcpu 0

/-- The random values settle `dstcpu`.  When both CPUs are to be drawn, the
first value is that of `srccpu`. -/
def Params.DstSettles (p : Params) (topo : Topology) (random : Nat → UInt64) : Prop :=
  p.dstcpu = -1 →
    if p.srccpu = -1 then topo.Settles random (topo.draw random 0) 1
    else topo.Settles random p.srccpu 0

section Params

variable {topo : Topology} {random : Nat → UInt64} {p : Params} {src : Int} {fuel pos : Nat}

/-- When `dstcpu` is to be drawn, it is drawn from where the first loop has
come to. -/
theorem dstSettles_iff (hn : 0 < topo.numCpus)
    (hloop : redrawLoop topo random p.dstcpu fuel p.srccpu 0 = some (src, pos)) :
    p.DstSettles topo random ↔ (p.dstcpu = -1 → topo.Settles random src pos) := by
  unfold Params.DstSettles
  refine imp_congr_right fun hdst => ?_
  rw [hdst] at hloop
  rcases redrawLoop_settles hn hloop with ⟨hkeep, rfl, rfl⟩ |
    ⟨hredraw, k, -, rfl, rfl, -, hbefore⟩
  · rw [if_neg fun hsrc => hkeep (Or.inl hsrc)]
  · -- the first value drawn is a CPU, and so not the `dstcpu` to keep away from
    have hzero : k = 0 := by
      by_contra hk
      exact draw_ne_neg_one hn 0 (hbefore 0 (Nat.le_refl 0) (Nat.pos_of_ne_zero hk))
    rw [hzero, if_pos (or_self_iff.mp hredraw)]

theorem srcSettles_of_loop (hn : 0 < topo.numCpus)
    (hloop : redrawLoop topo random p.dstcpu fuel p.srccpu 0 = some (src, pos)) :
    p.SrcSettles topo random := by
  intro hredraws
  rcases redrawLoop_settles hn hloop with ⟨hkeep, -, -⟩ | ⟨-, k, hk, -, rfl, hne, -⟩
  · exact absurd hredraws hkeep
  · exact ⟨k, hk, hne⟩

/-- The second loop ends exactly when it has a CPU to find. -/
theorem exists_second_loop_iff (hn : 0 < topo.numCpus)
    (hloop : redrawLoop topo random p.dstcpu fuel p.srccpu 0 = some (src, pos)) :
    (∃ fuel' c pos', redrawLoop topo random src fuel' p.dstcpu pos = some (c, pos')) ↔
      p.DstSettles topo random := by
  rw [dstSettles_iff hn hloop]
  constructor
  · rintro ⟨fuel', c, pos', hsecond⟩ hdst
    rcases redrawLoop_settles hn hsecond with ⟨hkeep, -, -⟩ | ⟨-, k, hk, -, rfl, hne, -⟩
    · exact absurd (Or.inl hdst) hkeep
    · exact ⟨k, hk, hne⟩
  · intro hsettles
    refine exists_redrawLoop hn fun hredraws => ?_
    rcases hredraws with hdst | hsame
    · exact hsettles hdst
    · obtain ⟨-, hne, -⟩ := redrawLoop_spec hn hloop
      exact absurd hsame.symm hne

/-- Both loops end for some fuel. -/
theorem exists_fuel_iff (haccepted : p.Accepted topo) :
    (∃ fuel ret, initParams topo random fuel p = some ret) ↔
      ∃ fuel src pos, redrawLoop topo random p.dstcpu fuel p.srccpu 0 = some (src, pos) ∧
        ∃ fuel' c pos', redrawLoop topo random src fuel' p.dstcpu pos = some (c, pos') := by
  constructor
  · rintro ⟨fuel, ret, hret⟩
    rw [initParams_of_accepted haccepted] at hret
    split at hret
    · cases hret
    · rename_i src pos hsrc
      split at hret
      · cases hret
      · rename_i dst pos' hdst
        exact ⟨fuel, src, pos, hsrc, fuel, dst, pos', hdst⟩
  · rintro ⟨fuel, src, pos, hsrc, fuel', dst, pos', hdst⟩
    refine ⟨max fuel fuel', (0, p.settle topo src dst), ?_⟩
    rw [initParams_of_accepted haccepted,
      redrawLoop_mono (Nat.le_max_left fuel fuel') hsrc]
    simp only [redrawLoop_mono (Nat.le_max_right fuel fuel') hdst]

end Params

/-- `ipi_bench_init_params` returns, for any parameters, any machine and any
random values, exactly when it rejects the parameters or the random values
settle both CPUs. -/
theorem init_params_returns_iff (topo : Topology) (random : Nat → UInt64) (p : Params) :
    (∃ fuel ret, initParams topo random fuel p = some ret) ↔
      (p.Accepted topo → p.SrcSettles topo random ∧ p.DstSettles topo random) := by
  by_cases haccepted : p.Accepted topo
  · have hn : 0 < topo.numCpus := by
      have hcpus := haccepted.cpus
      omega
    rw [forall_prop_of_true haccepted, exists_fuel_iff haccepted]
    constructor
    · rintro ⟨fuel, src, pos, hloop, hsecond⟩
      exact ⟨srcSettles_of_loop hn hloop, (exists_second_loop_iff hn hloop).mp hsecond⟩
    · rintro ⟨hsrc, hdst⟩
      obtain ⟨fuel, src, pos, hloop⟩ := exists_redrawLoop hn hsrc
      exact ⟨fuel, src, pos, hloop, (exists_second_loop_iff hn hloop).mpr hdst⟩
  · refine iff_of_true ⟨0, (-1, p), ?_⟩ fun h => absurd h haccepted
    unfold initParams
    split_ifs with hcpus hrange hpairs
    · rfl
    · rfl
    · rfl
    · exact absurd ⟨by omega, by omega, by omega, by omega⟩ haccepted

end KvmUtils.IpiBench
