import KvmUtils.TlbShootdown.Sums

/-!
# What each thread asks of the memory

Whatever the other threads and `main` do, a thread maps its buffer and then
makes its turns one after another.  In each turn it stores to every page of
the buffer once and in order.  After that it either advises each page once and
in order, up to the first advice that the kernel refuses, or it unmaps the
buffer and maps another one.  All turns are about the buffer that was mapped
first.

`asks_are_program` says so for every interleaving: what a thread has asked so
far begins such a program, and it is the whole of one when the thread is
through.
-/

namespace KvmUtils.TlbShootdown

open Function Machine

/-- The pages of a buffer. -/
@[irreducible] def PAGES : Nat := BUF_SIZE / PAGE

theorem mul_PAGES : PAGE * PAGES = BUF_SIZE := by
  unfold PAGES
  decide

/-- The stores to the first `n` pages of the buffer at `base`. -/
def stores (base n : Nat) : List Ask := (List.range n).map fun k => .store (base + PAGE * k)

/-- The advice on the first `n` pages of the buffer at `base`. -/
def advises (base n : Nat) : List Ask :=
  (List.range n).map fun k => .madvise (base + PAGE * k) 0

/-- What a thread asks in one turn. -/
inductive IsTurn (c : Config) (base : Nat) : List Ask → Prop where
  | remapped {base'} (hunmap : c.useUnmap = true) :
      IsTurn c base (stores base PAGES ++ [.munmap base, .mmap base'])
  | advised (hunmap : c.useUnmap = false) :
      IsTurn c base (stores base PAGES ++ advises base PAGES)
  /-- the kernel refuses the advice on page `n` -/
  | refused {n ret} (hunmap : c.useUnmap = false) (hn : n < PAGES) (hret : ret ≠ 0) :
      IsTurn c base (stores base PAGES ++ (advises base n ++ [.madvise (base + PAGE * n) ret]))

/-- What a thread asks in `__routine`. -/
def IsProgram (c : Config) (as : List Ask) : Prop :=
  ∃ (base : Nat) (turns : List (List Ask)), as = .mmap base :: turns.flatten ∧
    turns.length = c.benchLoops.toNat ∧
    ∀ turn ∈ turns, IsTurn c base turn

/-- What a thread has asked so far. -/
def Begins (c : Config) (as : List Ask) : Prop := ∃ all, IsProgram c all ∧ as <+: all

/-- What thread `t` has asked. -/
def asksOf (all : List (Nat × Ask)) (t : Nat) : List Ask :=
  all.filterMap fun a => if a.1 = t then some a.2 else none

section Lists

variable {c : Config} {base n : Nat}

theorem stores_succ : stores base (n + 1) = stores base n ++ [.store (base + PAGE * n)] := by
  rw [stores, List.range_succ, List.map_append]
  rfl

theorem advises_succ :
    advises base (n + 1) = advises base n ++ [.madvise (base + PAGE * n) 0] := by
  rw [advises, List.range_succ, List.map_append]
  rfl

/-- The first pages come first. -/
theorem pages_begin {f : Nat → Ask} (h : n ≤ PAGES) :
    (List.range n).map f <+: (List.range PAGES).map f := by
  obtain ⟨k, hk⟩ := Nat.exists_eq_add_of_le h
  rw [hk, List.range_add, List.map_append]
  exact List.prefix_append _ _

/-- The loop over the pages ends after the last one. -/
theorem last_page (h : n ≤ PAGES) (hindex : BUF_SIZE ≤ PAGE * n) : n = PAGES := by
  rw [← mul_PAGES] at hindex
  exact Nat.le_antisymm h (Nat.le_of_mul_le_mul_left hindex (by decide))

/-- Some turn begins with the stores to all pages, and any part of the advice
may follow. -/
theorem exists_turn (c : Config) (base : Nat) :
    ∃ turn, IsTurn c base turn ∧ stores base PAGES <+: turn := by
  cases hunmap : c.useUnmap with
  | true => exact ⟨_, @IsTurn.remapped c base base hunmap, List.prefix_append _ _⟩
  | false => exact ⟨_, .advised hunmap, List.prefix_append _ _⟩

/-- Turns that are not too many begin a program. -/
theorem begins_of_turns {turns : List (List Ask)} (hturns : ∀ turn ∈ turns, IsTurn c base turn)
    (hle : turns.length ≤ c.benchLoops.toNat) : Begins c (.mmap base :: turns.flatten) := by
  obtain ⟨next, hnext, -⟩ := exists_turn c base
  refine ⟨.mmap base :: (turns ++
    List.replicate (c.benchLoops.toNat - turns.length) next).flatten,
    ⟨base, _, rfl, ?_, fun turn hturn => ?_⟩, ?_⟩
  · rw [List.length_append, List.length_replicate, Nat.add_sub_cancel' hle]
  · rcases List.mem_append.mp hturn with hturn | hturn
    · exact hturns turn hturn
    · rw [List.eq_of_mem_replicate hturn]
      exact hnext
  · rw [List.flatten_append, ← List.cons_append]
    exact List.prefix_append _ _

/-- So do the beginning of another turn and what has been before it. -/
theorem begins_of_part {turns : List (List Ask)} {part turn : List Ask}
    (hturns : ∀ turn ∈ turns, IsTurn c base turn) (hlt : turns.length < c.benchLoops.toNat)
    (hturn : IsTurn c base turn) (hpart : part <+: turn) :
    Begins c (.mmap base :: (turns.flatten ++ part)) := by
  have hall : ∀ next ∈ turns ++ [turn], IsTurn c base next := by
    intro next hnext
    rcases List.mem_append.mp hnext with hnext | hnext
    · exact hturns next hnext
    · rw [List.mem_singleton.mp hnext]
      exact hturn
  have hle : (turns ++ [turn]).length ≤ c.benchLoops.toNat := by
    rw [List.length_append, List.length_singleton]
    exact hlt
  obtain ⟨all, hprogram, hprefix⟩ := begins_of_turns hall hle
  refine ⟨all, hprogram, List.IsPrefix.trans ?_ hprefix⟩
  rw [List.flatten_append, List.flatten_singleton]
  exact (List.prefix_cons_inj _).mpr ((List.prefix_append_right_inj _).mpr hpart)

theorem begins_nil (c : Config) : Begins c [] := by
  have hnone : ∀ turn ∈ ([] : List (List Ask)), IsTurn c 0 turn := by simp
  obtain ⟨all, hprogram, -⟩ := begins_of_turns hnone (Nat.zero_le _)
  exact ⟨all, hprogram, List.nil_prefix⟩

end Lists

/-! ## One thread -/

/-- The thread has not mapped its buffer. -/
def Pc.BeforeMap : Pc → Prop
  | .absent | .setAffinity | .getAffinity | .mmap => True
  | _ => False

/-- What a thread has asked in its current turn. -/
def Pc.Asked (c : Config) (base : Nat) : Pc → List Ask → Prop
  | .head, as | .done, as | .startFill, as => as = []
  | .fill index, as => ∃ n ≤ PAGES, index = PAGE * n ∧ as = stores base n
  | .startLeak, as => as = stores base PAGES
  | .munmap, as => c.useUnmap = true ∧ as = stores base PAGES
  | .remap, as => c.useUnmap = true ∧ as = stores base PAGES ++ [.munmap base]
  | .advise index, as => c.useUnmap = false ∧
      ∃ n ≤ PAGES, index = PAGE * n ∧ as = stores base PAGES ++ advises base n
  | .endLeak, as => IsTurn c base as
  | .absent, _ | .setAffinity, _ | .getAffinity, _ | .mmap, _ => False

/-- How many turns the thread has made. -/
def Pc.Turned (c : Config) (loop : Nat) : Pc → Prop
  | .head => loop ≤ c.benchLoops.toNat
  | .done => loop = c.benchLoops.toNat
  | _ => loop < c.benchLoops.toNat

/-- What a thread that has mapped its buffer has asked: whole turns, and a
part of the current one. -/
structure Turning (c : Config) (th : Thread) (turns : List (List Ask)) (part : List Ask) :
    Prop where
  whole : ∀ turn ∈ turns, IsTurn c th.p turn
  length_eq : turns.length = th.loop
  turned : th.pc.Turned c th.loop
  asked : th.pc.Asked c th.p part

/-- What a thread has asked. -/
def Asks (c : Config) (th : Thread) (as : List Ask) : Prop :=
  th.pc.BeforeMap ∧ as = [] ∨
    ∃ turns part, as = .mmap th.p :: (turns.flatten ++ part) ∧ Turning c th turns part

section Thread

variable {c : Config} {th th' : Thread} {ds : List (Phase × Int)} {as new : List Ask}

/-- A turn is over. -/
theorem Turning.next {turns : List (List Ask)} {part : List Ask} (h : Turning c th turns part)
    (hlt : th.loop < c.benchLoops.toNat) (hturn : IsTurn c th.p part) (leak : Int) :
    Turning c { th with pc := .head, usecLeak := leak, loop := th.loop + 1 }
      (turns ++ [part]) [] := by
  refine ⟨fun turn hmem => ?_, ?_, hlt, rfl⟩
  · rcases List.mem_append.mp hmem with hmem | hmem
    · exact h.whole turn hmem
    · rw [List.mem_singleton.mp hmem]
      exact hturn
  · rw [List.length_append, List.length_singleton, h.length_eq]

/-- Before the first `mmap` nothing is asked. -/
theorem Asks.eq_nil (h : Asks c th as) (hbefore : th.pc.BeforeMap) : as = [] := by
  rcases h with ⟨-, hnil⟩ | ⟨turns, part, -, hturning⟩
  · exact hnil
  · have hasked := hturning.asked
    cases hpc : th.pc <;> rw [hpc] at hbefore hasked <;>
      first | exact hbefore.elim | exact hasked.elim

/-- A step within a turn that asks `new`. -/
theorem Asks.within (h : Asks c th as) (hmapped : ¬ th.pc.BeforeMap) (hp : th'.p = th.p)
    (hloop : th'.loop = th.loop) (hturned : th.pc.Turned c th.loop → th'.pc.Turned c th.loop)
    (hasked : ∀ part, th.pc.Asked c th.p part → th'.pc.Asked c th.p (part ++ new)) :
    Asks c th' (as ++ new) := by
  rcases h with ⟨hbefore, -⟩ | ⟨turns, part, rfl, hturning⟩
  · exact absurd hbefore hmapped
  · refine Or.inr ⟨turns, part ++ new, ?_, ?_, ?_, ?_, ?_⟩
    · rw [hp, List.cons_append, List.append_assoc]
    · rw [hp]
      exact hturning.whole
    · rw [hloop]
      exact hturning.length_eq
    · rw [hloop]
      exact hturned hturning.turned
    · rw [hp]
      exact hasked part hturning.asked

/-- The end of a turn. -/
theorem Asks.endTurn (h : Asks c th as) {leak : Int} (hmapped : ¬ th.pc.BeforeMap)
    (hlt : th.pc.Turned c th.loop → th.loop < c.benchLoops.toNat)
    (hturn : ∀ part, th.pc.Asked c th.p part → IsTurn c th.p part) :
    Asks c { th with pc := .head, usecLeak := leak, loop := th.loop + 1 } as := by
  rcases h with ⟨hbefore, -⟩ | ⟨turns, part, rfl, hturning⟩
  · exact absurd hbefore hmapped
  · refine Or.inr ⟨turns ++ [part], [], by simp,
      hturning.next (hlt hturning.turned) (hturn part hturning.asked) leak⟩

/-- Every step of a thread asks what its program asks next. -/
theorem Asks.move (h : Asks c th as) (hmove : ThreadMove c th ds new th') :
    Asks c th' (as ++ new) := by
  have hmapped : ∀ {pc : Pc}, th.pc = pc → ¬ pc.BeforeMap → ¬ th.pc.BeforeMap :=
    fun hpc hnot => hpc ▸ hnot
  cases hmove with
  | setAffinity hpc | getAffinity hpc =>
    rw [h.eq_nil (by rw [hpc]; trivial)]
    exact Or.inl ⟨trivial, rfl⟩
  | map hpc =>
    rw [h.eq_nil (by rw [hpc]; trivial)]
    exact Or.inr ⟨[], [], rfl, by simp, rfl, Nat.zero_le _, rfl⟩
  | turn hpc hloop =>
    refine h.within (hmapped hpc id) rfl rfl (fun _ => ?_) fun part hpart => ?_
    · show th.loop < c.benchLoops.toNat
      omega
    · rw [hpc] at hpart
      rw [List.append_nil]
      exact hpart
  | finish hpc hloop =>
    refine h.within (hmapped hpc id) rfl rfl (fun hle => ?_) fun part hpart => ?_
    · rw [hpc] at hle
      refine Nat.le_antisymm hle ?_
      omega
    · rw [hpc] at hpart
      rw [List.append_nil]
      exact hpart
  | startFill hpc =>
    refine h.within (hmapped hpc id) rfl rfl (fun hlt => by rwa [hpc] at hlt) fun part hpart => ?_
    rw [hpc] at hpart
    obtain rfl : part = [] := hpart
    exact ⟨0, Nat.zero_le _, rfl, rfl⟩
  | store hpc hindex =>
    refine h.within (hmapped hpc id) rfl rfl (fun hlt => by rwa [hpc] at hlt) fun part hpart => ?_
    rw [hpc] at hpart
    obtain ⟨n, -, rfl, rfl⟩ := hpart
    rw [← mul_PAGES] at hindex
    exact ⟨n + 1, Nat.lt_of_mul_lt_mul_left hindex, rfl, stores_succ.symm⟩
  | endFill hpc hindex =>
    refine h.within (hmapped hpc id) rfl rfl (fun hlt => by rwa [hpc] at hlt) fun part hpart => ?_
    rw [hpc] at hpart
    obtain ⟨n, hn, rfl, rfl⟩ := hpart
    obtain rfl := last_page hn hindex
    exact List.append_nil _
  | startUnmap hpc hunmap =>
    refine h.within (hmapped hpc id) rfl rfl (fun hlt => by rwa [hpc] at hlt) fun part hpart => ?_
    rw [hpc] at hpart
    obtain rfl : part = stores th.p PAGES := hpart
    exact ⟨hunmap, List.append_nil _⟩
  | startAdvise hpc hunmap =>
    refine h.within (hmapped hpc id) rfl rfl (fun hlt => by rwa [hpc] at hlt) fun part hpart => ?_
    rw [hpc] at hpart
    obtain rfl : part = stores th.p PAGES := hpart
    exact ⟨hunmap, 0, Nat.zero_le _, rfl, rfl⟩
  | munmap hpc =>
    refine h.within (hmapped hpc id) rfl rfl (fun hlt => by rwa [hpc] at hlt) fun part hpart => ?_
    rw [hpc] at hpart
    obtain ⟨hunmap, rfl⟩ := hpart
    exact ⟨hunmap, rfl⟩
  | remap hpc =>
    refine h.within (hmapped hpc id) rfl rfl (fun hlt => by rwa [hpc] at hlt) fun part hpart => ?_
    rw [hpc] at hpart
    obtain ⟨hunmap, rfl⟩ := hpart
    rw [List.append_assoc]
    exact .remapped hunmap
  | advise hpc hindex =>
    refine h.within (hmapped hpc id) rfl rfl (fun hlt => by rwa [hpc] at hlt) fun part hpart => ?_
    rw [hpc] at hpart
    obtain ⟨hunmap, n, -, rfl, rfl⟩ := hpart
    rw [← mul_PAGES] at hindex
    rw [List.append_assoc, ← advises_succ]
    exact ⟨hunmap, n + 1, Nat.lt_of_mul_lt_mul_left hindex, rfl, rfl⟩
  | adviseFail hpc hindex hret =>
    refine h.within (hmapped hpc id) rfl rfl (fun hlt => by rwa [hpc] at hlt) fun part hpart => ?_
    rw [hpc] at hpart
    obtain ⟨hunmap, n, -, rfl, rfl⟩ := hpart
    rw [← mul_PAGES] at hindex
    rw [List.append_assoc]
    exact .refused hunmap (Nat.lt_of_mul_lt_mul_left hindex) hret
  | endAdvise hpc hindex =>
    rw [List.append_nil]
    refine h.endTurn (hmapped hpc id) (fun hlt => by rwa [hpc] at hlt) fun part hpart => ?_
    rw [hpc] at hpart
    obtain ⟨hunmap, n, hn, rfl, rfl⟩ := hpart
    obtain rfl := last_page hn hindex
    exact .advised hunmap
  | endLeak hpc =>
    rw [List.append_nil]
    refine h.endTurn (hmapped hpc id) (fun hlt => by rwa [hpc] at hlt) fun part hpart => ?_
    rwa [hpc] at hpart

/-- What a thread has asked in its current turn begins one. -/
theorem Pc.Asked.begins {q : Pc} {base : Nat} {part : List Ask} (h : q.Asked c base part) :
    ∃ turn, IsTurn c base turn ∧ part <+: turn := by
  obtain ⟨next, hnext, hstores⟩ := exists_turn c base
  cases q with
  | head | done | startFill =>
    obtain rfl : part = [] := h
    exact ⟨next, hnext, List.nil_prefix⟩
  | fill index =>
    obtain ⟨n, hn, -, rfl⟩ := h
    exact ⟨next, hnext, (pages_begin hn).trans hstores⟩
  | startLeak =>
    obtain rfl : part = stores base PAGES := h
    exact ⟨next, hnext, hstores⟩
  | munmap =>
    obtain ⟨-, rfl⟩ := h
    exact ⟨next, hnext, hstores⟩
  | remap =>
    obtain ⟨hunmap, rfl⟩ := h
    refine ⟨_, @IsTurn.remapped _ _ base hunmap, ⟨[.mmap base], ?_⟩⟩
    rw [List.append_assoc]
    rfl
  | advise index =>
    obtain ⟨hunmap, n, hn, -, rfl⟩ := h
    exact ⟨_, .advised hunmap, (List.prefix_append_right_inj _).mpr (pages_begin hn)⟩
  | endLeak => exact ⟨part, h, List.prefix_refl _⟩
  | absent | setAffinity | getAffinity | mmap => exact h.elim

/-- What a thread has asked begins a program. -/
theorem Asks.begins (h : Asks c th as) : Begins c as := by
  rcases h with ⟨-, rfl⟩ | ⟨turns, part, rfl, hturning⟩
  · exact begins_nil c
  have hasked := hturning.asked
  by_cases hlt : th.loop < c.benchLoops.toNat
  · obtain ⟨turn, hturn, hprefix⟩ := hasked.begins
    exact begins_of_part hturning.whole (hturning.length_eq ▸ hlt) hturn hprefix
  · have hturned := hturning.turned
    have hend : part = [] ∧ th.loop ≤ c.benchLoops.toNat := by
      cases hpc : th.pc with
      | head =>
        rw [hpc] at hasked hturned
        exact ⟨hasked, hturned⟩
      | done =>
        rw [hpc] at hasked hturned
        exact ⟨hasked, Nat.le_of_eq hturned⟩
      | absent | setAffinity | getAffinity | mmap | startFill | fill | startLeak | munmap | remap
      | advise | endLeak =>
        rw [hpc] at hturned
        exact absurd hturned hlt
    rw [hend.1, List.append_nil]
    exact begins_of_turns hturning.whole (hturning.length_eq ▸ hend.2)

/-- So it does with what the thread asks last, when that ends the process. -/
theorem Asks.last (h : Asks c th as) (hlast : LastAsk th new) : Begins c (as ++ new) := by
  have hpart : ¬ th.pc.BeforeMap → (th.pc.Turned c th.loop → th.loop < c.benchLoops.toNat) →
      (∀ part, th.pc.Asked c th.p part → ∃ turn, IsTurn c th.p turn ∧ part ++ new <+: turn) →
      Begins c (as ++ new) := by
    intro hmapped hlt hturn
    rcases h with ⟨hbefore, -⟩ | ⟨turns, part, rfl, hturning⟩
    · exact absurd hbefore hmapped
    · obtain ⟨turn, hwhole, hprefix⟩ := hturn part hturning.asked
      rw [List.cons_append, List.append_assoc]
      exact begins_of_part hturning.whole (hturning.length_eq ▸ hlt hturning.turned) hwhole hprefix
  cases hlast with
  | affinity =>
    rw [List.append_nil]
    exact h.begins
  | store hpc hindex =>
    refine hpart (by rw [hpc]; exact id) (fun hlt => by rwa [hpc] at hlt) fun part hasked => ?_
    rw [hpc] at hasked
    obtain ⟨n, -, rfl, rfl⟩ := hasked
    rw [← mul_PAGES] at hindex
    obtain ⟨next, hnext, hstores⟩ := exists_turn c th.p
    rw [← stores_succ]
    exact ⟨next, hnext, (pages_begin (Nat.lt_of_mul_lt_mul_left hindex)).trans hstores⟩
  | munmap hpc =>
    refine hpart (by rw [hpc]; exact id) (fun hlt => by rwa [hpc] at hlt) fun part hasked => ?_
    rw [hpc] at hasked
    obtain ⟨hunmap, rfl⟩ := hasked
    refine ⟨_, @IsTurn.remapped _ _ th.p hunmap, ⟨[.mmap th.p], ?_⟩⟩
    rw [List.append_assoc]
    rfl

/-- A thread that is through has asked a whole program. -/
theorem Asks.program (h : Asks c th as) (hdone : th.pc = .done) : IsProgram c as := by
  rcases h with ⟨hbefore, -⟩ | ⟨turns, part, rfl, hturning⟩
  · rw [hdone] at hbefore
    exact hbefore.elim
  · have hasked := hturning.asked
    have hturned := hturning.turned
    rw [hdone] at hasked hturned
    obtain rfl : part = [] := hasked
    rw [List.append_nil]
    exact ⟨th.p, turns, rfl, hturning.length_eq.trans hturned, hturning.whole⟩

end Thread

/-! ## All threads -/

section Threads

variable {c : Config} {s s' : State} {t u : Nat} {e : Event}

theorem asksOf_append (all new : List (Nat × Ask)) (t : Nat) :
    asksOf (all ++ new) t = asksOf all t ++ asksOf new t := by
  simp [asksOf]

theorem asksOf_own (as : List Ask) (t : Nat) : asksOf (as.map fun a => (t, a)) t = as := by
  simp [asksOf, List.filterMap_map]

theorem asksOf_other {as : List Ask} (hne : u ≠ t) :
    asksOf (as.map fun a => (t, a)) u = [] := by
  simp [asksOf, List.filterMap_map, hne.symm]

/-- What all threads have asked. -/
structure AllAsks (c : Config) (s : State) (all : List (Nat × Ask)) : Prop where
  sums : ∃ measurements, Sums c s measurements
  begins : ∀ t, Begins c (asksOf all t)
  program : ∀ t, (s.threads t).pc = .done → IsProgram c (asksOf all t)
  asks : s.exited = false → ∀ t, Asks c (s.threads t) (asksOf all t)

theorem allAsks_start (c : Config) : AllAsks c State.start [] where
  sums := ⟨[], sums_start c⟩
  begins _ := begins_nil c
  program t h := by cases h
  asks _ _ := Or.inl ⟨trivial, rfl⟩

/-- While the process lives, what each thread has asked says everything. -/
theorem allAsks_of_asks {all : List (Nat × Ask)} (hsums : ∃ measurements, Sums c s measurements)
    (h : ∀ t, Asks c (s.threads t) (asksOf all t)) : AllAsks c s all :=
  ⟨hsums, fun t => (h t).begins, fun t hdone => (h t).program hdone, fun _ => h⟩

/-- Thread `t` makes the step that ends the process. -/
theorem AllAsks.exit {all : List (Nat × Ask)} {as : List Ask} (h : AllAsks c s all)
    (hlive : s.exited = false) (hsums : ∃ measurements, Sums c s.exit measurements)
    (hlast : LastAsk (s.threads t) as) : AllAsks c s.exit (all ++ as.map fun a => (t, a)) := by
  have hother : ∀ {u}, u ≠ t → asksOf (all ++ as.map fun a => (t, a)) u = asksOf all u := by
    intro u hut
    rw [asksOf_append, asksOf_other hut, List.append_nil]
  have hown : asksOf (all ++ as.map fun a => (t, a)) t = asksOf all t ++ as := by
    rw [asksOf_append, asksOf_own]
  refine ⟨hsums, fun u => ?_, fun u hdone => ?_, nofun⟩
  · by_cases hut : u = t
    · subst hut
      rw [hown]
      exact (h.asks hlive u).last hlast
    · rw [hother hut]
      exact h.begins u
  · by_cases hut : u = t
    · subst hut
      cases hlast with
      | affinity =>
        rw [hown, List.append_nil]
        exact h.program u hdone
      | store hpc _ | munmap hpc => cases hpc.symm.trans hdone
    · rw [hother hut]
      exact h.program u hdone

theorem AllAsks.of_step {all : List (Nat × Ask)} (h : AllAsks c s all)
    (hst : step c s e = some s') : AllAsks c s' (all ++ asked s e) := by
  obtain ⟨measurements, hsums⟩ := h.sums
  have hlive := not_exited_of_step hst
  have hasks := h.asks hlive
  have hsums' : ∃ measurements, Sums c s' measurements := ⟨_, hsums.of_step hst⟩
  cases hactor : e.actor with
  | some t =>
    cases actorMove_of_step hactor hst with
    | exit hs hnone hlast hasked =>
      rw [hasked]
      rw [hs] at hsums' ⊢
      exact h.exit hlive hsums' hlast
    | move hmove hmeasured hasked hthreads hmain hexited =>
      rw [hasked]
      refine allAsks_of_asks hsums' fun u => ?_
      rw [asksOf_append, hthreads]
      by_cases hut : u = t
      · subst hut
        rw [update_self, asksOf_own]
        exact (hasks u).move hmove
      · rw [update_of_ne hut, asksOf_other hut, List.append_nil]
        exact hasks u
  | none =>
    rw [asked_of_main hactor, List.append_nil]
    have hcreated := hsums.created_iff
    cases mainMove_of_step hactor hst with
    | exit => exact ⟨hsums', h.begins, h.program, fun hexited => by cases hexited⟩
    | @create tnum hm hlt =>
      refine allAsks_of_asks hsums' fun u => ?_
      by_cases hut : u = tnum
      · subst hut
        have habsent : (s.threads u).pc = .absent := by
          by_contra hpresent
          rw [hm] at hcreated
          exact Nat.lt_irrefl u ((hcreated u).mp hpresent)
        rw [set_threads]
        exact Or.inl ⟨trivial, (hasks u).eq_nil (by rw [habsent]; trivial)⟩
      · simp only [State.set, update_of_ne hut]
        exact hasks u
    | endCreate | join => exact ⟨hsums', h.begins, h.program, fun _ => hasks⟩
    | endJoin => exact ⟨hsums', h.begins, h.program, fun hexited => by cases hexited⟩

/-- What each thread asks of the memory, for any number of threads and turns
and any interleaving: it begins a program of `__routine`, and it is a whole
one when the thread is through. -/
theorem asks_are_program {es : List Event} (hrun : exec (step c) State.start es = some s)
    (t : Nat) :
    Begins c (asksOf (outputs (step c) asked State.start es) t) ∧
      ((s.threads t).pc = .done →
        IsProgram c (asksOf (outputs (step c) asked State.start es) t)) := by
  have h := exec_invariant_outputs (f := asked) (I := AllAsks c) (P := fun _ _ => True)
    (fun _ _ _ _ h _ hst => h.of_step hst) (allAsks_start c)
    (allSteps_of_forall (fun _ _ => trivial) State.start es) hrun
  rw [List.nil_append] at h
  exact ⟨h.begins t, h.program t⟩

end Threads

/-- One thread makes one turn, and the kernel refuses its first advice. -/
theorem asks_are_program_oneTurn : ∃ es s, exec (step ⟨1, 1, false⟩) State.start es = some s ∧
    IsProgram ⟨1, 1, false⟩ (asksOf (outputs (step ⟨1, 1, false⟩) asked State.start es) 0) := by
  obtain ⟨es, s, hrun, -, hdone⟩ := exec_oneTurn
  exact ⟨es, s, hrun, (asks_are_program hrun 0).2 hdone⟩

end KvmUtils.TlbShootdown
