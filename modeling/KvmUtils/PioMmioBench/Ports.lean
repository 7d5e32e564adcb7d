import KvmUtils.PioMmioBench.Walk

/-!
# The ports that `pio_mmio_bench` benchmarks

`pio_walk_resource` benchmarks the ports of the interrupt controller and of
the timer that it meets before the first keyboard of a bus.  At that keyboard
it benchmarks the port below it, as an empty one, and the keyboard itself, and
it leaves the bus.

`pio_walk_ports` says which windows the walk benchmarks and in which order.
-/

namespace KvmUtils.PioMmioBench

open SiblingWalk

/-- What the walk benchmarks at device `j` of the bus at `i`, if it comes
there. -/
def devicePorts (i j : Nat) (device : Resource) : List Window :=
  if device.name = "pic1" ∨ device.name = "timer0" then
    [pioBench (.device i j) device.name device.start]
  else if device.name = "keyboard" then
    [pioBench (.device i j) "empty" (device.start - 1),
      pioBench (.device i j) device.name device.start]
  else []

/-- No device below position `j` is a keyboard. -/
def NoKeyboardBelow (devices : List Resource) (j : Nat) : Prop :=
  ∀ l < j, ∀ device, devices[l]? = some device → device.name ≠ "keyboard"

/-- The walk comes to device `j` of the bus at `i`. -/
def Reached (ioport : Resource) (i j : Nat) (device : Resource) : Prop :=
  ∃ bus, ioport.children[i]? = some bus ∧ bus.name = "PCI Bus 0000:00" ∧
    bus.children[j]? = some device ∧ NoKeyboardBelow bus.children j

/-- The windows come in the order of the tree, and the empty port comes before
its keyboard. -/
def PortBefore (v w : Window) : Prop :=
  v.place.Before w.place ∨
    v.place = w.place ∧ v.name = "empty" ∧ w.name = "keyboard" ∧ v.addr = w.addr - 1

theorem noKeyboardBelow_succ {tmp : Resource} {siblings : List Resource} {l : Nat} :
    NoKeyboardBelow (tmp :: siblings) (l + 1) ↔
      tmp.name ≠ "keyboard" ∧ NoKeyboardBelow siblings l := by
  constructor
  · intro h
    refine ⟨h 0 (Nat.succ_pos l) tmp rfl, fun m hm device hdevice => ?_⟩
    exact h (m + 1) (Nat.succ_lt_succ hm) device hdevice
  · rintro ⟨htmp, hrest⟩ m hm device hdevice
    cases m with
    | zero =>
      obtain rfl : tmp = device := Option.some.inj hdevice
      exact htmp
    | succ m => exact hrest m (Nat.lt_of_succ_lt_succ hm) device hdevice

theorem place_of_mem_devicePorts {i j : Nat} {device : Resource} {w : Window}
    (hw : w ∈ devicePorts i j device) : w.place = .device i j := by
  unfold devicePorts at hw
  split_ifs at hw
  · rw [List.mem_singleton.mp hw]
    rfl
  · rcases List.mem_pair.mp hw with rfl | rfl <;> rfl
  · cases hw

theorem pairwise_devicePorts (i j : Nat) (device : Resource) :
    (devicePorts i j device).Pairwise PortBefore := by
  unfold devicePorts
  split_ifs with hpic hkeyboard
  · exact List.pairwise_singleton _ _
  · exact List.pairwise_pair.mpr (Or.inr ⟨rfl, rfl, hkeyboard, rfl⟩)
  · exact .nil

/-- One turn of the loop over the devices: it ends at a keyboard. -/
theorem pioWalkDevices_cons (i j : Nat) (tmp : Resource) (siblings : List Resource) :
    pioWalkDevices i j (tmp :: siblings) =
      devicePorts i j tmp ++
        if tmp.name = "keyboard" then [] else pioWalkDevices i (j + 1) siblings := by
  rw [pioWalkDevices, devicePorts]
  by_cases hpic : tmp.name = "pic1" ∨ tmp.name = "timer0"
  · have hname : tmp.name ≠ "keyboard" := by
      rcases hpic with hname | hname <;> rw [hname] <;> decide
    rw [if_pos hpic, if_pos hpic, if_neg hname]
    rfl
  · rw [if_neg hpic, if_neg hpic]
    split_ifs <;> rfl

theorem mem_pioWalkDevices {i j : Nat} {devices : List Resource} {w : Window} :
    w ∈ pioWalkDevices i j devices ↔ ∃ l device, devices[l]? = some device ∧
      NoKeyboardBelow devices l ∧ w ∈ devicePorts i (j + l) device := by
  induction devices generalizing j with
  | nil => simp [pioWalkDevices]
  | cons tmp siblings ih =>
    rw [pioWalkDevices_cons, List.mem_append]
    constructor
    · rintro (hw | hw)
      · exact ⟨0, tmp, rfl, fun l hl => absurd hl (Nat.not_lt_zero l), hw⟩
      · split_ifs at hw with hkeyboard
        · cases hw
        · obtain ⟨l, device, hdevice, hbelow, hw⟩ := ih.mp hw
          refine ⟨l + 1, device, hdevice, noKeyboardBelow_succ.mpr ⟨hkeyboard, hbelow⟩, ?_⟩
          rwa [Nat.add_comm l 1, ← Nat.add_assoc]
    · rintro ⟨l, device, hdevice, hbelow, hw⟩
      cases l with
      | zero =>
        obtain rfl : tmp = device := Option.some.inj hdevice
        exact Or.inl hw
      | succ l =>
        obtain ⟨hkeyboard, hbelow⟩ := noKeyboardBelow_succ.mp hbelow
        rw [if_neg hkeyboard]
        refine Or.inr (ih.mpr ⟨l, device, hdevice, hbelow, ?_⟩)
        rwa [Nat.add_assoc, Nat.add_comm 1 l]

theorem pairwise_pioWalkDevices (i j : Nat) (devices : List Resource) :
    (pioWalkDevices i j devices).Pairwise PortBefore := by
  induction devices generalizing j with
  | nil => exact .nil
  | cons tmp siblings ih =>
    rw [pioWalkDevices_cons]
    refine List.pairwise_append.mpr ⟨pairwise_devicePorts i j tmp, ?_, fun v hv w hw => ?_⟩
    · split_ifs
      · exact .nil
      · exact ih (j + 1)
    · split_ifs at hw
      · cases hw
      · obtain ⟨l, device, -, -, hw⟩ := mem_pioWalkDevices.mp hw
        refine Or.inl (Or.inr ?_)
        rw [place_of_mem_devicePorts hv, place_of_mem_devicePorts hw]
        refine ⟨rfl, ?_⟩
        show j + 1 < j + 1 + l + 1
        omega

/-- What `pio_walk_resource` benchmarks, for every tree of port resources.

1. A window is benchmarked exactly when it belongs to a device of a
   `PCI Bus 0000:00` at which the walk arrives, with no keyboard before it on
   that bus.
2. The windows come in the order of the tree, none of them twice, and the
   empty port right below a keyboard comes before the keyboard. -/
theorem pio_walk_ports (ioport : Resource) :
    (∀ w, w ∈ pioWalkResource ioport ↔
      ∃ i j device, Reached ioport i j device ∧ w ∈ devicePorts i j device) ∧
    (pioWalkResource ioport).Pairwise PortBefore := by
  constructor
  · intro w
    unfold pioWalkResource
    rw [mem_walk]
    constructor
    · rintro ⟨i, bus, hbus, hw⟩
      split_ifs at hw with hname
      · obtain ⟨j, device, hdevice, hbelow, hw⟩ := mem_pioWalkDevices.mp hw
        rw [Nat.zero_add] at hw
        exact ⟨i, j, device, ⟨bus, hbus, hname, hdevice, hbelow⟩, hw⟩
      · cases hw
    · rintro ⟨i, j, device, ⟨bus, hbus, hname, hdevice, hbelow⟩, hw⟩
      refine ⟨i, bus, hbus, ?_⟩
      rw [if_pos hname]
      exact mem_pioWalkDevices.mpr ⟨j, device, hdevice, hbelow, by rwa [Nat.zero_add]⟩
  · refine pairwise_walk (fun i bus _ => ?_) fun i k x y hik v hv w hw => ?_
    · split_ifs
      · exact pairwise_pioWalkDevices i 0 bus.children
      · exact .nil
    · split_ifs at hv hw
      · obtain ⟨l, hl⟩ := place_of_mem_pioWalkDevices hv
        obtain ⟨m, hm⟩ := place_of_mem_pioWalkDevices hw
        refine Or.inl (Or.inl ?_)
        rw [hl, hm]
        exact hik
      · cases hw
      · cases hv
      · cases hv

end KvmUtils.PioMmioBench
