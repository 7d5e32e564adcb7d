import KvmUtils.Lib.SiblingWalk

/-!
# The windows that `pio_mmio_bench` benchmarks

`mmio_walk_resource` walks the top level of the tree of memory resources and,
under each `PCI Bus 0000:00`, the devices of that bus, and it benchmarks the
windows that it knows by name.  A window is taken together with its place in
the tree, so that two resources with the same name and address are two
windows.

The walk visits every place once and in order (`pairwise_before`).  So each
window that is to be benchmarked is benchmarked once.  Nothing ends the walk at
the first virtio device, as `break` does in `pio_walk_resource` at the
keyboard (`keyboard_once`), so all of them are benchmarked
(`mem_mmioWalkResource_virtio`).
-/

namespace KvmUtils.PioMmioBench

open SiblingWalk

/-- A `struct resource` with the list of its children. -/
structure Resource where
  name : String
  start : UInt64
  children : List Resource

/-- `res->child`. -/
def Resource.child (res : Resource) : Option Resource := res.children.head?

/-- Whether `strstr` finds `needle`. -/
def strstr (name needle : String) : Bool := decide (needle.toList <:+: name.toList)

/-- The place of a window: a resource at the top level, the first child of a
device, or the device itself. -/
inductive Place where
  | top (i : Nat)
  | firstChild (i j : Nat)
  | device (i j : Nat)
  deriving DecidableEq, Repr

/-- One call of `pio_bench` or `mmio_bench` and the place that it is for. -/
structure Window where
  place : Place
  tag : String
  name : String
  addr : UInt64
  deriving DecidableEq, Repr

/-! ## Memory-mapped windows -/

def mmioBench (place : Place) (res : Resource) : Window := ⟨place, "MMIO", res.name, res.start⟩

/-- The visit of device `j` of the bus at `i`. -/
def visitDevice (i j : Nat) (tmp : Resource) : List Window :=
  match tmp.child with
  | none => []
  | some child =>
    if strstr child.name "vram" then [mmioBench (.firstChild i j) child]
    else if strstr child.name "virtio-pci-modern" then
      -- "only bench the first virtio device"
      [mmioBench (.firstChild i j) child]
    else []

/-- The visit of the resource at `i`. -/
def visitResource (i : Nat) (res : Resource) : List Window :=
  (if res.name = "IOAPIC 0" ∨ res.name = "Local APIC" then [mmioBench (.top i) res] else []) ++
    if res.name = "PCI Bus 0000:00" then
      mmioBench (.top i) res :: walk (visitDevice i) res.children
    else []

def mmioWalkResource (iomem : Resource) : List Window := walk visitResource iomem.children

/-! ## Port windows -/

def pioBench (place : Place) (name : String) (addr : UInt64) : Window :=
  ⟨place, "PIO", name, addr⟩

/-- The loop over the devices of the bus at `i`, from device `j` on. -/
def pioWalkDevices (i : Nat) : Nat → List Resource → List Window
  | _, [] => []
  | j, tmp :: siblings =>
    if tmp.name = "pic1" ∨ tmp.name = "timer0" then
      pioBench (.device i j) tmp.name tmp.start :: pioWalkDevices i (j + 1) siblings
    else if tmp.name = "keyboard" then
      [pioBench (.device i j) "empty" (tmp.start - 1),
        pioBench (.device i j) tmp.name tmp.start]
    else pioWalkDevices i (j + 1) siblings

def pioWalkResource (ioport : Resource) : List Window :=
  walk (fun i res => if res.name = "PCI Bus 0000:00" then pioWalkDevices i 0 res.children else [])
    ioport.children

/-- The `break` at the keyboard: a bus contributes one keyboard at most, and
nothing after it. -/
theorem keyboard_once (i j : Nat) (devices : List Resource) :
    ((pioWalkDevices i j devices).filter fun w => w.name = "keyboard").length ≤ 1 := by
  induction devices generalizing j with
  | nil => simp [pioWalkDevices]
  | cons tmp siblings ih =>
    unfold pioWalkDevices
    split_ifs with hpic hkeyboard
    · have hname : ¬ tmp.name = "keyboard" := by
        rintro h
        simp [h] at hpic
      rw [List.filter_cons_of_neg (by simp [pioBench, hname])]
      exact ih (j + 1)
    · simp [pioBench, hkeyboard]
    · exact ih (j + 1)

theorem place_of_mem_pioWalkDevices {i j : Nat} {devices : List Resource} {w : Window}
    (hw : w ∈ pioWalkDevices i j devices) : ∃ l, w.place = .device i l := by
  induction devices generalizing j with
  | nil => cases hw
  | cons tmp siblings ih =>
    unfold pioWalkDevices at hw
    split_ifs at hw
    · obtain rfl | hw := List.mem_cons.mp hw
      · exact ⟨j, rfl⟩
      · exact ih hw
    · simp only [List.mem_cons, List.not_mem_nil, or_false] at hw
      obtain rfl | rfl := hw <;> exact ⟨j, rfl⟩
    · exact ih hw

/-- Over the whole walk, two keyboards are on different buses. -/
theorem keyboard_unique {ioport : Resource} {v w : Window} {i j l : Nat}
    (hv : v ∈ pioWalkResource ioport) (hw : w ∈ pioWalkResource ioport)
    (hvname : v.name = "keyboard") (hwname : w.name = "keyboard")
    (hvplace : v.place = .device i j) (hwplace : w.place = .device i l) : v = w := by
  have hbus : ∀ {u : Window} {m : Nat}, u ∈ pioWalkResource ioport → u.place = .device i m →
      ∃ res, ioport.children[i]? = some res ∧ u ∈ pioWalkDevices i 0 res.children := by
    intro u m hu hplace
    obtain ⟨k, res, hres, hu⟩ := mem_walk.mp hu
    split_ifs at hu
    · obtain ⟨n, hn⟩ := place_of_mem_pioWalkDevices hu
      obtain ⟨rfl, _⟩ := Place.device.inj (hplace.symm.trans hn)
      exact ⟨res, hres, hu⟩
    · cases hu
  obtain ⟨res, hres, hv⟩ := hbus hv hvplace
  obtain ⟨res', hres', hw⟩ := hbus hw hwplace
  obtain rfl : res = res' := Option.some.inj (hres.symm.trans hres')
  have hv : v ∈ (pioWalkDevices i 0 res.children).filter fun w => w.name = "keyboard" := by
    simp [hv, hvname]
  have hw : w ∈ (pioWalkDevices i 0 res.children).filter fun w => w.name = "keyboard" := by
    simp [hw, hwname]
  -- the list of the keyboards of the bus has one element at most
  have hone := keyboard_once i 0 res.children
  match hkeyboards : (pioWalkDevices i 0 res.children).filter fun w => w.name = "keyboard" with
  | [] => simp [hkeyboards] at hv
  | [u] =>
    rw [hkeyboards, List.mem_singleton] at hv hw
    exact hv.trans hw.symm
  | _ :: _ :: _ => simp [hkeyboards] at hone

/-! ## What the walk is for -/

/-- The names of the top-level resources that are benchmarked. -/
def topNames : List String := ["IOAPIC 0", "Local APIC", "PCI Bus 0000:00"]

/-- The name of a virtio device, and not of a video memory. -/
def isVirtio (name : String) : Bool := strstr name "virtio-pci-modern" && !strstr name "vram"

/-- The first child of device `j` of the bus at `i`. -/
def UnderBus (iomem : Resource) (i j : Nat) (child : Resource) : Prop :=
  ∃ bus, iomem.children[i]? = some bus ∧ bus.name = "PCI Bus 0000:00" ∧
    ∃ device, bus.children[j]? = some device ∧ device.child = some child

/-- Device `j` of the bus at `i` has a virtio device as its first child. -/
def VirtioAt (iomem : Resource) (i j : Nat) : Prop :=
  ∃ child, UnderBus iomem i j child ∧ isVirtio child.name = true

/-- Device `j` of the bus at `i` is the first one with a virtio device. -/
def FirstVirtio (iomem : Resource) (i j : Nat) : Prop :=
  VirtioAt iomem i j ∧ ∀ k l, VirtioAt iomem k l → i < k ∨ i = k ∧ j ≤ l

/-- The windows that are to be benchmarked: of the virtio devices only the
first one, and everything else once. -/
structure Selects (iomem : Resource) (ws : List Window) : Prop where
  oneVirtio : (ws.filter fun w => isVirtio w.name).length ≤ 1
  firstVirtio : ∀ i j, VirtioAt iomem i j → ∃ k l child, FirstVirtio iomem k l ∧
    UnderBus iomem k l child ∧ isVirtio child.name = true ∧
      mmioBench (.firstChild k l) child ∈ ws
  topOnce : ∀ i res, iomem.children[i]? = some res → res.name ∈ topNames →
    ws.filter (fun w => w.place = .top i) = [mmioBench (.top i) res]
  vramOnce : ∀ i j child, UnderBus iomem i j child → strstr child.name "vram" = true →
    ws.filter (fun w => w.place = .firstChild i j) = [mmioBench (.firstChild i j) child]

/-! ## What the walk benchmarks -/

theorem mem_visitDevice {i j : Nat} {tmp : Resource} {w : Window} :
    w ∈ visitDevice i j tmp ↔ ∃ child, tmp.child = some child ∧
      (strstr child.name "vram" = true ∨ isVirtio child.name = true) ∧
        w = mmioBench (.firstChild i j) child := by
  unfold visitDevice
  cases hchild : tmp.child with
  | none => simp
  | some child =>
    cases hvram : strstr child.name "vram" <;>
      cases hvirtio : strstr child.name "virtio-pci-modern" <;>
        simp [isVirtio, hvram, hvirtio]

theorem mem_visitResource {i : Nat} {res : Resource} {w : Window} :
    w ∈ visitResource i res ↔ (res.name ∈ topNames ∧ w = mmioBench (.top i) res) ∨
      (res.name = "PCI Bus 0000:00" ∧ w ∈ walk (visitDevice i) res.children) := by
  unfold visitResource
  by_cases hbus : res.name = "PCI Bus 0000:00"
  · simp [topNames, hbus]
  · by_cases hapic : res.name = "IOAPIC 0" ∨ res.name = "Local APIC"
    · simp [topNames, hbus, hapic]
    · simp [topNames, hbus, not_or.mp hapic]

/-- The walk benchmarks the top-level resources with a known name, and the
first children under a bus that are video memories or virtio devices. -/
theorem mem_mmioWalkResource {iomem : Resource} {w : Window} :
    w ∈ mmioWalkResource iomem ↔
      (∃ i res, iomem.children[i]? = some res ∧ res.name ∈ topNames ∧
        w = mmioBench (.top i) res) ∨
      ∃ i j child, UnderBus iomem i j child ∧
        (strstr child.name "vram" = true ∨ isVirtio child.name = true) ∧
          w = mmioBench (.firstChild i j) child := by
  simp only [mmioWalkResource, mem_walk, mem_visitResource, mem_visitDevice, UnderBus]
  constructor
  · rintro ⟨i, res, hres, ⟨hname, hw⟩ | ⟨hbus, j, device, hdevice, child, hchild, hname, hw⟩⟩
    · exact .inl ⟨i, res, hres, hname, hw⟩
    · exact .inr ⟨i, j, child, ⟨res, hres, hbus, device, hdevice, hchild⟩, hname, hw⟩
  · rintro (⟨i, res, hres, hname, hw⟩ |
      ⟨i, j, child, ⟨res, hres, hbus, device, hdevice, hchild⟩, hname, hw⟩)
    · exact ⟨i, res, hres, .inl ⟨hname, hw⟩⟩
    · exact ⟨i, res, hres, .inr ⟨hbus, j, device, hdevice, child, hchild, hname, hw⟩⟩

/-! ## The order of the walk -/

/-- A place precedes what is below it and everything at a later position. -/
def Place.rank : Place → Nat × Nat
  | .top i => (i, 0)
  | .firstChild i j | .device i j => (i, j + 1)

def Place.Before (p q : Place) : Prop :=
  p.rank.1 < q.rank.1 ∨ p.rank.1 = q.rank.1 ∧ p.rank.2 < q.rank.2

theorem Place.Before.ne {p q : Place} (h : p.Before q) : p ≠ q := by
  rintro rfl
  obtain h | ⟨_, h⟩ := h <;> exact Nat.lt_irrefl _ h

theorem place_of_mem_visitDevice {i j : Nat} {tmp : Resource} {w : Window}
    (hw : w ∈ visitDevice i j tmp) : w.place = .firstChild i j := by
  obtain ⟨child, _, _, rfl⟩ := mem_visitDevice.mp hw
  rfl

theorem rank_of_mem_visitResource {i : Nat} {res : Resource} {w : Window}
    (hw : w ∈ visitResource i res) : w.place.rank.1 = i := by
  obtain ⟨_, rfl⟩ | ⟨_, hw⟩ := mem_visitResource.mp hw
  · rfl
  · obtain ⟨j, device, _, hw⟩ := mem_walk.mp hw
    rw [place_of_mem_visitDevice hw]
    rfl

/-- The devices of a bus are visited in order. -/
theorem pairwise_walk_visitDevice (i : Nat) (devices : List Resource) :
    (walk (visitDevice i) devices).Pairwise fun a b => a.place.Before b.place := by
  refine pairwise_walk ?_ ?_
  · intro j tmp _
    unfold visitDevice
    cases tmp.child with
    | none => exact .nil
    | some child =>
      dsimp only
      split_ifs
      · exact List.pairwise_singleton _ _
      · exact List.pairwise_singleton _ _
      · exact .nil
  · intro j l x y hjl a ha b hb
    rw [place_of_mem_visitDevice ha, place_of_mem_visitDevice hb]
    exact .inr ⟨rfl, Nat.succ_lt_succ hjl⟩

theorem pairwise_visitResource (i : Nat) (res : Resource) :
    (visitResource i res).Pairwise fun a b => a.place.Before b.place := by
  unfold visitResource
  by_cases hbus : res.name = "PCI Bus 0000:00"
  · have hapic : ¬ (res.name = "IOAPIC 0" ∨ res.name = "Local APIC") := by
      rw [hbus]
      decide
    rw [if_neg hapic, if_pos hbus, List.nil_append, List.pairwise_cons]
    refine ⟨fun w hw => ?_, pairwise_walk_visitDevice i res.children⟩
    obtain ⟨j, device, _, hw⟩ := mem_walk.mp hw
    rw [place_of_mem_visitDevice hw]
    exact .inr ⟨rfl, Nat.succ_pos j⟩
  · rw [if_neg hbus, List.append_nil]
    split_ifs
    · exact List.pairwise_singleton _ _
    · exact .nil

/-- The windows come in the order of the tree, no place twice. -/
theorem pairwise_before (iomem : Resource) :
    (mmioWalkResource iomem).Pairwise fun a b => a.place.Before b.place := by
  refine pairwise_walk (fun i res _ => pairwise_visitResource i res) ?_
  intro i k x y hik a ha b hb
  refine .inl ?_
  rw [rank_of_mem_visitResource ha, rank_of_mem_visitResource hb]
  exact hik

theorem nodup_place (iomem : Resource) : ((mmioWalkResource iomem).map Window.place).Nodup :=
  List.pairwise_map.mpr ((pairwise_before iomem).imp fun h => h.ne)

/-! ## The virtio devices -/

/-- The names of the top level are not those of virtio devices. -/
theorem isVirtio_of_mem_topNames {name : String} (h : name ∈ topNames) :
    isVirtio name = false := by
  have hall : ∀ name ∈ topNames, isVirtio name = false := by decide
  exact hall name h

/-- The windows of virtio devices that are benchmarked. -/
theorem mem_mmioWalkResource_virtio {iomem : Resource} {w : Window} :
    w ∈ mmioWalkResource iomem ∧ isVirtio w.name = true ↔
      ∃ i j child, UnderBus iomem i j child ∧ isVirtio child.name = true ∧
        w = mmioBench (.firstChild i j) child := by
  rw [mem_mmioWalkResource]
  constructor
  · rintro ⟨⟨i, res, _, hname, rfl⟩ | ⟨i, j, child, hunder, _, rfl⟩, hvirtio⟩
    · rw [mmioBench, isVirtio_of_mem_topNames hname] at hvirtio
      cases hvirtio
    · exact ⟨i, j, child, hunder, hvirtio, rfl⟩
  · rintro ⟨i, j, child, hunder, hvirtio, rfl⟩
    exact ⟨.inr ⟨i, j, child, hunder, .inr hvirtio, rfl⟩, hvirtio⟩

/-- One virtio window at most is benchmarked exactly when there is at most one
device to benchmark. -/
theorem oneVirtio_iff (iomem : Resource) :
    ((mmioWalkResource iomem).filter fun w => isVirtio w.name).length ≤ 1 ↔
      ∀ i j k l, VirtioAt iomem i j → VirtioAt iomem k l → i = k ∧ j = l := by
  have hkeys : (((mmioWalkResource iomem).filter fun w => isVirtio w.name).map
      Window.place).Nodup := (nodup_place iomem).sublist (List.filter_sublist.map _)
  rw [length_le_one_iff hkeys]
  simp only [List.mem_filter, mem_mmioWalkResource_virtio]
  constructor
  · rintro hall i j k l ⟨c, hc, hcvirtio⟩ ⟨d, hd, hdvirtio⟩
    have hplace := hall _ ⟨i, j, c, hc, hcvirtio, rfl⟩ _ ⟨k, l, d, hd, hdvirtio, rfl⟩
    exact Place.firstChild.inj hplace
  · rintro hone _ ⟨i, j, c, hc, hcvirtio, rfl⟩ _ ⟨k, l, d, hd, hdvirtio, rfl⟩
    obtain ⟨rfl, rfl⟩ := hone i j k l ⟨c, hc, hcvirtio⟩ ⟨d, hd, hdvirtio⟩
    rfl

/-- The walk selects the windows that are to be benchmarked exactly when at
most one device under the `PCI Bus 0000:00` resources has a virtio device as
its first child. -/
theorem mmioWalkResource_selects_iff (iomem : Resource) :
    Selects iomem (mmioWalkResource iomem) ↔
      ∀ i j k l, VirtioAt iomem i j → VirtioAt iomem k l → i = k ∧ j = l := by
  constructor
  · exact fun h => (oneVirtio_iff iomem).mp h.oneVirtio
  · intro hone
    refine ⟨(oneVirtio_iff iomem).mpr hone, ?_, ?_, ?_⟩
    · rintro i j ⟨child, hunder, hvirtio⟩
      have hfirst : FirstVirtio iomem i j := by
        refine ⟨⟨child, hunder, hvirtio⟩, fun k l hkl => ?_⟩
        obtain ⟨rfl, rfl⟩ := hone i j k l ⟨child, hunder, hvirtio⟩ hkl
        exact .inr ⟨rfl, Nat.le_refl j⟩
      exact ⟨i, j, child, hfirst, hunder, hvirtio,
        mem_mmioWalkResource.mpr (.inr ⟨i, j, child, hunder, .inr hvirtio, rfl⟩)⟩
    · intro i res hres hname
      have hmem : mmioBench (.top i) res ∈ mmioWalkResource iomem :=
        mem_mmioWalkResource.mpr (.inl ⟨i, res, hres, hname, rfl⟩)
      exact filter_key_eq (nodup_place iomem) hmem
    · intro i j child hunder hvram
      have hmem : mmioBench (.firstChild i j) child ∈ mmioWalkResource iomem :=
        mem_mmioWalkResource.mpr (.inr ⟨i, j, child, hunder, .inl hvram, rfl⟩)
      exact filter_key_eq (nodup_place iomem) hmem

/-- A bus with two virtio devices. -/
def twoVirtio : Resource :=
  ⟨"PCI mem", 0, [⟨"PCI Bus 0000:00", 0xfe000000, [
    ⟨"0000:00:03.0", 0xfe000000, [⟨"virtio-pci-modern", 0xfe000000, []⟩]⟩,
    ⟨"0000:00:04.0", 0xfe004000, [⟨"virtio-pci-modern", 0xfe004000, []⟩]⟩]⟩]⟩

/-- Both devices are benchmarked. -/
theorem both_virtio_benchmarked : ¬ Selects twoVirtio (mmioWalkResource twoVirtio) := by
  intro h
  have hlen : ((mmioWalkResource twoVirtio).filter fun w => isVirtio w.name).length = 2 := by
    decide
  have hone := h.oneVirtio
  omega

end KvmUtils.PioMmioBench
