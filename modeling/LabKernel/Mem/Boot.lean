import LabKernel.Mem.Fork
import LabKernel.Mem.PagePool
import LabKernel.Mem.TableRoom

/-! # The kernel's page table

`kvm_init` maps the devices, the kernel and the memory that is handed out at their own addresses, the
trampoline at the top of the address space, and below the trap frames two pages of the user's pool for the
stack of each process. The ranges lie apart, so each is mapped as it is given; and since they lie in few
blocks of 2 MiB, the kernel's pool has enough pages for their tables.
-/

namespace LabKernel

def uartBase : ℕ := 0x10000000

def clintBase : ℕ := 0x2000000

def plicBase : ℕ := 0xc000000

def virtioBase : ℕ := 0x10001000

/-- What `kernel.ld` lays out below `ALLOC_BEGIN`: the code with the page of the trampoline, and behind
`KERNEL_DATA` the data. -/
structure KernelImage (ram : Ram) where
  kernelData : ℕ
  trampolinePage : U64
  aligned : kernelData % pgsize = 0
  text : kernelBase < kernelData
  data : kernelData < ram.allocBegin
  code : Ram.PageIn kernelBase kernelData trampolinePage

/-- The loop of `kvm_init` over the processes -/
def kstackLoop (table : U64) : (left i : ℕ) → MemM Unit
  | 0, _ => return ()
  | left + 1, i => do
    let low ← pmemAlloc false
    if low = 0 then throw (.panic "kvm_init: alloc kstack page 1 failed")
    let high ← pmemAlloc false
    if high = 0 then throw (.panic "kvm_init: alloc kstack page 2 failed")
    vmMappages table (kstack i) low pgsize permRW
    vmMappages table (kstack i + pgsize) high pgsize permRW
    kstackLoop table left (i + 1)

def kvmInit {ram : Ram} (image : KernelImage ram) : MemM Unit := do
  let table ← pmemAlloc true
  modify fun s => { s with kernPagetable := table }
  if table = 0 then throw (.panic "kvm_init: alloc failed")
  vmMappages table uartBase (BitVec.ofNat 64 uartBase) pgsize permRW
  vmMappages table clintBase (BitVec.ofNat 64 clintBase) 0x10000 permRW
  vmMappages table plicBase (BitVec.ofNat 64 plicBase) 0x400000 permRW
  vmMappages table virtioBase (BitVec.ofNat 64 virtioBase) pgsize permRW
  vmMappages table kernelBase (BitVec.ofNat 64 kernelBase) (image.kernelData - kernelBase) permRX
  vmMappages table image.kernelData (BitVec.ofNat 64 image.kernelData) (ram.allocBegin - image.kernelData) permRW
  vmMappages table ram.allocBegin (BitVec.ofNat 64 ram.allocBegin) (Ram.allocEnd - ram.allocBegin) permRW
  vmMappages table trampoline image.trampolinePage pgsize permRX
  kstackLoop table nProc 0

/-! ## Ranges -/

/-- A range of addresses that is mapped to consecutive frames -/
structure KernelRange where
  va : ℕ
  pa : U64
  len : ℕ
  perm : U32

namespace KernelRange

def Covers (m : KernelRange) (va : ℕ) : Prop := m.va ≤ va ∧ va < m.va + m.len

def frame (m : KernelRange) (va : ℕ) : U64 := m.pa + BitVec.ofNat 64 ((va - m.va) / pgsize * pgsize)

/-- Where the range sends an address, and with which flags -/
def target (m : KernelRange) (va : ℕ) : U64 × U64 := (m.frame va, m.perm.setWidth 64 ||| pteV)

def Apart (m m' : KernelRange) : Prop := m.va + m.len ≤ m'.va ∨ m'.va + m'.len ≤ m.va

end KernelRange

/-- Memory at its own address -/
def sameRange (start stop : ℕ) (perm : U32) : KernelRange := ⟨start, BitVec.ofNat 64 start, stop - start, perm⟩

/-- The ranges that `kvm_init` maps before the stacks -/
def fixedRanges {ram : Ram} (image : KernelImage ram) : List KernelRange :=
  [sameRange uartBase (uartBase + pgsize) permRW,
    sameRange clintBase (clintBase + 0x10000) permRW,
    sameRange plicBase (plicBase + 0x400000) permRW,
    sameRange virtioBase (virtioBase + pgsize) permRW,
    sameRange kernelBase image.kernelData permRX,
    sameRange image.kernelData ram.allocBegin permRW,
    sameRange ram.allocBegin Ram.allocEnd permRW,
    ⟨trampoline, image.trampolinePage, pgsize, permRX⟩]

/-- The stack of a process in two pages of a pool -/
def stackRanges (pool : List U64) (i : ℕ) : List KernelRange :=
  [⟨kstack i, pool.getD (2 * i) 0, pgsize, permRW⟩, ⟨kstack i + pgsize, pool.getD (2 * i + 1) 0, pgsize, permRW⟩]

/-- The ranges of the kernel, with the stacks of `n` processes -/
def kernelRanges {ram : Ram} (image : KernelImage ram) (pool : List U64) (n : ℕ) : List KernelRange :=
  (List.range n).flatMap (stackRanges pool) ++ fixedRanges image

/-- The blocks of 2 MiB that the kernel maps something in -/
def kernelBlocks : Finset ℕ := {16, 96, 97, 128, 131071} ∪ Finset.Ico 1024 1088

/-- The places of the tables for these blocks -/
def kernelPlaces (root : U64) : Finset (U64 × Option Place) :=
  insert (root, none) (kernelBlocks.biUnion fun n =>
    {(root, some (.sub (.root (n / 512)) (n % 512))), (root, some (.root (n / 512)))})

private theorem kernelPlaces_card (root : U64) : (kernelPlaces root).card ≤ 139 := by
  have blocks : kernelBlocks.card ≤ 69 := calc
    kernelBlocks.card ≤ ({16, 96, 97, 128, 131071} : Finset ℕ).card + (Finset.Ico 1024 1088).card :=
      Finset.card_union_le _ _
    _ ≤ 5 + 64 := Nat.add_le_add Finset.card_le_five (Nat.le_of_eq (Nat.card_Ico 1024 1088))
  have tables := Finset.card_biUnion_le_card_mul kernelBlocks (fun n =>
    {(root, some (.sub (.root (n / 512)) (n % 512))), (root, some (.root (n / 512)))} : ℕ → Finset (U64 × Option Place))
    2 fun n _ => Finset.card_le_two
  calc (kernelPlaces root).card ≤ _ + 1 := Finset.card_insert_le _ _
    _ ≤ 69 * 2 + 1 := Nat.add_le_add_right (tables.trans (Nat.mul_le_mul_right 2 blocks)) 1

private theorem mem_kernelBlocks {n : ℕ} : n ∈ kernelBlocks ↔
    (n = 16 ∨ n = 96 ∨ n = 97 ∨ n = 128 ∨ n = 131071) ∨ 1024 ≤ n ∧ n < 1088 := by
  simp only [kernelBlocks, Finset.mem_union, Finset.mem_insert, Finset.mem_singleton, Finset.mem_Ico]

attribute [local irreducible] kernelBlocks

private theorem wayTo_kernelPlaces {root : U64} {va : ℕ} (low : va < vaMax) (block : va / 2 ^ 21 ∈ kernelBlocks) :
    wayTo root va ⊆ kernelPlaces root := by
  have first : vaToVpn va 2 = va / 2 ^ 21 / 512 := by
    simp only [vaMax_eq] at low
    simp only [vaToVpn]
    omega
  have second : vaToVpn va 1 = va / 2 ^ 21 % 512 := rfl
  intro q within
  simp only [wayTo, upperPlace, first, second] at within
  rw [kernelPlaces]
  exact Finset.mem_insert_of_mem (Finset.mem_biUnion.mpr ⟨va / 2 ^ 21, block, within⟩)

/-- What `vm_mappages` asks for, with tables at the places of the kernel's blocks -/
structure KernelRange.Fits (m : KernelRange) : Prop where
  page : m.va % pgsize = 0
  whole : m.len % pgsize = 0
  aligned : m.pa.toNat % pgsize = 0
  some : 0 < m.len
  low : m.va + m.len ≤ vaMax
  small : m.perm.toNat < 1024
  blocks : ∀ va, m.Covers va → va / 2 ^ 21 ∈ kernelBlocks

/-! ## One range after another -/

/-- The kernel's page table maps some ranges and nothing else. -/
structure Booted (ram : Ram) (root : U64) (ranges : List KernelRange) (s : Machine) : Prop where
  confined : Confined ram {root} (kernelPlaces root) (ram.poolPages true).toFinset s
  kernel : s.kernPagetable = root
  fits : ∀ m ∈ ranges, m.Fits
  mapped : ∀ m ∈ ranges, ∀ va, m.Covers va → s.leaf root (va / pgsize) = paToPte (m.frame va) ||| permFlags m.perm
  bare : ∀ va, (∀ m ∈ ranges, ¬m.Covers va) → s.leaf root (va / pgsize) = 0

attribute [local irreducible] kernelPlaces

variable {ram : Ram} {root a b : U64} {ranges : List KernelRange} {m : KernelRange} {s s' : Machine}
  {image : KernelImage ram} {pool : List U64}

open Machine

private theorem Booted.congr (booted : Booted ram root ranges s) {more : List KernelRange}
    (same : ∀ m, m ∈ more ↔ m ∈ ranges) : Booted ram root more s := by
  refine ⟨booted.confined, booted.kernel, fun m within => booted.fits m ((same m).mp within),
    fun m within => booted.mapped m ((same m).mp within), fun va bare => ?_⟩
  apply booted.bare
  intro m within
  exact bare m ((same m).mpr within)

/-- How the kernel's addresses are translated -/
theorem Booted.translate (booted : Booted ram root ranges s) (va : ℕ) :
    (∀ m ∈ ranges, m.Covers va → translate s 0 va = some (m.target va)) ∧
      ((∀ m ∈ ranges, ¬m.Covers va) → translate s 0 va = none) := by
  have live : s.rootFor 0 = root := booted.kernel
  constructor
  · intro m within covers
    have fits := booted.fits m within
    have low : va < vaMax := Nat.lt_of_lt_of_le covers.2 fits.low
    rw [translate_eq low, live, booted.mapped m within va covers, permFlags]
    apply decode_mapped _ fits.small
    have aligned := fits.aligned
    simp only [KernelRange.frame, BitVec.toNat_add, BitVec.toNat_ofNat, pgsize_eq] at aligned ⊢
    omega
  · intro bare
    rcases Nat.lt_or_ge va vaMax with low | high
    · rw [translate_eq low, live, booted.bare va bare, decode, if_neg (not_pteHas_zero pteV)]
    · exact translate_high high

private theorem KernelRange.Fits.leaf (fits : m.Fits) (w : View) (va : ℕ) :
    (w.mapRange root (m.va / pgsize) (pagesOf m.len) m.pa (permFlags m.perm)).leaf root (va / pgsize) =
      if m.va ≤ va ∧ va < m.va + m.len then paToPte (m.frame va) ||| permFlags m.perm
      else w.leaf root (va / pgsize) := by
  have page := fits.page
  have whole := fits.whole
  have inside : (m.va / pgsize ≤ va / pgsize ∧ va / pgsize < m.va / pgsize + pagesOf m.len) ↔
      m.va ≤ va ∧ va < m.va + m.len := by
    simp only [pagesOf, pgsize_eq] at page whole ⊢
    omega
  simp only [View.mapRange, true_and]
  rw [if_congr inside rfl rfl]
  split
  case isTrue covers =>
    have offset : (va / pgsize - m.va / pgsize) * pgsize = (va - m.va) / pgsize * pgsize := by
      simp only [pgsize_eq] at page covers ⊢
      omega
    rw [offset, KernelRange.frame]
  case isFalse => rfl

/-- A range apart from the others is mapped. -/
theorem Booted.map (booted : Booted ram root ranges s) (real : root ≠ 0)
    (frames : 141 ≤ (ram.poolPages true).toFinset.card) (fits : m.Fits) (apart : ∀ m' ∈ ranges, m'.Apart m) :
    Yields (vmMappages root m.va m.pa m.len m.perm) s fun _ s' =>
      Booted ram root (m :: ranges) s' ∧ s'.userPool = s.userPool := by
  have self : s.rootFor root = root := if_neg real
  have live : s.rootFor root ∈ ({root} : Set U64) := self
  have room : (kernelPlaces root).card + 2 ≤ (ram.poolPages true).toFinset.card := by
    have places := kernelPlaces_card root
    omega
  have way (va : ℕ) (low : m.va ≤ va) (high : va < m.va + m.len) :
      wayTo (s.rootFor root) va ⊆ kernelPlaces root := by
    rw [self]
    exact wayTo_kernelPlaces (Nat.lt_of_lt_of_le high fits.low) (fits.blocks va ⟨low, high⟩)
  apply (booted.confined.vmMappages live fits.page fits.aligned fits.some fits.low room way).mono
  rintro _ s' ⟨confined, shows⟩
  rw [self] at shows
  have shows : Shows ram {root} s ((s.view ram {root}).mapRange root (m.va / pgsize) (pagesOf m.len) m.pa
      (permFlags m.perm)) s' := shows
  have leaf (va : ℕ) : s'.leaf root (va / pgsize) = if m.va ≤ va ∧ va < m.va + m.len then
      paToPte (m.frame va) ||| permFlags m.perm else s.leaf root (va / pgsize) := by
    have here : root ∈ ({root} : Set U64) := rfl
    rw [shows.leaf here, fits.leaf, view_leaf here]
  have kernel : s'.kernPagetable = root := (congrArg View.kernPagetable shows.view).trans booted.kernel
  refine ⟨⟨confined, kernel, ?_, fun m' within va covers => ?_, fun va bare => ?_⟩,
    congrArg View.userPool shows.view⟩
  · exact List.forall_mem_cons.mpr ⟨fits, booted.fits⟩
  · rw [leaf]
    rcases List.mem_cons.mp within with rfl | within
    · exact if_pos covers
    · have other := apart m' within
      rw [if_neg (by simp only [KernelRange.Apart, KernelRange.Covers] at other covers; omega)]
      exact booted.mapped m' within va covers
  · obtain ⟨outside, bare⟩ := List.forall_mem_cons.mp bare
    rw [leaf, if_neg (show ¬(m.va ≤ va ∧ va < m.va + m.len) from outside)]
    exact booted.bare va bare

/-- A page is taken from the user's pool. -/
theorem Booted.takeUser (booted : Booted ram root ranges s) (some : s.userPool = a :: pool) :
    Yields (pmemAlloc false) s fun r s' => r = a ∧ Booted ram root ranges s' ∧ s'.userPool = pool := by
  have confined := booted.confined.takeUser some
  have shows := booted.confined.tables.takeUser some
  have live : root ∈ ({root} : Set U64) := rfl
  have leaf (v : ℕ) : (({ s with userPool := pool } : Machine).setPage a fun _ => 0).leaf root v = s.leaf root v := by
    rw [shows.leaf live]
    exact @view_leaf s ram {root} root live v
  rw [pmemAlloc, Yields, Ends.bind_iff, Ends.get_iff, if_neg Bool.false_ne_true, some]
  simp only [Ends.bind_iff, Ends.set_iff, Ends.pure_iff]
  simp only [true_and]
  refine ⟨⟨confined, booted.kernel, booted.fits, ?_, ?_⟩, rfl⟩
  · intro m within va covers
    rw [leaf]
    exact booted.mapped m within va covers
  · intro va bare
    rw [leaf]
    exact booted.bare va bare

/-- `vm_mappages` for some ranges one after another -/
def mapRanges (table : U64) : List KernelRange → MemM Unit
  | [] => return ()
  | m :: rest => do
    vmMappages table m.va m.pa m.len m.perm
    mapRanges table rest

private theorem Booted.mapRanges {more : List KernelRange} (booted : Booted ram root ranges s) (real : root ≠ 0)
    (frames : 141 ≤ (ram.poolPages true).toFinset.card) (fits : ∀ m ∈ more, m.Fits)
    (sorted : more.Pairwise KernelRange.Apart) (apart : ∀ m' ∈ ranges, ∀ m ∈ more, m'.Apart m) :
    Yields (mapRanges root more) s fun _ s' =>
      Booted ram root (more ++ ranges) s' ∧ s'.userPool = s.userPool := by
  induction more generalizing s ranges with
  | nil => exact ⟨booted, rfl⟩
  | cons m rest ih =>
    obtain ⟨here, fits⟩ := List.forall_mem_cons.mp fits
    obtain ⟨first, sorted⟩ := List.pairwise_cons.mp sorted
    rw [LabKernel.mapRanges]
    apply Ends.bind_iff.mpr
    apply (booted.map real frames here fun m' old => apart m' old m List.mem_cons_self).mono
    rintro _ s₁ ⟨booted₁, pool₁⟩
    apply (ih booted₁ fits sorted ?_).mono
    · rintro _ s' ⟨booted', pool'⟩
      refine ⟨booted'.congr fun m' => ?_, pool'.trans pool₁⟩
      simp only [List.cons_append, List.mem_cons, List.mem_append]
      exact or_left_comm
    · intro m' old m'' new
      rcases List.mem_cons.mp old with rfl | old
      · exact first m'' new
      · exact apart m' old m'' (List.mem_cons_of_mem m new)

/-! ## The stacks -/

/-- A page below the trap frame -/
theorem stack_fits {i : ℕ} (bound : i < nProc) (user : ram.UserFrame a) (user' : ram.UserFrame b) :
    ∀ m ∈ ([⟨kstack i, a, pgsize, permRW⟩, ⟨kstack i + pgsize, b, pgsize, permRW⟩] : List KernelRange), m.Fits := by
  have some : 0 < pgsize := by decide
  have place : kstack i + (i + 1) * 8192 = 274877898752 := by
    simp only [kstack, trapframe_eq, pgsize_eq, nProc] at bound ⊢
    omega
  have last (va : ℕ) (low : kstack i ≤ va) (high : va < 274877898752) : va / 2 ^ 21 ∈ kernelBlocks := by
    simp only [nProc] at bound
    rw [mem_kernelBlocks]
    omega
  have small : permRW.toNat < 1024 := by decide
  simp only [List.forall_mem_cons, List.not_mem_nil, false_implies, implies_true, and_true]
  constructor
  · refine ⟨?_, Nat.mod_self _, user.aligned, some, ?_, small, fun va covers => ?_⟩
    · simp only [pgsize_eq]
      omega
    · simp only [pgsize_eq, vaMax_eq]
      omega
    · simp only [KernelRange.Covers, pgsize_eq] at covers
      exact last va covers.1 (by omega)
  · refine ⟨?_, Nat.mod_self _, user'.aligned, some, ?_, small, fun va covers => ?_⟩
    · simp only [pgsize_eq]
      omega
    · simp only [pgsize_eq, vaMax_eq]
      omega
    · simp only [KernelRange.Covers, pgsize_eq] at covers
      exact last va (by omega) (by omega)

private theorem stackRanges_apart (pool : List U64) (i : ℕ) : (stackRanges pool i).Pairwise KernelRange.Apart := by
  apply List.pairwise_pair.mpr
  exact Or.inl (Nat.le_refl _)

/-- The fixed ranges are below the stacks or above the page of the trap frame. -/
theorem fixed_outside (sane : ram.Sane) (fixed : m ∈ fixedRanges image) :
    m.va + m.len ≤ 2281701376 ∨ 274877902848 ≤ m.va := by
  have bounds := sane.pool_bounds true
  have text := image.text
  have data := image.data
  simp only [Ram.poolBegin, Ram.poolStop, Ram.allocEnd_eq, kernelBase] at bounds text
  simp only [fixedRanges, sameRange, List.mem_cons, List.not_mem_nil, or_false] at fixed
  rcases fixed with rfl | rfl | rfl | rfl | rfl | rfl | rfl | rfl
  all_goals
    simp only [uartBase, clintBase, plicBase, virtioBase, kernelBase, pgsize_eq, Ram.allocEnd_eq, trampoline_eq]
    omega

/-- The stack of a process lies below those of the processes before it. -/
theorem stackRanges_place {i : ℕ} (stack : m ∈ stackRanges pool i) :
    kstack i ≤ m.va ∧ m.va + m.len ≤ kstack i + 8192 := by
  simp only [stackRanges, List.mem_cons, List.not_mem_nil, or_false] at stack
  rcases stack with rfl | rfl
  all_goals
    simp only [pgsize_eq]
    omega

private theorem stacks_apart {i : ℕ} (sane : ram.Sane) (bound : i < nProc) :
    ∀ m' ∈ kernelRanges image pool i, ∀ m ∈ stackRanges pool i, m'.Apart m := by
  intro m' old m new
  have place := stackRanges_place new
  have bottom (j : ℕ) : kstack j = 274877898752 - (j + 1) * 8192 := by
    simp only [kstack, trapframe_eq, pgsize_eq]
    omega
  rw [bottom] at place
  simp only [nProc, KernelRange.Apart] at bound ⊢
  rcases List.mem_append.mp old with stack | fixed
  · obtain ⟨j, before, here⟩ := List.mem_flatMap.mp stack
    have place' := stackRanges_place here
    have before := List.mem_range.mp before
    rw [bottom] at place'
    omega
  · have outside := fixed_outside sane fixed
    omega

private theorem kstackLoop_succ (table : U64) (left i : ℕ) : kstackLoop table (left + 1) i = (do
    let low ← pmemAlloc false
    if low = 0 then throw (.panic "kvm_init: alloc kstack page 1 failed")
    let high ← pmemAlloc false
    if high = 0 then throw (.panic "kvm_init: alloc kstack page 2 failed")
    mapRanges table [⟨kstack i, low, pgsize, permRW⟩, ⟨kstack i + pgsize, high, pgsize, permRW⟩]
    kstackLoop table left (i + 1)) := by
  simp only [kstackLoop, mapRanges, bind_assoc, pure_bind]

private theorem kstackLoop_ends {left i : ℕ} (sane : ram.Sane) (real : root ≠ 0)
    (frames : 141 ≤ (ram.poolPages true).toFinset.card) (bound : i + left ≤ nProc)
    (enough : 2 * (i + left) ≤ pool.length) (rest : s.userPool = pool.drop (2 * i))
    (booted : Booted ram root (kernelRanges image pool i) s) :
    Yields (kstackLoop root left i) s fun _ s' =>
      Booted ram root (kernelRanges image pool (i + left)) s' ∧ s'.userPool = pool.drop (2 * (i + left)) := by
  induction left generalizing i s with
  | zero => exact ⟨booted, rest⟩
  | succ left ih =>
    have low : 2 * i < pool.length := by omega
    have high : 2 * i + 1 < pool.length := by omega
    have here : i < nProc := by omega
    rw [List.drop_eq_getElem_cons low, List.drop_eq_getElem_cons high] at rest
    have tables := booted.confined.tables
    have user := tables.userPool pool[2 * i] (rest ▸ List.mem_cons_self)
    have user' := tables.userPool pool[2 * i + 1] (rest ▸ List.mem_cons_of_mem _ List.mem_cons_self)
    have same : stackRanges pool i =
        [⟨kstack i, pool[2 * i], pgsize, permRW⟩, ⟨kstack i + pgsize, pool[2 * i + 1], pgsize, permRW⟩] := by
      rw [stackRanges, List.getD_eq_getElem _ _ low, List.getD_eq_getElem _ _ high]
    have fits : ∀ m ∈ stackRanges pool i, m.Fits := by
      rw [same]
      exact stack_fits here user user'
    rw [kstackLoop_succ]
    apply Ends.bind_iff.mpr
    apply (booted.takeUser rest).mono
    rintro _ s₁ ⟨rfl, booted₁, pool₁⟩
    rw [if_neg user.ne_zero]
    apply Ends.bind_iff.mpr
    apply (booted₁.takeUser pool₁).mono
    rintro _ s₂ ⟨rfl, booted₂, pool₂⟩
    rw [if_neg user'.ne_zero, ← same]
    apply Ends.bind_iff.mpr
    apply (booted₂.mapRanges real frames fits (stackRanges_apart pool i) (stacks_apart sane here)).mono
    rintro _ s₃ ⟨booted₃, pool₃⟩
    rw [show i + (left + 1) = i + 1 + left by omega] at bound enough ⊢
    apply ih bound enough
    · rw [pool₃, pool₂, show 2 * (i + 1) = 2 * i + 1 + 1 from rfl]
    · apply booted₃.congr
      intro m
      simp only [kernelRanges, List.range_succ, List.flatMap_append, List.flatMap_singleton, List.mem_append]
      exact or_assoc.trans or_left_comm

/-! ## All of it -/

private theorem sameRange_fits {start stop : ℕ} {perm : U32} (page : start % pgsize = 0) (page' : stop % pgsize = 0)
    (some : start < stop) (low : stop ≤ vaMax) (small : perm.toNat < 1024)
    (blocks : ∀ n, start / 2 ^ 21 ≤ n → n ≤ (stop - 1) / 2 ^ 21 → n ∈ kernelBlocks) :
    (sameRange start stop perm).Fits := by
  simp only [vaMax_eq, pgsize_eq] at low page page'
  refine ⟨page, ?_, ?_, Nat.sub_pos_of_lt some, ?_, small, fun va covers => ?_⟩
  · simp only [sameRange, pgsize_eq]
    omega
  · simp only [sameRange, BitVec.toNat_ofNat, pgsize_eq]
    omega
  · simp only [sameRange, vaMax_eq]
    omega
  · simp only [KernelRange.Covers, sameRange] at covers
    apply blocks <;> omega

private theorem trampoline_fits (page : a.toNat % pgsize = 0) :
    (⟨trampoline, a, pgsize, permRX⟩ : KernelRange).Fits := by
  have small : permRX.toNat < 1024 := by decide
  refine ⟨?_, Nat.mod_self _, page, ?_, ?_, small, fun va covers => ?_⟩
  · simp only [trampoline_eq, pgsize_eq]
  · simp only [pgsize_eq, Nat.ofNat_pos]
  · simp only [trampoline_eq, pgsize_eq, vaMax_eq, Nat.reduceAdd, le_refl]
  · simp only [KernelRange.Covers, trampoline_eq, pgsize_eq] at covers
    rw [mem_kernelBlocks]
    omega

private theorem fixed_fits (sane : ram.Sane) : ∀ m ∈ fixedRanges image, m.Fits := by
  have bounds := sane.pool_bounds true
  obtain ⟨begin_, -⟩ := sane.pool_aligned true
  have text := image.text
  have data := image.data
  have aligned := image.aligned
  simp only [Ram.poolBegin, Ram.poolStop, Ram.kernelPoolEnd, kernPages, Ram.allocEnd_eq, kernelBase, pgsize_eq] at *
  simp only [fixedRanges, List.forall_mem_cons, List.not_mem_nil, false_implies, implies_true, and_true, uartBase,
    clintBase, plicBase, virtioBase, kernelBase, Ram.allocEnd_eq]
  refine ⟨?_, ?_, ?_, ?_, ?_, ?_, ?_, ?_⟩
  case refine_8 => exact trampoline_fits image.code.aligned
  all_goals
    apply sameRange_fits
    all_goals first
      | decide
      | omega
      | simp only [pgsize_eq, vaMax_eq]; omega
      | intro n low high; rw [mem_kernelBlocks]; omega
      | intro n low high; rw [mem_kernelBlocks]; simp only [pgsize_eq] at high; omega

private theorem fixed_apart (sane : ram.Sane) : (fixedRanges image).Pairwise KernelRange.Apart := by
  have bounds := sane.pool_bounds true
  have text := image.text
  have data := image.data
  simp only [Ram.poolBegin, Ram.poolStop, Ram.allocEnd_eq, kernelBase] at bounds text
  simp only [fixedRanges, List.pairwise_cons, List.forall_mem_cons, List.not_mem_nil, false_implies, implies_true,
    List.Pairwise.nil, and_true, KernelRange.Apart, sameRange, uartBase, clintBase, plicBase, virtioBase, kernelBase,
    Ram.allocEnd_eq, pgsize_eq,
    trampoline_eq]
  omega

/-- The root table, before anything is mapped -/
theorem booted_root (sane : ram.Sane) (kernel : s.kernelPool = (ram.poolPages true).reverse)
    (users : ∀ a ∈ s.userPool, ram.UserFrame a) : Yields (pmemAlloc true) s fun r s' =>
      r ≠ 0 ∧ Booted ram r [] { s' with kernPagetable := r } ∧ s'.userPool = s.userPool := by
  have frame (a : U64) : a ∈ s.kernelPool ↔ ram.KernelFrame a := by
    rw [kernel, List.mem_reverse]
    exact sane.mem_poolPages
  have nodup : s.kernelPool.Nodup := by
    rw [kernel]
    exact List.nodup_reverse.mpr (sane.poolPages_nodup true)
  have tables : s.Tables ram ∅ := by
    refine ⟨users, fun a within => (frame a).mp within, nodup, ?_, ?_, ?_, ?_⟩ <;>
      exact fun r none => absurd none (Set.notMem_empty r)
  cases pool : s.kernelPool with
  | nil =>
    have here : ram.KernelFrame (BitVec.ofNat 64 ram.allocBegin) := by
      have bounds := sane.pool_bounds true
      have aligned := sane.aligned
      simp only [Ram.poolBegin, Ram.poolStop, Ram.allocEnd_eq] at bounds
      have value : (BitVec.ofNat 64 ram.allocBegin).toNat = ram.allocBegin := by
        rw [BitVec.toNat_ofNat]
        omega
      constructor <;> rw [value]
      · exact aligned
      · simp only [Ram.kernelPoolEnd, kernPages, pgsize_eq]
        omega
    have within := (frame _).mpr here
    rw [pool] at within
    exact absurd within List.not_mem_nil
  | cons b rest =>
    obtain ⟨shows, -, root⟩ := tables.takeKernel pool
    have real := sane.kernelFrame_ne_zero root
    have only := shows.tables
    rw [insert_empty_eq] at only
    have use := taken_use tables pool
    rw [insert_empty_eq] at use
    rw [pmemAlloc, Yields, Ends.bind_iff, Ends.get_iff, if_pos rfl, pool]
    simp only [Ends.bind_iff, Ends.set_iff, Ends.pure_iff]
    refine ⟨real, ⟨⟨only.of_pages rfl rfl rfl, fun r here q a found => ?_, fun a within => ?_⟩, rfl, ?_, ?_, ?_⟩, rfl⟩
    · obtain rfl : r = b := here
      obtain ⟨rfl, -⟩ := @taken_only s _ _ _ rest found
      rw [kernelPlaces]
      exact Finset.mem_insert_self _ _
    · have free : a ∈ s.kernelUse ∅ := by
        apply Or.inl
        rw [kernel, List.mem_reverse]
        exact List.mem_toFinset.mp within
      rw [← use] at free
      exact free
    · exact fun m none => absurd none List.not_mem_nil
    · exact fun m none => absurd none List.not_mem_nil
    · exact fun va _ => taken_empty s b rest _

private theorem kvmInit_eq (image : KernelImage ram) : kvmInit image = (do
    let table ← pmemAlloc true
    modify fun s => { s with kernPagetable := table }
    if table = 0 then throw (.panic "kvm_init: alloc failed")
    mapRanges table (fixedRanges image)
    kstackLoop table nProc 0) := by
  simp only [kvmInit, fixedRanges, LabKernel.mapRanges, sameRange, Nat.add_sub_cancel_left, bind_assoc, pure_bind]

/-- The user's pool as `pmem_init` leaves it has the pages for the stacks. -/
theorem userPool_spec (sane : ram.Sane) (user : s.userPool = (ram.poolPages false).reverse)
    (room : 2 * nProc ≤ ram.userFrames) :
    (∀ a ∈ s.userPool, ram.UserFrame a) ∧ s.userPool.Nodup ∧ 2 * nProc ≤ s.userPool.length := by
  rw [user]
  refine ⟨fun a within => ?_, List.nodup_reverse.mpr (sane.poolPages_nodup false), ?_⟩
  · exact sane.mem_poolPages.mp (List.mem_reverse.mp within)
  · rw [List.length_reverse, Ram.poolPages, Ram.pagesFrom, List.length_map, List.length_range]
    exact room

theorem kvmInit_booted (sane : ram.Sane) (image : KernelImage ram)
    (lists : ∀ k, s.pagePool k = (ram.poolPages k).reverse) (room : 2 * nProc ≤ ram.userFrames) :
    Yields (kvmInit image) s fun _ s' => (∃ root, Booted ram root (kernelRanges image s.userPool nProc) s') ∧
      s'.userPool = s.userPool.drop (2 * nProc) := by
  have kernel : s.kernelPool = (ram.poolPages true).reverse := lists true
  obtain ⟨users, -, enough⟩ := userPool_spec sane (lists false) room
  rw [← Nat.zero_add nProc] at enough
  have frames : 141 ≤ (ram.poolPages true).toFinset.card := by
    rw [List.toFinset_card_of_nodup (sane.poolPages_nodup true), Ram.poolPages, Ram.pagesFrom, List.length_map,
      List.length_range]
    simp only [Ram.poolBegin, Ram.poolStop, Ram.kernelPoolEnd, kernPages, pgsize_eq]
    omega
  rw [kvmInit_eq]
  apply Ends.bind_iff.mpr
  apply (booted_root sane kernel users).mono
  rintro root s₁ ⟨real, booted, same⟩
  apply Ends.bind_iff.mpr
  apply Ends.modify_iff.mpr
  rw [if_neg real]
  apply Ends.bind_iff.mpr
  apply (booted.mapRanges real frames (fixed_fits sane) (fixed_apart sane) ?_).mono
  · rintro _ s₂ ⟨booted₂, same₂⟩
    have start : Booted ram root (kernelRanges image s.userPool 0) s₂ := booted₂.congr fun m => by
      rw [kernelRanges, List.range_zero, List.flatMap_nil, List.nil_append, List.append_nil]
    apply (kstackLoop_ends sane real frames (Nat.le_of_eq (Nat.zero_add _)) enough (same₂.trans same) start).mono
    rintro _ s' ⟨booted', rest⟩
    rw [Nat.zero_add] at booted' rest
    exact ⟨⟨root, booted'⟩, rest⟩
  · exact fun m none => absurd none List.not_mem_nil

/-- `kvm_init` has pages for all its tables, and the kernel's addresses are then translated by its ranges: the
devices, the kernel and the memory that is handed out where they are, the trampoline at the top, and two pages
for each stack. -/
theorem kvmInit_exact (sane : ram.Sane) (image : KernelImage ram)
    (lists : ∀ k, s.pagePool k = (ram.poolPages k).reverse) (room : 2 * nProc ≤ ram.userFrames) :
    Yields (kvmInit image) s fun _ s' => s'.userPool = s.userPool.drop (2 * nProc) ∧ ∀ va,
      (∀ m ∈ kernelRanges image s.userPool nProc, m.Covers va → translate s' 0 va = some (m.target va)) ∧
        ((∀ m ∈ kernelRanges image s.userPool nProc, ¬m.Covers va) → translate s' 0 va = none) := by
  apply (kvmInit_booted sane image lists room).mono
  rintro _ s' ⟨⟨root, booted⟩, rest⟩
  exact ⟨rest, booted.translate⟩

/-- A small kernel that ends 2 MiB behind its begin -/
def smallImage : KernelImage ⟨0x80200000⟩ where
  kernelData := 0x80020000
  trampolinePage := 0x8001F000
  aligned := by decide
  text := by decide
  data := by decide
  code := ⟨by decide, by decide, by decide⟩

section

attribute [local irreducible] kvmInit kernelRanges bootLists

theorem kvmInit_exact_small : Yields (kvmInit smallImage) (bootLists ⟨0x80200000⟩) fun _ s' =>
    s'.userPool = (bootLists ⟨0x80200000⟩).userPool.drop (2 * nProc) ∧ ∀ va,
      (∀ m ∈ kernelRanges smallImage (bootLists ⟨0x80200000⟩).userPool nProc, m.Covers va →
        translate s' 0 va = some (m.target va)) ∧
      ((∀ m ∈ kernelRanges smallImage (bootLists ⟨0x80200000⟩).userPool nProc, ¬m.Covers va) →
        translate s' 0 va = none) :=
  kvmInit_exact ⟨by decide, by decide, by decide⟩ smallImage (bootLists_pool _) (by decide)

end

/-! ## What it protects -/

/-- The code of the kernel -/
def KernelImage.Text (image : KernelImage ram) (pa : U64) : Prop :=
  kernelBase ≤ pa.toNat ∧ pa.toNat < image.kernelData

/-- A range that can be executed lies in the code, and one that can be written lies outside. -/
def KernelRange.Sealed (m : KernelRange) (image : KernelImage ram) : Prop :=
  (m.perm = permRX ∧ ∀ va, m.Covers va → image.Text (m.frame va)) ∨
    (m.perm = permRW ∧ ∀ va, m.Covers va → ¬image.Text (m.frame va))

private theorem sameRange_frame {start stop va : ℕ} {perm : U32} (page : start % pgsize = 0) (low : stop ≤ vaMax)
    (covers : (sameRange start stop perm).Covers va) :
    ((sameRange start stop perm).frame va).toNat = va / pgsize * pgsize := by
  simp only [KernelRange.Covers, sameRange, KernelRange.frame, BitVec.toNat_add, BitVec.toNat_ofNat, vaMax_eq,
    pgsize_eq] at page low covers ⊢
  omega

/-- The frame of a range of one page -/
theorem page_frame {pa : U64} {va va' : ℕ} {perm : U32} (low : va ≤ va') (high : va' < va + pgsize) :
    (⟨va, pa, pgsize, perm⟩ : KernelRange).frame va' = pa := by
  have first : (va' - va) / pgsize = 0 := by
    apply Nat.div_eq_of_lt
    omega
  rw [KernelRange.frame, first, Nat.zero_mul]
  exact BitVec.add_zero pa

private theorem fixed_sealed (sane : ram.Sane) (fixed : m ∈ fixedRanges image) : m.Sealed image := by
  have bounds := sane.pool_bounds true
  obtain ⟨begin_, -⟩ := sane.pool_aligned true
  have text := image.text
  have data := image.data
  have aligned := image.aligned
  simp only [Ram.poolBegin, Ram.poolStop, Ram.allocEnd_eq, kernelBase, pgsize_eq] at bounds begin_ text aligned
  have identity {start stop va : ℕ} {perm : U32} (page : start % pgsize = 0) (low : stop ≤ vaMax)
      (covers : (sameRange start stop perm).Covers va) :
      start / pgsize * pgsize ≤ ((sameRange start stop perm).frame va).toNat ∧
        ((sameRange start stop perm).frame va).toNat < stop := by
    rw [sameRange_frame page low covers]
    simp only [KernelRange.Covers, sameRange, pgsize_eq] at covers ⊢
    omega
  have sealed {start stop : ℕ} {perm : U32} (page : start % pgsize = 0) (low : stop ≤ vaMax)
      (place : (perm = permRX ∧ kernelBase ≤ start ∧ stop ≤ image.kernelData) ∨
        (perm = permRW ∧ (stop ≤ kernelBase ∨ image.kernelData ≤ start))) :
      (sameRange start stop perm).Sealed image := by
    rcases place with ⟨rfl, place⟩ | ⟨rfl, place⟩
    · refine Or.inl ⟨rfl, fun va covers => ?_⟩
      have inside := identity page low covers
      simp only [KernelImage.Text, kernelBase, pgsize_eq] at page place inside ⊢
      omega
    · refine Or.inr ⟨rfl, fun va covers => ?_⟩
      have inside := identity page low covers
      simp only [KernelImage.Text, kernelBase, pgsize_eq] at page place inside ⊢
      omega
  simp only [fixedRanges, List.mem_cons, List.not_mem_nil, or_false] at fixed
  rcases fixed with rfl | rfl | rfl | rfl | rfl | rfl | rfl | rfl
  case inr.inr.inr.inr.inr.inr.inr =>
    refine Or.inl ⟨rfl, fun va covers => ?_⟩
    rw [page_frame covers.1 covers.2]
    exact ⟨image.code.low_le, image.code.lt_high⟩
  all_goals
    apply sealed
    all_goals
      simp only [uartBase, clintBase, plicBase, virtioBase, kernelBase, pgsize_eq, vaMax_eq, Ram.allocEnd_eq,
        true_and] <;> omega

/-- A page of a stack -/
theorem stack_page {n i x : ℕ} (bound : i < n) (low : x < 2 * pgsize) :
    ∃ m ∈ kernelRanges image pool n, m.Covers (kstack i + x) ∧ m.perm = permRW ∧
      m.frame (kstack i + x) = pool.getD (2 * i + x / pgsize) 0 := by
  have listed (m : KernelRange) (stack : m ∈ stackRanges pool i) : m ∈ kernelRanges image pool n :=
    List.mem_append_left _ (List.mem_flatMap.mpr ⟨i, List.mem_range.mpr bound, stack⟩)
  rcases Nat.lt_or_ge x pgsize with first | second
  · refine ⟨_, listed _ (List.mem_cons_self ..), ⟨Nat.le_add_right .., Nat.add_lt_add_left first _⟩, rfl, ?_⟩
    rw [page_frame (Nat.le_add_right ..) (Nat.add_lt_add_left first _), Nat.div_eq_of_lt first, Nat.add_zero]
  · have one : x / pgsize = 1 := by
      rw [Nat.div_eq_iff (by decide)]
      omega
    have lower : kstack i + pgsize ≤ kstack i + x := Nat.add_le_add_left second _
    have upper : kstack i + x < kstack i + pgsize + pgsize := by omega
    refine ⟨_, listed _ (List.mem_cons_of_mem _ (List.mem_cons_self ..)), ⟨lower, upper⟩, rfl, ?_⟩
    rw [page_frame lower upper, one]

private theorem ranges_sealed (sane : ram.Sane) {n : ℕ} (enough : 2 * n ≤ pool.length)
    (users : ∀ a ∈ pool, ram.UserFrame a)
    (here : m ∈ kernelRanges image pool n) : m.Sealed image := by
  rcases List.mem_append.mp here with stack | fixed
  · obtain ⟨i, bound, page⟩ := List.mem_flatMap.mp stack
    have bound := List.mem_range.mp bound
    have outside (j : ℕ) (inside : j < pool.length) : ¬image.Text (pool.getD j 0) := by
      rw [List.getD_eq_getElem _ _ inside]
      intro text
      have low := (users _ (List.getElem_mem inside)).low_le
      have bounds := (sane.pool_bounds true).2.1
      have data := image.data
      simp only [Ram.poolBegin, Ram.poolStop] at bounds
      have high := text.2
      omega
    simp only [stackRanges, List.mem_cons, List.not_mem_nil, or_false] at page
    rcases page with rfl | rfl
    · refine Or.inr ⟨rfl, fun va covers => ?_⟩
      rw [page_frame covers.1 covers.2]
      exact outside _ (by omega)
    · refine Or.inr ⟨rfl, fun va covers => ?_⟩
      rw [page_frame covers.1 covers.2]
      exact outside _ (by omega)
  · exact fixed_sealed sane fixed

/-- The page of the trap frame is in no range. -/
theorem trapframe_bare (sane : ram.Sane) {va : ℕ} (page : va / pgsize = trapframe / pgsize) :
    ∀ m ∈ kernelRanges image pool nProc, ¬m.Covers va := by
  intro m here covers
  simp only [KernelRange.Covers, trapframe_eq, pgsize_eq] at page covers
  rcases List.mem_append.mp here with stack | fixed
  · obtain ⟨i, bound, part⟩ := List.mem_flatMap.mp stack
    have place := stackRanges_place part
    simp only [kstack, trapframe_eq, pgsize_eq] at place
    omega
  · have outside := fixed_outside sane fixed
    omega

/-- With `kvm_init`'s page table the kernel executes its own code and nothing else, and writes everywhere but
there; nothing of it is for user mode; the page of the trap frame is not mapped; and each process has two pages
for its stack that no other stack is in, and that are not left in the user's pool. -/
theorem kvmInit_protects (sane : ram.Sane) (image : KernelImage ram)
    (lists : ∀ k, s.pagePool k = (ram.poolPages k).reverse) (room : 2 * nProc ≤ ram.userFrames) :
    Yields (kvmInit image) s fun _ s' =>
      (∀ va pa flags, translate s' 0 va = some (pa, flags) → ¬PteHas flags pteU ∧
        (PteHas flags pteX ↔ image.Text pa) ∧ (PteHas flags pteW ↔ ¬image.Text pa)) ∧
      (∀ va, va / pgsize = trapframe / pgsize → translate s' 0 va = none) ∧
      ∀ i < nProc, ∀ x < 2 * pgsize, ∃ f flags, translate s' 0 (kstack i + x) = some (f, flags) ∧
        ram.UserFrame f ∧ f ∉ s'.userPool ∧ ∀ j < nProc, ∀ y < 2 * pgsize, ∀ flags',
          translate s' 0 (kstack j + y) = some (f, flags') → j = i ∧ y / pgsize = x / pgsize := by
  obtain ⟨users, nodup, enough⟩ := userPool_spec sane (lists false) room
  apply (kvmInit_booted sane image lists room).mono
  rintro _ s' ⟨⟨root, booted⟩, rest⟩
  have stack (i : ℕ) (bound : i < nProc) (x : ℕ) (low : x < 2 * pgsize) : ∃ flags,
      translate s' 0 (kstack i + x) = some (s.userPool.getD (2 * i + x / pgsize) 0, flags) ∧
        2 * i + x / pgsize < 2 * nProc := by
    obtain ⟨m, here, covers, -, frame⟩ := @stack_page ram image s.userPool nProc i x bound low
    have target := (booted.translate (kstack i + x)).1 m here covers
    rw [KernelRange.target, frame] at target
    refine ⟨_, target, ?_⟩
    simp only [pgsize_eq] at low ⊢
    omega
  refine ⟨fun va pa flags leads => ?_, fun va page => ?_, fun i bound x low => ?_⟩
  · by_cases covered : ∃ m ∈ kernelRanges image s.userPool nProc, m.Covers va
    · obtain ⟨m, here, covers⟩ := covered
      have target := (booted.translate va).1 m here covers
      obtain ⟨rfl, rfl⟩ := Prod.mk.inj (Option.some.inj (target.symm.trans leads))
      rcases ranges_sealed sane enough users here with ⟨perm, inside⟩ | ⟨perm, outside⟩
      · rw [perm]
        exact ⟨by decide, iff_of_true (by decide) (inside va covers),
          iff_of_false (by decide) (not_not.mpr (inside va covers))⟩
      · rw [perm]
        exact ⟨by decide, iff_of_false (by decide) (outside va covers), iff_of_true (by decide) (outside va covers)⟩
    · have none := (booted.translate va).2 fun m here covers => covered ⟨m, here, covers⟩
      cases none.symm.trans leads
  · exact (booted.translate va).2 (trapframe_bare sane page)
  · obtain ⟨flags, leads, index⟩ := stack i bound x low
    have inside : 2 * i + x / pgsize < s.userPool.length := by omega
    rw [List.getD_eq_getElem _ _ inside] at leads
    refine ⟨_, flags, leads, users _ (List.getElem_mem inside), ?_, fun j bound' y low' flags' leads' => ?_⟩
    · rw [rest]
      apply List.disjoint_take_drop nodup (Nat.le_refl _)
      apply List.mem_take_iff_getElem.mpr
      exact ⟨2 * i + x / pgsize, by omega, rfl⟩
    · obtain ⟨_, other, index'⟩ := stack j bound' y low'
      rw [List.getD_eq_getElem _ _ (by omega)] at other
      have same := (Prod.mk.inj (Option.some.inj (other.symm.trans leads'))).1
      have number := nodup.getElem_inj_iff.mp same
      simp only [pgsize_eq] at low low' number ⊢
      omega

section

attribute [local irreducible] kvmInit kernelRanges bootLists

theorem kvmInit_protects_small : Yields (kvmInit smallImage) (bootLists ⟨0x80200000⟩) fun _ s' =>
    ∀ va pa flags, translate s' 0 va = some (pa, flags) → ¬PteHas flags pteU ∧
      (PteHas flags pteX ↔ smallImage.Text pa) ∧ (PteHas flags pteW ↔ ¬smallImage.Text pa) := by
  apply (kvmInit_protects ⟨by decide, by decide, by decide⟩ smallImage (bootLists_pool _) (by decide)).mono
  intro _ s' all
  exact all.1

end

end LabKernel
