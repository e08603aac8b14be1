import LabKernel.Lib.Bytes

/-! # Addresses and page-table entries

The constants and macros of `kernel/mem/type.h`. Virtual addresses are natural numbers below `2^64`,
and arithmetic on them that can wrap says so; physical addresses and page-table entries are 64-bit
words. The loader places the kernel, so the begin of the allocatable memory is a parameter; its end
is fixed by `kernel.ld`.
-/

namespace LabKernel

def pgsize : ℕ := 4096

def kernelBase : ℕ := 0x80000000

def kernPages : ℕ := 1024

def vaMax : ℕ := 2 ^ 38

def trampoline : ℕ := vaMax - pgsize

def trapframe : ℕ := trampoline - pgsize

def userBase : ℕ := pgsize

def nMmap : ℕ := 256

def mmapEnd : ℕ := trapframe - 16 * 256 * pgsize

def mmapBegin : ℕ := mmapEnd - 64 * 256 * pgsize

@[simp] theorem pgsize_eq : pgsize = 4096 := rfl
@[simp] theorem vaMax_eq : vaMax = 274877906944 := rfl
@[simp] theorem trampoline_eq : trampoline = 274877902848 := rfl
@[simp] theorem trapframe_eq : trapframe = 274877898752 := rfl
@[simp] theorem userBase_eq : userBase = 4096 := rfl
@[simp] theorem mmapEnd_eq : mmapEnd = 274861121536 := rfl
@[simp] theorem mmapBegin_eq : mmapBegin = 274794012672 := rfl

/-- `x` as a `uint64` -/
def wrap64 (x : ℕ) : ℕ := x % 2 ^ 64

theorem wrap64_of_lt {x : ℕ} (small : x < 2 ^ 64) : wrap64 x = x := Nat.mod_eq_of_lt small

/-- `(x + PGSIZE - 1) & ~(PGSIZE - 1)` -/
def alignUp (x : ℕ) : ℕ := wrap64 (x + pgsize - 1) / pgsize * pgsize

/-- `x & ~(PGSIZE - 1)` -/
def alignDown (x : ℕ) : ℕ := x / pgsize * pgsize

def vaToVpn (va level : ℕ) : ℕ := va / 2 ^ (12 + 9 * level) % 512

def paToPte (pa : U64) : U64 := (pa >>> 12) <<< 10

def pteToPa (pte : U64) : U64 := (pte >>> 10) <<< 12

def pteV : U64 := 1
def pteR : U64 := 2
def pteW : U64 := 4
def pteX : U64 := 8
def pteU : U64 := 16

/-- An entry has a permission bit. -/
def PteHas (pte bit : U64) : Prop := pte &&& bit ≠ 0

instance (pte bit : U64) : Decidable (PteHas pte bit) := inferInstanceAs (Decidable (_ ≠ _))

/-- `PTE_CHECK`: the entry points to a page table. -/
def pteCheck (pte : U64) : Bool := pte &&& (pteR ||| pteW ||| pteX) == 0

def pteFlags (pte : U64) : U64 := pte &&& 0x3FF

theorem pteHas_pteFlags (e : U64) {bit : U64} (low : bit &&& 0x3FF = bit) :
    PteHas (pteFlags e) bit ↔ PteHas e bit := by
  rw [PteHas, PteHas, pteFlags, BitVec.and_assoc, BitVec.and_comm 0x3FF, low]

/-- Where allocatable memory begins; it ends 128 MiB after `KERNEL_BASE`. -/
structure Ram where
  allocBegin : ℕ

namespace Ram

def allocEnd : ℕ := kernelBase + 128 * 1024 * 1024

theorem allocEnd_eq : allocEnd = 2281701376 := rfl

/-- The end of the kernel's pool, where the user's begins. -/
def kernelPoolEnd (ram : Ram) : ℕ := ram.allocBegin + kernPages * pgsize

/-- What `kernel.ld` lays out and `pmem_init` checks. -/
structure Sane (ram : Ram) : Prop where
  aligned : ram.allocBegin % pgsize = 0
  behindKernel : kernelBase ≤ ram.allocBegin
  enough : ram.kernelPoolEnd ≤ allocEnd

/-- A page-aligned address in a range. -/
structure PageIn (low high : ℕ) (a : U64) : Prop where
  aligned : a.toNat % pgsize = 0
  low_le : low ≤ a.toNat
  lt_high : a.toNat < high

instance (low high : ℕ) (a : U64) : Decidable (PageIn low high a) :=
  decidable_of_iff (a.toNat % pgsize = 0 ∧ low ≤ a.toNat ∧ a.toNat < high)
    ⟨fun h => ⟨h.1, h.2.1, h.2.2⟩, fun h => ⟨h.1, h.2, h.3⟩⟩

abbrev KernelFrame (ram : Ram) : U64 → Prop := PageIn ram.allocBegin ram.kernelPoolEnd

abbrev UserFrame (ram : Ram) : U64 → Prop := PageIn ram.kernelPoolEnd allocEnd

def userFrames (ram : Ram) : ℕ := (allocEnd - ram.kernelPoolEnd) / pgsize

variable {ram : Ram} {a : U64}

theorem KernelFrame.not_user (frame : ram.KernelFrame a) : ¬ram.UserFrame a :=
  fun user => Nat.not_lt_of_le user.low_le frame.lt_high

theorem Sane.kernelFrame_lt (sane : ram.Sane) (frame : ram.KernelFrame a) :
    a.toNat < 2 ^ 32 := by
  have below := Nat.lt_of_lt_of_le frame.lt_high sane.enough
  rw [allocEnd_eq] at below
  omega

end Ram

/-- The frame of an address whose low 12 bits are clear survives the way into an entry and back. -/
theorem pteToPa_paToPte_or {a flags : U64} (aligned : a.toNat % pgsize = 0) :
    pteToPa (paToPte a ||| flags) = a ||| pteToPa flags := by
  apply BitVec.eq_of_getLsbD_eq
  intro i bound
  have low : i < 12 → a.getLsbD i = false := by
    intro inside
    rw [BitVec.getLsbD, show a.toNat = 2 ^ 12 * (a.toNat / 2 ^ 12) by simp at aligned; omega,
      Nat.testBit_two_pow_mul]
    simp
    omega
  simp only [pteToPa, paToPte, BitVec.getLsbD_shiftLeft, BitVec.getLsbD_ushiftRight,
    BitVec.getLsbD_or]
  rcases Nat.lt_or_ge i 12 with inside | above
  · simp [inside, low inside]
  · have index : 10 + (i - 12) - 10 = i - 12 := by omega
    have back : 12 + (i - 12) = i := by omega
    simp [bound, Nat.not_lt.mpr above, index, back, show 10 + (i - 12) < 64 by omega]

theorem pteToPa_low {flags : U64} (low : flags.toNat < 1024) : pteToPa flags = 0 := by
  apply BitVec.eq_of_toNat_eq
  rw [pteToPa, BitVec.toNat_shiftLeft, BitVec.toNat_ushiftRight, Nat.shiftRight_eq_div_pow,
    Nat.div_eq_of_lt low]
  rfl

/-- The frame number does not reach the low 10 bits of an entry. -/
theorem paToPte_or_and (a flags : U64) {bits : U64} (low : bits.toNat < 1024) :
    (paToPte a ||| flags) &&& bits = flags &&& bits := by
  apply BitVec.eq_of_getLsbD_eq
  intro i bound
  simp only [paToPte, BitVec.getLsbD_and, BitVec.getLsbD_or, BitVec.getLsbD_shiftLeft]
  rcases Nat.lt_or_ge i 10 with inside | above
  · simp [inside]
  · have clear : bits.getLsbD i = false := by
      rw [BitVec.getLsbD]
      exact Nat.testBit_lt_two_pow
        (Nat.lt_of_lt_of_le low (Nat.pow_le_pow_right Nat.two_pos above))
    simp [clear]

theorem pteHas_paToPte_or (a flags : U64) {bit : U64} (low : bit.toNat < 1024) :
    PteHas (paToPte a ||| flags) bit ↔ PteHas flags bit := by
  rw [PteHas, PteHas, paToPte_or_and a flags low]

theorem pteToPa_paToPte {a flags : U64} (aligned : a.toNat % pgsize = 0)
    (low : flags.toNat < 1024) : pteToPa (paToPte a ||| flags) = a := by
  rw [pteToPa_paToPte_or aligned, pteToPa_low low]
  simp

/-- The entry of an upper table that points to a page. -/
theorem table_pte {a : U64} (aligned : a.toNat % pgsize = 0) :
    PteHas (paToPte a ||| pteV) pteV ∧ pteCheck (paToPte a ||| pteV) = true ∧
      pteToPa (paToPte a ||| pteV) = a := by
  refine ⟨?_, ?_, pteToPa_paToPte aligned (by decide)⟩
  · rw [pteHas_paToPte_or a pteV (by decide)]
    decide
  · rw [pteCheck, paToPte_or_and a pteV (by decide)]
    decide

/-- An address that an entry holds is page-aligned. -/
theorem pteToPa_aligned (e : U64) : (pteToPa e).toNat % pgsize = 0 := by
  rw [pteToPa, BitVec.toNat_shiftLeft, Nat.shiftLeft_eq]
  simp only [pgsize_eq]
  omega

end LabKernel
